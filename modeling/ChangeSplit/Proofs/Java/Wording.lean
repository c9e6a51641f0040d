import ChangeSplit.Proofs.Java.Condensed

/-! The words of a source without what stands between them. Two sources with the same words are read
into trees with the same condensed form, whatever blanks and comments stand between their words. -/

namespace ChangeSplit.Java

/-- A token without its place: what sort of token it is, how it is written, and whether it forms one
operator with the next. -/
structure Word where
  lexeme : Lexeme
  text : String
  joins : Bool
deriving DecidableEq, Repr

namespace Token

/-- Whether a token is a closing bracket that forms one operator with what follows: another one, or
an equals sign, right behind it. -/
def joins (t : Token) (rest : List Token) : Bool :=
  t.text = ">" && rest.head?.any fun u => (u.text = ">" || u.text = "=") && u.start = t.stop

/-- The words that some tokens are. -/
def words : List Token → List Word
  | [] => []
  | t :: rest => ⟨t.lexeme, t.text, t.joins rest⟩ :: words rest

/-- Tokens that are the same words at corresponding places. What pieces they have is of no
account, if they are pieces of strings. -/
inductive Alike (f g : Nat → Nat) : List Token → List Token → Prop
  | nil : Alike f g [] []
  | cons {t u : Token} {ts us : List Token} (hLexeme : t.lexeme = u.lexeme)
      (hText : t.text = u.text) (hJoins : t.joins ts = u.joins us)
      (hStart : f t.start = g u.start) (hStop : f t.stop = g u.stop)
      (hPieces : ∀ part ∈ t.parts ++ u.parts, part.kind ∈ Kind.stringPieces)
      (hRest : Alike f g ts us) : Alike f g (t :: ts) (u :: us)

theorem Alike.length_eq {f g : Nat → Nat} {ts us : List Token} (h : Alike f g ts us) :
    ts.length = us.length := by
  induction h with
  | nil => rfl
  | cons _ _ _ _ _ _ _ ih => exact congrArg (· + 1) ih

end Token

namespace Tree

variable {f g : Nat → Nat} {ts us : List Tree}

theorem condenseAll_eq_filter (move : Nat → Nat) (ts : List Tree) :
    condenseAll move ts = (ts.map (condense move)).filter (!·.isMinor) := by
  have hSame : ((fun t : Tree => !t.isMinor) ∘ condense move) = (!·.isMinor) := by
    funext t
    simp
  rw [condenseAll_eq, List.filter_map, hSame]

theorem over?_eq_bind (kind : Kind) (ts : List Tree) :
    over? kind ts = ts.head?.bind fun first =>
      ts.getLast?.map fun last => node none kind first.start last.stop ts := by
  unfold over?
  cases ts.head? <;> cases ts.getLast? <;> rfl

/-- The condensed form of a node over some trees is told by theirs. -/
theorem map_condense_over? (move : Nat → Nat) (kind : Kind) (ts : List Tree) :
    (over? kind ts).map (condense move) =
      (ts.map (condense move)).head?.bind fun first =>
        (ts.map (condense move)).getLast?.map fun last =>
          node none kind first.start last.stop
            ((ts.map (condense move)).filter (!·.isMinor)) := by
  rw [over?_eq_bind, List.head?_map, List.getLast?_map, ← condenseAll_eq_filter]
  cases ts.head? <;> cases ts.getLast? <;> simp [condense]

/-- Trees with the same condensed forms have nodes with the same condensed form over them. -/
theorem rel_over? {kind : Kind} (h : ts.map (condense f) = us.map (condense g)) :
    Option.Rel (fun t u => t.condense f = u.condense g) (over? kind ts) (over? kind us) := by
  have hSame : (over? kind ts).map (condense f) = (over? kind us).map (condense g) := by
    rw [map_condense_over?, map_condense_over?, h]
  generalize over? kind ts = one at hSame ⊢
  generalize over? kind us = other at hSame ⊢
  cases one with
  | none =>
    rw [Option.map_none, eq_comm, Option.map_eq_none_iff] at hSame
    rw [hSame]
    exact .none
  | some t =>
    rw [Option.map_some, eq_comm, Option.map_eq_some_iff] at hSame
    obtain ⟨u, rfl, hSame⟩ := hSame
    exact .some hSame.symm

end Tree

namespace Pattern

open Token

variable {ρ : Type} {f g : Nat → Nat}

/-- Whether some marks are closing brackets, with perhaps an equals sign at the end. -/
def angled : List String → Bool
  | [] => false
  | [_] => true
  | text :: next :: texts => text = ">" && (next = ">" || next = "=") && angled (next :: texts)

/-- Whether only closing brackets, and perhaps an equals sign, are joined to one operator. -/
def joinsAngled : Pattern ρ → Bool
  | joined texts => angled texts
  | seq first second | alt first second | wrap first second =>
    first.joinsAngled && second.joinsAngled
  | many p | node _ p | role _ p | only _ p | ahead p | notAhead p | grow p => p.joinsAngled
  | empty | mark _ | name _ _ | literal | rule _ | pending => true

/-- What is read off tokens that are alike: the same trees, up to layout, and tokens that are
alike. -/
def ReadAlike (f g : Nat → Nat) (one other : List Tree × List Token) : Prop :=
  one.1.map (Tree.condense f) = other.1.map (Tree.condense g) ∧ Alike f g one.2 other.2

/-- What is to be shown of two related results holds if it does with nothing on both sides and with
any related values. -/
@[elab_as_elim]
theorem cases_rel {α β : Type} {R : α → β → Prop} {motive : Option α → Option β → Prop}
    {one : Option α} {other : Option β} (h : Option.Rel R one other) (none : motive none none)
    (some : ∀ a b, R a b → motive (some a) (some b)) : motive one other := by
  cases h with
  | none => exact none
  | some h => exact some _ _ h

theorem join?_alike {text : String} {texts : List String} {t u : Token} {ts us : List Token}
    (hAngled : angled (text :: texts) = true) (h : Alike f g (t :: ts) (u :: us)) :
    Option.Rel (fun one other => f one.1 = g other.1 ∧ Alike f g one.2 other.2)
      (join? (text :: texts) t.start (t :: ts)) (join? (text :: texts) u.start (u :: us)) := by
  induction texts generalizing text t u ts us with
  | nil =>
    cases h with
    | cons hLexeme hText _ _ hStop _ hRest =>
      simp only [join?, hLexeme, hText, decide_true, Bool.and_true]
      split
      case isTrue => exact .some ⟨hStop, hRest⟩
      case isFalse => exact .none
  | cons next texts ih =>
    simp only [angled, Bool.and_eq_true, Bool.or_eq_true, decide_eq_true_eq] at hAngled
    obtain ⟨⟨rfl, hNext⟩, hAngled⟩ := hAngled
    cases h with
    | cons hLexeme hText hJoins _ _ _ hRest =>
      rw [join?, join?, hLexeme, hText]
      simp only [decide_true, Bool.and_true]
      split
      case isFalse => exact .none
      case isTrue hMark =>
        simp only [Bool.and_eq_true, decide_eq_true_eq] at hMark
        cases hRest with
        | nil => exact .none
        | @cons t' u' ts us hLexeme' hText' hJoins' hStart' hStop' hPieces' hRest =>
          have hLater := ih hAngled (.cons hLexeme' hText' hJoins' hStart' hStop' hPieces' hRest)
          -- The next mark reads like the first one of a join if it follows without a gap.
          by_cases hSame : t'.text = next
          · have hBehind : t'.start = t.stop ↔ u'.start = u.stop := by
              rcases hNext with rfl | rfl <;>
                simpa [joins, hText, hMark.1, ← hText', hSame] using hJoins
            by_cases hGap : t'.start = t.stop
            · rwa [← hGap, ← hBehind.1 hGap]
            · have hGap' : u'.start ≠ u.stop := fun hNo => hGap (hBehind.2 hNo)
              simp only [join?, hGap, hGap', decide_false, Bool.and_false, Bool.false_eq_true,
                if_false]
              exact .none
          · simp only [join?, ← hText', hSame, decide_false, Bool.false_and, Bool.false_eq_true,
              if_false]
            exact .none

theorem condense_leafOf (move : Nat → Nat) (kind : Kind) {t : Token}
    (h : ∀ part ∈ t.parts, part.kind ∈ Kind.stringPieces) :
    (leafOf kind t).condense move = .node none kind (move t.start) (move t.stop) [] := by
  have hNone : t.parts.filter (fun part => !Kind.minor.contains part.kind) = [] := by
    rw [List.filter_eq_nil_iff]
    intro part hPart
    simp [Kind.mem_minor_of_mem_stringPieces _ (h part hPart)]
  rw [leafOf, Tree.condense, Tree.condenseAll_eq, List.filter_map]
  show Tree.node _ _ _ _ (((t.parts.filter fun part => !Kind.minor.contains part.kind).map _).map _)
    = _
  rw [hNone]
  rfl

section

variable {gr : Grammar ρ} {left₁ left₂ : List Tree} {given₁ given₂ : List Token}

/-- Tokens that are alike are read alike. The induction is on the fuel, which every part of a
pattern has less of. -/
theorem read_alike (hRules : ∀ r, (gr r).joinsAngled = true) {fuel : Nat} {p : Pattern ρ}
    (hJoins : p.joinsAngled = true)
    (hLeft : left₁.map (Tree.condense f) = left₂.map (Tree.condense g))
    (hGiven : Alike f g given₁ given₂) :
    Option.Rel (ReadAlike f g) (read gr fuel p left₁ given₁) (read gr fuel p left₂ given₂) := by
  induction fuel generalizing p left₁ left₂ given₁ given₂ with
  | zero => exact .none
  | succ fuel ih =>
    cases p with
    | empty => exact .some ⟨rfl, hGiven⟩
    | pending => exact .some ⟨hLeft, hGiven⟩
    | mark text =>
      cases hGiven with
      | nil => exact .none
      | cons hLexeme hText _ hStart hStop _ hRest =>
        simp only [read, hLexeme, hText]
        split
        case isTrue => exact .some ⟨by simp [Tree.condense, hStart, hStop], hRest⟩
        case isFalse => exact .none
    | joined texts =>
      cases texts with
      | nil => cases hJoins
      | cons text texts =>
        cases hGiven with
        | nil => exact .none
        | @cons t u ts us hLexeme hText hJoined hStart hStop hPieces hRest =>
          have hMarks := join?_alike hJoins (.cons hLexeme hText hJoined hStart hStop hPieces hRest)
          rw [read, read]
          refine cases_rel hMarks .none fun one other hAlike => ?_
          exact .some ⟨by simp [Tree.condense, hStart, hAlike.1], hAlike.2⟩
    | name kind reserved =>
      cases hGiven with
      | nil => exact .none
      | cons hLexeme hText _ hStart hStop hPieces hRest =>
        obtain ⟨hPieces₁, hPieces₂⟩ := List.forall_mem_append.1 hPieces
        simp only [read, hLexeme, hText]
        split
        case isTrue =>
          refine .some ⟨?_, hRest⟩
          simp [condense_leafOf _ _ hPieces₁, condense_leafOf _ _ hPieces₂, hStart, hStop]
        case isFalse => exact .none
    | literal =>
      cases hGiven with
      | nil => exact .none
      | cons hLexeme hText _ hStart hStop hPieces hRest =>
        obtain ⟨hPieces₁, hPieces₂⟩ := List.forall_mem_append.1 hPieces
        simp only [read, hLexeme]
        split
        case h_1 =>
          refine .some ⟨?_, hRest⟩
          simp [condense_leafOf _ _ hPieces₁, condense_leafOf _ _ hPieces₂, hStart, hStop]
        case h_2 => exact .none
    | rule r => exact ih (hRules r) hLeft hGiven
    | seq first second =>
      rw [joinsAngled, Bool.and_eq_true] at hJoins
      rw [read, read]
      refine cases_rel (ih hJoins.1 hLeft hGiven) .none fun one other hFirst => ?_
      dsimp only
      refine cases_rel (ih hJoins.2 hLeft hFirst.2) .none fun one' other' hSecond => ?_
      exact .some ⟨by simp [hFirst.1, hSecond.1], hSecond.2⟩
    | alt first second =>
      rw [joinsAngled, Bool.and_eq_true] at hJoins
      rw [read, read]
      refine cases_rel (ih hJoins.1 hLeft hGiven) ?_ fun one other hFirst => .some hFirst
      exact ih hJoins.2 hLeft hGiven
    | many p =>
      rw [read, read]
      refine cases_rel (ih (p := p) hJoins hLeft hGiven) (.some ⟨rfl, hGiven⟩)
        fun one other hOne => ?_
      dsimp only
      refine cases_rel (ih (p := many p) hJoins hLeft hOne.2) .none fun one' other' hMore => ?_
      exact .some ⟨by simp [hOne.1, hMore.1], hMore.2⟩
    | node kind p =>
      rw [read, read]
      refine cases_rel (ih (p := p) hJoins hLeft hGiven) .none fun one other hInner => ?_
      dsimp only
      refine cases_rel (Tree.rel_over? hInner.1) .none fun t u hNode => ?_
      exact .some ⟨by simp [hNode], hInner.2⟩
    | role r p =>
      rw [read, read]
      refine cases_rel (ih (p := p) hJoins hLeft hGiven) .none fun one other hInner => ?_
      refine .some ⟨?_, hInner.2⟩
      have hRoles := congrArg (List.map (Tree.withRole r)) hInner.1
      simpa [Function.comp_def, Tree.condense_withRole] using hRoles
    | only kinds p =>
      rw [read, read]
      refine cases_rel (ih (p := p) hJoins hLeft hGiven) .none fun one other hInner => ?_
      have hKinds : one.1.all (·.kindIs kinds.contains) =
          other.1.all (·.kindIs kinds.contains) := by
        have hAll := congrArg (List.all · (·.kindIs kinds.contains)) hInner.1
        simpa [List.all_map, Function.comp_def] using hAll
      dsimp only
      rw [hKinds]
      split
      case isTrue => exact .some hInner
      case isFalse => exact .none
    | ahead p =>
      rw [read, read]
      exact cases_rel (ih (p := p) hJoins hLeft hGiven) .none fun _ _ _ => .some ⟨rfl, hGiven⟩
    | notAhead p =>
      rw [read, read]
      exact cases_rel (ih (p := p) hJoins hLeft hGiven) (.some ⟨rfl, hGiven⟩) fun _ _ _ => .none
    | wrap base whole =>
      rw [joinsAngled, Bool.and_eq_true] at hJoins
      rw [read, read]
      refine cases_rel (ih hJoins.1 hLeft hGiven) .none fun one other hBase => ?_
      exact ih hJoins.2 hBase.1 hBase.2
    | grow step =>
      rw [read, read]
      refine cases_rel (ih (p := step) hJoins hLeft hGiven) (.some ⟨hLeft, hGiven⟩)
        fun one other hStep => ?_
      exact ih (p := grow step) hJoins hStep.1 hStep.2

end

end Pattern

namespace Grammar

theorem joinsAngled_java (r : Rule) : (java r).joinsAngled = true := by
  cases r <;> decide +kernel

end Grammar

theorem condense_foldl_insert (move : Nat → Nat) {tokens : List Token}
    (hRegular : ∀ t ∈ tokens, t.lexeme.Regular t.parts) (root : Tree) :
    (tokens.foldl (fun root t =>
      match t.lexeme with
      | .comment kind => Tree.insert (.node none kind t.start t.stop []) root
      | _ => root) root).condense move = root.condense move := by
  refine List.foldlRecOn (motive := fun tree : Tree => tree.condense move = root.condense move)
    tokens _ rfl fun tree hTree t ht => ?_
  split
  case h_1 kind hLexeme =>
    rw [Tree.condense_insert, hTree]
    have hComment := (hRegular t ht).comment kind hLexeme
    exact List.contains_iff_mem.2 (Kind.mem_minor_of_isComment hComment)
  case h_2 => exact hTree

/-- The words of a source and the places of their ends tell all of its tree but the layout. -/
theorem condense_treeOf?_eq {f g : Nat → Nat} {length₁ length₂ : Nat} {tokens₁ tokens₂ : List Token}
    {root₁ root₂ : Tree} (h₁ : treeOf? length₁ tokens₁ = some root₁)
    (h₂ : treeOf? length₂ tokens₂ = some root₂)
    (hRegular₁ : ∀ t ∈ tokens₁, t.lexeme.Regular t.parts)
    (hRegular₂ : ∀ t ∈ tokens₂, t.lexeme.Regular t.parts)
    (hAlike : Token.Alike f g (tokens₁.filter (!·.isComment)) (tokens₂.filter (!·.isComment)))
    (hStart : f ((tokens₁.head?.map (·.start)).getD length₁) =
      g ((tokens₂.head?.map (·.start)).getD length₂)) (hLength : f length₁ = g length₂) :
    root₁.condense f = root₂.condense g := by
  unfold treeOf? at h₁ h₂
  extract_lets solid₁ at h₁
  extract_lets solid₂ at h₂
  have hCount : solid₁.length = solid₂.length := hAlike.length_eq
  have hNone : ([] : List Tree).map (Tree.condense f) = [].map (Tree.condense g) := rfl
  have hRead (fuel : Nat) : Option.Rel (Pattern.ReadAlike f g)
      (Pattern.read Grammar.java fuel (.many (.rule .topLevel)) [] solid₁)
      (Pattern.read Grammar.java fuel (.many (.rule .topLevel)) [] solid₂) :=
    Pattern.read_alike Grammar.joinsAngled_java rfl hNone hAlike
  rw [← hCount] at h₂
  split at h₁
  case h_2 => cases h₁
  case h_1 trees₁ hTrees₁ =>
    split at h₂
    case h_2 => cases h₂
    case h_1 trees₂ hTrees₂ =>
      have hTrees := hRead (readingDepth solid₁.length)
      rw [hTrees₁, hTrees₂] at hTrees
      cases hTrees with
      | some hRead =>
        cases h₁
        cases h₂
        have hTrees : trees₁.map (Tree.condense f) = trees₂.map (Tree.condense g) := hRead.1
        refine (condense_foldl_insert f hRegular₁ _).trans
          (.trans ?_ (condense_foldl_insert g hRegular₂ _).symm)
        rw [Tree.condense, Tree.condense, hStart, hLength, Tree.condenseAll_eq_filter,
          Tree.condenseAll_eq_filter, hTrees]

end ChangeSplit.Java
