import ChangeSplit.Java.Pattern
import ChangeSplit.Proofs.Java.Token

/-! Which nodes stand below which in the trees that a grammar gives. The patterns of a grammar tell
for every kind of node which roles and kinds the trees below it may have, so that it takes one look
at each rule to know something about every tree. -/

namespace ChangeSplit.Java

/-- What a tree is to the node above it: the role that it plays there, and its kind. -/
structure Shape where
  role : Option Role := none
  kind : Option Kind := none
deriving DecidableEq, Repr

namespace Shape

/-- The shape of a node of some kind that plays no role. -/
def plain (kind : Kind) : Shape := { kind := some kind }

/-- The shape in a role. Bare tokens play none. -/
def withRole (role : Role) (s : Shape) : Shape := if s.kind.isSome then { s with role } else s

end Shape

/-- The kinds of nodes that are single words. -/
def Kind.isWord : Kind → Bool
  | .identifier | .typeIdentifier => true
  | _ => false

theorem Kind.isWord_of_mem_literals : ∀ kind ∈ literals, kind.isWord = false := by decide

theorem Kind.isWord_of_mem_stringPieces : ∀ kind ∈ stringPieces, kind.isWord = false := by decide

theorem Kind.isWord_of_isComment {kind : Kind} (h : kind.isComment = true) :
    kind.isWord = false := by
  cases kind <;> first | rfl | cases h

/-- What is below the nodes of some trees: for each kind of node, the shapes that are allowed. -/
structure Schema where
  allows : Kind → Shape → Bool
  comment : ∀ kind comment, comment.isComment = true → allows kind (.plain comment) = true
  piece : ∀ kind ∈ Kind.literals, ∀ piece ∈ Kind.stringPieces, allows kind (.plain piece) = true

namespace Tree

/-- The shape of a tree. -/
def shape (t : Tree) : Shape := ⟨t.role?, t.kind?⟩

/-- Trees over some tokens that are as a schema wants them, with a word for each node that is
one. -/
inductive Conforms (schema : Schema) (tokens : List Token) : Tree → Prop where
  | token (text : String) (start stop : Nat) : Conforms schema tokens (.token text start stop)
  | node {role : Option Role} {kind : Kind} {start stop : Nat} {children : List Tree}
      (hAllowed : ∀ c ∈ children, schema.allows kind c.shape = true)
      (hChildren : ∀ c ∈ children, Conforms schema tokens c)
      (hWord : kind.isWord = true →
        ∃ t ∈ tokens, t.lexeme = .word ∧ t.start = start ∧ t.stop = stop) :
      Conforms schema tokens (.node role kind start stop children)

variable {schema : Schema} {tokens : List Token}

/-- The node over some trees spans from the first of them to the last. -/
theorem exists_of_over? {kind : Kind} {ts : List Tree} {t : Tree} (h : over? kind ts = some t) :
    ∃ first last, ts.head? = some first ∧ ts.getLast? = some last ∧
      t = node none kind first.start last.stop ts := by
  unfold over? at h
  split at h
  case h_2 => cases h
  case h_1 first last hFirst hLast =>
    cases h
    exact ⟨first, last, hFirst, hLast, rfl⟩

theorem shape_withRole (role : Role) (t : Tree) :
    (t.withRole role).shape = t.shape.withRole role := by
  cases t <;> rfl

theorem Conforms.withRole {t : Tree} (h : t.Conforms schema tokens) (role : Role) :
    (t.withRole role).Conforms schema tokens := by
  cases h with
  | token text start stop => exact .token text start stop
  | node hAllowed hChildren hWord => exact .node hAllowed hChildren hWord

/-- The trees below a node are as the schema allows, and conform themselves. -/
theorem Conforms.of_mem_children {t c : Tree} (h : t.Conforms schema tokens) (hc : c ∈ t.children) :
    (∃ kind, t.kind? = some kind ∧ schema.allows kind c.shape = true) ∧
      c.Conforms schema tokens := by
  cases h with
  | token => cases hc
  | node hAllowed hChildren _ => exact ⟨⟨_, rfl, hAllowed c hc⟩, hChildren c hc⟩

/-- A node that is a word spans a token that is one. -/
theorem Conforms.exists_word {t : Tree} {kind : Kind} (h : t.Conforms schema tokens)
    (hKind : t.kind? = some kind) (hWord : kind.isWord = true) :
    ∃ u ∈ tokens, u.lexeme = .word ∧ u.start = t.start ∧ u.stop = t.stop := by
  cases h with
  | token => cases hKind
  | node _ _ hSpan =>
      cases hKind
      exact hSpan hWord

@[simp] theorem shape_insert (comment t : Tree) : (insert comment t).shape = t.shape := by
  cases t <;> simp [insert, shape, role?, kind?]

mutual

/-- A comment that is put into a tree takes no place from the nodes in it. -/
theorem Conforms.insert {comment : Tree} {kind : Kind} (hComment : comment.Conforms schema tokens)
    (hShape : comment.shape = .plain kind) (hKind : kind.isComment = true) :
    ∀ t : Tree, t.Conforms schema tokens → (Tree.insert comment t).Conforms schema tokens
  | .token text start stop, _ => .token text start stop
  | .node role k start stop children, .node hAllowed hChildren hWord => by
      rw [Tree.insert]
      have hAll := conforms_insertAmong hComment hShape hKind k children hAllowed hChildren
      exact .node (fun c hc => (hAll c hc).1) (fun c hc => (hAll c hc).2) hWord

theorem conforms_insertAmong {comment : Tree} {kind : Kind}
    (hComment : comment.Conforms schema tokens) (hShape : comment.shape = .plain kind)
    (hKind : kind.isComment = true) (k : Kind) :
    ∀ ts : List Tree, (∀ t ∈ ts, schema.allows k t.shape = true) →
      (∀ t ∈ ts, t.Conforms schema tokens) →
      ∀ t ∈ insertAmong comment ts, schema.allows k t.shape = true ∧ t.Conforms schema tokens
  | [], _, _ => by
      intro t ht
      rw [List.mem_singleton.1 ht, hShape]
      exact ⟨schema.comment k kind hKind, hComment⟩
  | u :: rest, hAllowed, hConforms => by
      have hRest := conforms_insertAmong hComment hShape hKind k rest
        (fun t ht => hAllowed t (List.mem_cons_of_mem _ ht))
        (fun t ht => hConforms t (List.mem_cons_of_mem _ ht))
      have hOld : ∀ t ∈ u :: rest, schema.allows k t.shape = true ∧ t.Conforms schema tokens :=
        fun t ht => ⟨hAllowed t ht, hConforms t ht⟩
      intro t ht
      rw [insertAmong] at ht
      split at ht
      case isTrue =>
        rcases List.mem_cons.1 ht with rfl | ht
        · exact hOld _ (List.mem_cons_self ..)
        · exact hRest t ht
      case isFalse =>
        split at ht
        case isTrue =>
          rcases List.mem_cons.1 ht with rfl | ht
          · rw [shape_insert]
            exact ⟨hAllowed u (List.mem_cons_self ..),
              Conforms.insert hComment hShape hKind u (hConforms u (List.mem_cons_self ..))⟩
          · exact hOld t (List.mem_cons_of_mem _ ht)
        case isFalse =>
          rcases List.mem_cons.1 ht with rfl | ht
          · rw [hShape]
            exact ⟨schema.comment k kind hKind, hComment⟩
          · exact hOld t ht

end

end Tree

namespace Pattern

variable {ρ : Type}

/-- The shapes of the trees that a pattern can give, if every node in them is as the schema wants
it. `rules` are the shapes for each rule, and `left` those of the pending trees where they are
known. -/
def shapes? (schema : Schema) (rules : ρ → List Shape) :
    Option (List Shape) → Pattern ρ → Option (List Shape)
  | _, empty | _, ahead _ | _, notAhead _ => some []
  | _, mark _ | _, joined _ => some [{}]
  | _, name kind _ => some [.plain kind]
  | _, literal => some (Kind.literals.map .plain)
  | _, rule r => some (rules r)
  | left, seq first second | left, alt first second =>
    (shapes? schema rules left first).bind fun s =>
      (shapes? schema rules left second).map (s ++ ·)
  | left, many p => shapes? schema rules left p
  | left, node kind p =>
    (shapes? schema rules left p).bind fun s =>
      if s.all (schema.allows kind) && !kind.isWord then some [.plain kind] else none
  | left, role r p => (shapes? schema rules left p).map (·.map (Shape.withRole r))
  | left, only kinds p =>
    (shapes? schema rules left p).map (·.filter (·.kind.any kinds.contains))
  | left, pending => left
  | left, wrap base whole =>
    (shapes? schema rules left base).bind fun s => shapes? schema rules (some s) whole
  | left, grow step =>
    left.bind fun known =>
      (shapes? schema rules (some known) step).bind fun s =>
        let grown := known ++ s.filter (!known.contains ·)
        (shapes? schema rules (some grown) step).bind fun s =>
          if s.all grown.contains then some grown else none

/-- Trees of some shapes that conform to a schema. -/
def Fit (schema : Schema) (tokens : List Token) (shapes : List Shape) (ts : List Tree) : Prop :=
  ∀ t ∈ ts, t.shape ∈ shapes ∧ t.Conforms schema tokens

section

variable {schema : Schema} {tokens : List Token} {s s' : List Shape} {ts us : List Tree}

theorem Fit.nil : Fit schema tokens s [] := by
  intro t ht
  cases ht

theorem Fit.mono (h : Fit schema tokens s ts) (hSub : ∀ x ∈ s, x ∈ s') : Fit schema tokens s' ts :=
  fun t ht => ⟨hSub _ (h t ht).1, (h t ht).2⟩

theorem Fit.append (h : Fit schema tokens s ts) (h' : Fit schema tokens s us) :
    Fit schema tokens s (ts ++ us) := by
  intro t ht
  rcases List.mem_append.1 ht with ht | ht
  · exact h t ht
  · exact h' t ht

theorem Fit.withRole (h : Fit schema tokens s ts) (r : Role) :
    Fit schema tokens (s.map (Shape.withRole r)) (ts.map (Tree.withRole r)) := by
  intro t ht
  obtain ⟨u, hu, rfl⟩ := List.mem_map.1 ht
  rw [Tree.shape_withRole]
  exact ⟨List.mem_map_of_mem (h u hu).1, (h u hu).2.withRole r⟩

theorem fit_mark (text : String) (start stop : Nat) :
    Fit schema tokens [{}] [.token text start stop] := by
  intro t ht
  rw [List.mem_singleton.1 ht]
  exact ⟨List.mem_singleton.2 rfl, .token text start stop⟩

theorem fit_node {kind : Kind} {t : Tree} (h : Fit schema tokens s ts)
    (hAllowed : s.all (schema.allows kind) = true) (hWord : kind.isWord = false)
    (hOver : Tree.over? kind ts = some t) : Fit schema tokens [.plain kind] [t] := by
  obtain ⟨first, last, _, _, rfl⟩ := Tree.exists_of_over? hOver
  intro u hu
  rw [List.mem_singleton.1 hu]
  refine ⟨List.mem_singleton.2 rfl, .node (fun c hc => ?_) (fun c hc => (h c hc).2) ?_⟩
  · exact List.all_eq_true.1 hAllowed _ (h c hc).1
  · intro hIsWord
    rw [hWord] at hIsWord
    cases hIsWord

theorem fit_leafOf {kind : Kind} {t : Token} (ht : t ∈ tokens) (hRegular : t.lexeme.Regular t.parts)
    (hLexeme : t.lexeme = .word ∨ t.lexeme = .literal kind) :
    Fit schema tokens [.plain kind] [leafOf kind t] := by
  have hPieces : t.lexeme = .literal kind → kind.isWord = false ∧
      ∀ c ∈ t.parts, schema.allows kind (.plain c.kind) = true := by
    intro hLiteral
    have hKind := hRegular.literal kind hLiteral
    exact ⟨Kind.isWord_of_mem_literals kind hKind,
      fun c hc => schema.piece kind hKind c.kind (hRegular.piece c hc)⟩
  intro u hu
  rw [List.mem_singleton.1 hu]
  refine ⟨List.mem_singleton.2 rfl, .node (fun c hc => ?_) (fun c hc => ?_) (fun hWord => ?_)⟩
  · obtain ⟨part, hPart, rfl⟩ := List.mem_map.1 hc
    rcases hLexeme with hLexeme | hLexeme
    · rw [hRegular.word hLexeme] at hPart
      cases hPart
    · exact (hPieces hLexeme).2 part hPart
  · obtain ⟨part, hPart, rfl⟩ := List.mem_map.1 hc
    refine .node (fun _ h => by cases h) (fun _ h => by cases h) (fun hWord => ?_)
    rw [Kind.isWord_of_mem_stringPieces _ (hRegular.piece part hPart)] at hWord
    cases hWord
  · rcases hLexeme with hLexeme | hLexeme
    · exact ⟨t, ht, hLexeme, rfl, rfl⟩
    · rw [(hPieces hLexeme).1] at hWord
      cases hWord

end

/-- Growing over shapes that a step does not add to gives these shapes. -/
theorem shapes?_grow {schema : Schema} {rules : ρ → List Shape} {step : Pattern ρ}
    {s s' : List Shape} (h : shapes? schema rules (some s) step = some s')
    (hSub : ∀ x ∈ s', x ∈ s) : shapes? schema rules (some s) (grow step) = some s := by
  have hNone : s'.filter (!s.contains ·) = [] := by
    rw [List.filter_eq_nil_iff]
    intro x hx
    simp [hSub x hx]
  have hAll : s'.all s.contains = true := by
    rw [List.all_eq_true]
    exact fun x hx => List.contains_iff_mem.2 (hSub x hx)
  simp only [shapes?, Option.bind_some, h, hNone, List.append_nil, if_pos hAll]

theorem mem_of_mem_join? {texts : List String} {start stop : Nat} {given rest : List Token}
    (h : join? texts start given = some (stop, rest)) {t : Token} (ht : t ∈ rest) : t ∈ given := by
  induction texts generalizing start given with
  | nil =>
      cases h
      exact ht
  | cons text texts ih =>
      cases given with
      | nil => cases h
      | cons u given =>
          rw [join?] at h
          split at h
          case isFalse => cases h
          case isTrue => exact List.mem_cons_of_mem _ (ih h)

/-- What a pattern can read, whatever is read before it or in its place: with the trees in `left`
pending, it turns the given tokens into trees and leaves the rest. -/
inductive Reads (g : Grammar ρ) :
    Pattern ρ → List Tree → List Token → List Tree → List Token → Prop
  | empty {left : List Tree} {given : List Token} : Reads g empty left given [] given
  | mark {left : List Tree} {t : Token} {rest : List Token} :
      Reads g (mark t.text) left (t :: rest) [.token t.text t.start t.stop] rest
  | joined {texts : List String} {left : List Tree} {given rest : List Token} {start stop : Nat}
      (hJoin : join? texts start given = some (stop, rest)) :
      Reads g (joined texts) left given [.token (String.join texts) start stop] rest
  | name {kind : Kind} {reserved : List String} {left : List Tree} {t : Token}
      {rest : List Token} (hWord : t.lexeme = .word) :
      Reads g (name kind reserved) left (t :: rest) [leafOf kind t] rest
  | literal {kind : Kind} {left : List Tree} {t : Token} {rest : List Token}
      (hLiteral : t.lexeme = .literal kind) :
      Reads g literal left (t :: rest) [leafOf kind t] rest
  | rule {r : ρ} {left ts : List Tree} {given rest : List Token}
      (hBody : Reads g (g r) left given ts rest) : Reads g (rule r) left given ts rest
  | seq {first second : Pattern ρ} {left ts us : List Tree} {given later rest : List Token}
      (hFirst : Reads g first left given ts later) (hSecond : Reads g second left later us rest) :
      Reads g (seq first second) left given (ts ++ us) rest
  | either {first second : Pattern ρ} {left ts : List Tree} {given rest : List Token}
      (hFirst : Reads g first left given ts rest) : Reads g (alt first second) left given ts rest
  | or {first second : Pattern ρ} {left ts : List Tree} {given rest : List Token}
      (hSecond : Reads g second left given ts rest) : Reads g (alt first second) left given ts rest
  | noMore {p : Pattern ρ} {left : List Tree} {given : List Token} :
      Reads g (many p) left given [] given
  | more {p : Pattern ρ} {left ts us : List Tree} {given later rest : List Token}
      (hOne : Reads g p left given ts later) (hMore : Reads g (many p) left later us rest) :
      Reads g (many p) left given (ts ++ us) rest
  | node {kind : Kind} {p : Pattern ρ} {left ts : List Tree} {t : Tree} {given rest : List Token}
      (hInner : Reads g p left given ts rest) (hOver : Tree.over? kind ts = some t) :
      Reads g (node kind p) left given [t] rest
  | role {r : Role} {p : Pattern ρ} {left ts : List Tree} {given rest : List Token}
      (hInner : Reads g p left given ts rest) :
      Reads g (role r p) left given (ts.map (Tree.withRole r)) rest
  | only {kinds : List Kind} {p : Pattern ρ} {left ts : List Tree} {given rest : List Token}
      (hInner : Reads g p left given ts rest)
      (hKinds : ts.all (·.kindIs kinds.contains) = true) :
      Reads g (only kinds p) left given ts rest
  | ahead {p : Pattern ρ} {left : List Tree} {given : List Token} :
      Reads g (ahead p) left given [] given
  | notAhead {p : Pattern ρ} {left : List Tree} {given : List Token} :
      Reads g (notAhead p) left given [] given
  | pending {left : List Tree} {given : List Token} : Reads g pending left given left given
  | wrap {base whole : Pattern ρ} {left ts us : List Tree} {given later rest : List Token}
      (hBase : Reads g base left given ts later) (hWhole : Reads g whole ts later us rest) :
      Reads g (wrap base whole) left given us rest
  | grown {step : Pattern ρ} {left : List Tree} {given : List Token} :
      Reads g (grow step) left given left given
  | grow {step : Pattern ρ} {left ts us : List Tree} {given later rest : List Token}
      (hStep : Reads g step left given ts later) (hMore : Reads g (grow step) ts later us rest) :
      Reads g (grow step) left given us rest

/-- A pattern only reads what it can. The induction is on the fuel, which every part of a pattern
has less of. -/
theorem reads_of_read {g : Grammar ρ} {fuel : Nat} {p : Pattern ρ} {left ts : List Tree}
    {given rest : List Token} (h : read g fuel p left given = some (ts, rest)) :
    Reads g p left given ts rest := by
  induction fuel generalizing p left ts given rest with
  | zero => cases h
  | succ fuel ih =>
      cases p with
      | empty =>
          cases h
          exact .empty
      | mark text =>
          cases given with
          | nil => cases h
          | cons t later =>
              rw [read] at h
              split at h
              case isFalse => cases h
              case isTrue hMark =>
                cases h
                rw [Bool.and_eq_true, decide_eq_true_eq] at hMark
                rw [← hMark.1]
                exact .mark
      | joined texts =>
          cases given with
          | nil => cases h
          | cons t later =>
              rw [read] at h
              obtain ⟨⟨stop, later⟩, hJoin, hResult⟩ := Option.map_eq_some_iff.1 h
              cases hResult
              exact .joined hJoin
      | name kind reserved =>
          cases given with
          | nil => cases h
          | cons t later =>
              rw [read] at h
              split at h
              case isFalse => cases h
              case isTrue hWord =>
                cases h
                rw [Bool.and_eq_true, decide_eq_true_eq] at hWord
                exact .name hWord.1
      | literal =>
          cases given with
          | nil => cases h
          | cons t later =>
              rw [read] at h
              split at h
              case h_2 => cases h
              case h_1 kind hLiteral =>
                cases h
                exact .literal hLiteral
      | rule r => exact .rule (ih h)
      | seq first second =>
          rw [read] at h
          split at h
          case h_2 => cases h
          case h_1 ts₁ later hFirst =>
            split at h
            case h_2 => cases h
            case h_1 ts₂ last hSecond =>
              cases h
              exact .seq (ih hFirst) (ih hSecond)
      | alt first second =>
          rw [read] at h
          split at h
          case h_1 reading hFirst =>
            cases h
            exact .either (ih hFirst)
          case h_2 => exact .or (ih h)
      | many p =>
          rw [read] at h
          split at h
          case h_2 =>
            cases h
            exact .noMore
          case h_1 ts₁ later hOne =>
            split at h
            case h_2 => cases h
            case h_1 ts₂ last hMore =>
              cases h
              exact .more (ih hOne) (ih hMore)
      | node kind p =>
          rw [read] at h
          split at h
          case h_2 => cases h
          case h_1 ts₁ later hInner =>
            obtain ⟨t, hOver, hResult⟩ := Option.map_eq_some_iff.1 h
            cases hResult
            exact .node (ih hInner) hOver
      | role r p =>
          rw [read] at h
          split at h
          case h_2 => cases h
          case h_1 ts₁ later hInner =>
            cases h
            exact .role (ih hInner)
      | only kinds p =>
          rw [read] at h
          split at h
          case h_2 => cases h
          case h_1 ts₁ later hInner =>
            split at h
            case isFalse => cases h
            case isTrue hKinds =>
              cases h
              exact .only (ih hInner) hKinds
      | ahead p =>
          rw [read] at h
          split at h
          case isFalse => cases h
          case isTrue =>
            cases h
            exact .ahead
      | notAhead p =>
          rw [read] at h
          split at h
          case isTrue => cases h
          case isFalse =>
            cases h
            exact .notAhead
      | pending =>
          cases h
          exact .pending
      | wrap base whole =>
          rw [read] at h
          split at h
          case h_2 => cases h
          case h_1 ts₁ later hBase => exact .wrap (ih hBase) (ih h)
      | grow step =>
          rw [read] at h
          split at h
          case h_2 =>
            cases h
            exact .grown
          case h_1 ts₁ later hStep => exact .grow (ih hStep) (ih h)

/-- What is left was given. -/
theorem Reads.rest_subset {g : Grammar ρ} {p : Pattern ρ} {left ts : List Tree}
    {given rest : List Token} (h : Reads g p left given ts rest) : rest ⊆ given := by
  induction h with
  | empty | noMore | ahead | notAhead | pending | grown => exact List.Subset.refl _
  | mark | name | literal => exact List.subset_cons_self ..
  | joined hJoin => exact fun t ht => mem_of_mem_join? hJoin ht
  | rule _ ih | either _ ih | or _ ih | node _ _ ih | role _ ih | only _ _ ih => exact ih
  | seq _ _ ih ih' | more _ _ ih ih' | wrap _ _ ih ih' | grow _ _ ih ih' =>
      exact List.Subset.trans ih' ih

-- An alternative has the same shapes, so this serves for both.
theorem shapes?_seq_eq_some {schema : Schema} {rules : ρ → List Shape}
    {known : Option (List Shape)} {first second : Pattern ρ} {s : List Shape}
    (h : shapes? schema rules known (seq first second) = some s) :
    ∃ s₁ s₂, shapes? schema rules known first = some s₁ ∧
      shapes? schema rules known second = some s₂ ∧ s₁ ++ s₂ = s := by
  obtain ⟨s₁, h₁, hMap⟩ := Option.bind_eq_some_iff.1 h
  obtain ⟨s₂, h₂, hBoth⟩ := Option.map_eq_some_iff.1 hMap
  exact ⟨s₁, s₂, h₁, h₂, hBoth⟩

/-- What grows from trees has their shapes, with which a step gives none but these again. -/
theorem shapes?_grow_eq_some {schema : Schema} {rules : ρ → List Shape}
    {known : Option (List Shape)} {step : Pattern ρ} {s : List Shape}
    (h : shapes? schema rules known (grow step) = some s) :
    ∃ l s', known = some l ∧ (∀ x ∈ l, x ∈ s) ∧ shapes? schema rules (some s) step = some s' ∧
      ∀ x ∈ s', x ∈ s := by
  obtain ⟨l, hKnown, hGrown⟩ := Option.bind_eq_some_iff.1 h
  obtain ⟨s₁, h₁, hTwice⟩ := Option.bind_eq_some_iff.1 hGrown
  obtain ⟨s₂, h₂, hTest⟩ := Option.bind_eq_some_iff.1 hTwice
  split at hTest
  case isFalse => cases hTest
  case isTrue hAll =>
    have hSame := Option.some.inj hTest
    rw [hSame] at h₂ hAll
    refine ⟨l, s₂, hKnown, fun x hx => ?_, h₂, fun x hx => ?_⟩
    · rw [← hSame]
      exact List.mem_append_left _ hx
    · exact List.contains_iff_mem.1 (List.all_eq_true.1 hAll x hx)

/-- Every tree that can be read has one of the shapes that its pattern can give and conforms to the
schema. Patterns of rules can give nothing but what `rules` lists. -/
theorem Reads.fit {schema : Schema} {rules : ρ → List Shape} {g : Grammar ρ} {tokens : List Token}
    (hRules : ∀ r, ∃ s, shapes? schema rules none (g r) = some s ∧ ∀ x ∈ s, x ∈ rules r)
    (hRegular : ∀ t ∈ tokens, t.lexeme.Regular t.parts) {p : Pattern ρ} {left ts : List Tree}
    {given rest : List Token} (h : Reads g p left given ts rest) {known : Option (List Shape)}
    {s : List Shape} (hShapes : shapes? schema rules known p = some s)
    (hLeft : ∀ l, known = some l → Fit schema tokens l left) (hGiven : given ⊆ tokens) :
    Fit schema tokens s ts := by
  induction h generalizing known s with
  | empty | noMore | ahead | notAhead => exact .nil
  | mark | joined =>
      cases hShapes
      exact fit_mark _ _ _
  | name hWord =>
      cases hShapes
      have ht := hGiven (List.mem_cons_self ..)
      exact fit_leafOf ht (hRegular _ ht) (.inl hWord)
  | literal hLiteral =>
      cases hShapes
      have ht := hGiven (List.mem_cons_self ..)
      refine (fit_leafOf ht (hRegular _ ht) (.inr hLiteral)).mono ?_
      intro x hx
      rw [List.mem_singleton.1 hx]
      exact List.mem_map_of_mem ((hRegular _ ht).literal _ hLiteral)
  | @rule r _ _ _ _ _ ih =>
      cases hShapes
      obtain ⟨s, hBody, hSub⟩ := hRules r
      exact (ih hBody (fun _ h => by cases h) hGiven).mono hSub
  | seq hFirst _ ihFirst ihSecond =>
      obtain ⟨s₁, s₂, h₁, h₂, rfl⟩ := shapes?_seq_eq_some hShapes
      have hFit₁ := ihFirst h₁ hLeft hGiven
      have hFit₂ := ihSecond h₂ hLeft (List.Subset.trans hFirst.rest_subset hGiven)
      exact (hFit₁.mono fun _ => List.mem_append_left _).append
        (hFit₂.mono fun _ => List.mem_append_right _)
  | either _ ih =>
      obtain ⟨s₁, s₂, h₁, _, rfl⟩ := shapes?_seq_eq_some hShapes
      exact (ih h₁ hLeft hGiven).mono fun _ => List.mem_append_left _
  | or _ ih =>
      obtain ⟨s₁, s₂, _, h₂, rfl⟩ := shapes?_seq_eq_some hShapes
      exact (ih h₂ hLeft hGiven).mono fun _ => List.mem_append_right _
  | more hOne _ ihOne ihMore =>
      have hFit₁ := ihOne hShapes hLeft hGiven
      exact hFit₁.append (ihMore hShapes hLeft (List.Subset.trans hOne.rest_subset hGiven))
  | node _ hOver ih =>
      obtain ⟨s₁, h₁, hTest⟩ := Option.bind_eq_some_iff.1 hShapes
      split at hTest
      case isFalse => cases hTest
      case isTrue hAllowed =>
        cases hTest
        rw [Bool.and_eq_true, Bool.not_eq_true'] at hAllowed
        exact fit_node (ih h₁ hLeft hGiven) hAllowed.1 hAllowed.2 hOver
  | role _ ih =>
      obtain ⟨s₁, h₁, rfl⟩ := Option.map_eq_some_iff.1 hShapes
      exact (ih h₁ hLeft hGiven).withRole _
  | only _ hKinds ih =>
      obtain ⟨s₁, h₁, rfl⟩ := Option.map_eq_some_iff.1 hShapes
      have hFit := ih h₁ hLeft hGiven
      refine fun t ht => ⟨List.mem_filter.2 ⟨(hFit t ht).1, ?_⟩, (hFit t ht).2⟩
      exact List.all_eq_true.1 hKinds t ht
  | pending => exact hLeft s hShapes
  | wrap hBase _ ihBase ihWhole =>
      obtain ⟨s₁, h₁, h₂⟩ := Option.bind_eq_some_iff.1 hShapes
      have hFit := ihBase h₁ hLeft hGiven
      refine ihWhole h₂ (fun l hl => ?_) (List.Subset.trans hBase.rest_subset hGiven)
      cases hl
      exact hFit
  | grown =>
      obtain ⟨l, _, rfl, hSub, _⟩ := shapes?_grow_eq_some hShapes
      exact (hLeft l rfl).mono hSub
  | grow hStep _ ihStep ihMore =>
      obtain ⟨l, s₁, rfl, hSub, h₁, hBack⟩ := shapes?_grow_eq_some hShapes
      have hFit := ihStep h₁ (fun _ hl => by cases hl; exact (hLeft l rfl).mono hSub) hGiven
      refine ihMore (shapes?_grow h₁ hBack) (fun _ hl => ?_)
        (List.Subset.trans hStep.rest_subset hGiven)
      cases hl
      exact hFit.mono hBack

end Pattern

end ChangeSplit.Java
