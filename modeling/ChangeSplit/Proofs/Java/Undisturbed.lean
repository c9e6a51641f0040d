import ChangeSplit.Proofs.Java.Condensed
import ChangeSplit.Proofs.Java.Naming

/-! Comments get in the way of nothing. They are put among the trees that were read, of which none
is a comment, and never behind the last tree of a node that they are inside of. -/

namespace ChangeSplit.Java

namespace Pattern

variable {ρ : Type}

/-- Whether the nodes that a pattern makes are of kinds that pass a test, literals apart, and single
words are of kinds that are. -/
def makes (test : Kind → Bool) : Pattern ρ → Bool
  | node kind p => test kind && p.makes test
  | name kind _ => kind.isWord
  | seq first second | alt first second | wrap first second =>
    first.makes test && second.makes test
  | many p | role _ p | only _ p | grow p => p.makes test
  | empty | mark _ | joined _ | literal | rule _ | ahead _ | notAhead _ | pending => true

/-- What holds of tokens and leaves, and of nodes over trees of which it holds, holds of every tree
that is read. -/
theorem Reads.forall_mem {g : Grammar ρ} {P : Tree → Prop} {test : Kind → Bool}
    {tokens : List Token} (hRules : ∀ r, (g r).makes test = true)
    (hToken : ∀ text start stop, P (.token text start stop))
    (hName : ∀ kind, kind.isWord = true → ∀ t ∈ tokens, t.lexeme = .word → P (leafOf kind t))
    (hLiteral : ∀ kind, ∀ t ∈ tokens, t.lexeme = .literal kind → P (leafOf kind t))
    (hNode : ∀ kind ts t, test kind = true → (∀ c ∈ ts, P c) → Tree.over? kind ts = some t → P t)
    (hRole : ∀ r t, P t → P (t.withRole r)) {p : Pattern ρ} {left ts : List Tree}
    {given rest : List Token} (h : Reads g p left given ts rest) (hMakes : p.makes test = true)
    (hGiven : given ⊆ tokens) (hLeft : ∀ t ∈ left, P t) : ∀ t ∈ ts, P t := by
  induction h with
  | empty | noMore | ahead | notAhead => exact List.forall_mem_nil _
  | mark | joined => exact List.forall_mem_singleton.2 (hToken ..)
  | name hWord =>
    exact List.forall_mem_singleton.2 (hName _ hMakes _ (hGiven (List.mem_cons_self ..)) hWord)
  | literal hLexeme =>
    exact List.forall_mem_singleton.2 (hLiteral _ _ (hGiven (List.mem_cons_self ..)) hLexeme)
  | rule _ ih => exact ih (hRules _) hGiven hLeft
  | seq hFirst _ ihFirst ihSecond =>
    rw [makes, Bool.and_eq_true] at hMakes
    have hLater := List.Subset.trans hFirst.rest_subset hGiven
    exact List.forall_mem_append.2 ⟨ihFirst hMakes.1 hGiven hLeft, ihSecond hMakes.2 hLater hLeft⟩
  | either _ ih =>
    rw [makes, Bool.and_eq_true] at hMakes
    exact ih hMakes.1 hGiven hLeft
  | or _ ih =>
    rw [makes, Bool.and_eq_true] at hMakes
    exact ih hMakes.2 hGiven hLeft
  | more hOne _ ihOne ihMore =>
    have hLater := List.Subset.trans hOne.rest_subset hGiven
    exact List.forall_mem_append.2
      ⟨ihOne (by rwa [makes] at hMakes) hGiven hLeft, ihMore hMakes hLater hLeft⟩
  | node _ hOver ih =>
    rw [makes, Bool.and_eq_true] at hMakes
    exact List.forall_mem_singleton.2 (hNode _ _ _ hMakes.1 (ih hMakes.2 hGiven hLeft) hOver)
  | role _ ih =>
    exact List.forall_mem_map.2 fun t ht =>
      hRole _ t (ih (by rwa [makes] at hMakes) hGiven hLeft t ht)
  | only _ _ ih => exact ih (by rwa [makes] at hMakes) hGiven hLeft
  | pending | grown => exact hLeft
  | wrap hBase _ ihBase ihWhole =>
    rw [makes, Bool.and_eq_true] at hMakes
    exact ihWhole hMakes.2 (List.Subset.trans hBase.rest_subset hGiven)
      (ihBase hMakes.1 hGiven hLeft)
  | grow hStep _ ihStep ihMore =>
    exact ihMore hMakes (List.Subset.trans hStep.rest_subset hGiven)
      (ihStep (by rwa [makes] at hMakes) hGiven hLeft)

end Pattern

namespace Grammar

/-- Layout plays no role, and the parts of an annotated type are nodes. -/
def layoutAside : Schema where
  allows kind s :=
    (!s.kind.any Kind.minor.contains || s.role = none) &&
      (kind ≠ .annotatedType || s.kind.isSome)
  comment kind comment _ := by simp [Shape.plain]
  piece kind _ piece _ := by simp [Shape.plain]

theorem shapes?_layoutAside (r : Rule) :
    (Pattern.shapes? layoutAside shapes none (java r)).any
      (·.all (shapes r).contains) = true := by
  cases r <;> decide +kernel

theorem makes_java (r : Rule) : (java r).makes (!Kind.minor.contains ·) = true := by
  cases r <;> decide +kernel

end Grammar

namespace Tree

variable {comment : Tree}

/-- A comment that begins in front of the end of the last tree is not put behind it. -/
theorem exists_getLast?_insertAmong {ts : List Tree} {c : Tree} (h : ts.getLast? = some c)
    (hBefore : comment.start < c.stop) :
    ∃ d, (insertAmong comment ts).getLast? = some d ∧ d.kind? = c.kind? ∧ d.stop = c.stop := by
  have hInsert : (insert comment c).kind? = c.kind? ∧ (insert comment c).stop = c.stop := by
    cases c <;> exact ⟨rfl, rfl⟩
  induction ts with
  | nil => cases h
  | cons t ts ih =>
    cases ts with
    | nil =>
      obtain rfl : t = c := by simpa using h
      rw [insertAmong, if_neg (by omega)]
      split
      case isTrue => exact ⟨_, rfl, hInsert⟩
      case isFalse => exact ⟨t, rfl, rfl, rfl⟩
    | cons u ts =>
      rw [List.getLast?_cons_cons] at h
      rw [insertAmong]
      split
      case isTrue =>
        obtain ⟨d, hLast, hSame⟩ := ih h
        exact ⟨d, by rw [List.getLast?_cons, hLast]; rfl, hSame⟩
      case isFalse =>
        split
        case isTrue => exact ⟨c, by rwa [List.getLast?_cons_cons], rfl, rfl⟩
        case isFalse =>
          exact ⟨c, by rwa [List.getLast?_cons_cons, List.getLast?_cons_cons], rfl, rfl⟩

mutual

/-- Putting a comment into a tree leaves the ends of annotated types alone. -/
theorem all_ended_insert (hComment : comment.All Ended) :
    ∀ t : Tree, (t.isA .annotatedType = true → comment.start < t.stop) → t.All Ended →
      (insert comment t).All Ended
  | .token .., _, h => h
  | .node role kind start stop children, hInside, h => by
    rw [insert]
    refine .intro (fun hKind => ?_)
      (all_ended_insertAmong hComment children fun _ => h.of_mem_children)
    obtain ⟨c, hLast, hMinor, hStop⟩ := h.here hKind
    have hBefore : comment.start < c.stop := by
      rw [hStop]
      exact hInside hKind
    obtain ⟨d, hLast', hSame, hStop'⟩ := exists_getLast?_insertAmong hLast hBefore
    refine ⟨d, hLast', ?_, hStop'.trans hStop⟩
    rw [isMinor, kindIs, hSame]
    exact hMinor

theorem all_ended_insertAmong (hComment : comment.All Ended) :
    ∀ ts : List Tree, (∀ t ∈ ts, t.All Ended) → ∀ t ∈ insertAmong comment ts, t.All Ended
  | [], _ => List.forall_mem_singleton.2 hComment
  | u :: rest, h => by
    obtain ⟨hu, hRest⟩ := List.forall_mem_cons.1 h
    rw [insertAmong]
    split
    case isTrue => exact List.forall_mem_cons.2 ⟨hu, all_ended_insertAmong hComment rest hRest⟩
    case isFalse hBehind =>
      split
      case isTrue =>
        have hInside : comment.start < u.stop := Nat.lt_of_not_le hBehind
        exact List.forall_mem_cons.2 ⟨all_ended_insert hComment u (fun _ => hInside) hu, hRest⟩
      case isFalse => exact List.forall_mem_cons.2 ⟨hComment, h⟩

end

/-- A tree that is more than layout, in which annotated types end as they should. -/
def Read (t : Tree) : Prop := t.isMinor = false ∧ t.All Ended

theorem Read.withRole (r : Role) {t : Tree} (h : t.Read) : (t.withRole r).Read := by
  cases t with
  | token => exact h
  | node role kind start stop children =>
    exact ⟨h.1, .intro h.2.here fun _ => h.2.of_mem_children⟩

theorem Read.over? {kind : Kind} {ts : List Tree} {t : Tree} (hKind : kind ∉ Kind.minor)
    (h : ∀ c ∈ ts, c.Read) (hOver : Tree.over? kind ts = some t) : t.Read := by
  obtain ⟨first, last, _, hLast, rfl⟩ := Tree.exists_of_over? hOver
  refine ⟨by simpa [isMinor, kindIs, kind?] using hKind,
    .intro (fun _ => ?_) fun c hc => (h c hc).2⟩
  exact ⟨last, hLast, (h last (List.mem_of_getLast? hLast)).1, rfl⟩

end Tree

theorem read_leafOf {kind : Kind} {t : Token} (hKind : kind ∉ .annotatedType :: Kind.minor)
    (hRegular : t.lexeme.Regular t.parts) : (Pattern.leafOf kind t).Read := by
  rw [List.mem_cons, not_or] at hKind
  obtain ⟨hNot, hMinor⟩ := hKind
  refine ⟨by simpa [Pattern.leafOf, Tree.isMinor, Tree.kindIs, Tree.kind?] using hMinor,
    .intro (fun hIs => ?_) fun c hc => ?_⟩
  · exact absurd (by simpa [Pattern.leafOf, Tree.isA, Tree.kind?] using hIs) hNot
  · obtain ⟨part, hPart, rfl⟩ := List.mem_map.1 hc
    refine .intro (fun hIs => ?_) (List.forall_mem_nil _)
    have hKindOf : part.kind = .annotatedType := by simpa [Tree.isA, Tree.kind?] using hIs
    have hPiece := hRegular.piece part hPart
    rw [hKindOf] at hPiece
    exact absurd hPiece (by decide)

/-- In the tree of a source comments get in the way of nothing. -/
theorem undisturbed_of_treeOf? {length : Nat} {tokens : List Token} {root : Tree}
    (hRegular : ∀ t ∈ tokens, t.lexeme.Regular t.parts) (h : treeOf? length tokens = some root) :
    root.All Tree.Undisturbed := by
  have hEnded : root.All Tree.Ended := by
    suffices root.kind? = some .program ∧ root.All Tree.Ended from this.2
    apply treeOf?_induction h
    · intro trees start hReads
      refine ⟨rfl, .intro (fun hIs => by cases hIs) fun c hc => ?_⟩
      refine (Pattern.Reads.forall_mem (P := Tree.Read) Grammar.makes_java
        (fun _ _ _ => ⟨rfl, .intro nofun (List.forall_mem_nil _)⟩) ?_ ?_ ?_
        (fun r t ht => ht.withRole r) hReads rfl (List.Subset.refl _) (List.forall_mem_nil _)
        c hc).2
      · intro kind hWord t ht _
        have hKind : kind ∉ .annotatedType :: Kind.minor := by
          cases kind <;> first | decide | cases hWord
        exact read_leafOf hKind (hRegular t (List.mem_filter.1 ht).1)
      · intro kind t ht hLexeme
        have hToken := hRegular t (List.mem_filter.1 ht).1
        have hLiterals : ∀ kind ∈ Kind.literals, kind ∉ .annotatedType :: Kind.minor := by decide
        exact read_leafOf (hLiterals kind (hToken.literal kind hLexeme)) hToken
      · exact fun kind ts t hKind => .over? (by simpa using hKind)
    · rintro tree ⟨hProgram, hTree⟩ t ht kind hLexeme
      have hComment := (hRegular t ht).comment kind hLexeme
      refine ⟨?_, Tree.all_ended_insert (.intro (fun hIs => ?_) (List.forall_mem_nil _)) tree
        (fun hIs => ?_) hTree⟩
      · rw [← hProgram]
        cases tree <;> rfl
      · have hKind : kind = .annotatedType := by simpa [Tree.isA, Tree.kind?] using hIs
        rw [hKind] at hComment
        cases hComment
      · simp [Tree.isA, hProgram] at hIs
  have hConforms : root.Conforms Grammar.layoutAside tokens := by
    refine conforms_treeOf? (fun r => ?_) (by decide) hRegular h
    obtain ⟨s, hShapes, hAll⟩ := (Option.any_eq_true _ _).1 (Grammar.shapes?_layoutAside r)
    exact ⟨s, hShapes, fun x hx => List.contains_iff_mem.1 (List.all_eq_true.1 hAll x hx)⟩
  clear h
  induction hEnded with
  | @intro t hHere hBelow ih =>
    refine .intro ⟨fun c hc hMinor => ?_, fun hIs c hc => ?_, hHere⟩
      fun c hc => ih c hc (hConforms.of_mem_children hc).2
    · obtain ⟨⟨kind, _, hAllowed⟩, _⟩ := hConforms.of_mem_children hc
      simp only [Grammar.layoutAside, Bool.and_eq_true, Bool.or_eq_true] at hAllowed
      have hKind : c.shape.kind.any Kind.minor.contains = true := hMinor
      exact of_decide_eq_true (hAllowed.1.resolve_left (by simp [hKind]))
    · obtain ⟨⟨kind, hKind, hAllowed⟩, _⟩ := hConforms.of_mem_children hc
      simp only [Tree.isA, hKind, decide_eq_true_eq, Option.some.injEq] at hIs
      simp only [Grammar.layoutAside, Bool.and_eq_true] at hAllowed
      simpa [hIs, Tree.shape, Tree.isNamed] using hAllowed.2

end ChangeSplit.Java
