import ChangeSplit.Proofs.Java.Identity

/-! Declared types have names. The grammar gives every declaration of a type a word as its name, no
word is empty, and so neither is the full name of a type. -/

namespace ChangeSplit.Java

namespace Pattern

variable {ρ : Type} {g : Grammar ρ} {kinds : Kind → Bool} {test : Shape → Bool}

/-- Whether it shows, without looking into rules, that a pattern never reads without giving a tree
that passes a test. -/
def gives : Pattern ρ → (Shape → Bool) → Bool
  | mark _, test | joined _, test => test {}
  | name kind _, test | node kind _, test => test (.plain kind)
  | seq first second, test => gives first test || gives second test
  | alt first second, test => gives first test && gives second test
  | role r p, test => gives p fun s => test (s.withRole r)
  | only _ p, test | wrap _ p, test => gives p test
  | empty, _ | literal, _ | rule _, _ | many _, _ | ahead _, _ | notAhead _, _ | pending, _
  | grow _, _ => false

/-- Whether every node of some kinds that a pattern makes has a tree right below it that passes a
test. -/
def ensures (kinds : Kind → Bool) (test : Shape → Bool) : Pattern ρ → Bool
  | node kind p => (!kinds kind || gives p test) && ensures kinds test p
  | name kind _ => !kinds kind
  | seq first second | alt first second | wrap first second =>
    ensures kinds test first && ensures kinds test second
  | many p | role _ p | only _ p | grow p => ensures kinds test p
  | empty | mark _ | joined _ | literal | rule _ | ahead _ | notAhead _ | pending => true

theorem Reads.exists_of_gives {p : Pattern ρ} {left ts : List Tree} {given rest : List Token}
    (h : Reads g p left given ts rest) (hGives : gives p test = true) :
    ∃ t ∈ ts, test t.shape = true := by
  induction h generalizing test with
  | empty | literal | rule | noMore | more | ahead | notAhead | pending | grown | grow =>
      cases hGives
  | mark | joined | name => exact ⟨_, List.mem_singleton.2 rfl, hGives⟩
  | seq _ _ ihFirst ihSecond =>
      rw [gives, Bool.or_eq_true] at hGives
      rcases hGives with hFirst | hSecond
      · obtain ⟨t, ht, hTest⟩ := ihFirst hFirst
        exact ⟨t, List.mem_append_left _ ht, hTest⟩
      · obtain ⟨t, ht, hTest⟩ := ihSecond hSecond
        exact ⟨t, List.mem_append_right _ ht, hTest⟩
  | either _ ih =>
      rw [gives, Bool.and_eq_true] at hGives
      exact ih hGives.1
  | or _ ih =>
      rw [gives, Bool.and_eq_true] at hGives
      exact ih hGives.2
  | node _ hOver _ =>
      obtain ⟨first, last, _, _, rfl⟩ := Tree.exists_of_over? hOver
      exact ⟨_, List.mem_singleton.2 rfl, hGives⟩
  | role _ ih =>
      obtain ⟨t, ht, hTest⟩ := ih hGives
      exact ⟨_, List.mem_map_of_mem ht, by rwa [Tree.shape_withRole]⟩
  | only _ _ ih => exact ih hGives
  | wrap _ _ _ ihWhole => exact ihWhole hGives

/-- Whether a node of one of the kinds has a tree right below it that passes a test. -/
def AtLeastOne (kinds : Kind → Bool) (test : Shape → Bool) (kind : Kind) (shapes : List Shape) :
    Prop :=
  kinds kind = true → ∃ s ∈ shapes, test s = true

theorem atLeastOne_leafOf (hPieces : ∀ kind ∈ Kind.stringPieces, kinds kind = false) {kind : Kind}
    (hKind : kinds kind = false) {t : Token} (hRegular : t.lexeme.Regular t.parts) :
    (leafOf kind t).Each (AtLeastOne kinds test) := by
  refine .node (fun hIs => ?_) fun c hc => ?_
  · rw [hKind] at hIs
    cases hIs
  · obtain ⟨part, hPart, rfl⟩ := List.mem_map.1 hc
    refine .node (fun hIs => ?_) (List.forall_mem_nil _)
    rw [hPieces _ (hRegular.piece part hPart)] at hIs
    cases hIs

/-- If the check succeeds for all rules, then it tells the truth about what is read. -/
theorem Reads.atLeastOne {tokens : List Token}
    (hLeaves : ∀ kind ∈ Kind.literals ++ Kind.stringPieces, kinds kind = false)
    (hRules : ∀ r, ensures kinds test (g r) = true)
    (hRegular : ∀ t ∈ tokens, t.lexeme.Regular t.parts) {p : Pattern ρ} {left ts : List Tree}
    {given rest : List Token} (h : Reads g p left given ts rest)
    (hEnsures : ensures kinds test p = true) (hGiven : given ⊆ tokens)
    (hLeft : ∀ t ∈ left, t.Each (AtLeastOne kinds test)) :
    ∀ t ∈ ts, t.Each (AtLeastOne kinds test) := by
  obtain ⟨hLiterals, hPieces⟩ := List.forall_mem_append.1 hLeaves
  induction h with
  | empty | noMore | ahead | notAhead => exact List.forall_mem_nil _
  | mark | joined => exact List.forall_mem_singleton.2 (.token ..)
  | name =>
      rw [ensures, Bool.not_eq_true'] at hEnsures
      have hToken := hRegular _ (hGiven (List.mem_cons_self ..))
      exact List.forall_mem_singleton.2 (atLeastOne_leafOf hPieces hEnsures hToken)
  | literal hLiteral =>
      have hToken := hRegular _ (hGiven (List.mem_cons_self ..))
      have hKind := hLiterals _ (hToken.literal _ hLiteral)
      exact List.forall_mem_singleton.2 (atLeastOne_leafOf hPieces hKind hToken)
  | rule _ ih => exact ih (hRules _) hGiven hLeft
  | seq hFirst _ ihFirst ihSecond =>
      rw [ensures, Bool.and_eq_true] at hEnsures
      have hLater := List.Subset.trans hFirst.rest_subset hGiven
      exact List.forall_mem_append.2
        ⟨ihFirst hEnsures.1 hGiven hLeft, ihSecond hEnsures.2 hLater hLeft⟩
  | either _ ih =>
      rw [ensures, Bool.and_eq_true] at hEnsures
      exact ih hEnsures.1 hGiven hLeft
  | or _ ih =>
      rw [ensures, Bool.and_eq_true] at hEnsures
      exact ih hEnsures.2 hGiven hLeft
  | more hOne _ ihOne ihMore =>
      have hLater := List.Subset.trans hOne.rest_subset hGiven
      exact List.forall_mem_append.2
        ⟨ihOne (by rwa [ensures] at hEnsures) hGiven hLeft, ihMore hEnsures hLater hLeft⟩
  | @node kind _ _ ts _ _ _ hInner hOver ih =>
      rw [ensures, Bool.and_eq_true] at hEnsures
      have hBelow := ih hEnsures.2 hGiven hLeft
      have hHere : AtLeastOne kinds test kind (ts.map Tree.shape) := by
        intro hKind
        obtain ⟨t, ht, hTest⟩ := hInner.exists_of_gives (by simpa [hKind] using hEnsures.1)
        exact ⟨_, List.mem_map_of_mem ht, hTest⟩
      obtain ⟨first, last, _, _, rfl⟩ := Tree.exists_of_over? hOver
      exact List.forall_mem_singleton.2 (.node hHere hBelow)
  | role _ ih =>
      intro t ht
      obtain ⟨u, hu, rfl⟩ := List.mem_map.1 ht
      exact (ih (by rwa [ensures] at hEnsures) hGiven hLeft u hu).withRole _
  | only _ _ ih => exact ih (by rwa [ensures] at hEnsures) hGiven hLeft
  | pending | grown => exact hLeft
  | wrap hBase _ ihBase ihWhole =>
      rw [ensures, Bool.and_eq_true] at hEnsures
      exact ihWhole hEnsures.2 (List.Subset.trans hBase.rest_subset hGiven)
        (ihBase hEnsures.1 hGiven hLeft)
  | grow hStep _ ihStep ihMore =>
      have hTrees := ihStep (by rwa [ensures] at hEnsures) hGiven hLeft
      exact ihMore hEnsures (List.Subset.trans hStep.rest_subset hGiven) hTrees

end Pattern

namespace Grammar

/-- Whether a tree is the name of the node above it. -/
def isName (s : Shape) : Bool := s.role = some .name

theorem ensures_java (r : Rule) :
    Pattern.ensures Kind.isTypeDeclaration isName (java r) = true := by
  cases r <;> decide +kernel

end Grammar

/-- Whether a node is named if it declares a type. -/
abbrev Named : Kind → List Shape → Prop :=
  Pattern.AtLeastOne Kind.isTypeDeclaration Grammar.isName

/-- If the check succeeds for all rules of a grammar that reads whatever that of sources reads, then
it tells the truth about every source. Comments make no difference to it. -/
theorem atLeastOne_of_treeOf? {kinds : Kind → Bool} {test : Shape → Bool} {g : Grammar Rule}
    {length : Nat} {tokens : List Token} {root : Tree}
    (hKinds : ∀ kind ∈ [.program, .lineComment, .blockComment], kinds kind = false)
    (hLeaves : ∀ kind ∈ Kind.literals ++ Kind.stringPieces, kinds kind = false)
    (hReads : ∀ p left given ts rest, Pattern.Reads Grammar.java p left given ts rest →
      Pattern.Reads g p left given ts rest)
    (hRules : ∀ r, Pattern.ensures kinds test (g r) = true)
    (hRegular : ∀ t ∈ tokens, t.lexeme.Regular t.parts) (h : treeOf? length tokens = some root) :
    root.Each (Pattern.AtLeastOne kinds test) := by
  simp only [List.forall_mem_cons] at hKinds
  obtain ⟨hProgram, hLine, hBlock, _⟩ := hKinds
  apply treeOf?_induction h
  · intro trees start hTop
    refine .node (fun hIs => ?_) ?_
    · rw [hProgram] at hIs
      cases hIs
    · exact (hReads _ _ _ _ _ hTop).atLeastOne hLeaves hRules hRegular rfl
        List.filter_sublist.subset (List.forall_mem_nil _)
  · intro tree hTree t ht kind hComment
    have hKind : kinds kind = false := by
      have hIs := (hRegular t ht).comment kind hComment
      cases kind <;> first | exact hLine | exact hBlock | cases hIs
    refine .insert (.node (fun hIs => ?_) (List.forall_mem_nil _)) ?_ tree hTree
    · rw [hKind] at hIs
      cases hIs
    · intro _ before after hBelow hIs
      obtain ⟨s, hs, hTest⟩ := hBelow hIs
      refine ⟨s, ?_, hTest⟩
      rw [List.mem_append, List.mem_cons]
      exact (List.mem_append.1 hs).imp_right .inr

/-- All declarations of types in a source that can be read have names. -/
theorem named_of_treeOf? {length : Nat} {tokens : List Token} {root : Tree}
    (hRegular : ∀ t ∈ tokens, t.lexeme.Regular t.parts) (h : treeOf? length tokens = some root) :
    root.Each Named :=
  atLeastOne_of_treeOf? (by decide) (by decide) (fun _ _ _ _ _ hReads => hReads)
    Grammar.ensures_java hRegular h

theorem intercalate_ne_empty {separator name : String} {names : List String} (hName : name ∈ names)
    (hNe : name ≠ "") : separator.intercalate names ≠ "" := by
  induction names with
  | nil => cases hName
  | cons first rest ih =>
      cases rest with
      | nil =>
          rw [List.mem_singleton.1 hName] at hNe
          exact hNe
      | cons second rest =>
          rw [String.intercalate_cons_cons, ne_eq, String.append_eq_empty_iff,
            String.append_eq_empty_iff]
          rcases List.mem_cons.1 hName with rfl | hName
          · exact fun hEmpty => hNe hEmpty.1.1
          · exact fun hEmpty => ih hName hEmpty.2

namespace SourceUnit

variable {unit : SourceUnit} {source : List UInt8} {path : String}

theorem named_of_parse (h : parse source path = .ok unit) : unit.root.Each Named := by
  obtain ⟨_, _, _, hTokens, hTree, _⟩ := exists_tokens_of_parse h
  exact named_of_treeOf? (fun t ht => (Token.scannedIn_of_mem_tokens? hTokens ht).regular) hTree

/-- A declaration of a type has a word as its name. -/
theorem Holds.exists_name {t : Tree} (h : unit.Holds t) (hNamed : t.Each Named)
    (hType : t.kindIs Kind.isTypeDeclaration = true) :
    ∃ c, t.childAs? .name = some c ∧ c.kind? = some .identifier := by
  obtain ⟨kind, hKind, hIs⟩ := (Option.any_eq_true _ _).1 hType
  obtain ⟨s, hs, hRole⟩ := hNamed.here hKind hIs
  obtain ⟨d, hd, rfl⟩ := List.mem_map.1 hs
  have hName : (t.childAs? .name).isSome = true := List.find?_isSome.2 ⟨d, hd, hRole⟩
  obtain ⟨c, hc⟩ := Option.isSome_iff_exists.1 hName
  refine ⟨c, hc, h.kind?_of_childAs_name ?_ hc⟩
  rw [hKind]
  constructor <;> rintro ⟨rfl⟩ <;> cases hIs

theorem Holds.declaredName_ne_empty {t : Tree} (h : unit.Holds t) (hNamed : t.Each Named)
    (hType : t.kindIs Kind.isTypeDeclaration = true) : unit.declaredName t ≠ "" := by
  obtain ⟨c, hc, hWord⟩ := h.exists_name hNamed hType
  rw [declaredName, text?, hc]
  exact (h.of_mem_children (List.mem_of_find?_eq_some hc)).text_ne_empty hWord rfl

/-- The full name of a type in a source that was read is not empty. -/
theorem typeName_ne_empty (h : parse source path = .ok unit) {p : Place} (hp : p ∈ unit.types) :
    unit.typeName p ≠ "" := by
  have hReadable := readable_of_parse h
  have hType := hReadable.namedType_of_mem_types hp
  have hTop : p ∈ unit.top.everything := by
    rw [hReadable.types_eq] at hp
    exact (List.mem_filter.1 hp).1
  have hName : unit.declaredName p.node ≠ "" :=
    ((holds_of_parse h).of_mem_types hp).declaredName_ne_empty
      (Place.each_of_mem_everything (named_of_parse h) hTop) hType.type
  have hSelf : p ∈ p.enclosingTypes := by
    obtain ⟨rest, hTypes⟩ := hType.enclosingTypes_eq
    rw [hTypes]
    exact List.mem_cons_self ..
  have hNames : ".".intercalate (p.enclosingTypes.map fun t => unit.declaredName t.node).reverse ≠
      "" := intercalate_ne_empty (List.mem_reverse.2 (List.mem_map_of_mem hSelf)) hName
  unfold typeName
  dsimp only
  split
  case isTrue => exact hNames
  case isFalse => exact fun hEmpty => hNames (String.append_eq_empty_iff.1 hEmpty).2

end SourceUnit

end ChangeSplit.Java
