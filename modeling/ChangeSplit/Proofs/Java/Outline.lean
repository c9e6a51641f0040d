import ChangeSplit.Proofs.Collection.Traversal
import ChangeSplit.Proofs.Java.Tight

/-! The layout of a source does not show in what it declares: sources with the same words have the
same entities, by kind, name, owner and supertypes, as long as nothing stands between the words of
the names that are cut out of them. -/

namespace ChangeSplit

/-- What tells an entity from others and where it belongs, without how it is written. -/
structure Outline where
  kind : NodeKind
  qualifiedName : String
  owner : Option String
  member : Option String
  superClass : Option String
  superInterfaces : List String
deriving DecidableEq

/-- The outline of an entity. Only types have supertypes. -/
def Entity.outline (e : Entity) : Outline :=
  let (superClass, superInterfaces) := match e.particulars with
    | .classType superClass superInterfaces => (superClass, superInterfaces)
    | .interfaceType superInterfaces => (none, superInterfaces)
    | _ => (none, [])
  ⟨e.kind, e.qualifiedName, e.owner, e.member, superClass, superInterfaces⟩

/-- The outline of a member of a type. -/
def Outline.ofMember (kind : NodeKind) (owner name : String) : Outline :=
  ⟨kind, owner ++ "." ++ name, some owner, some (owner ++ "." ++ name), none, []⟩

namespace Java

section Signature

theorem dropArguments_eq_drop (skip : Nat) (cs : List Char) :
    dropArguments skip cs = dropArguments 0 (cs.drop skip) := by
  induction skip generalizing cs with
  | zero => rfl
  | succ skip ih =>
    cases cs with
    | nil => rfl
    | cons c rest => rw [dropArguments, ih, List.drop_succ_cons]

/-- What is behind an opening bracket up to the last closing one on the line, from the back. -/
def enclosed (rest : List Char) : List Char :=
  (rest.takeWhile (· ≠ '\n')).reverse.dropWhile (· ≠ '>')

theorem enclosed_filter (rest : List Char) :
    enclosed (rest.filter (· ≠ ' ')) = (enclosed rest).filter (· ≠ ' ') := by
  have hKeep (d : Char) (hd : d ≠ ' ') :
      (fun c : Char => !decide (c ≠ ' ') || decide (c ≠ d)) = fun c => decide (c ≠ d) := by
    funext c
    by_cases hSpace : c = ' '
    · subst hSpace
      simp [hd.symm]
    · simp [hSpace]
  rw [enclosed, enclosed, List.takeWhile_filter, hKeep _ (by decide), ← List.filter_reverse,
    List.dropWhile_filter, hKeep _ (by decide)]

theorem enclosed_prefix (rest : List Char) : (enclosed rest).reverse <+: rest := by
  have hSuffix : enclosed rest <:+ (rest.takeWhile (· ≠ '\n')).reverse := List.dropWhile_suffix _
  rw [← List.reverse_prefix, List.reverse_reverse] at hSuffix
  exact hSuffix.trans (List.takeWhile_prefix _)

/-- What is enclosed ends with a closing bracket, which is no space. -/
theorem isEmpty_filter_enclosed (rest : List Char) :
    ((enclosed rest).filter (· ≠ ' ')).isEmpty = (enclosed rest).isEmpty := by
  cases hInner : enclosed rest with
  | nil => rfl
  | cons d more =>
    have hHead := List.head?_dropWhile_not (fun c : Char => decide (c ≠ '>'))
      (rest.takeWhile (· ≠ '\n')).reverse
    rw [show List.dropWhile _ _ = enclosed rest from rfl, hInner] at hHead
    have hClose : d = '>' := by simpa using hHead
    rw [List.filter_cons_of_pos (by rw [hClose]; rfl)]
    rfl

theorem drop_filter_enclosed (rest : List Char) :
    (rest.filter (· ≠ ' ')).drop ((enclosed rest).filter (· ≠ ' ')).length =
      (rest.drop (enclosed rest).length).filter (· ≠ ' ') := by
  obtain ⟨tail, hTail⟩ := enclosed_prefix rest
  have hFirst : rest.drop (enclosed rest).length = tail := by
    nth_rewrite 2 [← hTail]
    exact List.drop_left' (List.length_reverse ..)
  have hSplit : rest.filter (· ≠ ' ') =
      ((enclosed rest).filter (· ≠ ' ')).reverse ++ tail.filter (· ≠ ' ') := by
    nth_rewrite 1 [← hTail]
    rw [List.filter_append, List.filter_reverse]
  rw [hFirst, hSplit, List.drop_left' (List.length_reverse ..)]

theorem dropArguments_bracket (rest : List Char) :
    dropArguments 0 ('<' :: rest) =
      if (enclosed rest).isEmpty then '<' :: dropArguments 0 rest
      else dropArguments 0 (rest.drop (enclosed rest).length) := by
  rw [← dropArguments_eq_drop, dropArguments, if_pos rfl]
  rfl

/-- Spaces can be taken out before or after the type arguments are dropped. -/
theorem filter_dropArguments (cs : List Char) :
    (dropArguments 0 cs).filter (· ≠ ' ') = dropArguments 0 (cs.filter (· ≠ ' ')) := by
  induction hLength : cs.length using Nat.strongRecOn generalizing cs with
  | ind n ih =>
    cases cs with
    | nil => rfl
    | cons c rest =>
      rw [List.length_cons] at hLength
      have hRest := ih rest.length (by omega) rest rfl
      by_cases hSpace : c = ' '
      · subst hSpace
        simpa [dropArguments] using hRest
      · rw [List.filter_cons_of_pos (by simpa using hSpace)]
        by_cases hOpen : c = '<'
        · subst hOpen
          rw [dropArguments_bracket, dropArguments_bracket, enclosed_filter,
            isEmpty_filter_enclosed, drop_filter_enclosed]
          split
          case isTrue => simpa using hRest
          case isFalse =>
            exact ih _ (by rw [List.length_drop]; omega) (rest.drop (enclosed rest).length) rfl
        · rw [dropArguments, dropArguments, if_neg hOpen, if_neg hOpen,
            List.filter_cons_of_pos (by simpa using hSpace), hRest]

/-- The type of a parameter in the name of a method does not depend on spaces. -/
theorem signatureType_eq {one other : String}
    (h : SourceUnit.spaceless one = SourceUnit.spaceless other) :
    signatureType one = signatureType other := by
  rw [signatureType, signatureType, filter_dropArguments, filter_dropArguments]
  exact congrArg (fun cs => String.ofList (dropArguments 0 cs)) h

theorem spaceless_append (one other : String) :
    SourceUnit.spaceless (one ++ other) =
      SourceUnit.spaceless one ++ SourceUnit.spaceless other := by
  rw [SourceUnit.spaceless, String.toList_append, List.filter_append]
  rfl

end Signature

theorem Tree.All.of_mem_parameterNodes {P : Tree → Prop} {t q : Tree} (h : t.All P)
    (hq : q ∈ SourceUnit.parameterNodes t) : q.All P := by
  have hMem := (List.mem_filter.1 hq).1
  cases hList : t.childAs? .parameters with
  | none => rw [hList] at hMem; cases hMem
  | some list =>
    rw [hList] at hMem
    exact (h.of_mem_children (List.mem_of_find?_eq_some hList)).of_mem_children
      (List.mem_filter.1 hMem).1

theorem mainTypeName?_of_isMinor {t : Tree} (h : t.isMinor = true) : mainTypeName? t = none := by
  obtain ⟨kind, hKind, hMinor⟩ := (Option.any_eq_true _ _).1 h
  cases t with
  | token => cases hKind
  | node =>
    cases hKind
    rw [List.contains_iff_mem] at hMinor
    simp only [Kind.minor, List.mem_cons, List.not_mem_nil, or_false] at hMinor
    rcases hMinor with rfl | rfl | rfl | rfl | rfl <;> rfl

namespace Subject

open SourceUnit SourceUnit.TightForm

variable {unit tight : SourceUnit} {s s' : Subject} {p m : Place}

/-- Subjects that are a source and its tight form. -/
structure TightSubject (s s' : Subject) : Prop where
  form : s.unit.TightForm s'.unit
  trim : s.unit.Trim
  agree : s.symbols.Agree s'.symbols
  fileIndex : s.fileIndex = s'.fileIndex

namespace TightSubject

theorem importEntity_condense (h : TightSubject s s') {t : Tree} (ht : t ∈ s.unit.imports) :
    (s'.importEntity (t.condense (move s.unit))).outline = (s.importEntity t).outline := by
  have hParts := h.form.importParts_condense (h.trim.imports t ht)
  simp only [importEntity, hParts, Entity.outline, Entity.kind, Entity.member, h.fileIndex]

/-- The types that a declaration lists are the same in the tight form. -/
theorem listedTypes_condense (h : TightSubject s s') {t : Option Tree}
    (hUndisturbed : ∀ c ∈ t, c.All Tree.Undisturbed)
    (hTight : ∀ c ∈ listedIn t, ∀ name ∈ mainTypeName? c, s.unit.Tight name) :
    s'.listedTypes (t.map (Tree.condense (move s.unit))) = s.listedTypes t := by
  have hListed (s : Subject) (t : Option Tree) : s.listedTypes t =
      (listedIn t).filterMap fun c => (mainType s.unit s.symbols (some c)).filter (· ≠ "") := rfl
  rw [hListed, hListed, listedIn_condense, List.filterMap_map, List.filterMap_filter]
  apply List.filterMap_congr
  intro c hc
  cases hMinor : c.isMinor with
  | true =>
    -- A comment in a list names no type.
    have hNone : mainTypeName? c = none := mainTypeName?_of_isMinor hMinor
    simp [mainType, hNone]
  | false =>
    have hBelow : c.All Tree.Undisturbed := by
      cases t with
      | none => cases hc
      | some t =>
        obtain ⟨list, hList, hItem⟩ := List.mem_flatMap.1 hc
        have hOuter := (List.mem_filter.1 (List.mem_filter.1 hList).1).1
        exact ((hUndisturbed t rfl).of_mem_children hOuter).of_mem_children
          (List.mem_filter.1 hItem).1
    have hMain := h.form.mainType_condense h.agree (t := some c)
      (fun d hd => by cases hd; exact hBelow) (fun d hd => by cases hd; exact hTight c hc)
    rw [Bool.not_false, if_pos rfl, Function.comp_apply]
    exact congrArg (Option.filter (· ≠ "")) hMain

theorem typeName_condense (h : TightSubject s s') (hp : p ∈ s.unit.top.everything) :
    s'.unit.typeName (p.condense (move s.unit)) = s.unit.typeName p :=
  h.form.typeName_condense (h.form.package_eq h.trim) hp

theorem mem_children_of_superInterfaces? {t c : Tree} (h : superInterfaces? t = some c) :
    c ∈ t.children := by
  unfold superInterfaces? at h
  split at h
  · exact (List.mem_filter.1 (List.mem_of_find?_eq_some h)).1
  · exact List.mem_of_find?_eq_some h

/-- The full name of the type around a type. -/
def outerType? (unit : SourceUnit) (p : Place) : Option String :=
  ((p.enclosingMembers.drop 1).filter (·.kindIs Kind.isTypeDeclaration)).head?.map unit.typeName

theorem outerType?_condense (h : TightSubject s s') (hp : p ∈ s.unit.top.everything) :
    outerType? s'.unit (p.condense (move s.unit)) = outerType? s.unit p := by
  have hSame : ((fun q : Place => q.kindIs Kind.isTypeDeclaration) ∘
      Place.condense (move s.unit)) = (·.kindIs Kind.isTypeDeclaration) :=
    funext fun _ => Place.place_kindIs_condense _
  rw [outerType?, outerType?, Place.enclosingMembers_condense, ← List.map_drop, List.filter_map,
    hSame, List.head?_map, Option.map_map]
  cases hOuter : ((p.enclosingMembers.drop 1).filter (·.kindIs Kind.isTypeDeclaration)).head? with
  | none => rfl
  | some q =>
    have hMember := List.mem_of_mem_drop (List.mem_filter.1 (List.mem_of_head? hOuter)).1
    have hChain : q ∈ p.chain := (List.mem_filter.1 hMember).1
    exact congrArg some (h.typeName_condense (Place.mem_everything_of_mem_chain rfl hp hChain))

theorem outline_typeEntity (s : Subject) (p : Place) :
    (s.typeEntity p).outline =
      if p.node.kindIs Kind.isInterfaceDeclaration then
        ⟨.interfaceType, s.unit.typeName p, outerType? s.unit p, none, none,
          s.listedTypes (superInterfaces? p.node)⟩
      else
        ⟨.classType, s.unit.typeName p, outerType? s.unit p, none,
          s.symbols.superClass (s.unit.typeName p), s.listedTypes (superInterfaces? p.node)⟩ := by
  unfold typeEntity superInterfaces?
  dsimp only
  split_ifs <;> rfl

/-- A type has the same outline in the tight form. -/
theorem typeEntity_condense (h : TightSubject s s') (hp : p ∈ s.unit.types) :
    (s'.typeEntity (p.condense (move s.unit))).outline = (s.typeEntity p).outline := by
  have hTop := h.form.mem_everything_of_mem_types hp
  have hUndisturbed := h.form.undisturbed_of_mem hTop
  have hListed : s'.listedTypes (superInterfaces? (p.node.condense (move s.unit))) =
      s.listedTypes (superInterfaces? p.node) := by
    rw [superInterfaces?_condense hUndisturbed.here]
    exact h.listedTypes_condense
      (fun c hc => hUndisturbed.of_mem_children (mem_children_of_superInterfaces? hc))
      (h.trim.superInterfaces p hp)
  have hSuper (name : String) : s'.symbols.superClass name = s.symbols.superClass name := by
    rw [Symbols.superClass, Symbols.superClass, h.agree.superClasses]
  rw [outline_typeEntity, outline_typeEntity, Place.node_condense, Tree.kindIs_condense, hListed,
    h.typeName_condense hTop, h.outerType?_condense hTop, hSuper]

theorem outline_fieldEntities (s : Subject) (p : Place) (owner : String) :
    (s.fieldEntities p owner).map Entity.outline =
      (p.node.childrenAs .declarator).map fun d =>
        .ofMember .field owner (s.unit.declaredName d) := by
  rw [fieldEntities, List.map_map]
  rfl

theorem outline_methodEntity (s : Subject) (p : Place) (owner : String) :
    (s.methodEntity p owner).outline =
      .ofMember .method owner
        (methodName (s.unit.declaredName p.node) (parametersIn s.unit s.symbols p.node)) := rfl

/-- The type of a parameter as it is written in the source. -/
def writtenParameter (unit : SourceUnit) (p : Tree) : String :=
  if p.isA .spreadParameter then unit.text? (parameterType? p) ++ "..."
  else unit.text? (parameterType? p)

theorem map_signature_parametersIn (unit : SourceUnit) (symbols : Symbols) (t : Tree) :
    (parametersIn unit symbols t).map (·.signature) =
      (parameterNodes t).map fun p => signatureType (writtenParameter unit p) := by
  unfold parametersIn parameterNodes
  cases t.childAs? .parameters with
  | none => rfl
  | some list =>
    rw [Option.elim_some, Option.elim_some, List.map_map]
    rfl

/-- The types of the parameters of a method are the same in its name. -/
theorem signatures_condense (h : TightSubject s s') {t : Tree}
    (hUndisturbed : t.All Tree.Undisturbed)
    (hTight : ∀ q ∈ parameterNodes t, ∀ c ∈ parameterType? q,
      c.isMinor = false ∧ spaceless (s.unit.text c) = spaceless (s.unit.tightText c)) :
    (parametersIn s'.unit s'.symbols (t.condense (move s.unit))).map (·.signature) =
      (parametersIn s.unit s.symbols t).map (·.signature) := by
  rw [map_signature_parametersIn, map_signature_parametersIn, parameterNodes_condense
    hUndisturbed.here, List.map_map]
  apply List.map_congr_left
  intro q hq
  have hType : parameterType? (q.condense (move s.unit)) =
      (parameterType? q).map (Tree.condense (move s.unit)) :=
    parameterType?_condense (hUndisturbed.of_mem_parameterNodes hq).here fun c hc =>
      (hTight q hq c hc).1
  have hText : spaceless (s'.unit.text? (parameterType? (q.condense (move s.unit)))) =
      spaceless (s.unit.text? (parameterType? q)) := by
    rw [hType]
    cases hWritten : parameterType? q with
    | none => rfl
    | some c =>
      show spaceless (s'.unit.text (c.condense (move s.unit))) = spaceless (s.unit.text c)
      rw [h.form.text, (hTight q hq c hWritten).2]
  apply signatureType_eq
  rw [writtenParameter, writtenParameter, Tree.isA_condense]
  split_ifs
  · rw [spaceless_append, spaceless_append, hText]
  · exact hText

theorem declaredName_condense_of_mem_declarator (h : TightSubject s s') {t d : Tree}
    (hHolds : s.unit.Holds t) (hUndisturbed : t.All Tree.Undisturbed)
    (hd : d ∈ t.childrenAs .declarator) :
    s'.unit.declaredName (d.condense (move s.unit)) = s.unit.declaredName d := by
  have hMem : d ∈ t.children := (List.mem_filter.1 hd).1
  refine h.form.declaredName_condense (hHolds.of_mem_children hMem)
    (hUndisturbed.of_mem_children hMem).here ?_
  rw [hHolds.kind?_of_mem_childrenAs_declarator hd]
  exact ⟨by decide, by decide⟩

/-- The members of a type have the same outlines in the tight form. -/
theorem memberEntities_condense (h : TightSubject s s') (hp : p ∈ s.unit.types)
    (hm : m ∈ p.members) (owner : String) :
    (s'.memberEntities owner (m.condense (move s.unit))).map Entity.outline =
      (s.memberEntities owner m).map Entity.outline := by
  have hTop := h.form.mem_everything_of_mem_types hp
  have hHolds : s.unit.Holds m.node := (h.form.holds_of_mem hTop).of_mem_members hm
  have hUndisturbed : m.node.All Tree.Undisturbed :=
    Place.all_of_mem_members (h.form.undisturbed_of_mem hTop) hm
  have hName := h.form.declaredName_condense hHolds hUndisturbed.here
  unfold memberEntities
  rw [Place.place_kindIs_condense, Place.place_kindIs_condense, Place.node_condense,
    Tree.isA_condense]
  split_ifs with hField hConstant hMethod
  · rw [outline_fieldEntities, outline_fieldEntities, Place.node_condense,
      hUndisturbed.here.childrenAs_condense, List.map_map]
    apply List.map_congr_left
    intro d hd
    exact congrArg (Outline.ofMember .field owner)
      (h.declaredName_condense_of_mem_declarator hHolds hUndisturbed hd)
  · have hKind : m.node.kind? = some .enumConstant := by simpa [Tree.isA] using hConstant
    have hSame := hName (by rw [hKind]; exact ⟨by decide, by decide⟩)
    exact congrArg (fun name => [Outline.ofMember .field owner name]) hSame
  · have hSame := hName (kind?_ne_of_kindIs (by decide) hMethod)
    have hSignatures := h.signatures_condense hUndisturbed (h.trim.parameters p hp m hm hMethod)
    rw [List.map_singleton, List.map_singleton, outline_methodEntity, outline_methodEntity,
      Place.node_condense, methodName, methodName, hSame, hSignatures]
  · rfl

/-- A type and its members have the same outlines in the tight form. -/
theorem entitiesOfType_condense (h : TightSubject s s') (hp : p ∈ s.unit.types) :
    (s'.entitiesOfType (p.condense (move s.unit))).map Entity.outline =
      (s.entitiesOfType p).map Entity.outline := by
  have hTop := h.form.mem_everything_of_mem_types hp
  rw [entitiesOfType_eq, entitiesOfType_eq, List.map_cons, List.map_cons, h.typeEntity_condense hp,
    Place.members_condense (h.form.undisturbed_of_mem hTop).here, h.typeName_condense hTop,
    List.flatMap_map, List.map_flatMap, List.map_flatMap]
  congr 1
  exact List.flatMap_congr fun m hm => h.memberEntities_condense hp hm _

theorem entities_eq (s : Subject) :
    s.entities = s.unit.imports.map s.importEntity ++ s.unit.types.flatMap s.entitiesOfType := rfl

/-- A source declares what its tight form declares. -/
theorem outlines_eq (h : TightSubject s s') :
    s'.entities.map Entity.outline = s.entities.map Entity.outline := by
  rw [entities_eq, entities_eq, h.form.imports_eq, h.form.types_eq, List.map_append,
    List.map_append, List.map_map, List.map_map, List.map_map, List.flatMap_map, List.map_flatMap,
    List.map_flatMap]
  congr 1
  · exact List.map_congr_left fun t ht => h.importEntity_condense ht
  · exact List.flatMap_congr fun p hp => h.entitiesOfType_condense hp

end TightSubject

theorem map_key_entities (s : Subject) :
    s.entities.map Entity.key =
      (s.entities.map Entity.outline).map fun o => s.revision.scope o.qualifiedName := by
  rw [List.map_map]
  apply List.map_congr_left
  intro e he
  rw [Entity.key, revision_of_mem_entities he]
  rfl

end Subject

open SourceUnit

/-- Sources with the same words declare the same in the same order, whatever blanks, line breaks
and comments stand between the words, if both are trim. Brackets side by side are one word. -/
theorem outlines_eq_of_words {source₁ source₂ : List UInt8} {path₁ path₂ : String}
    {unit₁ unit₂ : SourceUnit} (h₁ : parse source₁ path₁ = .ok unit₁)
    (h₂ : parse source₂ path₂ = .ok unit₂) (hWords : unit₁.words = unit₂.words)
    (hTrim₁ : unit₁.Trim) (hTrim₂ : unit₂.Trim) (fileIndex : Int) :
    (∀ revision₁ revision₂ : Revision,
      (Subject.ofUnit unit₁ revision₁ fileIndex).entities.map Entity.outline =
        (Subject.ofUnit unit₂ revision₂ fileIndex).entities.map Entity.outline) ∧
    ∀ revision : Revision,
      (Subject.ofUnit unit₁ revision fileIndex).entities.map Entity.key =
        (Subject.ofUnit unit₂ revision fileIndex).entities.map Entity.key := by
  obtain ⟨tight, hTight₁, hTight₂⟩ := exists_tightens h₁ h₂ hWords
  -- Both sources declare what their common tight form declares.
  have hSame {unit : SourceUnit} {source : List UInt8} {path : String}
      (h : parse source path = .ok unit) (hTight : tight.Tightens unit) (hTrim : unit.Trim)
      (revision revision' : Revision) :
      (Subject.ofUnit tight revision' fileIndex).entities.map Entity.outline =
        (Subject.ofUnit unit revision fileIndex).entities.map Entity.outline :=
    have hForm := tightForm_of_parse h hTight
    Subject.TightSubject.outlines_eq ⟨hForm, hTrim, hForm.agree_ofUnit hTrim, rfl⟩
  have hOutlines (revision₁ revision₂ : Revision) :
      (Subject.ofUnit unit₁ revision₁ fileIndex).entities.map Entity.outline =
        (Subject.ofUnit unit₂ revision₂ fileIndex).entities.map Entity.outline :=
    (hSame h₁ hTight₁ hTrim₁ revision₁ revision₁).symm.trans
      (hSame h₂ hTight₂ hTrim₂ revision₂ revision₁)
  refine ⟨hOutlines, fun revision => ?_⟩
  rw [Subject.map_key_entities, Subject.map_key_entities, hOutlines revision revision]
  rfl

/-- A class on one line. -/
def classOnOneLine : String :=
  "import q.B; class A extends B \x7b int n, m; void f(Map<String,Integer> m) \x7b\x7d \x7d"

/-- The same class over several lines, with comments. -/
def classOverLines : String :=
  "import q.B;\n\n// A class.\nclass A\n    extends B \x7b\n  int n, /* and */ m;\n\n" ++
    "  void f( Map<String, Integer> m )\n  \x7b\n  \x7d\n\x7d\n"

/-- Both declare the import, the class, two fields and the method. -/
theorem outlines_eq_of_words_classOverLines :
    ∃ unit₁ unit₂, parse (Utf8.encode classOnOneLine) "A.java" = .ok unit₁ ∧
      parse (Utf8.encode classOverLines) "A.java" = .ok unit₂ ∧
      ((Subject.ofUnit unit₁ .base 0).entities.map Entity.outline =
        (Subject.ofUnit unit₂ .current 0).entities.map Entity.outline) ∧
      (Subject.ofUnit unit₁ .base 0).entities.map Entity.key =
        (Subject.ofUnit unit₂ .base 0).entities.map Entity.key ∧
      (Subject.ofUnit unit₁ .base 0).entities.length = 5 := by
  have hUnits : ∃ unit₁ ∈ (parse (Utf8.encode classOnOneLine) "A.java").toOption.toList,
      ∃ unit₂ ∈ (parse (Utf8.encode classOverLines) "A.java").toOption.toList,
        unit₁.words = unit₂.words ∧ unit₁.Trim ∧ unit₂.Trim ∧
          (Subject.ofUnit unit₁ .base 0).entities.length = 5 := by
    decide +kernel
  obtain ⟨unit₁, h₁, unit₂, h₂, hWords, hTrim₁, hTrim₂, hLength⟩ := hUnits
  rw [mem_toOption_iff] at h₁ h₂
  obtain ⟨hOutlines, hKeys⟩ := outlines_eq_of_words h₁ h₂ hWords hTrim₁ hTrim₂ 0
  exact ⟨unit₁, unit₂, h₁, h₂, hOutlines .base .current, hKeys .base, hLength⟩

/-- Where the type of a parameter goes over two lines, its arguments stay in the name of the
method. -/
example : (parse (Utf8.encode "class A\x7bvoid f(Map<B,\nC> m)\x7b\x7d\x7d") "A.java").toOption.map
    (fun unit => ((Subject.ofUnit unit .base 0).entities.map (·.qualifiedName), decide unit.Trim)) =
      some (["A", "A.f(Map<B,\nC>)"], false) := by
  decide +kernel

end Java

end ChangeSplit
