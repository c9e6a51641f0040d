import ChangeSplit.Proofs.Java.Naming
import ChangeSplit.Proofs.Java.Spacing

/-! What a source declares and imports, told by its tight form. Declared names are single words, so
they are the same in both. Names of packages, imports and types may have several words, and are the
same only where nothing stands between these. -/

namespace ChangeSplit.Java

theorem Token.between_eq_singleton {before after : List Token} {t : Token}
    (h : InOrder (before ++ t :: after)) :
    between t.start t.stop (before ++ t :: after) = [t] := by
  obtain ⟨_, hAfter, hBefore⟩ := List.pairwise_append.1 h.ordered
  have hProper := h.proper t (List.mem_append_right _ (List.mem_cons_self ..))
  have hNoneBefore : between t.start t.stop before = [] := by
    rw [between, List.filter_eq_nil_iff]
    intro u hu
    have hLt := h.proper u (List.mem_append_left _ hu)
    have hLe := hBefore u hu t (List.mem_cons_self ..)
    simp only [Bool.and_eq_true, decide_eq_true_eq]
    omega
  have hNoneAfter : between t.start t.stop after = [] := by
    rw [between, List.filter_eq_nil_iff]
    intro u hu
    have hLe := (List.pairwise_cons.1 hAfter).1 u hu
    simp only [Bool.and_eq_true, decide_eq_true_eq]
    omega
  rw [between, List.filter_append, ← between, hNoneBefore, List.filter_cons_of_pos (by simpa),
    ← between, hNoneAfter, List.nil_append]

namespace SourceUnit

variable {unit tight : SourceUnit} {source : List UInt8} {path : String} {t : Tree}

/-- Whether a tree is written without anything between its tokens. -/
def Tight (unit : SourceUnit) (t : Tree) : Prop := unit.text t = unit.tightText t

instance (unit : SourceUnit) (t : Tree) : Decidable (unit.Tight t) :=
  inferInstanceAs (Decidable (_ = _))

/-- There is nothing inside a word. -/
theorem Holds.tight_of_isWord {tokens : List Token} {kind : Kind} (h : unit.Holds t)
    (hCut : unit.Cut tokens) (hKind : t.kind? = some kind) (hWord : kind.isWord = true) :
    unit.Tight t := by
  obtain ⟨cs, all, hDecode, hTokens, hConforms⟩ := h
  obtain ⟨u, hu, hLexeme, hStart, hStop⟩ := hConforms.exists_word hKind hWord
  have hSolid : u ∈ unit.solid := by
    rw [solid, hDecode]
    dsimp only
    rw [hTokens, Option.getD_some]
    exact List.mem_filter.2 ⟨hu, by simp [Token.isComment, hLexeme]⟩
  obtain ⟨before, after, hSplit⟩ := List.append_of_mem hSolid
  have hBetween := Token.between_eq_singleton (hSplit ▸ hCut.inOrder_solid)
  rw [Tight, text, tightText, ← hStart, ← hStop, hSplit, hBetween,
    sliceText_of_scannedIn hDecode (Token.scannedIn_of_mem_tokens? hTokens hu)]
  simp [Token.joinText]

/-- A source that was read, together with its tight form. -/
structure TightForm (unit tight : SourceUnit) : Prop extends tight.Tightens unit where
  readable : unit.Readable
  holds : unit.Holds unit.root
  undisturbed : unit.root.All Tree.Undisturbed
  written : unit.package = packageName unit.source unit.root
  word : ∀ t, unit.Holds t → ∀ kind, t.kind? = some kind → kind.isWord = true → unit.Tight t

theorem tightForm_of_parse (h : parse source path = .ok unit) (hTight : tight.Tightens unit) :
    unit.TightForm tight := by
  obtain ⟨tokens, hCut, hPackage⟩ := exists_cut_of_parse h
  exact {
    toTightens := hTight
    readable := readable_of_parse h
    holds := holds_of_parse h
    undisturbed := undisturbed_of_treeOf? hCut.lexemes hCut.tree
    written := hPackage
    word := fun t ht kind => ht.tight_of_isWord hCut }

namespace TightForm

variable {p : Place}

/-- Where the bytes of a source are in its tight form. -/
abbrev move (unit : SourceUnit) : Nat → Nat := Token.room unit.solid

theorem text_of_tight (h : unit.TightForm tight) (ht : unit.Tight t) :
    tight.text (t.condense (move unit)) = unit.text t := by
  rw [h.text, ht]

theorem holds_of_mem (h : unit.TightForm tight) (hp : p ∈ unit.top.everything) :
    unit.Holds p.node :=
  Place.forall_mem_everything (P := fun p => unit.Holds p.node) h.holds
    (fun _ hp _ hc => hp.of_mem_children (Place.node_mem_of_mem_namedChildren hc)) p hp

theorem undisturbed_of_mem (h : unit.TightForm tight) (hp : p ∈ unit.top.everything) :
    p.node.All Tree.Undisturbed :=
  Place.forall_mem_everything (P := fun p => p.node.All Tree.Undisturbed) h.undisturbed
    (fun _ hp _ hc => hp.of_mem_children (Place.node_mem_of_mem_namedChildren hc)) p hp

section Name

/-- Declared names are the same in the tight form. -/
theorem declaredName_condense (h : unit.TightForm tight) (hHolds : unit.Holds t)
    (hUndisturbed : t.Undisturbed)
    (hKind : t.kind? ≠ some .annotationUse ∧ t.kind? ≠ some .markerAnnotationUse) :
    tight.declaredName (t.condense (move unit)) = unit.declaredName t := by
  rw [declaredName, declaredName, text?, text?, hUndisturbed.childAs?_condense]
  cases hName : t.childAs? .name with
  | none => rfl
  | some c =>
    have hc := hHolds.of_mem_children (List.mem_of_find?_eq_some hName)
    exact h.text_of_tight (h.word c hc .identifier (hHolds.kind?_of_childAs_name hKind hName) rfl)

/-- The kinds of annotations are not those of declarations. -/
theorem kind?_ne_of_kindIs {test : Kind → Bool}
    (hNot : test .annotationUse = false ∧ test .markerAnnotationUse = false)
    (hTest : t.kindIs test = true) :
    t.kind? ≠ some .annotationUse ∧ t.kind? ≠ some .markerAnnotationUse := by
  obtain ⟨kind, hKind, hPasses⟩ := (Option.any_eq_true _ _).1 hTest
  rw [hKind]
  constructor
  · rintro ⟨rfl⟩
    rw [hNot.1] at hPasses
    cases hPasses
  · rintro ⟨rfl⟩
    rw [hNot.2] at hPasses
    cases hPasses

theorem mem_chain_of_mem_enclosingTypes {q : Place} (hq : q ∈ p.enclosingTypes) : q ∈ p.chain :=
  (List.mem_filter.1 (List.mem_filter.1 hq).1).1

/-- The full name of a type is the same if the package's is. -/
theorem typeName_condense (h : unit.TightForm tight) (hPackage : tight.package = unit.package)
    (hp : p ∈ unit.top.everything) :
    tight.typeName (p.condense (move unit)) = unit.typeName p := by
  have hNames : (p.enclosingTypes.map (Place.condense (move unit))).map
      (fun q => tight.declaredName q.node) =
        p.enclosingTypes.map fun q => unit.declaredName q.node := by
    rw [List.map_map]
    apply List.map_congr_left
    intro q hq
    have hMem := Place.mem_everything_of_mem_chain rfl hp (mem_chain_of_mem_enclosingTypes hq)
    exact h.declaredName_condense (h.holds_of_mem hMem) (h.undisturbed_of_mem hMem).here
      (kind?_ne_of_kindIs (by decide) (List.mem_filter.1 hq).2)
  rw [typeName, typeName, Place.enclosingTypes_condense, hNames, hPackage]

end Name

end TightForm

section CutOut

/-! The names that are cut out of a source as they stand there. -/

/-- The names that the package declarations of a source give, of which the first counts. -/
def packageNames (root : Tree) : List Tree :=
  (root.namedChildren.filter (·.isA .packageDeclaration)).flatMap fun d =>
    d.namedChildren.filter (·.kindIs Kind.isName)

/-- The name that an import names. -/
def importedName? (t : Tree) : Option Tree := (t.children.filter (·.kindIs Kind.isName)).getLast?

/-- The imports of a source. -/
def imports (unit : SourceUnit) : List Tree :=
  unit.root.namedChildren.filter (·.isA .importDeclaration)

/-- What a declaration of a type extends. -/
def superType? (t : Tree) : Option Tree := (t.childAs? .superclass).bind (·.namedChildren.head?)

/-- The types in the lists right below a node. -/
def listedIn (t : Option Tree) : List Tree :=
  ((t.elim [] Tree.namedChildren).filter (·.isA .typeList)).flatMap Tree.namedChildren

/-- Where a declaration of a type lists what it implements, or what it extends if it declares an
interface. -/
def superInterfaces? (t : Tree) : Option Tree :=
  if t.kindIs Kind.isInterfaceDeclaration then
    t.namedChildren.find? (·.isA .extendsInterfaces)
  else t.childAs? .interfaces

/-- What the type of a parameter is taken to be. -/
def parameterType? (p : Tree) : Option Tree :=
  (p.childAs? .type).orElse fun _ =>
    p.namedChildren.find? fun c => !c.isA .modifiers && !c.isA .variableDeclarator

/-- The parameters of a method or constructor. -/
def parameterNodes (t : Tree) : List Tree :=
  ((t.childAs? .parameters).elim [] Tree.namedChildren).filter fun p =>
    p.isA .formalParameter || p.isA .spreadParameter

end CutOut

theorem find?_filter_of_first {α : Type} {keep test : α → Bool} {l : List α}
    (h : ∀ a ∈ l.find? test, keep a = true) : (l.filter keep).find? test = l.find? test := by
  induction l with
  | nil => rfl
  | cons a l ih =>
    cases hTest : test a with
    | true =>
      rw [List.find?_cons_of_pos hTest] at h ⊢
      rw [List.filter_cons_of_pos (h a rfl), List.find?_cons_of_pos hTest]
    | false =>
      have hRest := ih (by simpa [hTest] using h)
      cases hKeep : keep a <;> simp [hTest, hKeep, hRest]

section Condensed

variable {move : Nat → Nat}

theorem filter_isA_condense {kind : Kind} (hKind : kind ∉ Kind.minor) :
    (t.condense move).namedChildren.filter (·.isA kind) =
      (t.namedChildren.filter (·.isA kind)).map (Tree.condense move) :=
  Tree.filter_namedChildren_condense (by simp) fun _ _ => Tree.isA_of_isMinor hKind

theorem packageNames_condense :
    packageNames (t.condense move) = (packageNames t).map (Tree.condense move) := by
  have hName : ∀ kind ∈ Kind.minor, kind.isName = false := by decide
  rw [packageNames, filter_isA_condense (by decide), List.flatMap_map, packageNames,
    List.map_flatMap]
  apply List.flatMap_congr
  intro d _
  exact Tree.filter_namedChildren_condense (by simp) fun _ _ => Tree.kindIs_of_isMinor hName

theorem importedName?_condense :
    importedName? (t.condense move) = (importedName? t).map (Tree.condense move) := by
  have hName : ∀ kind ∈ Kind.minor, kind.isName = false := by decide
  rw [importedName?, Tree.filter_children_condense (by simp) fun _ _ =>
    Tree.kindIs_of_isMinor hName, List.getLast?_map, importedName?]

/-- The first node of what is extended is found in the tight form if it is no comment. -/
theorem superType?_condense (h : t.Undisturbed) (hFirst : ∀ c ∈ superType? t, c.isMinor = false) :
    superType? (t.condense move) = (superType? t).map (Tree.condense move) := by
  unfold superType? at hFirst ⊢
  rw [h.childAs?_condense]
  cases hSuper : t.childAs? .superclass with
  | none => rfl
  | some s =>
    rw [hSuper] at hFirst
    simp only [Option.map_some, Option.bind_some, Tree.namedChildren_condense, List.head?_map]
    cases hNamed : s.namedChildren with
    | nil => rfl
    | cons c rest =>
      have hMajor : c.isMinor = false := hFirst c (by simp [hNamed])
      simp [hMajor]

theorem superInterfaces?_condense (h : t.Undisturbed) :
    superInterfaces? (t.condense move) = (superInterfaces? t).map (Tree.condense move) := by
  rw [superInterfaces?, superInterfaces?, Tree.kindIs_condense, h.childAs?_condense,
    Tree.find?_namedChildren_condense (by simp) fun _ _ => Tree.isA_of_isMinor (by decide)]
  split_ifs <;> rfl

theorem listedIn_condense (t : Option Tree) :
    listedIn (t.map (Tree.condense move)) =
      ((listedIn t).filter (!·.isMinor)).map (Tree.condense move) := by
  cases t with
  | none => rfl
  | some t =>
    simp only [listedIn, Option.map_some, Option.elim_some]
    rw [filter_isA_condense (by decide), List.flatMap_map, List.filter_flatMap, List.map_flatMap]
    exact List.flatMap_congr fun _ _ => Tree.namedChildren_condense

theorem parameterType?_condense (h : t.Undisturbed)
    (hFirst : ∀ c ∈ parameterType? t, c.isMinor = false) :
    parameterType? (t.condense move) = (parameterType? t).map (Tree.condense move) := by
  unfold parameterType? at hFirst ⊢
  rw [h.childAs?_condense]
  cases hType : t.childAs? .type with
  | some c => rfl
  | none =>
    rw [hType] at hFirst
    simp only [Option.map_none, Option.orElse_none] at hFirst ⊢
    have hSame : ((fun c : Tree => !c.isA .modifiers && !c.isA .variableDeclarator) ∘
        Tree.condense move) = fun c => !c.isA .modifiers && !c.isA .variableDeclarator :=
      funext fun c => by simp
    rw [Tree.namedChildren_condense, List.find?_map, hSame, find?_filter_of_first]
    intro c hc
    rw [hFirst c hc]
    rfl

theorem parameterNodes_condense (h : t.Undisturbed) :
    parameterNodes (t.condense move) = (parameterNodes t).map (Tree.condense move) := by
  rw [parameterNodes, parameterNodes, h.childAs?_condense]
  cases t.childAs? .parameters with
  | none => rfl
  | some list =>
    refine Tree.filter_namedChildren_condense (by simp) fun c _ hMinor => ?_
    have hFormal : c.isA .formalParameter = false := Tree.isA_of_isMinor (by decide) hMinor
    have hSpread : c.isA .spreadParameter = false := Tree.isA_of_isMinor (by decide) hMinor
    rw [hFormal, hSpread, Bool.or_false]

end Condensed

/-- A text without spaces. -/
def spaceless (text : String) : List Char := text.toList.filter (· ≠ ' ')

/-- Whether nothing stands between the words of the names that are cut out of a source, and no
comment where a type is looked for. Spaces in the types of parameters do no harm. -/
structure Trim (unit : SourceUnit) : Prop where
  package : ∀ t ∈ (packageNames unit.root).head?, unit.Tight t
  imports : ∀ d ∈ unit.imports, ∀ t ∈ importedName? d, unit.Tight t
  superTypes : ∀ p ∈ unit.types, ∀ t ∈ superType? p.node,
    t.isMinor = false ∧ ∀ name ∈ mainTypeName? t, unit.Tight name
  superInterfaces : ∀ p ∈ unit.types, ∀ t ∈ listedIn (superInterfaces? p.node),
    ∀ name ∈ mainTypeName? t, unit.Tight name
  parameters : ∀ p ∈ unit.types, ∀ m ∈ p.members, m.kindIs Kind.isMethodDeclaration = true →
    ∀ q ∈ parameterNodes m.node, ∀ t ∈ parameterType? q,
      t.isMinor = false ∧ spaceless (unit.text t) = spaceless (unit.tightText t)

instance (unit : SourceUnit) : Decidable unit.Trim :=
  decidable_of_iff
    ((∀ t ∈ (packageNames unit.root).head?, unit.Tight t) ∧
      (∀ d ∈ unit.imports, ∀ t ∈ importedName? d, unit.Tight t) ∧
      (∀ p ∈ unit.types, ∀ t ∈ superType? p.node,
        t.isMinor = false ∧ ∀ name ∈ mainTypeName? t, unit.Tight name) ∧
      (∀ p ∈ unit.types, ∀ t ∈ listedIn (superInterfaces? p.node),
        ∀ name ∈ mainTypeName? t, unit.Tight name) ∧
      ∀ p ∈ unit.types, ∀ m ∈ p.members, m.kindIs Kind.isMethodDeclaration = true →
        ∀ q ∈ parameterNodes m.node, ∀ t ∈ parameterType? q,
          t.isMinor = false ∧ spaceless (unit.text t) = spaceless (unit.tightText t))
    ⟨fun ⟨hPackage, hImports, hTypes, hInterfaces, hParameters⟩ =>
      ⟨hPackage, hImports, hTypes, hInterfaces, hParameters⟩,
    fun ⟨hPackage, hImports, hTypes, hInterfaces, hParameters⟩ =>
      ⟨hPackage, hImports, hTypes, hInterfaces, hParameters⟩⟩

namespace TightForm

variable {p : Place}

theorem package_eq (h : unit.TightForm tight) (hTrim : unit.Trim) :
    tight.package = unit.package := by
  have hNames (source : List UInt8) (root : Tree) : packageName source root =
      (packageNames root).head?.elim "" fun name => sliceText source name.start name.stop := by
    unfold packageName packageNames
    dsimp only
    split
    case h_1 name hName => rw [hName]; rfl
    case h_2 hName => rw [hName]; rfl
  rw [h.package, h.written, hNames, hNames, h.root, packageNames_condense, List.head?_map]
  cases hHead : (packageNames unit.root).head? with
  | none => rfl
  | some name => exact h.text_of_tight (hTrim.package name hHead)

theorem imports_eq (h : unit.TightForm tight) :
    tight.imports = unit.imports.map (Tree.condense (move unit)) := by
  rw [imports, h.root]
  exact filter_isA_condense (by decide)

theorem top_eq (h : unit.TightForm tight) : tight.top = unit.top.condense (move unit) := by
  rw [top, h.root]
  rfl

/-- The types of the tight form are those of the source. -/
theorem types_eq (h : unit.TightForm tight) :
    tight.types = unit.types.map (Place.condense (move unit)) := by
  have hType : ∀ kind ∈ Kind.minor, kind.isTypeDeclaration = false := by decide
  rw [types, types, h.top_eq, Place.filter_namedChildren_condense hType, List.flatMap_map,
    List.map_flatMap]
  apply List.flatMap_congr
  intro p hp
  obtain ⟨hMem, hIs⟩ := List.mem_filter.1 hp
  have hTop := Place.mem_everything_of_mem_namedChildren (Place.mem_everything_self unit.top) hMem
  have hLower : (p.condense (move unit)).node.height ≤ tight.root.height := by
    have hChild : p.condense (move unit) ∈ tight.top.namedChildren := by
      have hAll := List.mem_map_of_mem (f := Place.condense (move unit)) hp
      rw [← Place.filter_namedChildren_condense hType, ← h.top_eq] at hAll
      exact (List.mem_filter.1 hAll).1
    exact height_le_of_mem_top hChild
  have hUpper : (p.condense (move unit)).node.height ≤ unit.root.height :=
    Nat.le_trans (Tree.height_condense_le _ p.node) (height_le_of_mem_top hMem)
  rw [Place.typesFrom_eq_of_height_le (by simpa using hIs) hLower hUpper,
    Place.typesFrom_condense (h.undisturbed_of_mem hTop)]

/-- An import says the same in the tight form. -/
theorem importParts_condense (h : unit.TightForm tight)
    (hName : ∀ name ∈ importedName? t, unit.Tight name) :
    importParts tight (t.condense (move unit)) = importParts unit t := by
  have hNames : ((t.condense (move unit)).children.filter (·.kindIs Kind.isName)).getLast? =
      (importedName? t).map (Tree.condense (move unit)) := importedName?_condense
  have hText : ((importedName? t).map (Tree.condense (move unit))).elim "" tight.text =
      (importedName? t).elim "" unit.text := by
    cases hOne : importedName? t with
    | none => rfl
    | some name => exact h.text_of_tight (hName name hOne)
  unfold importParts
  rw [hNames, hText, Tree.any_children_condense (by simp) fun c _ hMinor =>
      show c.isA .asterisk = false from Tree.isA_of_isMinor (by decide) hMinor,
    Tree.any_children_condense (fun c => by cases c <;> rfl) fun c _ hMinor => by
      cases c with
      | token => cases hMinor
      | node => rfl]
  rfl

end TightForm

end SourceUnit

namespace Symbols

/-- Tables that agree in what is known of types. -/
structure Agree (s s' : Symbols) : Prop where
  imports : s.imports = s'.imports
  types : s.types = s'.types
  superClasses : s.superClasses = s'.superClasses

theorem Agree.resolve_eq {s s' : Symbols} (h : s.Agree s') : s.resolve = s'.resolve := by
  funext name
  rw [resolve, resolve, h.imports, h.types]

end Symbols

namespace SourceUnit.TightForm

variable {unit tight : SourceUnit} {s s' : Symbols} {p : Place}

/-- The main type of what is written somewhere is the same in the tight form. -/
theorem mainType_condense (h : unit.TightForm tight) (hAgree : s.Agree s') {t : Option Tree}
    (hUndisturbed : ∀ c ∈ t, c.All Tree.Undisturbed)
    (hTight : ∀ c ∈ t, ∀ name ∈ mainTypeName? c, unit.Tight name) :
    mainType tight s' (t.map (Tree.condense (move unit))) = mainType unit s t := by
  cases t with
  | none => rfl
  | some c =>
    unfold mainType
    rw [Option.map_some, Option.bind_some, Option.bind_some,
      Tree.mainTypeName?_condense c (hUndisturbed c rfl), hAgree.resolve_eq]
    cases hName : mainTypeName? c with
    | none => rfl
    | some name =>
      have hText := h.text_of_tight (hTight c rfl name hName)
      simp only [Option.map_some, Option.bind_some, writtenType, hText]

theorem addImport_condense (h : unit.TightForm tight) (hAgree : s.Agree s') {t : Tree}
    (hName : ∀ name ∈ importedName? t, unit.Tight name) :
    (s.addImport unit t).Agree (s'.addImport tight (t.condense (move unit))) := by
  unfold Symbols.addImport
  rw [h.importParts_condense hName]
  obtain ⟨imported, isStatic, isWildcard⟩ := importParts unit t
  dsimp only
  split_ifs
  · exact hAgree
  · exact ⟨hAgree.imports, hAgree.types, hAgree.superClasses⟩
  · exact ⟨by rw [hAgree.imports], hAgree.types, hAgree.superClasses⟩

theorem addType_condense (h : unit.TightForm tight) (hTrim : unit.Trim) (hAgree : s.Agree s')
    (hp : p ∈ unit.types) (hTop : p ∈ unit.top.everything) :
    (s.addType unit p).Agree (s'.addType tight (p.condense (move unit))) where
  imports := hAgree.imports
  types := hAgree.types
  superClasses := by
    have hUndisturbed := h.undisturbed_of_mem hTop
    have hSuper := hTrim.superTypes p hp
    have hExtended : mainType tight s' (superType? (p.node.condense (move unit))) =
        mainType unit s (superType? p.node) := by
      rw [superType?_condense hUndisturbed.here fun c hc => (hSuper c hc).1]
      refine h.mainType_condense hAgree (fun c hc => ?_) fun c hc => (hSuper c hc).2
      obtain ⟨t, ht, hFirst⟩ := Option.bind_eq_some_iff.1 hc
      exact (hUndisturbed.of_mem_children (List.mem_of_find?_eq_some ht)).of_mem_children
        (List.mem_filter.1 (List.mem_of_head? hFirst)).1
    show s.superClasses.put (unit.typeName p) (mainType unit s (superType? p.node)) =
      s'.superClasses.put (tight.typeName (p.condense (move unit)))
        (mainType tight s' (superType? (p.node.condense (move unit))))
    rw [h.typeName_condense (h.package_eq hTrim) hTop, hExtended, hAgree.superClasses]

theorem mem_everything_of_mem_types (h : unit.TightForm tight) (hp : p ∈ unit.types) :
    p ∈ unit.top.everything := by
  rw [h.readable.types_eq] at hp
  exact (List.mem_filter.1 hp).1

/-- What is known of types is the same in the tight form. -/
theorem agree_ofUnit (h : unit.TightForm tight) (hTrim : unit.Trim) :
    (Symbols.ofUnit unit).Agree (Symbols.ofUnit tight) := by
  have hImports : (unit.imports.foldl (Symbols.addImport unit) {}).Agree
      (tight.imports.foldl (Symbols.addImport tight) {}) := by
    rw [h.imports_eq, List.foldl_map]
    exact List.foldl_rel (r := Symbols.Agree) ⟨rfl, rfl, rfl⟩ fun t ht s s' hAgree =>
      h.addImport_condense hAgree (hTrim.imports t ht)
  have hTypes {s s' : Symbols} (hAgree : s.Agree s') :
      (unit.types.foldl (fun s p =>
        { s with types := s.types.putNew (unit.declaredName p.node) (unit.typeName p) }) s).Agree
      (tight.types.foldl (fun s p =>
        { s with types := s.types.putNew (tight.declaredName p.node) (tight.typeName p) }) s') := by
    rw [h.types_eq, List.foldl_map]
    refine List.foldl_rel (r := Symbols.Agree) hAgree fun p hp s s' hAgree =>
      ⟨hAgree.imports, ?_, hAgree.superClasses⟩
    have hTop := h.mem_everything_of_mem_types hp
    have hName := h.declaredName_condense (h.holds_of_mem hTop) (h.undisturbed_of_mem hTop).here
      (kind?_ne_of_kindIs (by decide) (h.readable.namedType_of_mem_types hp).type)
    dsimp only
    rw [Place.node_condense, hName, h.typeName_condense (h.package_eq hTrim) hTop, hAgree.types]
  have hMembers {s s' : Symbols} (hAgree : s.Agree s') :
      (unit.types.foldl (Symbols.addType unit) s).Agree
      (tight.types.foldl (Symbols.addType tight) s') := by
    rw [h.types_eq, List.foldl_map]
    exact List.foldl_rel (r := Symbols.Agree) hAgree fun p hp s s' hAgree =>
      h.addType_condense hTrim hAgree hp (h.mem_everything_of_mem_types hp)
  exact hMembers (hTypes hImports)

end SourceUnit.TightForm

end ChangeSplit.Java
