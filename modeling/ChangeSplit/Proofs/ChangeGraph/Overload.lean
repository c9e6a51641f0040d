import ChangeSplit.Proofs.ChangeGraph.Origin
import ChangeSplit.Proofs.ChangeGraph.Reference
import ChangeSplit.Proofs.Java.Overload
import ChangeSplit.Proofs.Java.Statement

/-! Methods of a type that have one name, in the graph of a change. As long as the types of their
parameters show differently, each has a node of its own, with its own marks. -/

namespace ChangeSplit.ChangeGraph

open Java SourceUnit

/-- Taking in an entity makes no difference to a node with another key. -/
theorem find?_addEntity_of_key_ne {path : String} {g : ChangeGraph} {e : Entity} {key : String}
    (hKey : e.key ≠ key) (kind : NodeKind) :
    (addEntity path g e).graph.find? kind key = g.graph.find? kind key := by
  unfold addEntity
  split
  case h_1 => rfl
  case h_2 graph n hAdd =>
    obtain ⟨_, rfl, rfl⟩ := Graph.addNode_eq_ok hAdd
    simp [Graph.find?, labelOf, hKey]

/-- An entity is left out if one of its kind with its key was taken in. -/
theorem graph_addEntity_of_key_eq {path : String} {g : ChangeGraph} {e e' : Entity}
    (hKind : e.kind = e'.kind) (hKey : e.key = e'.key) :
    (addEntity path (addEntity path g e) e').graph = (addEntity path g e).graph := by
  obtain ⟨n, hn, hNodeKind, hNodeName⟩ := exists_node_addEntity path g e
  have hFound : ((addEntity path g e).graph.find? e'.kind e'.key).isSome = true :=
    List.find?_isSome.2 ⟨n, hn, by simp [hNodeKind, hNodeName, hKind, hKey]⟩
  obtain ⟨d, hd⟩ := Option.isSome_iff_exists.1 hFound
  have hAdd : (addEntity path g e).graph.addNode (labelOf e') = .error ⟨e'.kind, e'.key⟩ := by
    rw [Graph.addNode, show (labelOf e').kind = e'.kind from rfl,
      show (labelOf e').name = e'.key from rfl, hd]
  rw [addEntity, hAdd]
  rfl

/-- The node of an entity, with no marks but those of hunks that are put down to the entity. -/
structure NodeOf (subjects : List (Subject × FileChange)) (g : ChangeGraph) (e : Entity)
    (n : Node) : Prop where
  mem : n ∈ g.graph.nodes
  kind : n.kind = e.kind
  name : n.name = e.key
  marks : ∀ hunk ∈ n.marks, ∃ t ∈ subjects, ∃ h ∈ t.2.hunks, t.1.revision = e.revision ∧
    hunk = HunkName.ofIndexes t.1.fileIndex h.index ∧ PutDown t.1 h e.kind e.qualifiedName

section Build

variable {rootPath : String} {root : Folder} {path : List String} {files : List FileChange}
  {g : ChangeGraph} {s : Subject} {f : FileChange} {p m : Place}

theorem identities_of_isMethodDeclaration (hReadable : s.unit.Readable) (hp : p ∈ s.unit.types)
    (hm : m ∈ p.members) (hMethod : m.kindIs Kind.isMethodDeclaration = true) :
    s.identities m = [.of (s.methodEntity m (s.unit.typeName p))] := by
  have hNot := Place.isType_eq_false (Place.isMemberDeclaration_of_isMethodDeclaration hMethod)
  rw [Subject.identities_of_mem_members (hReadable.namedType_of_mem_types hp) hm hNot,
    Subject.memberEntities_of_isMethodDeclaration _ hMethod]
  rfl

theorem qualifiedName_methodEntity_eq_iff {source : List UInt8} {file : String} {m' : Place}
    (h : parse source file = .ok s.unit) (hp : p ∈ s.unit.types) (hm : m ∈ p.members)
    (hm' : m' ∈ p.members) (hName : s.unit.declaredName m.node = s.unit.declaredName m'.node)
    (hPlain : s.unit.PlainParameters m.node) (hPlain' : s.unit.PlainParameters m'.node) :
    (s.methodEntity m (s.unit.typeName p)).qualifiedName =
        (s.methodEntity m' (s.unit.typeName p)).qualifiedName ↔
      parameterTypes s.unit.shownText m.node = parameterTypes s.unit.shownText m'.node := by
  rw [← methodName_parametersIn_eq_iff h hp hm hm' hPlain hPlain' (s.unit.declaredName m.node)
    s.symbols]
  show s.unit.typeName p ++ "." ++ methodName (s.unit.declaredName m.node) _ =
    s.unit.typeName p ++ "." ++ methodName (s.unit.declaredName m'.node) _ ↔ _
  rw [← hName, String.append_right_inj]

/-- Every method of a source has a node in a graph that was built. -/
theorem exists_nodeOf (hBuild : build rootPath root path files = .ok g)
    (ht : (s, f) ∈ subjectsIn rootPath root path files) (hp : p ∈ s.unit.types)
    (hm : m ∈ p.members) (hMethod : m.kindIs Kind.isMethodDeclaration = true) :
    ∃ n, NodeOf (subjectsIn rootPath root path files) g
      (s.methodEntity m (s.unit.typeName p)) n := by
  have hReadable : s.unit.Readable := readable_of_mem_readable ht
  obtain ⟨hNodes, _, hTraced⟩ := origins_build hBuild
  obtain ⟨hTop, hNamed⟩ := hReadable.mem_everything_of_mem_members hp hm
    (Place.isType_eq_false (Place.isMemberDeclaration_of_isMethodDeclaration hMethod))
  have hIdentity : Identity.of (s.methodEntity m (s.unit.typeName p)) ∈ s.identities m := by
    rw [identities_of_isMethodDeclaration hReadable hp hm hMethod]
    exact List.mem_singleton_self _
  obtain ⟨n, hFound⟩ := Option.isSome_iff_exists.1 (hNodes _ ht m hTop hNamed _ hIdentity)
  have hTest := List.find?_some hFound
  simp only [Bool.and_eq_true, decide_eq_true_eq] at hTest
  obtain ⟨hKind, hName⟩ := hTest
  have hMem := List.mem_of_find?_eq_some hFound
  have hIs : n.kind = .method := hKind
  refine ⟨n, hMem, hKind, hName, fun hunk hMark => ?_⟩
  obtain ⟨t, ht, h, hh, hHunk, fullName, hPut, hKey⟩ :=
    hTraced n hMem (by simp [hIs]) (by simp [hIs]) hunk hMark
  obtain ⟨hRevision, rfl⟩ := Revision.scope_inj (hKey.symm.trans hName)
  rw [hKind] at hPut
  exact ⟨t, ht, h, hh, hRevision, hHunk, hPut⟩

end Build

/-- Methods of a type with one name, whose parameters have plainly written types, are told apart by
what shows of these types, which is all of a type but for its type arguments where these stand
together. Methods that are told apart have nodes of their own, and hunks that are put down to the
one leave the other alone. Of those that are not, the second one is left out. -/
theorem methods_apart {source : List UInt8} {path : String} {unit : SourceUnit} {p m m' : Place}
    (h : parse source path = .ok unit) (hp : p ∈ unit.types) (hm : m ∈ p.members)
    (hm' : m' ∈ p.members) (hMethod : m.kindIs Kind.isMethodDeclaration = true)
    (hMethod' : m'.kindIs Kind.isMethodDeclaration = true)
    (hName : unit.declaredName m.node = unit.declaredName m'.node)
    (hPlain : unit.PlainParameters m.node) (hPlain' : unit.PlainParameters m'.node) :
    ((∀ t ∈ [m.node, m'.node], ∀ q ∈ parameterNodes t, ∀ type ∈ parameterType? q,
        type.argumentLists.length ≤ 1) →
      (parameterTypes unit.shownText m.node = parameterTypes unit.shownText m'.node ↔
        parameterTypes unit.outerText m.node = parameterTypes unit.outerText m'.node)) ∧
    (∀ revision fileIndex path g,
      let s := Subject.ofUnit unit revision fileIndex
      let e := s.methodEntity m (unit.typeName p)
      let e' := s.methodEntity m' (unit.typeName p)
      if parameterTypes unit.shownText m.node = parameterTypes unit.shownText m'.node then
        e.qualifiedName = e'.qualifiedName ∧
          (addEntity path (addEntity path g e) e').graph = (addEntity path g e).graph
      else e.qualifiedName ≠ e'.qualifiedName ∧
        (addEntity path g e).graph.find? .method e'.key = g.graph.find? .method e'.key) ∧
    (parameterTypes unit.shownText m.node ≠ parameterTypes unit.shownText m'.node →
      ∀ rootPath root path files g, build rootPath root path files = .ok g →
        ∀ s f, (s, f) ∈ subjectsIn rootPath root path files → s.unit = unit →
          let e := s.methodEntity m (unit.typeName p)
          let e' := s.methodEntity m' (unit.typeName p)
          ∃ n n', NodeOf (subjectsIn rootPath root path files) g e n ∧
            NodeOf (subjectsIn rootPath root path files) g e' n' ∧ n.id ≠ n'.id ∧
            (∀ i ∈ s.identities m, i.qualifiedName ≠ e'.qualifiedName) ∧
            ∀ i ∈ s.identities m', i.qualifiedName ≠ e.qualifiedName) := by
  refine ⟨fun hOne => ?_, fun revision fileIndex path g => ?_, fun hDiffer => ?_⟩
  · rw [parameterTypes_shownText (hOne m.node (by simp)),
      parameterTypes_shownText (hOne m'.node (by simp))]
  · intro s e e'
    have hNames : e.qualifiedName = e'.qualifiedName ↔ _ :=
      qualifiedName_methodEntity_eq_iff (s := s) h hp hm hm' hName hPlain hPlain'
    split
    case isTrue hShown =>
      have hEq := hNames.2 hShown
      exact ⟨hEq, graph_addEntity_of_key_eq rfl (congrArg revision.scope hEq)⟩
    case isFalse hShown =>
      have hNe := fun hEq => hShown (hNames.1 hEq)
      exact ⟨hNe, find?_addEntity_of_key_ne (fun hKey => hNe (Revision.scope_inj hKey).2) _⟩
  · rintro rootPath root path files g hBuild s f ht rfl e e'
    have hReadable : s.unit.Readable := readable_of_mem_readable ht
    have hNe : e.qualifiedName ≠ e'.qualifiedName := fun hEq =>
      hDiffer ((qualifiedName_methodEntity_eq_iff h hp hm hm' hName hPlain hPlain').1 hEq)
    obtain ⟨n, hn⟩ := exists_nodeOf hBuild ht hp hm hMethod
    obtain ⟨n', hn'⟩ := exists_nodeOf hBuild ht hp hm' hMethod'
    refine ⟨n, n', hn, hn', fun hId => ?_, ?_, ?_⟩
    · obtain rfl := (origins_build hBuild).2.1.eq_of_id hn.mem hn'.mem hId
      exact hNe (Revision.scope_inj (hn.name.symm.trans hn'.name)).2
    · rw [identities_of_isMethodDeclaration hReadable hp hm hMethod]
      exact List.forall_mem_singleton.2 hNe
    · rw [identities_of_isMethodDeclaration hReadable hp hm' hMethod']
      exact List.forall_mem_singleton.2 hNe.symm

/-- A class with two methods of one name. -/
def overloadedClass : Folder := ⟨[(["current", "A.java"], Utf8.encode
  "class A\x7b\n  void f(Map<K, V>[] m)\x7b\x7d\n  void f(int... n)\x7b\x7d\n\x7d\n")]⟩

/-- The change of the second one. -/
def overloadChange : List FileChange := [
  { index := 0, currentPath := some "A.java"
    hunks := [{ index := 0, current := ⟨3, 3, ["  void f(int... n)\x7b\x7d"]⟩ }] }]

/-- Both have nodes, the marks on which can be told apart. -/
theorem methods_apart_overloadedClass :
    ∃ g s f p m m', build "" overloadedClass [] overloadChange = .ok g ∧
      (s, f) ∈ subjectsIn "" overloadedClass [] overloadChange ∧ p ∈ s.unit.types ∧
      m ∈ p.members ∧ m' ∈ p.members ∧
      let e := s.methodEntity m (s.unit.typeName p)
      let e' := s.methodEntity m' (s.unit.typeName p)
      e.key = "current:A.f(Map[])" ∧ e'.key = "current:A.f(int...)" ∧
        ∃ n n', NodeOf (subjectsIn "" overloadedClass [] overloadChange) g e n ∧
          NodeOf (subjectsIn "" overloadedClass [] overloadChange) g e' n' ∧ n.id ≠ n'.id ∧
          g.graph.touched.map (·.name) = [n'.name] := by
  have hBuilt : ∃ g ∈ (build "" overloadedClass [] overloadChange).toOption.toList,
      g.graph.touched.map (·.name) = ["current:A.f(int...)"] := by
    decide +kernel
  have hMethods : ∃ t ∈ subjectsIn "" overloadedClass [] overloadChange, ∃ p ∈ t.1.unit.types,
      ∃ m ∈ p.members, ∃ m' ∈ p.members, m.kindIs Kind.isMethodDeclaration = true ∧
        m'.kindIs Kind.isMethodDeclaration = true ∧
        t.1.unit.declaredName m.node = t.1.unit.declaredName m'.node ∧
        t.1.unit.PlainParameters m.node ∧ t.1.unit.PlainParameters m'.node ∧
        parameterTypes t.1.unit.shownText m.node ≠ parameterTypes t.1.unit.shownText m'.node ∧
        (t.1.methodEntity m (t.1.unit.typeName p)).key = "current:A.f(Map[])" ∧
        (t.1.methodEntity m' (t.1.unit.typeName p)).key = "current:A.f(int...)" := by
    decide +kernel
  obtain ⟨g, hg, hTouched⟩ := hBuilt
  have hBuild := mem_toOption_iff.1 hg
  obtain ⟨⟨s, f⟩, ht, p, hp, m, hm, m', hm', hMethod, hMethod', hName, hPlain, hPlain', hDiffer,
    hKey, hKey'⟩ := hMethods
  obtain ⟨source, _, unit, hParse, hSubject⟩ := mem_subjectsIn.1 ht
  obtain ⟨rfl, rfl⟩ := Prod.mk.inj hSubject
  obtain ⟨-, -, hApart⟩ := methods_apart hParse hp hm hm' hMethod hMethod' hName hPlain hPlain'
  obtain ⟨n, n', hn, hn', hId, -⟩ := hApart hDiffer _ _ _ _ g hBuild _ _ ht rfl
  refine ⟨g, _, _, p, m, m', hBuild, ht, hp, hm, hm', hKey, hKey', n, n', hn, hn', hId, ?_⟩
  rw [hTouched, hn'.name.trans hKey']

end ChangeSplit.ChangeGraph
