import ChangeSplit.Proofs.Collection.Traversal
import ChangeSplit.Proofs.Java.Identity
import ChangeSplit.Proofs.Java.Mention

/-! What a statement refers to is worked out in the scope of its place, and what a method refers to
in the scope of the method. Both are the same, however deep the statement stands, so that a method
refers to what the statements of its body refer to. -/

namespace ChangeSplit.Java

namespace Place

variable {p q : Place}

/-- No declaration that can be named comes between a quiet place and what is below it. -/
theorem Quiet.enclosingMembers_of_mem_everything (h : p.Quiet) (hq : q ∈ p.everything) :
    q.enclosingMembers = p.enclosingMembers := by
  have hAll : ∀ q ∈ p.everything, q.Quiet ∧ q.enclosingMembers = p.enclosingMembers := by
    refine forall_mem_everything ⟨h, rfl⟩ fun q ⟨hQuiet, hSame⟩ c hc => ?_
    refine ⟨hQuiet.of_mem_namedChildren hc, ?_⟩
    rw [enclosingMembers_of_mem_namedChildren hc,
      List.filter_cons_of_neg (by simp [hQuiet.isNamedMember hc]), hSame]
    rfl
  exact (hAll q hq).2

theorem isType_eq_false (h : p.kindIs Kind.isMemberDeclaration = true) : p.isType = false := by
  obtain ⟨kind, hKind, hMember⟩ := exists_kind h
  rw [isType, kindIs, Tree.kindIs, hKind]
  cases kind <;> first | rfl | cases hMember

theorem isMemberDeclaration_of_isMethodDeclaration
    (h : p.kindIs Kind.isMethodDeclaration = true) :
    p.kindIs Kind.isMemberDeclaration = true := by
  obtain ⟨kind, hKind, hMethod⟩ := exists_kind h
  simp [kindIs, Tree.kindIs, hKind, Kind.isMemberDeclaration, hMethod]

end Place

namespace Subject

variable {s : Subject} {p m b : Place}

/-- The facts of a statement, in the scope of its place. -/
def statementFacts (s : Subject) (p : Place) : Facts := .ofMentions (s.statementMentions p)

/-- The scope in which the body of a method or constructor is read. -/
def methodScope (s : Subject) (m : Place) : Scope :=
  ⟨s.unit.typesAround m, localsOf s.unit s.symbols m.node⟩

/-- A method or constructor of a named type with its body, in a source that the grammar reads. -/
structure MethodOf (s : Subject) (p m b : Place) : Prop where
  readable : s.unit.Readable
  blocked : s.unit.root.Each Blocked
  type : p ∈ s.unit.types
  member : m ∈ p.members
  method : m.kindIs Kind.isMethodDeclaration = true
  body : m.childAs? .body = some b

namespace MethodOf

theorem namedType (h : s.MethodOf p m b) : p.NamedType := h.readable.namedType_of_mem_types h.type

theorem isMember (h : s.MethodOf p m b) : m.kindIs Kind.isMemberDeclaration = true :=
  Place.isMemberDeclaration_of_isMethodDeclaration h.method

theorem mem_entities (h : s.MethodOf p m b) :
    s.methodEntity m (s.unit.typeName p) ∈ s.entities := by
  refine List.mem_append_right _ (List.mem_flatMap.2 ⟨p, h.type, ?_⟩)
  rw [entitiesOfType_eq]
  refine List.mem_cons_of_mem _ (List.mem_flatMap.2 ⟨m, h.member, ?_⟩)
  rw [memberEntities_of_isMethodDeclaration _ h.method]
  exact List.mem_singleton_self _

section Scope

variable {q : Place}

theorem quiet (h : s.MethodOf p m b) : m.Quiet :=
  Place.quiet_of_isDeclaration (h.namedType.bodied_of_mem_members h.member)
    (Place.isDeclaration_of_isNamedMember (h.namedType.isNamedMember_of_mem_members h.member))
    (Place.isType_eq_false h.isMember)

/-- Every place in a method is read in the scope of the method. -/
theorem scopeAt_eq (h : s.MethodOf p m b) (hq : q ∈ m.everything) :
    scopeAt s.unit s.symbols q = s.methodScope m := by
  have hSame := h.quiet.enclosingMembers_of_mem_everything hq
  have hAround := h.namedType.enclosingMembers_of_mem_members h.member
  rw [scopeAt, SourceUnit.typesAround, Place.enclosingTypes, hSame, methodScope,
    SourceUnit.typesAround, Place.enclosingTypes]
  simp [hAround, h.isMember]

/-- The facts of a statement in a method are those of its nodes in the scope of the method. -/
theorem statementFacts_eq (h : s.MethodOf p m b) (hq : q ∈ m.everything) :
    s.statementFacts q = .ofMentions (mentionsFrom s.unit s.symbols (s.methodScope m) q) := by
  rw [statementFacts, statementMentions, Java.statementMentions, h.scopeAt_eq hq]

/-- What a part of a statement refers to, the statement refers to. -/
theorem statementFacts_subset {whole part : Place} (h : s.MethodOf p m b)
    (hWhole : whole ∈ m.everything) (hPart : part ∈ whole.everything) :
    s.statementFacts part ⊆ s.statementFacts whole := by
  rw [h.statementFacts_eq hWhole, h.statementFacts_eq (Place.mem_everything_trans hWhole hPart)]
  intro mention hMention
  rw [Facts.mem_ofMentions] at hMention ⊢
  exact mentionsFrom_subset hPart hMention

end Scope

section Body

variable {scope : Scope}

theorem each_blocked (h : s.MethodOf p m b) : m.node.Each Blocked := by
  have hType := h.type
  rw [h.readable.types_eq] at hType
  have hTop : p.node.Each Blocked :=
    Place.each_of_mem_everything h.blocked (List.mem_of_mem_filter hType)
  exact Place.node_of_mem_members (P := Tree.Each Blocked) (fun _ ht _ => ht.of_mem_children)
    (fun _ => hTop.of_mem_children) h.member

theorem body_mem (h : s.MethodOf p m b) : b ∈ m.namedChildren :=
  Place.mem_namedChildren_of_childAs? h.body

/-- The body is a block and refers to nothing by itself. -/
theorem mentionsOf_body (h : s.MethodOf p m b) : mentionsOf s.unit s.symbols scope b = [] := by
  obtain ⟨kind, hKind, hMethod⟩ := Place.exists_kind h.method
  have hAllowed := Place.allows_of_blocked h.each_blocked
    (Place.node_mem_of_mem_namedChildren h.body_mem) hKind
  have hRole : b.node.shape.role = some .body := Place.role?_of_childAs? h.body
  simp only [Grammar.bodiesOfMethods, hMethod, hRole, Bool.not_true, Bool.false_or, ne_eq,
    not_true_eq_false, decide_false, Bool.and_eq_true] at hAllowed
  obtain ⟨kind', hKind', hBlock⟩ := (Option.any_eq_true _ _).1 hAllowed.2
  exact mentionsOf_eq_nil hKind' (.inr (by simpa using hBlock))

/-- What a body refers to is what the statements in it refer to, without the comments. -/
theorem mentionsFrom_body (h : s.MethodOf p m b) :
    mentionsFrom s.unit s.symbols scope b =
      (b.namedChildren.filter (!·.node.isComment)).flatMap
        (mentionsFrom s.unit s.symbols scope) := by
  rw [mentionsFrom_eq, h.mentionsOf_body, List.nil_append, flatMap_filter_of_nil]
  intro c hc hComment
  have hBody := h.each_blocked.of_mem_children (Place.node_mem_of_mem_namedChildren h.body_mem)
  exact mentionsFrom_comment (hBody.of_mem_children (Place.node_mem_of_mem_namedChildren hc))
    (by simpa using hComment)

theorem facts_eq (h : s.MethodOf p m b) (owner : String) :
    (s.methodEntity m owner).facts =
      .unionAll ((b.namedChildren.filter (!·.node.isComment)).map s.statementFacts) := by
  have hFacts : (s.methodEntity m owner).facts =
      .ofMentions (mentionsFrom s.unit s.symbols (s.methodScope m) b) := by
    simp only [methodEntity, entity, h.body, Option.elim_some, factsIn, methodScope,
      List.flatMap_singleton]
  have hBody := Place.mem_everything_of_mem_namedChildren (Place.mem_everything_self m) h.body_mem
  have hStatement (c : Place) (hc : c ∈ b.namedChildren) : s.statementFacts c =
      .ofMentions (mentionsFrom s.unit s.symbols (s.methodScope m) c) :=
    h.statementFacts_eq (Place.mem_everything_of_mem_namedChildren hBody hc)
  ext mention
  rw [hFacts, h.mentionsFrom_body, Facts.mem_ofMentions, Facts.mem_unionAll, List.mem_flatMap]
  constructor
  · rintro ⟨c, hc, hMention⟩
    refine ⟨_, List.mem_map_of_mem hc, ?_⟩
    rwa [hStatement c (List.mem_of_mem_filter hc), Facts.mem_ofMentions]
  · rintro ⟨f, hf, hMention⟩
    obtain ⟨c, hc, rfl⟩ := List.mem_map.1 hf
    rw [hStatement c (List.mem_of_mem_filter hc), Facts.mem_ofMentions] at hMention
    exact ⟨c, hc, hMention⟩

end Body

end MethodOf

end Subject

open SourceUnit

/-- A method or constructor of a named type is described as referring to what the statements of its
body refer to, each taken alone, and no more than that. Anywhere in the body, what a part of a node
refers to, the node refers to. Only compact constructors, which have no parameter list, are not
described at all. -/
theorem facts_methodEntity_eq_unionAll {source : List UInt8} {path : String} {unit : SourceUnit}
    (h : parse source path = .ok unit) (revision : Revision) (fileIndex : Int) {p m b : Place}
    (hType : p ∈ unit.types) (hMember : m ∈ p.members)
    (hMethod : m.kindIs Kind.isMethodDeclaration = true) (hBody : m.childAs? .body = some b) :
    let s := Subject.ofUnit unit revision fileIndex
    let e := s.methodEntity m (unit.typeName p)
    e ∈ s.entities ∧
      e.facts = .unionAll ((b.namedChildren.filter (!·.node.isComment)).map s.statementFacts) ∧
      ∀ whole ∈ b.everything, ∀ part ∈ whole.everything,
        s.statementFacts part ⊆ s.statementFacts whole := by
  intro s e
  have hOf : s.MethodOf p m b := {
    readable := SourceUnit.readable_of_parse h
    blocked := SourceUnit.blocked_of_parse h
    type := hType
    member := hMember
    method := hMethod
    body := hBody }
  refine ⟨hOf.mem_entities, hOf.facts_eq _, fun whole hWhole part hPart => ?_⟩
  have hBelow :=
    Place.mem_everything_of_mem_namedChildren (Place.mem_everything_self m) hOf.body_mem
  exact hOf.statementFacts_subset (Place.mem_everything_trans hBelow hWhole) hPart

/-- A class with a method that holds a comment, a lambda expression and an anonymous class. -/
def classWithCallback : String :=
  "class A \x7b int n; static B f(C c) \x7b c.run(n); // once\n" ++
    "Runnable r = () -> new D() \x7b int n() \x7b int k = 1; return c.g(k, n); \x7d \x7d;\n" ++
    "return (B) r; \x7d \x7d"

/-- Three statements and a comment make up the body. In the anonymous class the parameter of the
method and the variable are known, and the field is found. -/
theorem facts_methodEntity_classWithCallback :
    ∃ unit p m b, parse (Utf8.encode classWithCallback) "A.java" = .ok unit ∧ p ∈ unit.types ∧
      m ∈ p.members ∧ m.childAs? .body = some b ∧
      let s := Subject.ofUnit unit .current 0
      let e := s.methodEntity m (unit.typeName p)
      b.namedChildren.length = 4 ∧
      e.facts.fieldUses.toList = ["A.n"] ∧ e.facts.typeUses.toList = ["B", "D", "Runnable"] ∧
      e.facts = .unionAll ((b.namedChildren.filter (!·.node.isComment)).map s.statementFacts) ∧
      ∀ whole ∈ b.everything, ∀ part ∈ whole.everything,
        s.statementFacts part ⊆ s.statementFacts whole := by
  have hUnit : ∃ unit ∈ (parse (Utf8.encode classWithCallback) "A.java").toOption.toList,
      ∃ p ∈ unit.types, ∃ m ∈ p.members, ∃ b ∈ (m.childAs? .body).toList,
        m.kindIs Kind.isMethodDeclaration = true ∧ b.namedChildren.length = 4 ∧
        let e := (Subject.ofUnit unit .current 0).methodEntity m (unit.typeName p)
        e.facts.fieldUses.toList = ["A.n"] ∧
          e.facts.typeUses.toList = ["B", "D", "Runnable"] := by
    decide +kernel
  obtain ⟨unit, h, p, hType, m, hMember, b, hBody, hMethod, hLength, hFields, hTypes⟩ := hUnit
  rw [mem_toOption_iff] at h
  rw [Option.mem_toList] at hBody
  have hAll := facts_methodEntity_eq_unionAll h .current 0 hType hMember hMethod hBody
  exact ⟨unit, p, m, b, h, hType, hMember, hBody, hLength, hFields, hTypes, hAll.2⟩

end ChangeSplit.Java
