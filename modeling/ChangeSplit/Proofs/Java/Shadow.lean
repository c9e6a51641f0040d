import ChangeSplit.Proofs.Java.Statement

/-! A name that a parameter or local variable has is not taken for a field of the same name. What is
read inside a member is read with all variables that are declared anywhere in the member, wherever
Java lets them be seen. Constants of enumerations are described without any variables, and so is a
statement that stands in no member. -/

namespace ChangeSplit.Java

/-- Whether a variable that is declared somewhere in a node may be seen elsewhere in the node. No
variable is seen across the members of a type or across the variables of one declaration. -/
def Kind.holdsVariables (kind : Kind) : Bool :=
  !(kind.isTypeDeclaration || kind.isTypeBody || kind.isFieldDeclaration || kind = .program ||
    kind = .variableDeclarator)

/-- A node declares a parameter or local variable of some name. The variables of the patterns in a
switch and in records are known nowhere, and are left out. -/
inductive Tree.Declares (unit : SourceUnit) (t : Tree) : String → Prop
  | parameter {p : Tree} (hKind : t.kind? = some .formalParameters) (hp : p ∈ t.namedChildren)
      (hParameter : p.kind? = some .formalParameter) : Declares unit t (unit.declaredName p)
  | spread {p d : Tree} (hKind : t.kind? = some .formalParameters) (hp : p ∈ t.namedChildren)
      (hParameter : p.kind? = some .spreadParameter)
      (hd : p.namedChildren.filter (·.isA .variableDeclarator) = [d]) :
      Declares unit t (unit.declaredName d)
  | declarator {d : Tree} (hKind : t.kind? = some .localVariableDeclaration)
      (hd : d ∈ t.childrenAs .declarator) : Declares unit t (unit.declaredName d)
  | element {n : Tree} (hKind : t.kind? = some .enhancedForStatement)
      (hn : t.childAs? .name = some n) : Declares unit t (unit.text n)
  | resource {n : Tree} (hKind : t.kind? = some .resource) (hn : t.childAs? .name = some n) :
      Declares unit t (unit.text n)
  | caught (hKind : t.kind? = some .catchFormalParameter) : Declares unit t (unit.declaredName t)
  | argument {n : Tree} (hKind : t.kind? = some .lambdaExpression)
      (hn : t.childAs? .parameters = some n) (hName : n.kind? = some .identifier) :
      Declares unit t (unit.text n)
  | arguments {list n : Tree} (hKind : t.kind? = some .lambdaExpression)
      (hList : t.childAs? .parameters = some list)
      (hInferred : list.kind? = some .inferredParameters) (hn : n ∈ list.namedChildren) :
      Declares unit t (unit.text n)
  | matched {n : Tree} (hKind : t.kind? = some .instanceofExpression)
      (hn : t.childAs? .name = some n) : Declares unit t (unit.text n)

section Variables

variable {unit : SourceUnit} {s : Symbols} {t : Tree} {name : String}

theorem Tree.Declares.isNamed (h : t.Declares unit name) : t.isNamed = true := by
  cases h <;> simp [Tree.isNamed, *]

/-- The variable is among those that are known of the node. -/
theorem Tree.Declares.mem_variablesOf (h : t.Declares unit name) :
    name ∈ (variablesOf unit s t).map (·.1) := by
  rw [variablesOf]
  cases h with
  | @parameter p hKind hp hParameter =>
      have hMem : (unit.declaredName p, mainType unit s (p.childAs? .type)) ∈
          parametersOf unit s t :=
        List.mem_filterMap.2 ⟨p, hp, if_pos (by simp [Tree.isA, hParameter])⟩
      rw [hKind]
      exact List.mem_map_of_mem hMem
  | @spread p d hKind hp hParameter hd =>
      let types := p.namedChildren.filter fun c => !c.isA .variableDeclarator && !c.isA .modifiers
      have hMem : (unit.declaredName d, types.findSome? fun c => mainType unit s (some c)) ∈
          parametersOf unit s t := by
        refine List.mem_filterMap.2 ⟨p, hp, ?_⟩
        rw [if_neg (by simp [Tree.isA, hParameter]), if_pos (by simp [Tree.isA, hParameter])]
        simp only [hd]
        rfl
      rw [hKind]
      exact List.mem_map_of_mem hMem
  | declarator hKind hd =>
      rw [hKind, List.map_map]
      exact List.mem_map_of_mem hd
  | element hKind hn | resource hKind hn | matched hKind hn =>
      rw [hKind, hn]
      exact List.mem_singleton_self _
  | caught hKind =>
      rw [hKind]
      exact List.mem_singleton_self _
  | argument hKind hn hName =>
      rw [hKind, hn]
      simp [Tree.isA, hName]
  | @arguments list n hKind hList hInferred hn =>
      have hNot : list.isA .identifier = false := by simp [Tree.isA, hInferred]
      have hAll : list.isA .inferredParameters = true := by simp [Tree.isA, hInferred]
      rw [hKind, hList]
      simp only [hNot, hAll, Bool.false_eq_true, if_false, if_true, List.map_map]
      exact List.mem_map_of_mem hn

end Variables

namespace Place

variable {p c q a : Place}

theorem subset_backwardsAll {t : Tree} {ts : List Tree} (h : t ∈ ts) :
    backwards t ⊆ backwardsAll ts := by
  induction ts with
  | nil => cases h
  | cons u ts ih =>
      intro x hx
      rw [backwardsAll, List.mem_append]
      rcases List.mem_cons.1 h with rfl | h
      · exact .inr hx
      · exact .inl (ih h hx)

/-- All nodes below a place are passed on the way backwards. -/
theorem node_mem_backwards (hq : q ∈ p.everything) (hNamed : q.node.isNamed = true) :
    q.node ∈ backwards p.node := by
  induction p using induction with
  | h p ih =>
      rcases mem_everything_iff.1 hq with rfl | ⟨c, hc, hq⟩
      · cases hNode : q.node with
        | token => simp [hNode, Tree.isNamed, Tree.kind?] at hNamed
        | node => exact List.mem_cons_self
      · have hBelow := ih c hc hq
        have hMem := node_mem_of_mem_namedChildren hc
        cases hNode : p.node with
        | token => simp [hNode, Tree.children] at hMem
        | node role kind start stop children =>
            rw [hNode] at hMem
            exact List.mem_cons_of_mem _ (subset_backwardsAll hMem hBelow)

/-- A variable of some name is declared somewhere in a node around the place that is not cut up into
members or variables of their own. Java lets the variable be seen in a part of that node only. -/
def InScope (unit : SourceUnit) (q : Place) (name : String) : Prop :=
  ∃ a ∈ q.chain, a.kindIs Kind.holdsVariables = true ∧
    ∃ b ∈ a.everything, b.node.Declares unit name

/-- A place around which there is nothing that holds variables. -/
def Sealed (root : Place) : Prop :=
  ∀ a ∈ root.chain, a = root ∨ a.kindIs Kind.holdsVariables = false

/-- Variables in scope at a place in a sealed one are declared there too. -/
theorem InScope.hasLocal {unit : SourceUnit} {s : Symbols} {root : Place} {name : String}
    (hRoot : root.Sealed) (hq : q ∈ root.everything) (h : q.InScope unit name)
    (types : List String) : Scope.hasLocal ⟨types, localsOf unit s root.node⟩ name = true := by
  obtain ⟨a, ha, hHolds, b, hb, hDeclares⟩ := h
  have hInside : a ∈ root.everything := by
    rcases mem_everything_or_mem_chain hq ha with ha | ha
    · exact ha
    · rcases hRoot a ha with rfl | hNot
      · exact mem_everything_self a
      · rw [hHolds] at hNot
        cases hNot
  have hNode := node_mem_backwards (mem_everything_trans hInside hb) hDeclares.isNamed
  obtain ⟨variable', hMem, rfl⟩ := List.mem_map.1 (hDeclares.mem_variablesOf (s := s))
  rw [Scope.hasLocal, List.any_eq_true]
  exact ⟨variable', List.mem_flatMap.2 ⟨_, hNode, hMem⟩, by simp⟩

theorem Sealed.of_mem_namedChildren (h : p.Sealed) (hHolds : p.kindIs Kind.holdsVariables = false)
    (hc : c ∈ p.namedChildren) : c.Sealed := by
  intro a ha
  rw [chain_of_mem_namedChildren hc] at ha
  rcases List.mem_cons.1 ha with rfl | ha
  · exact .inl rfl
  · rcases h a ha with rfl | hNot
    · exact .inr hHolds
    · exact .inr hNot

theorem holdsVariables_of_kindIs {test : Kind → Bool} (h : p.kindIs test = true)
    (hTest : ∀ kind, test kind = true → kind.holdsVariables = false) :
    p.kindIs Kind.holdsVariables = false := by
  obtain ⟨kind, hKind, hPass⟩ := exists_kind h
  simp [kindIs, Tree.kindIs, hKind, hTest kind hPass]

theorem isTypeBody_of_hosts (h : p.hosts = true) : p.kindIs Kind.isTypeBody = true := by
  unfold hosts at h
  by_cases hEnum : p.node.isA .enumBodyDeclarations = true
  · have hKind := isA_iff.1 hEnum
    simp [kindIs, Tree.kindIs, hKind, Kind.isTypeBody]
  · rw [if_neg hEnum] at h
    cases hAbove : p.above with
    | nil => simp [hAbove] at h
    | cons owner rest =>
        simp only [hAbove, Bool.and_eq_true] at h
        exact h.1.1

/-- Nothing but types is around a declaration that can be named. -/
theorem sealed_of_isNamedMember {unit : SourceUnit} (h : unit.Readable)
    (hp : p ∈ unit.top.everything) (hNamed : p.isNamedMember = true) : p.Sealed := by
  -- The places on the way to such a declaration are such declarations, and what hosts them.
  have hAll : ∀ p ∈ unit.top.everything, p.node.Each Bodied ∧
      (p.node.kind? = some .program → p = unit.top) ∧
      (p.isNamedMember = true ∨ p.hosts = true ∨ p = unit.top → p.Sealed) := by
    refine forall_mem_everything ⟨h.bodied, fun _ => rfl, fun _ a ha => ?_⟩ ?_
    · exact .inl (List.mem_singleton.1 ha)
    · intro p ⟨hBodied, hTop, hSealed⟩ c hc
      have hNotProgram := kind?_ne_program hBodied hc
      refine ⟨hBodied.of_mem_children (node_mem_of_mem_namedChildren hc),
        fun hProgram => absurd hProgram hNotProgram, ?_⟩
      rintro (hNamed | hHosts | rfl)
      · by_cases hProgram : p.node.kind? = some .program
        · refine (hSealed (.inr (.inr (hTop hProgram)))).of_mem_namedChildren ?_ hc
          simp [kindIs, Tree.kindIs, hProgram, Kind.holdsVariables]
        · rw [isNamedMember_of_mem_namedChildren hc hProgram, Bool.and_eq_true] at hNamed
          refine (hSealed (.inr (.inl hNamed.2))).of_mem_namedChildren ?_ hc
          exact holdsVariables_of_kindIs (isTypeBody_of_hosts hNamed.2) fun kind hKind => by
            simp [Kind.holdsVariables, hKind]
      · by_cases hEnum : c.node.kind? = some .enumBodyDeclarations
        · have hBody := kind?_eq_enumBody hBodied hc hEnum
          rw [hosts_enumBodyDeclarations hc hEnum hBody] at hHosts
          refine (hSealed (.inr (.inl hHosts))).of_mem_namedChildren ?_ hc
          simp [kindIs, Tree.kindIs, hBody, Kind.holdsVariables, Kind.isTypeBody]
        · rw [hosts_of_mem_namedChildren hc hEnum, Bool.and_eq_true, Bool.and_eq_true] at hHosts
          refine (hSealed (.inl hHosts.2)).of_mem_namedChildren ?_ hc
          exact holdsVariables_of_kindIs hHosts.1.2 fun kind hKind => by
            simp [Kind.holdsVariables, hKind]
      · exact absurd h.program hNotProgram
  exact (hAll p hp).2.2 (.inl hNamed)

end Place

/-- A bare name that is the name of a parameter or variable in scope. -/
def Place.Shadowed (unit : SourceUnit) (q : Place) : Prop :=
  q.node.kind? = some .identifier ∧ q.InScope unit (unit.text q.node)

/-- A bare name for a value that is the name of a field of one of some types. -/
def Place.NamesField (unit : SourceUnit) (s : Symbols) (types : List String) (q : Place)
    (owner : String) : Prop :=
  q.node.kind? = some .identifier ∧ isValue q = true ∧
    s.fieldOwner types (unit.text q.node) = some owner ∧ owner ≠ ""

section Name

variable {unit : SourceUnit} {s : Symbols} {scope : Scope} {q : Place}

theorem mentionsOf_of_hasLocal (hKind : q.node.kind? = some .identifier)
    (hLocal : scope.hasLocal (unit.text q.node) = true) : mentionsOf unit s scope q = [] := by
  simp [mentionsOf, hKind, hLocal]

/-- Without variables, each such name is taken for the field. -/
theorem field_mem_mentionsOf {types : List String} {owner : String}
    (h : q.NamesField unit s types owner) :
    .field (owner ++ "." ++ unit.text q.node) ∈ mentionsOf unit s ⟨types, []⟩ q := by
  obtain ⟨hKind, hValue, hOwner, hNamed⟩ := h
  simp [mentionsOf, hKind, hValue, hOwner, hNamed, Scope.hasLocal]

end Name

namespace Subject

variable {s : Subject} {p m q : Place} {e : Entity} {scope : Scope} {parts : List Place}

/-- How a declaration in a source is described by an entity: in which scope, and from which parts of
the declaration, the facts of the entity are gathered. -/
inductive Gathers (s : Subject) : Place → Entity → Scope → List Place → Prop
  | imported {t : Tree} (ht : t ∈ s.unit.root.namedChildren.filter (·.isA .importDeclaration)) :
      Gathers s (s.unit.top.descend t) (s.importEntity t) ⟨[], []⟩ []
  | type {p : Place} (hType : p ∈ s.unit.types) : Gathers s p (s.typeEntity p) ⟨[], []⟩ []
  | method {p m : Place} (hType : p ∈ s.unit.types) (hMember : m ∈ p.members)
      (hMethod : m.kindIs Kind.isMethodDeclaration = true) :
      Gathers s m (s.methodEntity m (s.unit.typeName p)) (s.methodScope m)
        (m.childAs? .body).toList
  | field {p m : Place} {i : Nat} {d : Tree} {e : Entity} (hType : p ∈ s.unit.types)
      (hMember : m ∈ p.members) (hField : m.kindIs Kind.isFieldDeclaration = true)
      (hDeclarator : (m.node.childrenAs .declarator)[i]? = some d)
      (hEntity : (s.fieldEntities m (s.unit.typeName p))[i]? = some e) :
      Gathers s m e
        ⟨s.unit.typesAround m, (d.childAs? .value).elim [] (localsOf s.unit s.symbols)⟩
        ((m.descend d).childAs? .value).toList
  | constant {p m : Place} (hType : p ∈ s.unit.types) (hMember : m ∈ p.members)
      (hConstant : m.node.kind? = some .enumConstant) :
      Gathers s m (s.constantEntity m (s.unit.typeName p)) ⟨s.unit.typesAround m, []⟩
        (m.namedChildren.filter fun c => c.node.isA .argumentList || c.node.isA .classBody)

theorem exists_gathers (he : e ∈ s.entities) : ∃ p scope parts, s.Gathers p e scope parts := by
  rcases List.mem_append.1 he with he | he
  · obtain ⟨t, ht, rfl⟩ := List.mem_map.1 he
    exact ⟨_, _, _, .imported ht⟩
  · obtain ⟨p, hType, he⟩ := List.mem_flatMap.1 he
    rw [entitiesOfType_eq] at he
    rcases List.mem_cons.1 he with rfl | he
    · exact ⟨_, _, _, .type hType⟩
    · obtain ⟨m, hMember, he⟩ := List.mem_flatMap.1 he
      unfold memberEntities at he
      split at he
      case isTrue hField =>
        obtain ⟨i, hi⟩ := List.mem_iff_getElem?.1 he
        obtain ⟨d, hd, _⟩ : ∃ d, (m.node.childrenAs .declarator)[i]? = some d ∧ _ = e := by
          rw [fieldEntities, List.getElem?_map] at hi
          exact Option.map_eq_some_iff.1 hi
        exact ⟨_, _, _, .field hType hMember hField hd hi⟩
      case isFalse =>
        split at he
        case isTrue hConstant =>
          rw [List.mem_singleton.1 he]
          exact ⟨_, _, _, .constant hType hMember (Place.isA_iff.1 hConstant)⟩
        case isFalse =>
          split at he
          case isTrue hMethod =>
            rw [List.mem_singleton.1 he]
            exact ⟨_, _, _, .method hType hMember hMethod⟩
          case isFalse => cases he

namespace Gathers

/-- The facts are what the parts refer to. -/
theorem facts_eq (h : s.Gathers p e scope parts) :
    e.facts = .ofMentions (parts.flatMap (mentionsFrom s.unit s.symbols scope)) := by
  cases h with
  | imported | type => rfl
  | method hType hMember hMethod =>
      rw [methodEntity, entity]
      cases p.childAs? .body <;> rfl
  | @field _ _ i d _ hType hMember hField hDeclarator hEntity =>
      rw [fieldEntities, List.getElem?_map, hDeclarator] at hEntity
      cases hEntity
      show (d.childAs? .value).elim _ _ =
        Facts.ofMentions (((d.childAs? .value).map _).toList.flatMap _)
      cases d.childAs? .value <;> rfl
  | constant => rfl

/-- But for constants, the scope has the variables of a sealed place that the parts stand in. -/
theorem exists_sealed (hReadable : s.unit.Readable) (hHolds : s.unit.Holds s.unit.top.node)
    (h : s.Gathers p e scope parts) (hConstant : p.node.kind? ≠ some .enumConstant) :
    ∀ part ∈ parts, ∃ root : Place, root.Sealed ∧ part ∈ root.everything ∧
      scope = ⟨s.unit.typesAround p, localsOf s.unit s.symbols root.node⟩ := by
  cases h with
  | imported | type => exact List.forall_mem_nil _
  | method hType hMember hMethod =>
      intro b hb
      rw [Option.mem_toList] at hb
      obtain ⟨hTop, hNamed⟩ := hReadable.mem_everything_of_mem_members hType hMember
        (Place.isType_eq_false (Place.isMemberDeclaration_of_isMethodDeclaration hMethod))
      exact ⟨p, Place.sealed_of_isNamedMember hReadable hTop hNamed,
        Place.mem_everything_of_mem_namedChildren (Place.mem_everything_self p)
          (Place.mem_namedChildren_of_childAs? hb), rfl⟩
  | @field _ _ i d _ hType hMember hField hDeclarator hEntity =>
      intro v hv
      rw [Option.mem_toList] at hv
      obtain ⟨kind, hFieldKind, hSort⟩ := Place.exists_kind hField
      have hIsMember : p.kindIs Kind.isMemberDeclaration = true := by
        simp [Place.kindIs, Tree.kindIs, hFieldKind, Kind.isMemberDeclaration, hSort]
      obtain ⟨hTop, hNamed⟩ := hReadable.mem_everything_of_mem_members hType hMember
        (Place.isType_eq_false hIsMember)
      have hd : d ∈ p.node.childrenAs .declarator := List.mem_of_getElem? hDeclarator
      have hKind : (p.descend d).node.kind? = some .variableDeclarator :=
        (hHolds.of_mem_everything hTop).kind?_of_mem_childrenAs_declarator hd
      have hChild : p.descend d ∈ p.namedChildren := by
        refine Place.mem_namedChildren_iff.2 ⟨List.mem_filter.2 ⟨(List.mem_filter.1 hd).1, ?_⟩, rfl⟩
        exact Option.isSome_of_eq_some hKind
      have hSealed : (p.descend d).Sealed := by
        refine (Place.sealed_of_isNamedMember hReadable hTop hNamed).of_mem_namedChildren ?_ hChild
        exact Place.holdsVariables_of_kindIs hField fun kind hKind => by
          simp [Kind.holdsVariables, hKind]
      refine ⟨v, hSealed.of_mem_namedChildren ?_ (Place.mem_namedChildren_of_childAs? hv),
        Place.mem_everything_self v, ?_⟩
      · simp [Place.kindIs, Tree.kindIs, hKind, Kind.holdsVariables]
      · obtain ⟨t, ht, rfl⟩ := Option.map_eq_some_iff.1 hv
        have hValue : d.childAs? .value = some t := ht
        rw [hValue]
        rfl
  | constant hType hMember hKind => exact absurd hKind hConstant

/-- A constant is described without any variables. -/
theorem scope_eq (h : s.Gathers p e scope parts) (hConstant : p.node.kind? = some .enumConstant)
    {part : Place} (hPart : part ∈ parts) : scope = ⟨s.unit.typesAround p, []⟩ := by
  cases h with
  | imported | type => cases hPart
  | method hType hMember hTest | field hType hMember hTest =>
      obtain ⟨kind, hKind, hTest⟩ := Place.exists_kind hTest
      cases hKind.symm.trans hConstant
      cases hTest
  | constant => rfl

end Gathers

end Subject

open SourceUnit

/-- Wherever a statement stands in a member, it is read with the variables of a sealed place. -/
theorem exists_sealed_scopeAt {unit : SourceUnit} {s : Symbols} {p : Place} (h : unit.Readable)
    (hp : p ∈ unit.top.everything)
    (hMember : ∃ m ∈ p.enclosingMembers, m.kindIs Kind.isMemberDeclaration = true) :
    ∃ root : Place, root.Sealed ∧ p ∈ root.everything ∧
      scopeAt unit s p = ⟨unit.typesAround p, localsOf unit s root.node⟩ := by
  obtain ⟨m, hFind⟩ := Option.isSome_iff_exists.1 (List.find?_isSome.2 hMember)
  obtain ⟨hChain, hNamed⟩ := List.mem_filter.1 (List.mem_of_find?_eq_some hFind)
  refine ⟨m, Place.sealed_of_isNamedMember h ?_ hNamed, ?_, ?_⟩
  · exact Place.mem_everything_of_mem_chain rfl hp hChain
  · exact Place.mem_everything_of_mem_chain_self rfl hp hChain
  · rw [scopeAt, hFind]
    rfl

/-- A statement that stands in no member is read without any variables. -/
theorem scopeAt_of_not_exists {unit : SourceUnit} {s : Symbols} {p : Place}
    (h : ¬ ∃ m ∈ p.enclosingMembers, m.kindIs Kind.isMemberDeclaration = true) :
    scopeAt unit s p = ⟨unit.typesAround p, []⟩ := by
  have hNone : p.enclosingMembers.find? (·.kindIs Kind.isMemberDeclaration) = none :=
    List.find?_eq_none.2 fun m hm hMember => h ⟨m, hm, hMember⟩
  rw [scopeAt, hNone]
  rfl

/-- Names of parameters and variables are not taken for fields, with two exceptions. They are not in
whatever an entity is described from, unless the entity is a constant of an enumeration, and not in
a statement that stands in a field, a constant, a method or a constructor. Constants are described,
and other statements read, without any variables, so that there each bare name for a value that is
the name of a field is taken for the field. -/
theorem mentionsOf_shadowed {source : List UInt8} {path : String} {unit : SourceUnit}
    (h : parse source path = .ok unit) (revision : Revision) (fileIndex : Int) :
    let s := Subject.ofUnit unit revision fileIndex
    (∀ e ∈ s.entities, ∃ p scope parts, s.Gathers p e scope parts) ∧
    (∀ p e scope parts, s.Gathers p e scope parts →
      e.facts = .ofMentions (parts.flatMap (mentionsFrom unit s.symbols scope)) ∧
      ∀ part ∈ parts, ∀ q ∈ part.everything,
        (p.node.kind? ≠ some .enumConstant → q.Shadowed unit →
          mentionsOf unit s.symbols scope q = []) ∧
        (p.node.kind? = some .enumConstant → ∀ owner,
          q.NamesField unit s.symbols (unit.typesAround p) owner →
          .field (owner ++ "." ++ unit.text q.node) ∈ e.facts)) ∧
    ∀ p ∈ unit.top.everything, ∀ q ∈ p.everything,
      ((∃ m ∈ p.enclosingMembers, m.kindIs Kind.isMemberDeclaration = true) → q.Shadowed unit →
        mentionsOf unit s.symbols (scopeAt unit s.symbols p) q = []) ∧
      (¬ (∃ m ∈ p.enclosingMembers, m.kindIs Kind.isMemberDeclaration = true) → ∀ owner,
        q.NamesField unit s.symbols (unit.typesAround p) owner →
        .field (owner ++ "." ++ unit.text q.node) ∈ s.statementFacts p) := by
  intro s
  have hReadable := readable_of_parse h
  refine ⟨fun e he => Subject.exists_gathers he, fun p e scope parts hGathers => ?_,
    fun p hp q hq => ⟨fun hMember hShadowed => ?_, fun hNone owner hNames => ?_⟩⟩
  · refine ⟨hGathers.facts_eq, fun part hPart q hq => ⟨fun hKind hShadowed => ?_,
      fun hKind owner hNames => ?_⟩⟩
    · obtain ⟨root, hSealed, hRoot, rfl⟩ :=
        hGathers.exists_sealed hReadable (holds_of_parse h) hKind part hPart
      exact mentionsOf_of_hasLocal hShadowed.1 (hShadowed.2.hasLocal hSealed
        (Place.mem_everything_trans hRoot hq) _)
    · obtain rfl := hGathers.scope_eq hKind hPart
      rw [hGathers.facts_eq]
      exact Facts.mem_ofMentions.2 (List.mem_flatMap.2 ⟨part, hPart,
        List.mem_flatMap.2 ⟨q, hq, field_mem_mentionsOf hNames⟩⟩)
  · obtain ⟨root, hSealed, hRoot, hScope⟩ :=
      exists_sealed_scopeAt (s := s.symbols) hReadable hp hMember
    rw [hScope]
    exact mentionsOf_of_hasLocal hShadowed.1 (hShadowed.2.hasLocal hSealed
      (Place.mem_everything_trans hRoot hq) _)
  · refine Facts.mem_ofMentions.2 (List.mem_flatMap.2 ⟨q, hq, ?_⟩)
    rw [show s.unit = unit from rfl, scopeAt_of_not_exists hNone]
    exact field_mem_mentionsOf hNames

/-- An enumeration with a field, and a constant with a method whose parameter has the same name. -/
def constantWithBody : String :=
  "enum E \x7b A \x7b void f(int x) \x7b g(x); \x7d \x7d; int x; \x7d"

/-- The parameter is known to the statement that uses it, and not when the constant is described. -/
theorem mentionsOf_shadowed_constantWithBody :
    ∃ unit p m q, parse (Utf8.encode constantWithBody) "E.java" = .ok unit ∧ p ∈ unit.types ∧
      m ∈ p.members ∧ m.node.kind? = some .enumConstant ∧ q ∈ m.everything ∧ q.Shadowed unit ∧
      let s := Subject.ofUnit unit .current 0
      mentionsOf unit s.symbols (scopeAt unit s.symbols q) q = [] ∧
        .field "E.x" ∈ (s.constantEntity m (unit.typeName p)).facts := by
  have hUnit : ∃ unit ∈ (parse (Utf8.encode constantWithBody) "E.java").toOption.toList,
      ∃ p ∈ unit.types, ∃ m ∈ p.members, m.node.kind? = some .enumConstant ∧
      ∃ part ∈ m.namedChildren.filter fun c => c.node.isA .argumentList || c.node.isA .classBody,
      ∃ q ∈ part.everything, q.node.kind? = some .identifier ∧ unit.text q.node = "x" ∧
      isValue q = true ∧ (Symbols.ofUnit unit).fieldOwner (unit.typesAround m) "x" = some "E" ∧
      q.enclosingMembers.any (·.kindIs Kind.isMemberDeclaration) = true ∧
      (q.chain.any fun a => a.kindIs Kind.holdsVariables && a.everything.any fun b =>
        b.node.kind? = some .formalParameters && b.node.namedChildren.any fun n =>
          n.kind? = some .formalParameter && unit.declaredName n = "x") = true := by
    decide +kernel
  obtain ⟨unit, h, p, hType, m, hMember, hConstant, part, hPart, q, hq, hKind, hText, hValue,
    hOwner, hAround, hParameter⟩ := hUnit
  rw [List.any_eq_true] at hAround
  simp only [List.any_eq_true, Bool.and_eq_true, decide_eq_true_eq] at hParameter
  obtain ⟨a, ha, hHolds, b, hb, hList, n, hn, hParameter, hName⟩ := hParameter
  rw [mem_toOption_iff] at h
  have hShadowed : q.Shadowed unit := by
    refine ⟨hKind, a, ha, hHolds, b, hb, ?_⟩
    rw [hText, ← hName]
    exact .parameter hList hn hParameter
  have hNames : q.NamesField unit (Symbols.ofUnit unit) (unit.typesAround m) "E" :=
    ⟨hKind, hValue, hText ▸ hOwner, by decide⟩
  have hIsMember : m.kindIs Kind.isMemberDeclaration = true := by
    simp [Place.kindIs, Tree.kindIs, hConstant, Kind.isMemberDeclaration]
  have hTop := ((readable_of_parse h).mem_everything_of_mem_members hType hMember
    (Place.isType_eq_false hIsMember)).1
  have hInside : q ∈ m.everything := Place.mem_everything_trans
    (Place.mem_everything_of_mem_namedChildren (Place.mem_everything_self m)
      (List.mem_filter.1 hPart).1) hq
  obtain ⟨-, hEntities, hStatements⟩ := mentionsOf_shadowed h .current 0
  have hFacts := ((hEntities _ _ _ _ (.constant hType hMember hConstant)).2 part hPart q hq).2
    hConstant "E" hNames
  rw [hText] at hFacts
  refine ⟨unit, p, m, q, h, hType, hMember, hConstant, hInside, hShadowed, ?_, hFacts⟩
  exact (hStatements q (Place.mem_everything_trans hTop hInside) q (Place.mem_everything_self q)).1
    hAround hShadowed

end ChangeSplit.Java
