import ChangeSplit.Proofs.Java.Place
import Mathlib.Data.List.Perm.Basic

/-! Going down from the types of a source to their members passes each declaration that can be named
once, and the types in the order of the source. -/

namespace ChangeSplit.Java

namespace Place

variable {p c m : Place}

/-- Whether a declaration is of a type. -/
abbrev isType (p : Place) : Bool := p.kindIs Kind.isTypeDeclaration

/-- A type and those of its members that are not types. -/
def withOwnMembers (p : Place) : List Place := p :: p.members.filter (!·.isType)

theorem enclosingMembers_of_mem_namedChildren (hc : c ∈ p.namedChildren) :
    c.enclosingMembers = [c].filter isNamedMember ++ p.enclosingMembers := by
  rw [enclosingMembers, chain_of_mem_namedChildren hc, ← List.singleton_append, List.filter_append]
  rfl

theorem height_lt_of_mem_namedChildren (hc : c ∈ p.namedChildren) :
    c.node.height < p.node.height :=
  Tree.height_lt_of_mem_children (node_mem_of_mem_namedChildren hc)

namespace NamedType

theorem isNamedMember_of_mem_members (h : p.NamedType) (hm : m ∈ p.members) :
    m.isNamedMember = true := by
  obtain ⟨hDeclaration, body, _, hBody, hm | ⟨part, _, hPart, hm⟩⟩ := h.exists_host hm
  · rw [hBody.isNamedMember hm, hDeclaration]
  · rw [hPart.isNamedMember hm, hDeclaration]

theorem bodied_of_mem_members (h : p.NamedType) (hm : m ∈ p.members) : m.node.Each Bodied :=
  node_of_mem_members (P := Tree.Each Bodied) (fun _ ht _ => ht.of_mem_children)
    (fun _ => h.bodied.of_mem_children) hm

/-- Nothing but the type and what is around it is around a member. -/
theorem enclosingMembers_of_mem_members (h : p.NamedType) (hm : m ∈ p.members) :
    m.enclosingMembers = m :: p.enclosingMembers := by
  have hNamed := h.isNamedMember_of_mem_members hm
  obtain ⟨_, body, hMem, hBody, hm | ⟨part, hPartMem, hPart, hm⟩⟩ := h.exists_host hm
  · rw [enclosingMembers_of_mem_namedChildren hm, enclosingMembers_of_mem_namedChildren hMem]
    simp [hNamed, hBody.not_named]
  · rw [enclosingMembers_of_mem_namedChildren hm, enclosingMembers_of_mem_namedChildren hPartMem,
      enclosingMembers_of_mem_namedChildren hMem]
    simp [hNamed, hBody.not_named, hPart.not_named]

theorem of_mem_members (h : p.NamedType) (hm : m ∈ p.members) (hType : m.isType = true) :
    m.NamedType :=
  ⟨h.bodied_of_mem_members hm, h.isNamedMember_of_mem_members hm, hType⟩

theorem namedIn_of_mem_members (h : p.NamedType) (hm : m ∈ p.members) (hType : m.isType = false) :
    m.namedIn = [m] := by
  have hNamed := h.isNamedMember_of_mem_members hm
  have hDeclaration := isDeclaration_of_isNamedMember hNamed
  rw [(quiet_of_isDeclaration (h.bodied_of_mem_members hm) hDeclaration hType).namedIn]
  simp [hNamed]

theorem filter_namedIn (h : p.NamedType) :
    p.namedIn.filter isType =
      p :: (p.members.filter isType).flatMap fun m => m.namedIn.filter isType := by
  rw [h.namedIn_eq, List.filter_cons_of_pos (p := isType) h.type, List.filter_flatMap,
    flatMap_filter_of_nil]
  intro m hm hType
  simp [h.namedIn_of_mem_members hm hType, hType]

/-- Going down to the types in a type finds those that can be named, if it goes deep enough. -/
theorem typesFrom_eq {depth : Nat} (h : p.NamedType) (hDepth : p.node.height ≤ depth) :
    p.typesFrom depth = p.namedIn.filter isType := by
  induction depth generalizing p with
  | zero =>
      have hPos := height_pos h.type
      omega
  | succ depth ih =>
      rw [typesFrom, h.filter_namedIn]
      congr 1
      apply List.flatMap_congr
      intro m hm
      obtain ⟨hMem, hType⟩ := List.mem_filter.1 hm
      have hLower := height_lt_of_mem_members hMem
      exact ih (h.of_mem_members hMem hType) (by omega)

/-- The types in a type, each with its own members, are the declarations that can be named. -/
theorem perm_namedIn {depth : Nat} (h : p.NamedType) (hDepth : p.node.height ≤ depth) :
    ((p.typesFrom depth).flatMap withOwnMembers).Perm p.namedIn := by
  induction depth generalizing p with
  | zero =>
      rw [h.typesFrom_eq hDepth, h.filter_namedIn]
      have hPos := height_pos h.type
      omega
  | succ depth ih =>
      have hTypes : ((p.members.filter isType).flatMap fun m =>
          (m.typesFrom depth).flatMap withOwnMembers).Perm
            ((p.members.filter isType).flatMap namedIn) := by
        apply List.Perm.flatMap_left
        intro m hm
        obtain ⟨hMem, hType⟩ := List.mem_filter.1 hm
        have hLower := height_lt_of_mem_members hMem
        exact ih (h.of_mem_members hMem hType) (by omega)
      have hOthers : (p.members.filter (!·.isType)).flatMap namedIn =
          p.members.filter (!·.isType) := by
        rw [List.flatMap_congr (g := fun m => [m]), List.flatMap_singleton']
        intro m hm
        obtain ⟨hMem, hType⟩ := List.mem_filter.1 hm
        exact h.namedIn_of_mem_members hMem (by simpa using hType)
      have hSplit : ((p.members.filter (!·.isType)).flatMap namedIn ++
          (p.members.filter isType).flatMap namedIn).Perm (p.members.flatMap namedIn) := by
        rw [← List.flatMap_append]
        have hParts := List.perm_append_comm.trans (List.filter_append_perm isType p.members)
        exact hParts.flatMap_right _
      rw [typesFrom, List.flatMap_cons, List.flatMap_assoc, h.namedIn_eq, withOwnMembers,
        List.cons_append]
      rw [hOthers] at hSplit
      exact .cons p ((hTypes.append_left _).trans hSplit)

end NamedType

end Place

namespace SourceUnit

variable {unit : SourceUnit}

/-- A source whose tree is as the grammar wants it. -/
structure Readable (unit : SourceUnit) : Prop where
  bodied : unit.root.Each Bodied
  program : unit.root.kind? = some .program

theorem readable_of_parse {source : List UInt8} {path : String}
    (h : parse source path = .ok unit) : unit.Readable :=
  ⟨(bodied_of_parse h).1, (bodied_of_parse h).2⟩

open Place

variable {p : Place}

theorem isNamedMember_of_mem_top (h : unit.Readable) (hp : p ∈ unit.top.namedChildren) :
    p.isNamedMember = p.isType := by
  obtain ⟨t, _, rfl⟩ := List.mem_map.1 hp
  have hProgram : unit.root.isA .program = true := by simpa [Tree.isA] using h.program
  simp [top, isNamedMember, isNamedBelow, hProgram, kindIs]

theorem Readable.namedType (h : unit.Readable) (hp : p ∈ unit.top.namedChildren)
    (hType : p.isType = true) : p.NamedType where
  bodied := h.bodied.of_mem_children (node_mem_of_mem_namedChildren hp)
  named := by rw [isNamedMember_of_mem_top h hp, hType]
  type := hType

theorem Readable.namedIn_eq (h : unit.Readable) :
    unit.top.namedIn = (unit.top.namedChildren.filter isType).flatMap namedIn := by
  have hTop : unit.top.isNamedMember = false := rfl
  rw [Place.namedIn_eq, flatMap_filter_of_nil]
  · simp [hTop]
  · intro p hp (hType : p.kindIs Kind.isTypeDeclaration = false)
    have hEnum : p.node.kind? ≠ some .enumBodyDeclarations := by
      intro hEnum
      cases h.program.symm.trans (kind?_eq_enumBody h.bodied hp hEnum)
    have hRoot : unit.top.kindIs Kind.isTypeDeclaration = false := by
      simp [kindIs, Tree.kindIs, top, h.program, Kind.isTypeDeclaration]
    have hQuiet : p.Quiet := {
      bodied := h.bodied.of_mem_children (node_mem_of_mem_namedChildren hp)
      program := kind?_ne_program h.bodied hp
      hosts := by
        rw [hosts_of_mem_namedChildren hp hEnum, hRoot, Bool.and_false, Bool.false_and]
      type := by rw [hType, Bool.false_and] }
    rw [hQuiet.namedIn]
    simp [isNamedMember_of_mem_top h hp, hType]

theorem height_le_of_mem_top (hp : p ∈ unit.top.namedChildren) :
    p.node.height ≤ unit.root.height :=
  Nat.le_of_lt (height_lt_of_mem_namedChildren hp)

/-- The types found from above are those found from below, in the order of the source. -/
theorem Readable.types_eq (h : unit.Readable) :
    unit.types = unit.top.everything.filter fun p => p.isNamedMember && p.isType := by
  have hNamed : unit.top.namedIn.filter isType =
      unit.top.everything.filter fun p => p.isNamedMember && p.isType := by
    rw [namedIn, List.filter_filter]
    simp only [Bool.and_comm]
  rw [← hNamed, h.namedIn_eq, List.filter_flatMap, types]
  apply List.flatMap_congr
  intro p hp
  obtain ⟨hMem, hType⟩ := List.mem_filter.1 hp
  exact (h.namedType hMem hType).typesFrom_eq (height_le_of_mem_top hMem)

/-- The types and their own members found from above are all declarations found from below. -/
theorem Readable.perm_types (h : unit.Readable) :
    (unit.types.flatMap withOwnMembers).Perm (unit.top.everything.filter isNamedMember) := by
  have hNamed : unit.top.everything.filter isNamedMember = unit.top.namedIn := rfl
  rw [hNamed, h.namedIn_eq, types, List.flatMap_assoc]
  apply List.Perm.flatMap_left
  intro p hp
  obtain ⟨hMem, hType⟩ := List.mem_filter.1 hp
  exact (h.namedType hMem hType).perm_namedIn (height_le_of_mem_top hMem)

theorem Readable.namedType_of_mem_types (h : unit.Readable) (hp : p ∈ unit.types) :
    p.NamedType := by
  rw [h.types_eq] at hp
  obtain ⟨hMem, hBoth⟩ := List.mem_filter.1 hp
  rw [Bool.and_eq_true] at hBoth
  exact ⟨each_of_mem_everything h.bodied hMem, hBoth.1, hBoth.2⟩

/-- A member of a type that is no type itself is a declaration of the source that can be named. -/
theorem Readable.mem_everything_of_mem_members {m : Place} (h : unit.Readable)
    (hp : p ∈ unit.types) (hm : m ∈ p.members) (hNot : m.isType = false) :
    m ∈ unit.top.everything ∧ m.isNamedMember = true := by
  have hOwn : m ∈ p.withOwnMembers :=
    List.mem_cons_of_mem _ (List.mem_filter.2 ⟨hm, by rw [hNot]; rfl⟩)
  exact List.mem_filter.1 (h.perm_types.mem_iff.1 (List.mem_flatMap.2 ⟨p, hp, hOwn⟩))

end SourceUnit

end ChangeSplit.Java
