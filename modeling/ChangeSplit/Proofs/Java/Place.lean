import ChangeSplit.Proofs.Java.Body
import Mathlib.Data.List.Basic

/-! The named declarations of a source, looked for from above and from below. From above one goes
from each type to the declarations in its body. From below one asks each place whether all that is
around it stands in bodies of types. Both ways find the same declarations. -/

namespace ChangeSplit.Java

section List

variable {α β : Type}

theorem filter_eq_toList_find? {l : List α} {test : α → Bool} (h : l.countP test ≤ 1) :
    l.filter test = (l.find? test).toList := by
  rw [List.countP_eq_length_filter] at h
  rw [← List.head?_filter]
  match l.filter test, h with
  | [], _ => rfl
  | [_], _ => rfl

theorem flatMap_filter_of_nil {l : List α} {f : α → List β} {test : α → Bool}
    (h : ∀ x ∈ l, test x = false → f x = []) : (l.filter test).flatMap f = l.flatMap f := by
  induction l with
  | nil => rfl
  | cons x l ih =>
      have hRest := ih fun y hy => h y (List.mem_cons_of_mem _ hy)
      cases hx : test x with
      | true => simp [hx, hRest]
      | false => simp [hx, hRest, h x (List.mem_cons_self ..) hx]

end List

section Height

theorem Tree.height_le_heightAll {t : Tree} {ts : List Tree} (h : t ∈ ts) :
    t.height ≤ Tree.heightAll ts := by
  induction ts with
  | nil => cases h
  | cons u ts ih =>
      rw [Tree.heightAll]
      rcases List.mem_cons.1 h with rfl | h
      · exact Nat.le_max_left ..
      · exact Nat.le_trans (ih h) (Nat.le_max_right ..)

theorem Tree.height_lt_of_mem_children {t c : Tree} (h : c ∈ t.children) : c.height < t.height := by
  cases t with
  | token => cases h
  | node role kind start stop children =>
      rw [Tree.height]
      exact Nat.lt_succ_of_le (Tree.height_le_heightAll h)

end Height

namespace Place

variable {p c q : Place}

theorem mem_namedChildren_iff :
    c ∈ p.namedChildren ↔ c.node ∈ p.node.namedChildren ∧ c.above = p.node :: p.above := by
  constructor
  · intro h
    obtain ⟨t, ht, rfl⟩ := List.mem_map.1 h
    exact ⟨ht, rfl⟩
  · rintro ⟨hNode, hAbove⟩
    cases c
    cases hAbove
    exact List.mem_map_of_mem hNode

theorem node_mem_of_mem_namedChildren (h : c ∈ p.namedChildren) : c.node ∈ p.node.children :=
  (List.mem_filter.1 (mem_namedChildren_iff.1 h).1).1

/-- What is handed on from a tree to those right below it holds of the members of a type. -/
theorem node_of_mem_members {P : Tree → Prop} {m : Place}
    (hStep : ∀ t, P t → ∀ c ∈ t.children, P c) (hp : ∀ c ∈ p.node.children, P c)
    (hm : m ∈ p.members) : P m.node := by
  unfold members at hm
  split at hm
  case h_1 => cases hm
  case h_2 body hBody =>
    obtain ⟨t, ht, rfl⟩ := Option.map_eq_some_iff.1 hBody
    obtain ⟨c, hc, hMember⟩ := List.mem_flatMap.1 hm
    have hPart : P c.node :=
      hStep t (hp t (List.mem_of_find?_eq_some ht)) _ (node_mem_of_mem_namedChildren hc)
    split at hMember
    case isTrue =>
      exact hStep _ hPart _ (node_mem_of_mem_namedChildren (List.mem_filter.1 hMember).1)
    case isFalse =>
      split at hMember
      case isTrue =>
        rw [List.mem_singleton.1 hMember]
        exact hPart
      case isFalse => cases hMember

theorem height_lt_of_mem_members {m : Place} (hm : m ∈ p.members) :
    m.node.height < p.node.height :=
  node_of_mem_members (P := fun t => t.height < p.node.height)
    (fun _ ht _ hc => Nat.lt_trans (Tree.height_lt_of_mem_children hc) ht)
    (fun _ => Tree.height_lt_of_mem_children) hm

/-- What holds of a place if it holds of the places right below, holds of every place. -/
theorem induction {motive : Place → Prop}
    (h : ∀ p : Place, (∀ c ∈ p.namedChildren, motive c) → motive p) (p : Place) : motive p := by
  induction hHeight : p.node.height using Nat.strongRecOn generalizing p with
  | ind n ih =>
      apply h
      intro c hc
      have hLower := Tree.height_lt_of_mem_children (node_mem_of_mem_namedChildren hc)
      exact ih c.node.height (hHeight ▸ hLower) c rfl

theorem belowAll_eq (above ts : List Tree) :
    belowAll above ts =
      ((ts.filter Tree.isNamed).map fun t => (⟨t, above⟩ : Place)).flatMap everything := by
  induction ts with
  | nil => rfl
  | cons t ts ih =>
      rw [belowAll, ih]
      by_cases ht : t.isNamed = true
      · simp [ht, everything]
      · simp [ht]

theorem everything_eq (p : Place) : p.everything = p :: p.namedChildren.flatMap everything := by
  rw [everything]
  obtain ⟨t, above⟩ := p
  cases t with
  | token => rfl
  | node role kind start stop children =>
      show _ :: below above _ = _
      rw [below, belowAll_eq]
      rfl

theorem mem_everything_self (p : Place) : p ∈ p.everything := List.mem_cons_self ..

theorem mem_everything_iff :
    q ∈ p.everything ↔ q = p ∨ ∃ c ∈ p.namedChildren, q ∈ c.everything := by
  rw [everything_eq, List.mem_cons, List.mem_flatMap]

theorem mem_everything_of_mem_namedChildren {top : Place} (h : p ∈ top.everything)
    (hc : c ∈ p.namedChildren) : c ∈ top.everything := by
  induction top using induction with
  | h top ih =>
      rcases mem_everything_iff.1 h with rfl | ⟨d, hd, h⟩
      · exact mem_everything_iff.2 (.inr ⟨c, hc, mem_everything_self c⟩)
      · exact mem_everything_iff.2 (.inr ⟨d, hd, ih d hd h⟩)

/-- What holds at the top and is handed on to the places right below holds everywhere. -/
theorem forall_mem_everything {P : Place → Prop} {top : Place} (hTop : P top)
    (hStep : ∀ p, P p → ∀ c ∈ p.namedChildren, P c) : ∀ p ∈ top.everything, P p := by
  induction top using induction with
  | h top ih =>
      intro p hp
      rcases mem_everything_iff.1 hp with rfl | ⟨c, hc, hp⟩
      · exact hTop
      · exact ih c hc (hStep top hTop c hc) p hp

theorem mem_everything_trans {whole part : Place} (hWhole : whole ∈ p.everything)
    (hPart : part ∈ whole.everything) : part ∈ p.everything :=
  forall_mem_everything (P := (· ∈ p.everything)) hWhole
    (fun _ hq _ hc => mem_everything_of_mem_namedChildren hq hc) part hPart

theorem each_of_mem_everything {P : Kind → List Shape → Prop} {top : Place}
    (hTop : top.node.Each P) (h : p ∈ top.everything) : p.node.Each P :=
  forall_mem_everything (P := fun p => p.node.Each P) hTop
    (fun _ hp _ hc => hp.of_mem_children (node_mem_of_mem_namedChildren hc)) p h

theorem role?_of_childAs? {role : Role} (h : p.childAs? role = some c) :
    c.node.role? = some role := by
  obtain ⟨t, ht, rfl⟩ := Option.map_eq_some_iff.1 h
  have hRole := List.find?_some ht
  simpa [descend] using hRole

/-- What plays a role is a node, since bare tokens play none. -/
theorem mem_namedChildren_of_childAs? {role : Role} (h : p.childAs? role = some c) :
    c ∈ p.namedChildren := by
  have hRole := role?_of_childAs? h
  obtain ⟨t, ht, rfl⟩ := Option.map_eq_some_iff.1 h
  refine mem_namedChildren_iff.2 ⟨List.mem_filter.2 ⟨List.mem_of_find?_eq_some ht, ?_⟩, rfl⟩
  cases t with
  | token => cases hRole
  | node => rfl

theorem chain_of_mem_namedChildren (h : c ∈ p.namedChildren) : c.chain = c :: p.chain := by
  obtain ⟨t, _, rfl⟩ := List.mem_map.1 h
  rfl

theorem chain_of_above_eq_nil (h : p.above = []) : p.chain = [p] := by
  obtain ⟨node, above⟩ := p
  cases h
  rfl

/-- What is around a place is inside or around any other place around it. -/
theorem mem_everything_or_mem_chain {root : Place} (hp : p ∈ root.everything) (hq : q ∈ p.chain) :
    q ∈ root.everything ∨ q ∈ root.chain := by
  have hAll : ∀ p ∈ root.everything,
      p ∈ root.everything ∧ ∀ q ∈ p.chain, q ∈ root.everything ∨ q ∈ root.chain := by
    refine forall_mem_everything ⟨mem_everything_self root, fun _ => .inr⟩ ?_
    intro p ⟨hMem, hChain⟩ c hc
    have hBelow := mem_everything_of_mem_namedChildren hMem hc
    refine ⟨hBelow, fun q hq => ?_⟩
    rw [chain_of_mem_namedChildren hc] at hq
    rcases List.mem_cons.1 hq with rfl | hq
    · exact .inl hBelow
    · exact hChain q hq
  exact (hAll p hp).2 q hq

/-- The places above a place of a source are places of the source. -/
theorem mem_everything_of_mem_chain {top : Place} (hTop : top.above = []) (hp : p ∈ top.everything)
    (hq : q ∈ p.chain) : q ∈ top.everything := by
  rcases mem_everything_or_mem_chain hp hq with hMem | hAbove
  · exact hMem
  · rw [chain_of_above_eq_nil hTop, List.mem_singleton] at hAbove
    rw [hAbove]
    exact mem_everything_self top

/-- A place of a source is inside every place around it. -/
theorem mem_everything_of_mem_chain_self {top : Place} (hTop : top.above = [])
    (hp : p ∈ top.everything) (hq : q ∈ p.chain) : p ∈ q.everything := by
  refine forall_mem_everything (P := fun p => ∀ q ∈ p.chain, p ∈ q.everything) ?_ ?_ p hp q hq
  · intro q hq
    rw [chain_of_above_eq_nil hTop, List.mem_singleton] at hq
    rw [hq]
    exact mem_everything_self top
  · intro p hChain c hc q hq
    rw [chain_of_mem_namedChildren hc] at hq
    rcases List.mem_cons.1 hq with rfl | hq
    · exact mem_everything_self q
    · exact mem_everything_of_mem_namedChildren (hChain q hq) hc

/-- Whether a declaration right below a place that is not the source can be named: the place is the
body of a type that can be, or the part of the body of an enumeration that holds declarations. -/
def hosts (p : Place) : Bool :=
  let own := if p.node.isA .enumBodyDeclarations then p.above else p.node :: p.above
  match own with
  | body :: owner :: rest =>
    body.kindIs Kind.isTypeBody && owner.kindIs Kind.isTypeDeclaration && isNamedBelow owner rest
  | _ => false

end Place

theorem SourceUnit.above_top (unit : SourceUnit) : unit.top.above = [] := rfl

/-- Kinds that are declarations are no bodies. -/
theorem Kind.isTypeBody_of_isDeclaration {kind : Kind} (h : kind.isDeclaration = true) :
    kind.isTypeBody = false := by
  cases kind <;> first | rfl | cases h

namespace Place

variable {p c q m : Place}

theorem isA_iff {kind : Kind} : p.node.isA kind = true ↔ p.node.kind? = some kind := by
  simp [Tree.isA]

theorem isNamedMember_of_mem_namedChildren (hc : c ∈ p.namedChildren)
    (hProgram : p.node.kind? ≠ some .program) :
    c.isNamedMember = (c.kindIs Kind.isDeclaration && p.hosts) := by
  obtain ⟨t, _, rfl⟩ := List.mem_map.1 hc
  obtain ⟨node, above⟩ := p
  have hNot : node.isA .program = false := by simpa [Tree.isA] using hProgram
  rcases above with _ | ⟨upper, _ | ⟨owner, rest⟩⟩
  all_goals
    cases hEnum : node.isA .enumBodyDeclarations <;>
      simp [isNamedMember, isNamedBelow, hosts, kindIs, hNot, hEnum]

theorem hosts_of_mem_namedChildren (hc : c ∈ p.namedChildren)
    (hEnum : c.node.kind? ≠ some .enumBodyDeclarations) :
    c.hosts = (c.kindIs Kind.isTypeBody && p.kindIs Kind.isTypeDeclaration && p.isNamedMember) := by
  obtain ⟨t, _, rfl⟩ := List.mem_map.1 hc
  have hNot : t.isA .enumBodyDeclarations = false := by simpa [Tree.isA] using hEnum
  simp [hosts, hNot, kindIs, isNamedMember]

theorem hosts_enumBodyDeclarations (hc : c ∈ p.namedChildren)
    (hEnum : c.node.kind? = some .enumBodyDeclarations) (hBody : p.node.kind? = some .enumBody) :
    c.hosts = p.hosts := by
  obtain ⟨t, _, rfl⟩ := List.mem_map.1 hc
  have hPart : t.isA .enumBodyDeclarations = true := by simpa [Tree.isA] using hEnum
  have hNot : p.node.isA .enumBodyDeclarations = false := by simp [Tree.isA, hBody]
  simp [hosts, hPart, hNot]

theorem exists_bodied (hBodied : p.node.Each Bodied) (hc : c ∈ p.namedChildren) :
    ∃ kind shapes, p.node.kind? = some kind ∧ Bodied kind shapes ∧ c.node.shape ∈ shapes := by
  have hMem := node_mem_of_mem_namedChildren hc
  cases hKind : p.node.kind? with
  | none =>
      cases hNode : p.node with
      | token => rw [hNode] at hMem; cases hMem
      | node => rw [hNode] at hKind; cases hKind
  | some kind => exact ⟨kind, _, rfl, hBodied.here hKind, List.mem_map_of_mem hMem⟩

theorem kind?_ne_program (hBodied : p.node.Each Bodied) (hc : c ∈ p.namedChildren) :
    c.node.kind? ≠ some .program := by
  obtain ⟨_, _, _, hBelow, hShape⟩ := exists_bodied hBodied hc
  exact hBelow.program _ hShape

theorem kind?_eq_enumBody (hBodied : p.node.Each Bodied) (hc : c ∈ p.namedChildren)
    (hEnum : c.node.kind? = some .enumBodyDeclarations) : p.node.kind? = some .enumBody := by
  obtain ⟨kind, _, hKind, hBelow, hShape⟩ := exists_bodied hBodied hc
  rw [hKind, hBelow.enumBody _ hShape hEnum]

/-- The named declarations at and below a place, in the order of the source. -/
def namedIn (p : Place) : List Place := p.everything.filter isNamedMember

theorem namedIn_eq (p : Place) :
    p.namedIn = [p].filter isNamedMember ++ p.namedChildren.flatMap namedIn := by
  rw [namedIn, everything_eq, ← List.singleton_append, List.filter_append, List.filter_flatMap]
  rfl

/-- A place below which no declaration can be named from outside. -/
structure Quiet (p : Place) : Prop where
  bodied : p.node.Each Bodied
  program : p.node.kind? ≠ some .program
  hosts : p.hosts = false
  type : (p.kindIs Kind.isTypeDeclaration && p.isNamedMember) = false

theorem Quiet.isNamedMember (h : p.Quiet) (hc : c ∈ p.namedChildren) : c.isNamedMember = false := by
  rw [isNamedMember_of_mem_namedChildren hc h.program, h.hosts, Bool.and_false]

theorem Quiet.of_mem_namedChildren (h : p.Quiet) (hc : c ∈ p.namedChildren) : c.Quiet where
  bodied := h.bodied.of_mem_children (node_mem_of_mem_namedChildren hc)
  program := kind?_ne_program h.bodied hc
  hosts := by
    by_cases hEnum : c.node.kind? = some .enumBodyDeclarations
    · rw [hosts_enumBodyDeclarations hc hEnum (kind?_eq_enumBody h.bodied hc hEnum), h.hosts]
    · rw [hosts_of_mem_namedChildren hc hEnum, Bool.and_assoc, h.type, Bool.and_false]
  type := by rw [h.isNamedMember hc, Bool.and_false]

theorem Quiet.namedIn (h : p.Quiet) : p.namedIn = [p].filter Place.isNamedMember := by
  induction p using induction with
  | h p ih =>
      have hNone : p.namedChildren.flatMap Place.namedIn = [] := by
        rw [List.flatMap_eq_nil_iff]
        intro c hc
        rw [ih c hc (h.of_mem_namedChildren hc)]
        simp [h.isNamedMember hc]
      rw [namedIn_eq, hNone, List.append_nil]

/-- A declaration of a type that can be named, in a source that the grammar reads. -/
structure NamedType (p : Place) : Prop where
  bodied : p.node.Each Bodied
  named : p.isNamedMember = true
  type : p.kindIs Kind.isTypeDeclaration = true

theorem exists_kind {test : Kind → Bool} (h : p.kindIs test = true) :
    ∃ kind, p.node.kind? = some kind ∧ test kind = true :=
  (Option.any_eq_true _ _).1 h

theorem height_pos {test : Kind → Bool} (h : p.kindIs test = true) : 0 < p.node.height := by
  obtain ⟨kind, hKind, _⟩ := exists_kind h
  cases hNode : p.node with
  | token => rw [hNode] at hKind; cases hKind
  | node => exact Nat.succ_pos _

theorem kindIs_of_isDeclaration (h : p.kindIs Kind.isDeclaration = true) :
    p.kindIs Kind.isTypeBody = false ∧ p.node.kind? ≠ some .enumBodyDeclarations := by
  obtain ⟨kind, hKind, hDeclaration⟩ := exists_kind h
  have hBody := Kind.isTypeBody_of_isDeclaration hDeclaration
  refine ⟨by simp [kindIs, Tree.kindIs, hKind, hBody], fun hEnum => ?_⟩
  cases hKind.symm.trans hEnum
  cases hBody

theorem hosts_of_isDeclaration (h : p.kindIs Kind.isDeclaration = true) : p.hosts = false := by
  obtain ⟨hBody, hEnum⟩ := kindIs_of_isDeclaration h
  have hNot : p.node.isA .enumBodyDeclarations = false := by simpa [Tree.isA] using hEnum
  rw [kindIs] at hBody
  rcases hAbove : p.above with _ | ⟨owner, rest⟩ <;> simp [hosts, hNot, hBody, hAbove]

theorem isDeclaration_of_isTypeDeclaration (h : p.kindIs Kind.isTypeDeclaration = true) :
    p.kindIs Kind.isDeclaration = true := by
  obtain ⟨kind, hKind, hType⟩ := exists_kind h
  simp [kindIs, Tree.kindIs, hKind, Kind.isDeclaration, hType]

/-- What is below a declaration that is no type cannot be named. -/
theorem quiet_of_isDeclaration (hBodied : p.node.Each Bodied)
    (h : p.kindIs Kind.isDeclaration = true) (hType : p.kindIs Kind.isTypeDeclaration = false) :
    p.Quiet where
  bodied := hBodied
  program hProgram := by
    obtain ⟨kind, hKind, hDeclaration⟩ := exists_kind h
    cases hKind.symm.trans hProgram
    cases hDeclaration
  hosts := hosts_of_isDeclaration h
  type := by rw [hType, Bool.false_and]

namespace NamedType

variable {body : Place}

theorem program (h : p.NamedType) : p.node.kind? ≠ some .program := by
  intro hProgram
  obtain ⟨kind, hKind, hType⟩ := exists_kind h.type
  cases hKind.symm.trans hProgram
  cases hType

theorem declaration (h : p.NamedType) : p.kindIs Kind.isDeclaration = true :=
  isDeclaration_of_isTypeDeclaration h.type

theorem isNamedMember (h : p.NamedType) (hc : c ∈ p.namedChildren) : c.isNamedMember = false := by
  rw [isNamedMember_of_mem_namedChildren hc h.program, hosts_of_isDeclaration h.declaration,
    Bool.and_false]

theorem kind?_ne (h : p.NamedType) (hc : c ∈ p.namedChildren) :
    c.node.kind? ≠ some .enumBodyDeclarations := by
  intro hEnum
  obtain ⟨kind, hKind, hType⟩ := exists_kind h.type
  cases hKind.symm.trans (kind?_eq_enumBody h.bodied hc hEnum)
  cases hType

theorem hosts (h : p.NamedType) (hc : c ∈ p.namedChildren) :
    c.hosts = c.kindIs Kind.isTypeBody := by
  rw [hosts_of_mem_namedChildren hc (h.kind?_ne hc), h.type, h.named, Bool.and_true, Bool.and_true]

/-- The body of a type is the child of such a kind. -/
theorem isTypeBody_iff (h : p.NamedType) (hc : c ∈ p.namedChildren) :
    c.kindIs Kind.isTypeBody = true ↔ c.node.role? = some .body := by
  obtain ⟨kind, _, hKind, hBelow, hShape⟩ := exists_bodied h.bodied hc
  obtain ⟨_, hKind', hType⟩ := exists_kind h.type
  cases hKind.symm.trans hKind'
  exact hBelow.body hType _ hShape

theorem quiet (h : p.NamedType) (hc : c ∈ p.namedChildren)
    (hRole : c.node.role? ≠ some .body) : c.Quiet where
  bodied := h.bodied.of_mem_children (node_mem_of_mem_namedChildren hc)
  program := kind?_ne_program h.bodied hc
  hosts := by
    rw [h.hosts hc, ← Bool.not_eq_true, h.isTypeBody_iff hc]
    exact hRole
  type := by rw [h.isNamedMember hc, Bool.and_false]

theorem filter_namedChildren (h : p.NamedType) :
    (p.namedChildren.filter fun c => c.node.role? = some .body) = (p.childAs? .body).toList := by
  obtain ⟨kind, hKind, hType⟩ := exists_kind h.type
  have hOnce := (h.bodied.here hKind).once hType
  rw [List.countP_map] at hOnce
  have hFilter : (p.node.children.filter fun t => t.role? = some .body) =
      (p.node.childAs? .body).toList := filter_eq_toList_find? hOnce
  have hNamed : (p.node.namedChildren.filter fun t => t.role? = some .body) =
      p.node.children.filter fun t => t.role? = some .body := by
    rw [Tree.namedChildren, List.filter_filter]
    apply List.filter_congr
    intro t _
    cases t <;> simp [Tree.role?, Tree.isNamed, Tree.kind?]
  rw [namedChildren, List.filter_map, childAs?, Option.toList_map, ← hFilter, ← hNamed]
  rfl

/-- All that can be named below a type is in its body. -/
theorem flatMap_namedChildren (h : p.NamedType) :
    p.namedChildren.flatMap namedIn = (p.childAs? .body).toList.flatMap namedIn := by
  rw [← h.filter_namedChildren, flatMap_filter_of_nil]
  intro c hc hRole
  rw [decide_eq_false_iff_not] at hRole
  rw [(h.quiet hc hRole).namedIn]
  simp [h.isNamedMember hc]

theorem mem_of_childAs? (hBody : p.childAs? .body = some body) :
    body ∈ p.namedChildren ∧ body.node.role? = some .body :=
  ⟨mem_namedChildren_of_childAs? hBody, role?_of_childAs? hBody⟩

end NamedType

/-- The body of a type that can be named, or the part of it that holds declarations. -/
structure Host (p : Place) : Prop where
  bodied : p.node.Each Bodied
  type : p.kindIs Kind.isTypeBody = true
  hosts : p.hosts = true

theorem NamedType.host (h : p.NamedType) {body : Place} (hBody : p.childAs? .body = some body) :
    body.Host := by
  obtain ⟨hMem, hRole⟩ := NamedType.mem_of_childAs? hBody
  have hType := (h.isTypeBody_iff hMem).2 hRole
  exact {
    bodied := h.bodied.of_mem_children (node_mem_of_mem_namedChildren hMem)
    type := hType
    hosts := by rw [h.hosts hMem, hType] }

theorem isDeclaration_of_isNamedMember (h : p.isNamedMember = true) :
    p.kindIs Kind.isDeclaration = true := by
  obtain ⟨node, above⟩ := p
  rcases above with _ | ⟨parent, _ | ⟨upper, _ | ⟨owner, rest⟩⟩⟩
  · cases h
  · simp only [isNamedMember, isNamedBelow, Bool.and_eq_true] at h
    exact isDeclaration_of_isTypeDeclaration h.2
  all_goals
    simp only [isNamedMember, isNamedBelow, Bool.and_eq_true] at h
    exact h.1

namespace Host

theorem declaration (h : p.Host) : p.kindIs Kind.isDeclaration = false := by
  rw [← Bool.not_eq_true]
  intro hDeclaration
  have hBody := h.type
  rw [(kindIs_of_isDeclaration hDeclaration).1] at hBody
  cases hBody

theorem not_named (h : p.Host) : p.isNamedMember = false := by
  rw [← Bool.not_eq_true]
  intro hNamed
  have hDeclaration := h.declaration
  rw [isDeclaration_of_isNamedMember hNamed] at hDeclaration
  cases hDeclaration

theorem program (h : p.Host) : p.node.kind? ≠ some .program := by
  intro hProgram
  obtain ⟨kind, hKind, hBody⟩ := exists_kind h.type
  cases hKind.symm.trans hProgram
  cases hBody

theorem isNamedMember (h : p.Host) (hc : c ∈ p.namedChildren) :
    c.isNamedMember = c.kindIs Kind.isDeclaration := by
  rw [isNamedMember_of_mem_namedChildren hc h.program, h.hosts, Bool.and_true]

theorem quiet (h : p.Host) (hc : c ∈ p.namedChildren)
    (hEnum : c.node.kind? ≠ some .enumBodyDeclarations)
    (hDeclaration : c.kindIs Kind.isDeclaration = false) : c.Quiet where
  bodied := h.bodied.of_mem_children (node_mem_of_mem_namedChildren hc)
  program := kind?_ne_program h.bodied hc
  hosts := by
    have hType : p.kindIs Kind.isTypeDeclaration = false := by
      rw [← Bool.not_eq_true]
      intro hType
      have hNot := h.declaration
      rw [isDeclaration_of_isTypeDeclaration hType] at hNot
      cases hNot
    rw [hosts_of_mem_namedChildren hc hEnum, hType, Bool.and_false, Bool.false_and]
  type := by rw [h.isNamedMember hc, hDeclaration, Bool.and_false]

theorem namedIn_eq_nil (h : p.Host) (hc : c ∈ p.namedChildren)
    (hEnum : c.node.kind? ≠ some .enumBodyDeclarations)
    (hDeclaration : c.kindIs Kind.isDeclaration = false) : c.namedIn = [] := by
  rw [(h.quiet hc hEnum hDeclaration).namedIn]
  simp [h.isNamedMember hc, hDeclaration]

/-- The part of a body that holds declarations is a place for them too. -/
theorem part (h : p.Host) (hc : c ∈ p.namedChildren)
    (hEnum : c.node.kind? = some .enumBodyDeclarations) : c.Host where
  bodied := h.bodied.of_mem_children (node_mem_of_mem_namedChildren hc)
  type := by simp [kindIs, Tree.kindIs, hEnum, Kind.isTypeBody]
  hosts := by
    rw [hosts_enumBodyDeclarations hc hEnum (kind?_eq_enumBody h.bodied hc hEnum), h.hosts]

theorem namedIn_eq (h : p.Host) : p.namedIn = p.namedChildren.flatMap namedIn := by
  rw [Place.namedIn_eq]
  simp [h.not_named]

theorem namedIn_part (h : p.Host) (hEnum : p.node.kind? = some .enumBodyDeclarations) :
    p.namedIn = (p.namedChildren.filter (·.kindIs Kind.isDeclaration)).flatMap namedIn := by
  rw [h.namedIn_eq, flatMap_filter_of_nil]
  intro c hc hDeclaration
  apply h.namedIn_eq_nil hc _ hDeclaration
  intro hPart
  cases hEnum.symm.trans (kind?_eq_enumBody h.bodied hc hPart)

end Host

namespace NamedType

/-- The declarations that can be named in a type are the type and those in its members. -/
theorem namedIn_eq (h : p.NamedType) : p.namedIn = p :: p.members.flatMap namedIn := by
  rw [Place.namedIn_eq, h.flatMap_namedChildren, members]
  cases hBody : p.childAs? .body with
  | none => simp [h.named]
  | some body =>
      have hHost := h.host hBody
      simp only [h.named, List.filter_cons_of_pos, List.filter_nil, Option.toList_some,
        List.flatMap_singleton, List.singleton_append, hHost.namedIn_eq, List.flatMap_assoc]
      congr 1
      apply List.flatMap_congr
      intro c hc
      by_cases hEnum : c.node.kind? = some .enumBodyDeclarations
      · rw [if_pos (isA_iff.2 hEnum), (hHost.part hc hEnum).namedIn_part hEnum]
      · rw [if_neg (fun hPart => hEnum (isA_iff.1 hPart))]
        cases hDeclaration : c.kindIs Kind.isDeclaration with
        | true => simp
        | false => simpa using hHost.namedIn_eq_nil hc hEnum hDeclaration

/-- Between a type and a member of it there are only parts of its body. -/
theorem exists_host (h : p.NamedType) (hm : m ∈ p.members) :
    m.kindIs Kind.isDeclaration = true ∧ ∃ body ∈ p.namedChildren, body.Host ∧
      (m ∈ body.namedChildren ∨
        ∃ part ∈ body.namedChildren, part.Host ∧ m ∈ part.namedChildren) := by
  rw [members] at hm
  cases hBody : p.childAs? .body with
  | none =>
      rw [hBody] at hm
      cases hm
  | some body =>
      rw [hBody] at hm
      have hHost := h.host hBody
      obtain ⟨c, hc, hm⟩ := List.mem_flatMap.1 hm
      split at hm
      case isTrue hPart =>
        obtain ⟨hMem, hDeclaration⟩ := List.mem_filter.1 hm
        exact ⟨hDeclaration, body, (mem_of_childAs? hBody).1, hHost,
          .inr ⟨c, hc, hHost.part hc (isA_iff.1 hPart), hMem⟩⟩
      case isFalse =>
        split at hm
        case isTrue hDeclaration =>
          rw [List.mem_singleton.1 hm]
          exact ⟨hDeclaration, body, (mem_of_childAs? hBody).1, hHost, .inl hc⟩
        case isFalse => cases hm

end NamedType

end Place

end ChangeSplit.Java
