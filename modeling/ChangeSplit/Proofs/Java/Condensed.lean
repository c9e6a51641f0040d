import ChangeSplit.Java.Symbols
import ChangeSplit.Proofs.Java.Extent
import ChangeSplit.Proofs.Java.Members

/-! Trees without layout. A condensed tree has no comments and no pieces of strings, and its spans
are moved to where they would be if nothing stood between the tokens. Whatever is looked for in a
condensed tree, among declarations, names and types, is the condensed form of what is found in the
tree itself. -/

namespace ChangeSplit.Java

/-- The kinds of nodes that are nothing but layout, or pieces of a single token. -/
def Kind.minor : List Kind :=
  [.lineComment, .blockComment, .escapeSequence, .stringFragment, .multilineStringFragment]

theorem Kind.mem_minor_of_isComment {kind : Kind} (h : kind.isComment = true) : kind ∈ minor := by
  cases kind <;> first | decide | cases h

theorem Kind.mem_minor_of_mem_stringPieces : ∀ kind ∈ stringPieces, kind ∈ minor := by decide

namespace Tree

/-- Whether a tree is a comment or a piece of a string. -/
def isMinor (t : Tree) : Bool := t.kindIs Kind.minor.contains

mutual

/-- A tree without comments and pieces of strings, its positions moved. -/
def condense (move : Nat → Nat) : Tree → Tree
  | token text start stop => token text (move start) (move stop)
  | node role kind start stop children =>
    node role kind (move start) (move stop) (condenseAll move children)

/-- The condensed forms of those trees that are more than layout. -/
def condenseAll (move : Nat → Nat) : List Tree → List Tree
  | [] => []
  | t :: rest =>
    if t.isMinor then condenseAll move rest else condense move t :: condenseAll move rest

end

section

variable {move : Nat → Nat} {t : Tree}

@[simp] theorem start_condense : (t.condense move).start = move t.start := by cases t <;> rfl

@[simp] theorem stop_condense : (t.condense move).stop = move t.stop := by cases t <;> rfl

@[simp] theorem kind?_condense : (t.condense move).kind? = t.kind? := by cases t <;> rfl

@[simp] theorem role?_condense : (t.condense move).role? = t.role? := by cases t <;> rfl

@[simp] theorem kindIs_condense (test : Kind → Bool) :
    (t.condense move).kindIs test = t.kindIs test := by
  simp [kindIs]

@[simp] theorem isA_condense (kind : Kind) : (t.condense move).isA kind = t.isA kind := by
  simp [isA]

@[simp] theorem isNamed_condense : (t.condense move).isNamed = t.isNamed := by simp [isNamed]

@[simp] theorem isMinor_condense : (t.condense move).isMinor = t.isMinor := by simp [isMinor]

theorem condense_withRole (role : Role) :
    (t.withRole role).condense move = (t.condense move).withRole role := by
  cases t <;> simp [withRole, condense]

theorem condenseAll_eq (ts : List Tree) :
    condenseAll move ts = (ts.filter (!·.isMinor)).map (condense move) := by
  induction ts with
  | nil => rfl
  | cons t ts ih =>
    rw [condenseAll, ih]
    cases h : t.isMinor <;> simp [h]

theorem children_condense :
    (t.condense move).children = (t.children.filter (!·.isMinor)).map (condense move) := by
  cases t with
  | token => rfl
  | node => exact condenseAll_eq _

/-- A test of kinds that no comment and no piece of a string passes. -/
theorem kindIs_of_isMinor {test : Kind → Bool} (hTest : ∀ kind ∈ Kind.minor, test kind = false)
    (h : t.isMinor = true) : t.kindIs test = false := by
  obtain ⟨kind, hKind, hMinor⟩ := (Option.any_eq_true _ _).1 h
  simp [kindIs, hKind, hTest kind (List.contains_iff_mem.1 hMinor)]

theorem isA_of_isMinor {kind : Kind} (hKind : kind ∉ Kind.minor) (h : t.isMinor = true) :
    t.isA kind = false := by
  obtain ⟨other, hOther, hMinor⟩ := (Option.any_eq_true _ _).1 h
  rw [isA, hOther, decide_eq_false_iff_not, Option.some.injEq]
  rintro rfl
  exact hKind (List.contains_iff_mem.1 hMinor)

theorem filter_condense {test : Tree → Bool} (hSame : ∀ c, test (c.condense move) = test c)
    {ts : List Tree} (hMinor : ∀ c ∈ ts, c.isMinor = true → test c = false) :
    ((ts.filter (!·.isMinor)).map (condense move)).filter test =
      (ts.filter test).map (condense move) := by
  rw [List.filter_map, List.filter_filter]
  congr 1
  apply List.filter_congr
  intro c hc
  rw [Function.comp_apply, hSame]
  cases h : c.isMinor
  · simp
  · simp [hMinor c hc h]

/-- A test that looks neither at layout nor at spans finds the same trees below a condensed tree. -/
theorem filter_children_condense {test : Tree → Bool}
    (hSame : ∀ c, test (c.condense move) = test c)
    (hMinor : ∀ c ∈ t.children, c.isMinor = true → test c = false) :
    (t.condense move).children.filter test = (t.children.filter test).map (condense move) := by
  rw [children_condense, filter_condense hSame hMinor]

theorem find?_children_condense {test : Tree → Bool}
    (hSame : ∀ c, test (c.condense move) = test c)
    (hMinor : ∀ c ∈ t.children, c.isMinor = true → test c = false) :
    (t.condense move).children.find? test = (t.children.find? test).map (condense move) := by
  rw [← List.head?_filter, filter_children_condense hSame hMinor, List.head?_map, List.head?_filter]

theorem any_children_condense {test : Tree → Bool} (hSame : ∀ c, test (c.condense move) = test c)
    (hMinor : ∀ c ∈ t.children, c.isMinor = true → test c = false) :
    (t.condense move).children.any test = t.children.any test := by
  rw [← List.isSome_find?, find?_children_condense hSame hMinor, Option.isSome_map,
    List.isSome_find?]

theorem namedChildren_condense :
    (t.condense move).namedChildren =
      (t.namedChildren.filter (!·.isMinor)).map (condense move) := by
  rw [namedChildren, children_condense, List.filter_map, namedChildren, List.filter_filter,
    List.filter_filter]
  congr 1
  apply List.filter_congr
  intro c _
  simp [Bool.and_comm]

theorem filter_namedChildren_condense {test : Tree → Bool}
    (hSame : ∀ c, test (c.condense move) = test c)
    (hMinor : ∀ c ∈ t.namedChildren, c.isMinor = true → test c = false) :
    (t.condense move).namedChildren.filter test =
      (t.namedChildren.filter test).map (condense move) := by
  rw [namedChildren_condense, filter_condense hSame hMinor]

theorem find?_namedChildren_condense {test : Tree → Bool}
    (hSame : ∀ c, test (c.condense move) = test c)
    (hMinor : ∀ c ∈ t.namedChildren, c.isMinor = true → test c = false) :
    (t.condense move).namedChildren.find? test =
      (t.namedChildren.find? test).map (condense move) := by
  rw [← List.head?_filter, filter_namedChildren_condense hSame hMinor, List.head?_map,
    List.head?_filter]

end

section Insert

variable {move : Nat → Nat} {comment : Tree}

mutual

/-- A comment makes no difference to the condensed form. -/
theorem condense_insert (hComment : comment.isMinor = true) :
    ∀ t : Tree, (Tree.insert comment t).condense move = t.condense move
  | .token .. => rfl
  | .node role kind start stop children => by
    rw [insert, condense, condense, condenseAll_insertAmong hComment children]

theorem condenseAll_insertAmong (hComment : comment.isMinor = true) :
    ∀ ts : List Tree, condenseAll move (insertAmong comment ts) = condenseAll move ts
  | [] => by simp [insertAmong, condenseAll, hComment]
  | t :: rest => by
    rw [insertAmong]
    split
    case isTrue => rw [condenseAll, condenseAll, condenseAll_insertAmong hComment rest]
    case isFalse =>
      split
      case isTrue =>
        have hMinor : (insert comment t).isMinor = t.isMinor := by
          rw [isMinor, isMinor, kindIs, kindIs, ← show _ = t.kind? from
            congrArg Shape.kind (shape_insert comment t)]
          rfl
        rw [condenseAll, condenseAll, hMinor, condense_insert hComment t]
      case isFalse => rw [condenseAll, if_pos hComment]

end

end Insert

/-- Whether the last part of an annotated type, at its end, is more than layout. -/
def Ended (t : Tree) : Prop :=
  t.isA .annotatedType = true →
    ∃ c, t.children.getLast? = some c ∧ c.isMinor = false ∧ c.stop = t.stop

/-- Comments and pieces of strings get in the way of nothing: they play no role, and no annotated
type ends with one, or with a bare token. -/
structure Undisturbed (t : Tree) : Prop where
  roleless : ∀ c ∈ t.children, c.isMinor = true → c.role? = none
  named : t.isA .annotatedType = true → ∀ c ∈ t.children, c.isNamed = true
  ended : t.Ended

section Undisturbed

variable {move : Nat → Nat} {t : Tree}

theorem Undisturbed.childAs?_condense (h : t.Undisturbed) (role : Role) :
    (t.condense move).childAs? role = (t.childAs? role).map (condense move) := by
  refine find?_children_condense (by simp) fun c hc hMinor => ?_
  simp [h.roleless c hc hMinor]

theorem Undisturbed.childrenAs_condense (h : t.Undisturbed) (role : Role) :
    (t.condense move).childrenAs role = (t.childrenAs role).map (condense move) := by
  refine filter_children_condense (by simp) fun c hc hMinor => ?_
  simp [h.roleless c hc hMinor]

mutual

/-- The main type of a condensed type. -/
theorem mainTypeName?_condense :
    ∀ t : Tree, t.All Undisturbed →
      mainTypeName? (t.condense move) = (mainTypeName? t).map (condense move)
  | .token .., _ => rfl
  | .node role kind start stop children, h => by
    have hBelow : ∀ c ∈ children, c.All Undisturbed := fun _ => h.of_mem_children
    rw [condense, mainTypeName?.eq_def, mainTypeName?.eq_def (.node role kind start stop children)]
    dsimp only
    split
    case h_1 | h_2 => rfl
    case h_3 =>
      have hMinor : ∀ kind ∈ Kind.minor, kind.isTypeName = false := by decide
      exact find?_children_condense (t := .node role .genericType start stop children) (by simp)
        fun _ _ => kindIs_of_isMinor hMinor
    case h_4 => exact mainElement?_condenseAll children hBelow h.here.roleless
    case h_5 =>
      obtain ⟨c, hLast, hMinor, _⟩ := h.here.ended rfl
      have hNamed := h.here.named rfl c (List.mem_of_getLast? hLast)
      exact mainLast?_condenseAll children hBelow c hLast hNamed hMinor
    case h_6 => rfl

theorem mainElement?_condenseAll :
    ∀ ts : List Tree, (∀ t ∈ ts, t.All Undisturbed) →
      (∀ t ∈ ts, t.isMinor = true → t.role? = none) →
      mainElement? (condenseAll move ts) = (mainElement? ts).map (condense move)
  | [], _, _ => rfl
  | t :: rest, h, hRoleless => by
    obtain ⟨hHere, hRest⟩ := List.forall_mem_cons.1 h
    obtain ⟨hRole, hRoles⟩ := List.forall_mem_cons.1 hRoleless
    have ih := mainElement?_condenseAll rest hRest hRoles
    rw [condenseAll, mainElement?]
    cases hMinor : t.isMinor with
    | true => simp [hRole hMinor, ih]
    | false =>
      rw [if_neg Bool.false_ne_true, mainElement?, role?_condense]
      split
      case isTrue => exact mainTypeName?_condense t hHere
      case isFalse => exact ih

theorem mainLast?_condenseAll :
    ∀ ts : List Tree, (∀ t ∈ ts, t.All Undisturbed) →
      ∀ c, ts.getLast? = some c → c.isNamed = true → c.isMinor = false →
      mainLast? (condenseAll move ts) = (mainLast? ts).map (condense move)
  | [], _, _, hLast, _, _ => by cases hLast
  | [t], h, c, hLast, hNamed, hMinor => by
    obtain rfl : t = c := by simpa using hLast
    have hHere := h t (List.mem_singleton.2 rfl)
    simp [condenseAll, mainLast?, hMinor, hNamed, mainTypeName?_condense t hHere]
  | t :: u :: rest, h, c, hLast, hNamed, hMinor => by
    rw [List.getLast?_cons_cons] at hLast
    have hMem : c ∈ u :: rest := List.mem_of_getLast? hLast
    have ih := mainLast?_condenseAll (u :: rest) (List.forall_mem_cons.1 h).2 c hLast hNamed hMinor
    have hAny : (u :: rest).any isNamed = true := List.any_eq_true.2 ⟨c, hMem, hNamed⟩
    have hAnyCondensed : (condenseAll move (u :: rest)).any isNamed = true := by
      rw [condenseAll_eq, List.any_eq_true]
      exact ⟨c.condense move,
        List.mem_map_of_mem (List.mem_filter.2 ⟨hMem, by simp [hMinor]⟩), by simp [hNamed]⟩
    rw [condenseAll, mainLast?, if_pos hAny]
    cases t.isMinor with
    | true => exact ih
    | false =>
      rw [if_neg Bool.false_ne_true, mainLast?, if_pos hAnyCondensed]
      exact ih

end

end Undisturbed

end Tree

namespace Place

open Java.Tree

variable {move : Nat → Nat} {p : Place}

/-- A place in a tree as a place in the condensed tree. -/
def condense (move : Nat → Nat) (p : Place) : Place :=
  ⟨p.node.condense move, p.above.map (Tree.condense move)⟩

@[simp] theorem node_condense : (p.condense move).node = p.node.condense move := rfl

@[simp] theorem place_kindIs_condense (test : Kind → Bool) :
    (p.condense move).kindIs test = p.kindIs test := by
  simp [Place.kindIs]

theorem chain_condense : (p.condense move).chain = p.chain.map (condense move) := by
  obtain ⟨t, above⟩ := p
  show chain.go (t.condense move) (above.map (Tree.condense move)) = (chain.go t above).map _
  induction above generalizing t with
  | nil => rfl
  | cons u above ih => exact congrArg _ (ih u)

theorem isNamedBelow_condense (t : Tree) (above : List Tree) :
    isNamedBelow (t.condense move) (above.map (Tree.condense move)) = isNamedBelow t above := by
  fun_induction isNamedBelow t above with
  | case1 => rfl
  | case2 => simp [isNamedBelow]
  | case3 node parent upper above ihAround ihAbove =>
    cases above with
    | nil => simp_all [isNamedBelow]
    | cons owner rest => simp_all [isNamedBelow]

theorem isNamedMember_condense : (p.condense move).isNamedMember = p.isNamedMember :=
  isNamedBelow_condense p.node p.above

theorem enclosingMembers_condense :
    (p.condense move).enclosingMembers = p.enclosingMembers.map (condense move) := by
  rw [enclosingMembers, chain_condense, List.filter_map, enclosingMembers]
  congr 1
  exact List.filter_congr fun _ _ => isNamedMember_condense

theorem enclosingTypes_condense :
    (p.condense move).enclosingTypes = p.enclosingTypes.map (condense move) := by
  rw [enclosingTypes, enclosingMembers_condense, List.filter_map, enclosingTypes]
  congr 1
  exact List.filter_congr fun _ _ => place_kindIs_condense _

theorem namedChildren_condense :
    (p.condense move).namedChildren =
      (p.namedChildren.filter (!·.node.isMinor)).map (condense move) := by
  rw [namedChildren, node_condense, Tree.namedChildren_condense, namedChildren, List.filter_map,
    List.map_map, List.map_map]
  rfl

theorem filter_namedChildren_condense {test : Kind → Bool}
    (hTest : ∀ kind ∈ Kind.minor, test kind = false) :
    (p.condense move).namedChildren.filter (·.kindIs test) =
      (p.namedChildren.filter (·.kindIs test)).map (condense move) := by
  rw [namedChildren_condense, List.filter_map, List.filter_filter]
  congr 1
  apply List.filter_congr
  intro c _
  rw [Function.comp_apply, place_kindIs_condense]
  cases h : c.node.isMinor
  · simp
  · simp [Place.kindIs, kindIs_of_isMinor hTest h]

theorem minor_isDeclaration : ∀ kind ∈ Kind.minor, kind.isDeclaration = false := by decide

/-- The members of a condensed type. -/
theorem members_condense (h : p.node.Undisturbed) :
    (p.condense move).members = p.members.map (condense move) := by
  have hBody : (p.condense move).childAs? .body = (p.childAs? .body).map (condense move) := by
    rw [Place.childAs?, node_condense, h.childAs?_condense, Option.map_map, Place.childAs?,
      Option.map_map]
    rfl
  rw [members, members, hBody]
  cases p.childAs? .body with
  | none => rfl
  | some body =>
    rw [Option.map_some]
    dsimp only
    rw [namedChildren_condense, List.flatMap_map, flatMap_filter_of_nil, List.map_flatMap]
    · apply List.flatMap_congr
      intro c _
      rw [node_condense, isA_condense, filter_namedChildren_condense minor_isDeclaration,
        place_kindIs_condense]
      split_ifs <;> rfl
    · intro c _ hMinor
      rw [Bool.not_eq_false'] at hMinor
      have hPart : c.node.isA .enumBodyDeclarations = false := isA_of_isMinor (by decide) hMinor
      have hNot : c.kindIs Kind.isDeclaration = false :=
        kindIs_of_isMinor minor_isDeclaration hMinor
      simp [hPart, hNot]

theorem all_of_mem_members {P : Tree → Prop} {m : Place} (h : p.node.All P) (hm : m ∈ p.members) :
    m.node.All P :=
  node_of_mem_members (P := Tree.All P) (fun _ ht _ => ht.of_mem_children)
    (fun _ => h.of_mem_children) hm

theorem typesFrom_condense {depth : Nat} (h : p.node.All Undisturbed) :
    (p.condense move).typesFrom depth = (p.typesFrom depth).map (condense move) := by
  induction depth generalizing p with
  | zero => rfl
  | succ depth ih =>
    have hSame : ((fun q : Place => q.kindIs Kind.isTypeDeclaration) ∘ condense move) =
        (·.kindIs Kind.isTypeDeclaration) := funext fun _ => place_kindIs_condense _
    rw [typesFrom, typesFrom, members_condense h.here, List.filter_map, hSame, List.flatMap_map,
      List.map_cons, List.map_flatMap]
    congr 1
    apply List.flatMap_congr
    intro m hm
    exact ih (all_of_mem_members h (List.mem_filter.1 hm).1)

/-- Looking deeper than a type goes finds no more types in it. -/
theorem typesFrom_eq_of_height_le {depth depth' : Nat} (hType : p.isType = true)
    (h : p.node.height ≤ depth) (h' : p.node.height ≤ depth') :
    p.typesFrom depth = p.typesFrom depth' := by
  have hPos : 0 < p.node.height := height_pos hType
  induction depth generalizing p depth' with
  | zero => omega
  | succ depth ih =>
    obtain ⟨depth', rfl⟩ : ∃ n, depth' = n + 1 := ⟨depth' - 1, by omega⟩
    rw [typesFrom, typesFrom]
    congr 1
    apply List.flatMap_congr
    intro m hm
    obtain ⟨hMem, hMember⟩ := List.mem_filter.1 hm
    have hLower := height_lt_of_mem_members hMem
    exact ih hMember (by omega) (by omega) (height_pos hMember)

end Place

mutual

theorem Tree.height_condense_le (move : Nat → Nat) :
    ∀ t : Tree, (t.condense move).height ≤ t.height
  | .token .. => Nat.le_refl _
  | .node _ _ _ _ children => Nat.succ_le_succ (Tree.heightAll_condenseAll_le move children)

theorem Tree.heightAll_condenseAll_le (move : Nat → Nat) :
    ∀ ts : List Tree, Tree.heightAll (Tree.condenseAll move ts) ≤ Tree.heightAll ts
  | [] => Nat.le_refl _
  | t :: rest => by
    have hHead := Tree.height_condense_le move t
    have hRest := Tree.heightAll_condenseAll_le move rest
    rw [Tree.condenseAll, Tree.heightAll]
    split
    case isTrue => omega
    case isFalse =>
      rw [Tree.heightAll]
      omega

end

end ChangeSplit.Java
