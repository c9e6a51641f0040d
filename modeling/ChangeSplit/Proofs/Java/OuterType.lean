import ChangeSplit.Proofs.Java.Footing

/-! The nodes that make up a type, and the tokens under them. All that is not in type arguments is
words and marks of types, unless there are annotations with arguments, and the type arguments stand
behind each other. -/

namespace ChangeSplit.Java

namespace Tree

mutual

/-- The nodes that make up a type, with those right below them. -/
def outerNodes : Tree → List Tree
  | token .. => []
  | node role kind start stop children =>
    node role kind start stop children ::
      if kind.isTypePart then outerNodesAll children else []

/-- The outer nodes of some trees. -/
def outerNodesAll : List Tree → List Tree
  | [] => []
  | t :: rest => outerNodes t ++ outerNodesAll rest

end

/-- The type arguments in a type, but for those inside others. -/
def argumentLists (t : Tree) : List Tree := t.outerNodes.filter (·.isA .typeArguments)

section

variable {tokens us : List Token} {t c a : Tree} {ts : List Tree} {u : Token}

theorem outerNodesAll_eq (ts : List Tree) : outerNodesAll ts = ts.flatMap outerNodes := by
  induction ts with
  | nil => rfl
  | cons t ts ih => rw [outerNodesAll, ih, List.flatMap_cons]

theorem outerNodes_of_isTypePart (h : t.kindIs Kind.isTypePart = true) :
    t.outerNodes = t :: t.children.flatMap outerNodes := by
  cases t with
  | token => cases h
  | node role kind start stop children =>
    rw [outerNodes, if_pos (by simpa [kindIs, kind?] using h), outerNodesAll_eq]
    rfl

theorem outerNodes_of_not_isTypePart (h : t.kindIs Kind.isTypePart = false) :
    t.outerNodes = [] ∨ t.outerNodes = [t] := by
  cases t with
  | token => exact .inl rfl
  | node role kind start stop children =>
    rw [outerNodes, if_neg (by simpa [kindIs, kind?] using h)]
    exact .inr rfl

theorem isTypePart_of_typeArguments (h : t.isA .typeArguments = true) :
    t.kindIs Kind.isTypePart = false := by
  have hKind : t.kind? = some .typeArguments := by simpa [isA] using h
  rw [kindIs, hKind]
  rfl

/-- The type arguments in a type are those below the trees right below it. -/
theorem argumentLists_of_isTypePart (h : t.kindIs Kind.isTypePart = true) :
    t.argumentLists = t.children.flatMap argumentLists := by
  have hNot : ¬ t.isA .typeArguments = true := fun hIs => by
    rw [isTypePart_of_typeArguments hIs] at h
    cases h
  rw [argumentLists, outerNodes_of_isTypePart h, List.filter_cons_of_neg (by exact hNot),
    List.filter_flatMap]
  rfl

theorem argumentLists_of_not_isTypePart (h : t.kindIs Kind.isTypePart = false) :
    t.argumentLists = [] ∨ t.argumentLists = [t] ∧ t.isA .typeArguments = true := by
  rw [argumentLists]
  rcases outerNodes_of_not_isTypePart h with hNone | hOne
  · rw [hNone]
    exact .inl rfl
  · rw [hOne]
    cases hIs : t.isA .typeArguments with
    | true => exact .inr ⟨List.filter_cons_of_pos hIs, rfl⟩
    | false => exact .inl (List.filter_cons_of_neg (by simp [hIs]))

theorem isTypePart_of_isPlainType (h : t.kindIs Kind.isPlainType = true) :
    t.kindIs Kind.isTypePart = true := by
  obtain ⟨kind, hKind, hIs⟩ := (Option.any_eq_true _ _).1 h
  simpa [kindIs, hKind] using Kind.isTypePart_of_isPlainType hIs

theorem isTypePart_of_isMinor (h : t.isMinor = true) : t.kindIs Kind.isTypePart = false :=
  kindIs_of_isMinor (by decide) h

theorem argumentLists_of_isComment (h : t.isComment = true) : t.argumentLists = [] := by
  have hMinor : t.isMinor = true := by
    obtain ⟨kind, hKind, hComment⟩ := (Option.any_eq_true _ _).1 h
    simpa [isMinor, kindIs, hKind] using Kind.mem_minor_of_isComment hComment
  rcases argumentLists_of_not_isTypePart (isTypePart_of_isMinor hMinor) with hNone | ⟨_, hIs⟩
  · exact hNone
  · rw [isA_of_isMinor (by decide) hMinor] at hIs
    cases hIs

/-- A token that begins inside of a node that has its place is one of those that it stands on. -/
theorem Seat.mem_of_inside (h : t.Seat tokens us) (hOrder : Token.InOrder tokens)
    (hu : u ∈ tokens) (hFirst : t.start ≤ u.start) (hLast : u.start < t.stop) : u ∈ us := by
  obtain ⟨front, back, rfl⟩ := h.among
  obtain ⟨first, hHead, hStart⟩ := Option.map_eq_some_iff.1 h.on.begins
  obtain ⟨last, hTail, hStop⟩ := Option.map_eq_some_iff.1 h.on.ends
  have hProper := hOrder.proper u hu
  obtain ⟨hBefore, _, hBehind⟩ := List.pairwise_append.1 hOrder.ordered
  rcases List.mem_append.1 hu with hu | hu
  · rcases List.mem_append.1 hu with hu | hu
    · have hLe := (List.pairwise_append.1 hBefore).2.2 u hu first (List.mem_of_head? hHead)
      omega
    · exact hu
  · have hLe := hBehind last (List.mem_append_right _ (List.mem_of_getLast? hTail)) u hu
    omega

theorem Seat.inOrder (h : t.Seat tokens us) (hOrder : Token.InOrder tokens) : Token.InOrder us :=
  ⟨hOrder.ordered.sublist h.among.sublist, fun u hu => hOrder.proper u (h.among.subset hu)⟩

/-- The place of a node that is no piece of a string and no comment. -/
theorem All.exists_seat (h : t.All (Seated tokens)) {test : Kind → Bool}
    (hTest : ∀ kind ∈ Kind.minor, test kind = false) (hIs : t.kindIs test = true) :
    ∃ us, t.Seat tokens us := by
  refine h.here ?_ ?_
  · cases t with
    | token => cases hIs
    | node => rfl
  · rw [← Bool.not_eq_true]
    intro hMinor
    rw [kindIs_of_isMinor hTest hMinor] at hIs
    cases hIs

/-- Trees over tokens stand behind each other. -/
theorem Stand.ordered (h : Stand ts us) (hOrder : Token.InOrder us) :
    ts.Pairwise fun t c => t.stop ≤ c.start := by
  induction h with
  | nil => exact .nil
  | @cons t ts us vs hFirst hRest ih =>
    obtain ⟨_, hLater, hApart⟩ := List.pairwise_append.1 hOrder.ordered
    have hInner : Token.InOrder vs :=
      ⟨hLater, fun v hv => hOrder.proper v (List.mem_append_right _ hv)⟩
    refine List.pairwise_cons.2 ⟨fun c hc => ?_, ih hInner⟩
    obtain ⟨ws, hWs, hOn⟩ := hRest.exists_of_mem_trees hc
    obtain ⟨last, hLast, hStop⟩ := Option.map_eq_some_iff.1 hFirst.ends
    obtain ⟨first, hHead, hStart⟩ := Option.map_eq_some_iff.1 hOn.begins
    rw [← hStop, ← hStart]
    exact hApart last (List.mem_of_getLast? hLast) first (hWs.subset (List.mem_of_head? hHead))

/-- A tree among those that stand on the tokens of another is inside of it. -/
theorem StandsOn.within (h : t.StandsOn us) (hOrder : Token.InOrder us) (hStand : Stand ts us)
    (hc : c ∈ ts) : t.start ≤ c.start ∧ c.stop ≤ t.stop := by
  obtain ⟨vs, hVs, hOn⟩ := hStand.exists_of_mem_trees hc
  obtain ⟨first, hHead, hStart⟩ := Option.map_eq_some_iff.1 hOn.begins
  obtain ⟨last, hLast, hStop⟩ := Option.map_eq_some_iff.1 hOn.ends
  rw [← hStart, ← hStop]
  exact ⟨(h.bounds hOrder (hVs.subset (List.mem_of_head? hHead))).1,
    (h.bounds hOrder (hVs.subset (List.mem_of_getLast? hLast))).2⟩

/-- What is known of the type arguments in a type. -/
structure Inner (tokens : List Token) (t a : Tree) : Prop where
  arguments : a.isA .typeArguments = true
  seated : a.All (Seated tokens)
  begins : t.start ≤ a.start
  ends : a.stop ≤ t.stop

theorem flatMap_argumentLists_filter (ts : List Tree) :
    (ts.filter (!·.isComment)).flatMap argumentLists = ts.flatMap argumentLists := by
  induction ts with
  | nil => rfl
  | cons t ts ih =>
    cases hMark : t.isComment with
    | true =>
      rw [List.filter_cons_of_neg (by simp [hMark]), List.flatMap_cons,
        argumentLists_of_isComment hMark, ih, List.nil_append]
    | false =>
      rw [List.filter_cons_of_pos (by simp [hMark]), List.flatMap_cons, List.flatMap_cons, ih]

/-- The type arguments in a type stand behind each other inside of it. -/
theorem argumentLists_ordered (hOrder : Token.InOrder tokens) (h : t.All (Seated tokens)) :
    t.argumentLists.Pairwise (fun a b => a.stop ≤ b.start) ∧
      ∀ a ∈ t.argumentLists, Inner tokens t a := by
  induction h with
  | @intro t hHere hBelow ih =>
    have hAll : t.All (Seated tokens) := .intro hHere hBelow
    cases hPart : t.kindIs Kind.isTypePart with
    | false =>
      rcases argumentLists_of_not_isTypePart hPart with hNone | ⟨hOne, hIs⟩
      · rw [hNone]
        exact ⟨.nil, List.forall_mem_nil _⟩
      · rw [hOne]
        exact ⟨List.pairwise_singleton _ _,
          List.forall_mem_singleton.2 ⟨hIs, hAll, Nat.le_refl _, Nat.le_refl _⟩⟩
    | true =>
      obtain ⟨us, hSeat⟩ := hAll.exists_seat (by decide) hPart
      have hInside := hSeat.inOrder hOrder
      rw [argumentLists_of_isTypePart hPart]
      rcases hSeat.below with ⟨u, rfl, hLeaf⟩ | hStand
      · rw [List.flatMap_eq_nil_iff.2 fun c hc => argumentLists_of_isComment ((hLeaf hPart).2 c hc)]
        exact ⟨.nil, List.forall_mem_nil _⟩
      · rw [← flatMap_argumentLists_filter]
        have hBelow (c : Tree) (hc : c ∈ t.children.filter (!·.isComment)) :=
          ih c (List.mem_filter.1 hc).1
        constructor
        · refine List.pairwise_flatMap.2 ⟨fun c hc => (hBelow c hc).1, ?_⟩
          refine (hStand.ordered hInside).imp_of_mem fun hc hd hLe a ha b hb => ?_
          have hEnds := ((hBelow _ hc).2 a ha).ends
          have hBegins := ((hBelow _ hd).2 b hb).begins
          omega
        · intro a ha
          obtain ⟨c, hc, ha⟩ := List.mem_flatMap.1 ha
          have hInner := (hBelow c hc).2 a ha
          obtain ⟨hFirst, hLast⟩ := hSeat.on.within hInside hStand hc
          exact { hInner with
            begins := Nat.le_trans hFirst hInner.begins
            ends := Nat.le_trans hInner.ends hLast }

/-- The tokens of a type without arguments of annotations are words and marks of types, or in type
arguments. -/
theorem isTypeText_or_exists (hOrder : Token.InOrder tokens)
    (hWords : ∀ u ∈ tokens, u.lexeme = .word → isTypeText u.text = true)
    (h : t.All (Seated tokens)) (hPart : t.kindIs Kind.isTypePart = true)
    (hBare : ∀ c ∈ t.outerNodes, c.isA .annotationUse = false) (hu : u ∈ tokens)
    (hFirst : t.start ≤ u.start) (hLast : u.start < t.stop) :
    isTypeText u.text = true ∨ ∃ a ∈ t.argumentLists, a.start ≤ u.start ∧ u.stop ≤ a.stop := by
  induction h with
  | @intro t hHere hBelow ih =>
    obtain ⟨us, hSeat⟩ := All.exists_seat (.intro hHere hBelow) (by decide) hPart
    have hMem := hSeat.mem_of_inside hOrder hu hFirst hLast
    rcases hSeat.below with ⟨v, rfl, hLeaf⟩ | hStand
    · rw [List.mem_singleton.1 hMem] at hu ⊢
      exact .inl (hWords v hu (hLeaf hPart).1)
    · obtain ⟨c, hc, vs, hVs, hOn, hMem⟩ := hStand.exists_of_mem hMem
      obtain ⟨hc, hMark⟩ := List.mem_filter.1 hc
      have hInType := (hSeat.within c hc (by simpa using hMark)).1 hPart
      have hInside := hSeat.inOrder hOrder
      have hInner : Token.InOrder vs :=
        ⟨hInside.ordered.sublist hVs.sublist, fun v hv => hInside.proper v (hVs.subset hv)⟩
      obtain ⟨hBegins, hEnds⟩ := hOn.bounds hInner hMem
      have hProper := hOrder.proper u hu
      have hOuter (d : Tree) (hd : d ∈ c.outerNodes) : d ∈ t.outerNodes := by
        rw [outerNodes_of_isTypePart hPart]
        exact List.mem_cons_of_mem _ (List.mem_flatMap.2 ⟨c, hc, hd⟩)
      have hLists (a : Tree) (ha : a ∈ c.argumentLists) : a ∈ t.argumentLists := by
        rw [argumentLists_of_isTypePart hPart]
        exact List.mem_flatMap.2 ⟨c, hc, ha⟩
      cases c with
      | token text start stop =>
        exact .inl (List.all_eq_true.2 fun d hd =>
          List.all_eq_true.1 hInType d (hOn.spelled text start stop rfl u hMem hd))
      | node role kind start stop children =>
        cases hKind : kind.isTypePart with
        | true =>
          refine (ih _ hc hKind (fun d hd => hBare d (hOuter d hd)) hBegins (by omega)).imp_right ?_
          exact fun ⟨a, ha, hSpan⟩ => ⟨a, hLists a ha, hSpan⟩
        | false =>
          have hHead : node role kind start stop children ∈
              outerNodes (node role kind start stop children) := by
            rw [outerNodes]
            exact List.mem_cons_self ..
          have hKinds : kind = .typeArguments ∨ kind = .annotationUse := by
            simpa [isInType, Kind.isInType, hKind] using hInType
          rcases hKinds with rfl | rfl
          · exact .inr ⟨_, hLists _ (List.mem_filter.2 ⟨hHead, rfl⟩), hBegins, hEnds⟩
          · cases hBare _ (hOuter _ hHead)

/-- A type begins with a word or mark of types. -/
theorem exists_first (hOrder : Token.InOrder tokens)
    (hWords : ∀ u ∈ tokens, u.lexeme = .word → isTypeText u.text = true)
    (h : t.All (Seated tokens)) (hPlain : t.kindIs Kind.isPlainType = true) :
    ∃ u ∈ tokens, u.start = t.start ∧ u.stop ≤ t.stop ∧ isTypeText u.text = true := by
  induction h with
  | @intro t hHere hBelow ih =>
    have hPart := isTypePart_of_isPlainType hPlain
    obtain ⟨us, hSeat⟩ := All.exists_seat (.intro hHere hBelow) (by decide) hPart
    obtain ⟨u, hHead, hStart⟩ := Option.map_eq_some_iff.1 hSeat.on.begins
    have hMem := List.mem_of_head? hHead
    have hu := hSeat.among.subset hMem
    have hInside := hSeat.inOrder hOrder
    have hEnds := (hSeat.on.bounds hInside hMem).2
    rcases hSeat.below with ⟨v, rfl, hLeaf⟩ | hStand
    · cases hHead
      exact ⟨u, hu, hStart, hEnds, hWords u hu (hLeaf hPart).1⟩
    · have hWithin (c : Tree) := hSeat.on.within (c := c) hInside hStand
      generalize hTrees : t.children.filter (!·.isComment) = ts at hStand hWithin
      cases hStand with
      | nil => cases hHead
      | @cons c ts vs ws hFirst hRest =>
        have hc := List.mem_filter.1 (hTrees ▸ List.mem_cons_self (l := ts))
        rw [List.head?_append_of_ne_nil _ hFirst.ne_nil] at hHead
        have hSame : c.start = t.start := by
          have hBegins := hFirst.begins
          rw [hHead] at hBegins
          rw [← hStart]
          exact (Option.some.inj hBegins).symm
        have hBegin := (hSeat.within c hc.1 (by simpa using hc.2)).2 hPlain hSame
        cases c with
        | token text start stop =>
          refine ⟨u, hu, hStart, hEnds, List.all_eq_true.2 fun d hd => ?_⟩
          exact List.all_eq_true.1 hBegin d
            (hFirst.spelled text start stop rfl u (List.mem_of_head? hHead) hd)
        | node role kind start stop children =>
          obtain ⟨v, hv, hBegins, hEnds, hText⟩ := ih _ hc.1 hBegin
          have hLast := (hWithin _ (List.mem_cons_self ..)).2
          exact ⟨v, hv, hBegins.trans hSame, Nat.le_trans hEnds hLast, hText⟩

end

end Tree

end ChangeSplit.Java
