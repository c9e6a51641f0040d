import ChangeSplit.Proofs.Java.Spacing

/-! Which tokens the nodes of a tree stand on. No token is passed over in a reading, so the trees
below a node stand on the tokens of the node, one after another. What the nodes of a type are made
of is told by the patterns of the grammar, one by one. -/

namespace ChangeSplit.Java

/-- The characters of the words and marks in types, those of type arguments and of the arguments of
annotations aside. -/
def isTypeChar (c : Char) : Bool := !Token.isGap c && c ≠ '<' && c ≠ '>' && c ≠ ','

/-- Whether all characters of a text are such. -/
def isTypeText (text : String) : Bool := text.toList.all isTypeChar

namespace Kind

/-- The kinds of types but for those with annotations in front. -/
def isPlainType (kind : Kind) : Bool := (arrayType :: Grammar.simpleTypeKinds).contains kind

/-- The kinds of the nodes that make up a type. -/
def isTypePart (kind : Kind) : Bool :=
  [dimensions, markerAnnotationUse, identifier, scopedIdentifier].contains kind || kind.isPlainType

/-- The kinds of the nodes right below those that make up a type. -/
def isInType (kind : Kind) : Bool :=
  kind.isTypePart || [typeArguments, annotationUse].contains kind

theorem isTypePart_of_mem_literals : ∀ kind ∈ literals, kind.isTypePart = false := by decide

theorem isTypePart_of_isPlainType {kind : Kind} (h : kind.isPlainType = true) :
    kind.isTypePart = true := by
  rw [isTypePart, h, Bool.or_true]

end Kind

namespace Tree

/-- Whether a tree can stand right below a node of a type. -/
def isInType : Tree → Bool
  | token text _ _ => isTypeText text
  | node _ kind _ _ _ => kind.isInType

/-- Whether a type can begin with a tree. -/
def beginsType : Tree → Bool
  | token text _ _ => isTypeText text
  | node _ kind _ _ _ => kind.isPlainType

@[simp] theorem isInType_withRole (r : Role) (t : Tree) :
    (t.withRole r).isInType = t.isInType := by
  cases t <;> rfl

@[simp] theorem beginsType_withRole (r : Role) (t : Tree) :
    (t.withRole r).beginsType = t.beginsType := by
  cases t <;> rfl

/-- A tree over some tokens, from the first to the last. A bare token says what they say. -/
structure StandsOn (t : Tree) (us : List Token) : Prop where
  begins : us.head?.map (·.start) = some t.start
  ends : us.getLast?.map (·.stop) = some t.stop
  major : t.isMinor = false
  spelled : ∀ text start stop, t = token text start stop →
    ∀ u ∈ us, u.text.toList ⊆ text.toList

/-- Trees over some tokens, one behind the other. -/
inductive Stand : List Tree → List Token → Prop
  | nil : Stand [] []
  | cons {t : Tree} {ts : List Tree} {us vs : List Token} (hFirst : t.StandsOn us)
      (hRest : Stand ts vs) : Stand (t :: ts) (us ++ vs)

variable {t c : Tree} {ts ts' : List Tree} {us vs : List Token}

theorem StandsOn.withRole (h : t.StandsOn us) (r : Role) : (t.withRole r).StandsOn us where
  begins := by simpa using h.begins
  ends := by simpa using h.ends
  major := by simpa [isMinor, kindIs] using h.major
  spelled text start stop hToken := by
    cases t with
    | token => exact h.spelled _ _ _ hToken
    | node => cases hToken

theorem StandsOn.ne_nil (h : t.StandsOn us) : us ≠ [] := by
  rintro rfl
  cases h.begins

namespace Stand

theorem singleton (h : t.StandsOn us) : Stand [t] us := by
  simpa using cons h nil

theorem append (h : Stand ts us) (h' : Stand ts' vs) : Stand (ts ++ ts') (us ++ vs) := by
  induction h with
  | nil => exact h'
  | cons hFirst _ ih =>
    rw [List.append_assoc]
    exact cons hFirst ih

theorem withRole (h : Stand ts us) (r : Role) : Stand (ts.map (Tree.withRole r)) us := by
  induction h with
  | nil => exact nil
  | cons hFirst _ ih => exact cons (hFirst.withRole r) ih

theorem major (h : Stand ts us) : ∀ t ∈ ts, t.isMinor = false := by
  induction h with
  | nil => exact List.forall_mem_nil _
  | cons hFirst _ ih => exact List.forall_mem_cons.2 ⟨hFirst.major, ih⟩

theorem begins (h : Stand ts us) (hFirst : ts.head? = some c) :
    us.head?.map (·.start) = some c.start := by
  cases h with
  | nil => cases hFirst
  | cons ht _ =>
    cases hFirst
    rw [List.head?_append_of_ne_nil _ ht.ne_nil]
    exact ht.begins

theorem ends (h : Stand ts us) (hLast : ts.getLast? = some c) :
    us.getLast?.map (·.stop) = some c.stop := by
  induction h with
  | nil => cases hLast
  | cons ht hRest ih =>
    cases hRest with
    | nil =>
      cases hLast
      rw [List.append_nil]
      exact ht.ends
    | cons hNext hMore =>
      rw [List.getLast?_cons_cons] at hLast
      have hLater := ih hLast
      rw [List.getLast?_append_of_ne_nil _ (List.append_ne_nil_of_left_ne_nil hNext.ne_nil _)]
      exact hLater

/-- A node over trees stands on what they stand on. -/
theorem node (h : Stand ts us) {kind : Kind} (hKind : kind ∉ Kind.minor)
    (hOver : over? kind ts = some t) : t.StandsOn us := by
  obtain ⟨first, last, hFirst, hLast, rfl⟩ := exists_of_over? hOver
  have hBegins := h.begins hFirst
  have hEnds := h.ends hLast
  exact ⟨hBegins, hEnds, by simpa [isMinor, kindIs, kind?] using hKind, nofun⟩

/-- Each of the tokens has one of the trees on it. -/
theorem exists_of_mem (h : Stand ts us) {u : Token} (hu : u ∈ us) :
    ∃ t ∈ ts, ∃ vs, vs <:+: us ∧ t.StandsOn vs ∧ u ∈ vs := by
  induction h with
  | nil => cases hu
  | @cons t ts us vs hFirst _ ih =>
    rcases List.mem_append.1 hu with hu | hu
    · exact ⟨t, List.mem_cons_self .., us, (List.prefix_append ..).isInfix, hFirst, hu⟩
    · obtain ⟨c, hc, ws, hWs, hOn, hMem⟩ := ih hu
      exact ⟨c, List.mem_cons_of_mem _ hc, ws, hWs.trans (List.suffix_append ..).isInfix, hOn, hMem⟩

theorem exists_of_mem_trees (h : Stand ts us) (ht : t ∈ ts) : ∃ vs, vs <:+: us ∧ t.StandsOn vs := by
  induction h with
  | nil => cases ht
  | @cons c ts us vs hFirst _ ih =>
    rcases List.mem_cons.1 ht with rfl | ht
    · exact ⟨us, (List.prefix_append ..).isInfix, hFirst⟩
    · obtain ⟨ws, hWs, hOn⟩ := ih ht
      exact ⟨ws, hWs.trans (List.suffix_append ..).isInfix, hOn⟩

end Stand

/-- The tokens under a tree are inside of it. -/
theorem StandsOn.bounds (h : t.StandsOn us) (hOrder : Token.InOrder us) {u : Token} (hu : u ∈ us) :
    t.start ≤ u.start ∧ u.stop ≤ t.stop := by
  have hProper := hOrder.proper u hu
  constructor
  · obtain ⟨first, hFirst, hStart⟩ := Option.map_eq_some_iff.1 h.begins
    obtain ⟨rest, rfl⟩ := List.head?_eq_some_iff.1 hFirst
    rw [← hStart]
    rcases List.mem_cons.1 hu with rfl | hu
    · exact Nat.le_refl _
    · have hLe := hOrder.head.2 u hu
      have hLt := hOrder.head.1
      omega
  · obtain ⟨last, hLast, hStop⟩ := Option.map_eq_some_iff.1 h.ends
    obtain ⟨front, rfl⟩ := List.getLast?_eq_some_iff.1 hLast
    rw [← hStop]
    rcases List.mem_append.1 hu with hu | hu
    · have hLe := (List.pairwise_append.1 hOrder.ordered).2.2 u hu last (List.mem_singleton.2 rfl)
      have hLt := hOrder.proper last (List.mem_append_right _ (List.mem_singleton.2 rfl))
      omega
    · rw [List.mem_singleton.1 hu]

/-- No other tree stands where the first one of some trees begins. -/
theorem Stand.eq_of_start (h : Stand ts us) (hOrder : Token.InOrder us) (hFirst : ts.head? = some t)
    (hc : c ∈ ts) (hStart : c.start = t.start) : c = t := by
  cases h with
  | nil => cases hFirst
  | @cons _ ts us vs hOn hRest =>
    cases hFirst
    rcases List.mem_cons.1 hc with rfl | hc
    · rfl
    · obtain ⟨ws, hWs, hLater⟩ := hRest.exists_of_mem_trees hc
      obtain ⟨w, hw, hBegins⟩ := Option.map_eq_some_iff.1 hLater.begins
      obtain ⟨u, hu, hHere⟩ := Option.map_eq_some_iff.1 hOn.begins
      have hMem := List.mem_of_head? hu
      have hLe := (List.pairwise_append.1 hOrder.ordered).2.2 u hMem w
        (hWs.subset (List.mem_of_head? hw))
      have hLt := hOrder.proper u (List.mem_append_left _ hMem)
      omega

/-- Where a node stands among the tokens, and what is below it if it is one of a type. -/
structure Seat (tokens : List Token) (t : Tree) (us : List Token) : Prop where
  among : us <:+: tokens
  on : t.StandsOn us
  below : (∃ u, us = [u] ∧ (t.kindIs Kind.isTypePart = true →
      u.lexeme = .word ∧ ∀ c ∈ t.children, c.isComment = true)) ∨
    Stand (t.children.filter (!·.isComment)) us
  bracketed : t.isA .typeArguments = true →
    us.head?.map (·.text) = some "<" ∧ us.getLast?.map (·.text) = some ">"
  within : ∀ c ∈ t.children, c.isComment = false →
    (t.kindIs Kind.isTypePart = true → c.isInType = true) ∧
      (t.kindIs Kind.isPlainType = true → c.start = t.start → c.beginsType = true)

/-- Whether a node has its place among the tokens. Layout and pieces of strings have none. -/
def Seated (tokens : List Token) (t : Tree) : Prop :=
  t.isNamed = true → t.isMinor = false → ∃ us, t.Seat tokens us

end Tree

namespace Pattern

/-- What is known of some trees: whether all of them can stand in a type, and whether there is a
first one with which a type can begin. -/
structure Look where
  all : Bool := false
  first : Bool := false
deriving DecidableEq

namespace Look

/-- Whether trees are as they are known to be. -/
structure Sees (l : Look) (ts : List Tree) : Prop where
  all : l.all = true → ∀ t ∈ ts, t.isInType = true
  first : l.first = true → ∃ t, ts.head? = some t ∧ t.beginsType = true

/-- Whether what is known of some trees is known of others, too. -/
def within (l m : Look) : Bool := (!l.all || m.all) && (!l.first || m.first)

theorem Sees.mono {l m : Look} {ts : List Tree} (h : m.Sees ts) (hWithin : l.within m = true) :
    l.Sees ts := by
  simp only [within, Bool.and_eq_true, Bool.or_eq_true, Bool.not_eq_true'] at hWithin
  exact ⟨fun hAll => h.all (hWithin.1.resolve_left (by simp [hAll])),
    fun hFirst => h.first (hWithin.2.resolve_left (by simp [hFirst]))⟩

theorem Sees.none {ts : List Tree} : ({} : Look).Sees ts := ⟨nofun, nofun⟩

end Look

variable {ρ : Type}

/-- What is known of the trees that a pattern gives, `left` being known of those that are
pending. -/
def look (rules : ρ → Look) (left : Look) : Pattern ρ → Look
  | empty | ahead _ | notAhead _ => { all := true }
  | mark text => ⟨isTypeText text, isTypeText text⟩
  | joined _ | literal => {}
  | name kind _ | node kind _ => ⟨kind.isInType, kind.isPlainType⟩
  | rule r => rules r
  | seq first second =>
    ⟨(look rules left first).all && (look rules left second).all, (look rules left first).first⟩
  | alt first second =>
    ⟨(look rules left first).all && (look rules left second).all,
      (look rules left first).first && (look rules left second).first⟩
  | many p => { all := (look rules left p).all }
  | role _ p | only _ p => look rules left p
  | pending => left
  | wrap base whole => look rules (look rules left base) whole
  | grow step => if left.within (look rules left step) then left else {}

/-- Whether a pattern is something between brackets. -/
def bracketed : Pattern ρ → Bool
  | seq (mark first) (seq _ (seq (mark last) empty)) => first = "<" && last = ">"
  | _ => false

/-- Whether pending trees are either taken up, before any tokens are read, or can be left alone,
and whether the nodes are such as make up types where they are of their kinds. -/
def settled (rules : ρ → Look) (left : Look) : Pattern ρ → Bool
  | seq first second =>
    settled rules left first && settled rules left second && !second.takesPending
  | alt first second =>
    settled rules left first && settled rules left second &&
      first.takesPending == second.takesPending
  | many p => settled rules left p && !p.takesPending
  | node kind p =>
    settled rules left p && !Kind.minor.contains kind &&
      (!kind.isTypePart || (look rules left p).all) &&
      (!kind.isPlainType || (look rules left p).first) &&
      (kind ≠ .typeArguments || p.bracketed && !p.takesPending)
  | role _ p | only _ p => settled rules left p
  | wrap base whole =>
    settled rules left base && settled rules (look rules left base) whole && whole.takesPending
  | grow step => settled rules (look rules left (grow step)) step && step.takesPending
  | joined texts => !texts.isEmpty
  | name kind _ => kind.isWord
  | empty | mark _ | literal | rule _ | ahead _ | notAhead _ | pending => true

/-- What is known of some trees in front of tokens that are left: where they stand, and what they
are like. -/
structure Standing (tokens : List Token) (l : Look) (ts : List Tree) (us rest : List Token) :
    Prop where
  stand : Tree.Stand ts us
  among : us ++ rest <:+: tokens
  sees : l.Sees ts
  seated : ∀ t ∈ ts, t.All (Tree.Seated tokens)

section

variable {tokens us vs given later rest : List Token} {l m : Look} {ts : List Tree}

theorem Standing.mono (h : Standing tokens m ts us rest) (hWithin : l.within m = true) :
    Standing tokens l ts us rest :=
  { h with sees := h.sees.mono hWithin }

theorem Standing.nil (hGiven : given <:+: tokens) :
    Standing tokens { all := true } [] [] given :=
  ⟨.nil, hGiven, ⟨fun _ => List.forall_mem_nil _, nofun⟩, List.forall_mem_nil _⟩

theorem Standing.singleton {t : Tree} (hOn : t.StandsOn us) (hAmong : us ++ rest <:+: tokens)
    (hAll : l.all = true → t.isInType = true) (hFirst : l.first = true → t.beginsType = true)
    (hSeated : t.All (Tree.Seated tokens)) : Standing tokens l [t] us rest :=
  ⟨.singleton hOn, hAmong, ⟨fun h => List.forall_mem_singleton.2 (hAll h),
    fun h => ⟨t, rfl, hFirst h⟩⟩, List.forall_mem_singleton.2 hSeated⟩

/-- Trees and others right behind them. -/
theorem Standing.append {us' : List Token} {ts' : List Tree}
    (h : Standing tokens l ts us (us' ++ rest)) (h' : Standing tokens m ts' us' rest) :
    Standing tokens ⟨l.all && m.all, l.first⟩ (ts ++ ts') (us ++ us') rest where
  stand := h.stand.append h'.stand
  among := by
    rw [List.append_assoc]
    exact h.among
  sees := by
    refine ⟨fun hAll => ?_, fun hFirst => ?_⟩
    · rw [Bool.and_eq_true] at hAll
      exact List.forall_mem_append.2 ⟨h.sees.all hAll.1, h'.sees.all hAll.2⟩
    · obtain ⟨t, ht, hBegins⟩ := h.sees.first hFirst
      exact ⟨t, by rw [List.head?_append, ht, Option.some_or], hBegins⟩
  seated := List.forall_mem_append.2 ⟨h.seated, h'.seated⟩

theorem all_seated_withRole {t : Tree} (h : t.All (Tree.Seated tokens)) (r : Role) :
    (t.withRole r).All (Tree.Seated tokens) := by
  refine .intro (fun hNamed hMajor => ?_) fun c hc => h.of_mem_children (by simpa using hc)
  obtain ⟨us, hSeat⟩ := h.here (by simpa [Tree.isNamed] using hNamed)
    (by simpa [Tree.isMinor, Tree.kindIs] using hMajor)
  exact ⟨us, {
    among := hSeat.among
    on := hSeat.on.withRole r
    below := by simpa [Tree.kindIs] using hSeat.below
    bracketed := by simpa [Tree.isA] using hSeat.bracketed
    within := by simpa [Tree.kindIs] using hSeat.within }⟩

theorem Standing.withRole (h : Standing tokens l ts us rest) (r : Role) :
    Standing tokens l (ts.map (Tree.withRole r)) us rest where
  stand := h.stand.withRole r
  among := h.among
  sees := by
    refine ⟨fun hAll => ?_, fun hFirst => ?_⟩
    · exact List.forall_mem_map.2 fun t ht => by simpa using h.sees.all hAll t ht
    · obtain ⟨t, ht, hBegins⟩ := h.sees.first hFirst
      exact ⟨t.withRole r, by rw [List.head?_map, ht, Option.map_some], by simpa using hBegins⟩
  seated := List.forall_mem_map.2 fun t ht => all_seated_withRole (h.seated t ht) r

/-- Bare tokens have nothing below them. -/
theorem all_seated_token (text : String) (start stop : Nat) :
    (Tree.token text start stop).All (Tree.Seated tokens) :=
  .intro nofun (List.forall_mem_nil _)

theorem standsOn_mark (t : Token) : (Tree.token t.text t.start t.stop).StandsOn [t] := by
  refine ⟨rfl, rfl, rfl, fun text _ _ hToken u hu => ?_⟩
  cases hToken
  rw [List.mem_singleton.1 hu]
  exact List.Subset.refl _

/-- Marks that are read as one token are what is read. -/
theorem exists_of_join? {texts : List String} {start stop : Nat} (hTexts : texts ≠ [])
    (h : join? texts start given = some (stop, rest)) :
    ∃ us, given = us ++ rest ∧ us.head?.map (·.start) = some start ∧
      us.getLast?.map (·.stop) = some stop ∧ ∀ u ∈ us, u.text ∈ texts := by
  induction texts generalizing start given with
  | nil => exact absurd rfl hTexts
  | cons text texts ih =>
    cases given with
    | nil => cases h
    | cons t given =>
      rw [join?] at h
      split at h
      case isFalse => cases h
      case isTrue hMark =>
        simp only [Bool.and_eq_true, decide_eq_true_eq] at hMark
        obtain ⟨⟨rfl, _⟩, rfl⟩ := hMark
        cases texts with
        | nil =>
          cases h
          exact ⟨[t], rfl, rfl, rfl, by simp⟩
        | cons next texts =>
          obtain ⟨us, rfl, hBegins, hEnds, hTexts⟩ := ih (List.cons_ne_nil _ _) h
          have hNe : us ≠ [] := by
            rintro rfl
            cases hBegins
          refine ⟨t :: us, rfl, rfl, ?_, List.forall_mem_cons.2 ⟨List.mem_cons_self ..,
            fun u hu => List.mem_cons_of_mem _ (hTexts u hu)⟩⟩
          rw [List.getLast?_cons_of_ne_nil hNe]
          exact hEnds

theorem standing_joined {texts : List String} {start stop : Nat} (hTexts : texts ≠ [])
    (h : join? texts start given = some (stop, rest)) (hGiven : given <:+: tokens) :
    ∃ us, given = us ++ rest ∧
      Standing tokens {} [.token (String.join texts) start stop] us rest := by
  obtain ⟨us, rfl, hBegins, hEnds, hMem⟩ := exists_of_join? hTexts h
  refine ⟨us, rfl, .singleton ⟨hBegins, hEnds, rfl, fun text _ _ hToken u hu => ?_⟩ hGiven nofun
    nofun (all_seated_token ..)⟩
  cases hToken
  rw [String.toList_join]
  exact fun c hc => List.mem_flatMap.2 ⟨u.text, hMem u hu, hc⟩

/-- The leaf of a word or of a literal stands on it. -/
theorem standing_leafOf {t : Token} {kind : Kind} (hGiven : t :: rest <:+: tokens)
    (hRegular : t.lexeme.Regular t.parts) (hKind : kind ∉ Kind.minor)
    (hPart : kind.isTypePart = true → t.lexeme = .word)
    (hAll : l.all = true → kind.isInType = true) (hFirst : l.first = true → kind.isPlainType = true)
    (hArguments : kind ≠ .typeArguments) : Standing tokens l [leafOf kind t] [t] rest := by
  have hMajor : (leafOf kind t).isMinor = false := by
    simpa [leafOf, Tree.isMinor, Tree.kindIs, Tree.kind?] using hKind
  have hOn : (leafOf kind t).StandsOn [t] :=
    ⟨rfl, rfl, hMajor, fun _ _ _ hToken => by cases hToken⟩
  -- Only literals have pieces, and no type is one.
  have hNone (hIs : (leafOf kind t).kindIs Kind.isTypePart = true) :
      t.lexeme = .word ∧ (leafOf kind t).children = [] := by
    have hWord := hPart (by simpa [leafOf, Tree.kindIs, Tree.kind?] using hIs)
    exact ⟨hWord, by simp [leafOf, Tree.children, hRegular.word hWord]⟩
  have hPlain (hIs : (leafOf kind t).kindIs Kind.isPlainType = true) :
      (leafOf kind t).kindIs Kind.isTypePart = true :=
    Kind.isTypePart_of_isPlainType hIs
  refine .singleton hOn hGiven hAll hFirst (.intro (fun _ _ => ⟨[t], {
    among := (List.prefix_append [t] rest).isInfix.trans hGiven
    on := hOn
    below := .inl ⟨t, rfl, fun hIs => ⟨(hNone hIs).1, fun c hc => by
      rw [(hNone hIs).2] at hc
      cases hc⟩⟩
    bracketed := fun hIs => absurd (by simpa [leafOf, Tree.isA, Tree.kind?] using hIs) hArguments
    within := fun c hc _ => ⟨fun hIs => ?_, fun hIs => ?_⟩ }⟩) fun c hc => ?_)
  · rw [(hNone hIs).2] at hc
    cases hc
  · rw [(hNone (hPlain hIs)).2] at hc
    cases hc
  · obtain ⟨part, hPiece, rfl⟩ := List.mem_map.1 hc
    have hMinor := Kind.mem_minor_of_mem_stringPieces _ (hRegular.piece part hPiece)
    refine .intro (fun _ hNot => ?_) (List.forall_mem_nil _)
    simp [Tree.isMinor, Tree.kindIs, Tree.kind?, hMinor] at hNot

theorem isComment_of_not_isMinor {t : Tree} (h : t.isMinor = false) : t.isComment = false := by
  rw [← Bool.not_eq_true] at h ⊢
  intro hIs
  obtain ⟨kind, hKind, hComment⟩ := (Option.any_eq_true _ _).1 hIs
  exact h (by simpa [Tree.isMinor, Tree.kindIs, hKind] using Kind.mem_minor_of_isComment hComment)

/-- A node over trees that stand somewhere stands there, too. -/
theorem standing_node {t : Tree} {kind : Kind} (h : Standing tokens m ts us rest)
    (hOrder : Token.InOrder tokens) (hOver : Tree.over? kind ts = some t)
    (hKind : kind ∉ Kind.minor) (hPart : kind.isTypePart = true → m.all = true)
    (hPlain : kind.isPlainType = true → m.first = true) (hBrackets : kind = .typeArguments →
      us.head?.map (·.text) = some "<" ∧ us.getLast?.map (·.text) = some ">") :
    Standing tokens ⟨kind.isInType, kind.isPlainType⟩ [t] us rest := by
  have hOn := h.stand.node hKind hOver
  have hAmong : us <:+: tokens := (List.prefix_append us rest).isInfix.trans h.among
  have hInside : Token.InOrder us :=
    ⟨hOrder.ordered.sublist hAmong.sublist, fun u hu => hOrder.proper u (hAmong.subset hu)⟩
  obtain ⟨first, last, hFirst, hLast, rfl⟩ := Tree.exists_of_over? hOver
  have hSolid : ts.filter (!·.isComment) = ts := List.filter_eq_self.2 fun c hc => by
    simpa using isComment_of_not_isMinor (h.stand.major c hc)
  refine .singleton hOn h.among id id (.intro (fun _ _ => ⟨us, {
    among := hAmong
    on := hOn
    below := .inr (by simpa [Tree.children, hSolid] using h.stand)
    bracketed := fun hIs => hBrackets (by simpa [Tree.isA, Tree.kind?] using hIs)
    within := fun c hc _ => ⟨fun hIs => ?_, fun hIs hStart => ?_⟩ }⟩) h.seated)
  · exact h.sees.all (hPart (by simpa [Tree.kindIs, Tree.kind?] using hIs)) c hc
  · obtain ⟨d, hHead, hBegins⟩ :=
      h.sees.first (hPlain (by simpa [Tree.kindIs, Tree.kind?] using hIs))
    rw [hFirst] at hHead
    cases hHead
    rw [h.stand.eq_of_start hInside hFirst hc hStart]
    exact hBegins

end

variable {g : Grammar ρ} {p : Pattern ρ} {left ts : List Tree} {tokens given rest : List Token}

/-- What is left is the end of what was given. -/
theorem Reads.suffix (h : Reads g p left given ts rest) : rest <:+ given := by
  induction h with
  | empty | noMore | ahead | notAhead | pending | grown => exact List.suffix_refl _
  | mark | name | literal => exact List.suffix_cons ..
  | @joined texts _ _ _ _ _ hJoin =>
    by_cases hTexts : texts = []
    · subst hTexts
      cases hJoin
      exact List.suffix_refl _
    · obtain ⟨us, rfl, _⟩ := exists_of_join? hTexts hJoin
      exact List.suffix_append ..
  | rule _ ih | either _ ih | or _ ih | node _ _ ih | role _ ih | only _ _ ih => exact ih
  | seq _ _ ih ih' | more _ _ ih ih' | wrap _ _ ih ih' | grow _ _ ih ih' => exact ih'.trans ih

theorem Reads.of_seq {first second : Pattern ρ}
    (h : Reads g (.seq first second) left given ts rest) :
    ∃ ts₁ ts₂ later, Reads g first left given ts₁ later ∧ Reads g second left later ts₂ rest := by
  cases h with
  | seq hFirst hSecond => exact ⟨_, _, _, hFirst, hSecond⟩

theorem Reads.of_mark {text : String} (h : Reads g (.mark text) left given ts rest) :
    ∃ t, given = t :: rest ∧ t.text = text := by
  cases h with
  | mark => exact ⟨_, rfl, rfl⟩

/-- What is between brackets begins and ends with one. -/
theorem Reads.brackets {us : List Token} (h : Reads g p left (us ++ rest) ts rest)
    (hBracketed : p.bracketed = true) :
    us.head?.map (·.text) = some "<" ∧ us.getLast?.map (·.text) = some ">" := by
  unfold bracketed at hBracketed
  split at hBracketed
  case h_2 => cases hBracketed
  case h_1 =>
    rw [Bool.and_eq_true, decide_eq_true_eq, decide_eq_true_eq] at hBracketed
    obtain ⟨_, _, _, hFirst, hRest⟩ := h.of_seq
    obtain ⟨_, _, _, hInner, hLast⟩ := hRest.of_seq
    obtain ⟨_, _, _, hLast, hEmpty⟩ := hLast.of_seq
    cases hEmpty
    obtain ⟨u, hGiven, hOpen⟩ := hFirst.of_mark
    obtain ⟨v, rfl, hClose⟩ := hLast.of_mark
    obtain ⟨mid, rfl⟩ := hInner.suffix
    have hUs : us = (u :: mid) ++ [v] := List.append_cancel_right (by simpa using hGiven)
    rw [hUs, List.getLast?_concat, List.cons_append, List.head?_cons, Option.map_some,
      Option.map_some, hOpen, hClose, hBracketed.1, hBracketed.2]
    exact ⟨rfl, rfl⟩

variable {rules : ρ → Look} {l : Look} {us : List Token}

theorem within_refl (l : Look) : l.within l = true := by
  obtain ⟨_ | _, _ | _⟩ := l <;> rfl

/-- What is known of some trees and of others, too, is known of either. -/
theorem both_within (l m : Look) :
    (⟨l.all && m.all, l.first && m.first⟩ : Look).within l = true ∧
      (⟨l.all && m.all, l.first && m.first⟩ : Look).within m = true := by
  obtain ⟨_ | _, _ | _⟩ := l <;> obtain ⟨_ | _, _ | _⟩ := m <;> exact ⟨rfl, rfl⟩

/-- What is known of what has grown was known before, and it is still known after a step. -/
theorem look_grow (rules : ρ → Look) (l : Look) (step : Pattern ρ) :
    (look rules l (grow step)).within l = true ∧
      (look rules l (grow step)).within (look rules (look rules l (grow step)) step) = true ∧
      look rules (look rules l (grow step)) (grow step) = look rules l (grow step) := by
  by_cases hKept : l.within (look rules l step) = true
  · have hGrow : look rules l (grow step) = l := if_pos hKept
    rw [hGrow]
    exact ⟨within_refl l, hKept, hGrow⟩
  · have hGrow : look rules l (grow step) = {} := if_neg hKept
    rw [hGrow]
    exact ⟨rfl, rfl, ite_self _⟩

/-- Every reading of a settled grammar gives trees that stand on what is read, on the tokens of the
trees that it takes up, and on no others. -/
theorem Reads.standing (hRules : ∀ r, (settled rules {} (g r) &&
      (rules r).within (look rules {} (g r)) && !(g r).takesPending) = true)
    (hOrder : Token.InOrder tokens) (hRegular : ∀ t ∈ tokens, t.lexeme.Regular t.parts)
    (h : Reads g p left given ts rest) (hSettled : settled rules l p = true)
    (hLeft : p.takesPending = true → Standing tokens l left us given) (hGiven : given <:+: tokens) :
    ∃ vs, given = vs ++ rest ∧
      Standing tokens (look rules l p) ts ((if p.takesPending then us else []) ++ vs) rest := by
  induction h generalizing l us with
  | empty | ahead | notAhead => exact ⟨[], rfl, .nil hGiven⟩
  | noMore =>
    rw [settled, Bool.and_eq_true, Bool.not_eq_true'] at hSettled
    rw [takesPending, hSettled.2]
    refine ⟨[], rfl, .mono (.nil hGiven) ?_⟩
    simp [look, Look.within]
  | @mark _ t =>
    exact ⟨[t], rfl, .singleton (standsOn_mark t) hGiven id id (all_seated_token ..)⟩
  | @joined texts _ _ _ _ _ hJoin =>
    have hTexts : texts ≠ [] := by simpa [settled] using hSettled
    exact standing_joined hTexts hJoin hGiven
  | @name kind _ _ t _ hWord =>
    have hKind : kind ∉ .typeArguments :: Kind.minor := by
      cases kind <;> first | decide | cases hSettled
    rw [List.mem_cons, not_or] at hKind
    exact ⟨[t], rfl, standing_leafOf hGiven (hRegular t (hGiven.subset (List.mem_cons_self ..)))
      hKind.2 (fun _ => hWord) id id hKind.1⟩
  | @literal kind _ t _ hLiteral =>
    have hToken := hRegular t (hGiven.subset (List.mem_cons_self ..))
    have hMem := hToken.literal kind hLiteral
    have hLiterals : ∀ kind ∈ Kind.literals, kind ∉ .typeArguments :: Kind.minor := by decide
    have hKind := hLiterals kind hMem
    rw [List.mem_cons, not_or] at hKind
    refine ⟨[t], rfl, standing_leafOf hGiven hToken hKind.2 (fun hPart => ?_)
      (fun hAll => absurd hAll Bool.false_ne_true)
      (fun hFirst => absurd hFirst Bool.false_ne_true) hKind.1⟩
    rw [Kind.isTypePart_of_mem_literals kind hMem] at hPart
    cases hPart
  | @rule r _ _ _ _ _ ih =>
    have hRule := hRules r
    rw [Bool.and_eq_true, Bool.and_eq_true, Bool.not_eq_true'] at hRule
    obtain ⟨vs, hVs, hStanding⟩ := @ih _ [] hRule.1.1 (by simp [hRule.2]) hGiven
    rw [hRule.2] at hStanding
    exact ⟨vs, hVs, hStanding.mono hRule.1.2⟩
  | seq _ _ ihFirst ihSecond =>
    rw [settled, Bool.and_eq_true, Bool.and_eq_true, Bool.not_eq_true'] at hSettled
    rw [takesPending, hSettled.2, Bool.or_false] at hLeft ⊢
    obtain ⟨vs, rfl, hFirst⟩ := ihFirst hSettled.1.1 hLeft hGiven
    obtain ⟨ws, rfl, hSecond⟩ := @ihSecond _ [] hSettled.1.2 (by simp [hSettled.2])
      ((List.suffix_append ..).isInfix.trans hGiven)
    rw [hSettled.2] at hSecond
    refine ⟨vs ++ ws, (List.append_assoc ..).symm, ?_⟩
    rw [← List.append_assoc]
    exact hFirst.append hSecond
  | either _ ih =>
    rw [settled, Bool.and_eq_true, Bool.and_eq_true, beq_iff_eq] at hSettled
    rw [takesPending, ← hSettled.2, Bool.or_self] at hLeft ⊢
    obtain ⟨vs, hVs, hStanding⟩ := ih hSettled.1.1 hLeft hGiven
    exact ⟨vs, hVs, hStanding.mono (both_within ..).1⟩
  | or _ ih =>
    rw [settled, Bool.and_eq_true, Bool.and_eq_true, beq_iff_eq] at hSettled
    rw [takesPending, hSettled.2, Bool.or_self] at hLeft ⊢
    obtain ⟨vs, hVs, hStanding⟩ := ih hSettled.1.2 hLeft hGiven
    exact ⟨vs, hVs, hStanding.mono (both_within ..).2⟩
  | more _ _ ihOne ihMore =>
    have hMany := hSettled
    rw [settled, Bool.and_eq_true, Bool.not_eq_true'] at hMany
    obtain ⟨vs, rfl, hOne⟩ := @ihOne _ [] hMany.1 (by simp [hMany.2]) hGiven
    obtain ⟨ws, rfl, hMore⟩ := @ihMore _ [] hSettled (by simp [takesPending, hMany.2])
      ((List.suffix_append ..).isInfix.trans hGiven)
    rw [takesPending, hMany.2] at hMore ⊢
    rw [hMany.2] at hOne
    refine ⟨vs ++ ws, (List.append_assoc ..).symm, (hOne.append hMore).mono ?_⟩
    simp [look, Look.within]
  | @node kind p _ _ _ _ _ hInner hOver ih =>
    simp only [settled, Bool.and_eq_true, Bool.or_eq_true, Bool.not_eq_true', decide_eq_true_eq]
      at hSettled
    obtain ⟨⟨⟨⟨hSettled, hMinor⟩, hPart⟩, hPlain⟩, hBrackets⟩ := hSettled
    obtain ⟨vs, rfl, hStanding⟩ := ih hSettled hLeft hGiven
    rw [takesPending]
    refine ⟨vs, rfl, standing_node hStanding hOrder hOver (by simpa using hMinor)
      (fun hIs => hPart.resolve_left (by simp [hIs]))
      (fun hIs => hPlain.resolve_left (by simp [hIs])) fun hIs => ?_⟩
    obtain ⟨hBracketed, hNone⟩ := hBrackets.resolve_left (by simp [hIs])
    rw [hNone]
    exact hInner.brackets hBracketed
  | role _ ih =>
    obtain ⟨vs, hVs, hStanding⟩ := ih hSettled hLeft hGiven
    exact ⟨vs, hVs, hStanding.withRole _⟩
  | only _ _ ih => exact ih hSettled hLeft hGiven
  | pending => exact ⟨[], rfl, by simpa [takesPending, look] using hLeft rfl⟩
  | grown =>
    refine ⟨[], rfl, ?_⟩
    simpa [takesPending] using (hLeft rfl).mono (look_grow ..).1
  | wrap _ _ ihBase ihWhole =>
    rw [settled, Bool.and_eq_true, Bool.and_eq_true] at hSettled
    obtain ⟨vs, rfl, hBase⟩ := ihBase hSettled.1.1 hLeft hGiven
    obtain ⟨ws, rfl, hWhole⟩ := ihWhole hSettled.1.2 (fun _ => hBase)
      ((List.suffix_append ..).isInfix.trans hGiven)
    rw [if_pos hSettled.2, List.append_assoc] at hWhole
    exact ⟨vs ++ ws, (List.append_assoc ..).symm, hWhole⟩
  | @grow step _ _ _ _ _ _ _ _ ihStep ihMore =>
    have hGrow := hSettled
    rw [settled, Bool.and_eq_true] at hGrow
    obtain ⟨hFrom, hKept, hSame⟩ := look_grow rules l step
    obtain ⟨vs, rfl, hStep⟩ := ihStep hGrow.1 (fun _ => (hLeft rfl).mono hFrom) hGiven
    rw [if_pos hGrow.2] at hStep
    obtain ⟨ws, rfl, hMore⟩ := ihMore (l := look rules l (.grow step))
      (by rw [settled, hSame, Bool.and_eq_true]; exact hGrow) (fun _ => hStep.mono hKept)
      ((List.suffix_append ..).isInfix.trans hGiven)
    rw [hSame, takesPending, if_pos rfl, List.append_assoc] at hMore
    exact ⟨vs ++ ws, (List.append_assoc ..).symm, hMore⟩

end Pattern

namespace Grammar

open Pattern

/-- What is known of the trees that rules for types give. -/
def looks : Rule → Look
  | .simpleType | .classType | .plainType => ⟨true, true⟩
  | .dimensions | .typeArguments | .annotationUse | .qualifiedName => ⟨true, false⟩
  | _ => {}

theorem settled_java (r : Rule) :
    (settled looks {} (java r) && (looks r).within (look looks {} (java r)) &&
      !(java r).takesPending) = true := by
  cases r <;> decide +kernel

end Grammar

namespace Tree

section

variable {comment t c : Tree} {ts : List Tree} {tokens us : List Token}

@[simp] theorem start_insert (comment t : Tree) : (insert comment t).start = t.start := by
  cases t <;> rfl

@[simp] theorem kind?_insert (comment t : Tree) : (insert comment t).kind? = t.kind? := by
  cases t <;> rfl

@[simp] theorem isComment_insert (comment t : Tree) :
    (insert comment t).isComment = t.isComment := by
  simp [isComment, kindIs]

@[simp] theorem isInType_insert (comment t : Tree) : (insert comment t).isInType = t.isInType := by
  cases t <;> rfl

@[simp] theorem beginsType_insert (comment t : Tree) :
    (insert comment t).beginsType = t.beginsType := by
  cases t <;> rfl

theorem StandsOn.insert (h : t.StandsOn us) : (insert comment t).StandsOn us := by
  cases t with
  | token => exact h
  | node => exact ⟨h.begins, h.ends, h.major, nofun⟩

/-- Trees stand where they stood when a comment is put among them. -/
theorem Stand.insertAmong (hComment : comment.isComment = true)
    (h : Stand (ts.filter (!·.isComment)) us) :
    Stand ((insertAmong comment ts).filter (!·.isComment)) us := by
  induction ts generalizing us with
  | nil => simpa [Tree.insertAmong, hComment] using h
  | cons t ts ih =>
    rw [Tree.insertAmong]
    cases hMark : t.isComment with
    | true =>
      rw [List.filter_cons_of_neg (by simp [hMark])] at h
      split
      · rw [List.filter_cons_of_neg (by simp [hMark])]
        exact ih h
      · split <;> simpa [hMark, hComment] using h
    | false =>
      rw [List.filter_cons_of_pos (by simp [hMark])] at h
      split
      · rw [List.filter_cons_of_pos (by simp [hMark])]
        cases h with
        | cons hFirst hRest => exact .cons hFirst (ih hRest)
      · split
        · rw [List.filter_cons_of_pos (by simp [hMark])]
          cases h with
          | cons hFirst hRest => exact .cons hFirst.insert hRest
        · simpa [hMark, hComment] using h

theorem mem_insertAmong (h : c ∈ insertAmong comment ts) :
    c = comment ∨ ∃ d ∈ ts, c = d ∨ c = insert comment d := by
  induction ts with
  | nil => exact .inl (List.mem_singleton.1 h)
  | cons t ts ih =>
    rw [insertAmong] at h
    split at h
    · rcases List.mem_cons.1 h with rfl | h
      · exact .inr ⟨c, List.mem_cons_self .., .inl rfl⟩
      · exact (ih h).imp_right fun ⟨d, hd, hc⟩ => ⟨d, List.mem_cons_of_mem _ hd, hc⟩
    · split at h <;> rcases List.mem_cons.1 h with rfl | h
      · exact .inr ⟨t, List.mem_cons_self .., .inr rfl⟩
      · exact .inr ⟨c, List.mem_cons_of_mem _ h, .inl rfl⟩
      · exact .inl rfl
      · exact .inr ⟨c, h, .inl rfl⟩

/-- A node has the same place with a comment put below it. -/
theorem Seated.insertAmong (hComment : comment.isComment = true) {role : Option Role} {kind : Kind}
    {start stop : Nat} (h : Seated tokens (.node role kind start stop ts)) :
    Seated tokens (.node role kind start stop (insertAmong comment ts)) := by
  intro hNamed hMajor
  obtain ⟨us, hSeat⟩ := h hNamed hMajor
  refine ⟨us, {
    among := hSeat.among
    on := ⟨hSeat.on.begins, hSeat.on.ends, hSeat.on.major, nofun⟩
    below := by
      refine hSeat.below.imp (fun ⟨u, hOne, hLeaf⟩ => ⟨u, hOne, fun hIs => ⟨(hLeaf hIs).1, ?_⟩⟩)
        (Stand.insertAmong hComment)
      intro c hc
      rcases mem_insertAmong hc with rfl | ⟨d, hd, rfl | rfl⟩
      · exact hComment
      · exact (hLeaf hIs).2 c hd
      · rw [isComment_insert]
        exact (hLeaf hIs).2 d hd
    bracketed := hSeat.bracketed
    within := fun c hc hNot => ?_ }⟩
  rcases mem_insertAmong hc with rfl | ⟨d, hd, rfl | rfl⟩
  · rw [hComment] at hNot
    cases hNot
  · exact hSeat.within c hd hNot
  · rw [isInType_insert, start_insert, beginsType_insert]
    exact hSeat.within d hd (by simpa using hNot)

end

end Tree

/-- Every node of a source but the one over all of it has its place among the tokens that are no
comments. -/
theorem seated_of_treeOf? {length : Nat} {tokens : List Token} {root : Tree}
    (hRegular : ∀ t ∈ tokens, t.lexeme.Regular t.parts) (hOrder : Token.InOrder tokens)
    (h : treeOf? length tokens = some root) :
    ∀ c ∈ root.children, c.All (Tree.Seated (tokens.filter (!·.isComment))) := by
  apply treeOf?_induction h
  · intro trees start hReads
    have hSolid : Token.InOrder (tokens.filter (!·.isComment)) :=
      ⟨hOrder.ordered.sublist List.filter_sublist,
        fun t ht => hOrder.proper t (List.mem_filter.1 ht).1⟩
    obtain ⟨_, _, hStanding⟩ := hReads.standing Grammar.settled_java hSolid
      (fun t ht => hRegular t (List.mem_filter.1 ht).1) rfl
      (nofun : _ → Pattern.Standing _ {} _ [] _) (List.infix_refl _)
    exact hStanding.seated
  · intro tree hTree t ht kind hLexeme
    have hComment : (Tree.node none kind t.start t.stop []).isComment = true :=
      (hRegular t ht).comment kind hLexeme
    cases tree with
    | token => exact hTree
    | node role k start stop children =>
      rw [Tree.insert]
      refine Tree.all_insertAmong (.intro (fun _ hNot => ?_) (List.forall_mem_nil _))
        (fun _ _ _ _ _ hHere => hHere.insertAmong hComment) children hTree
      have hMinor := Kind.mem_minor_of_isComment hComment
      simp [Tree.isMinor, Tree.kindIs, Tree.kind?, hMinor] at hNot

/-- So has every node of a source that was read. -/
theorem SourceUnit.seated_of_parse {source : List UInt8} {path : String} {unit : SourceUnit}
    (h : parse source path = .ok unit) :
    ∀ c ∈ unit.root.children, c.All (Tree.Seated unit.solid) := by
  obtain ⟨tokens, hCut, _⟩ := exists_cut_of_parse h
  rw [hCut.solid]
  exact seated_of_treeOf? hCut.lexemes hCut.inOrder hCut.tree

end ChangeSplit.Java
