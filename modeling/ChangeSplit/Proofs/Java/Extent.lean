import ChangeSplit.Proofs.Java.Cut
import ChangeSplit.Proofs.Java.Grammar

/-! What the nodes of a tree span. Trees that are read stand behind each other in the order of the
tokens, and each begins where its first token does. Where a pattern takes up pending trees, it does
so before it reads any tokens, which one look at each rule of a grammar tells. -/

namespace ChangeSplit.Java

namespace Pattern

variable {ρ : Type}

/-- Whether a pattern takes up pending trees. The pattern of a rule has none. -/
def takesPending : Pattern ρ → Bool
  | pending | grow _ => true
  | seq first second | alt first second => first.takesPending || second.takesPending
  | many p | node _ p | role _ p | only _ p => p.takesPending
  | wrap base _ => base.takesPending
  | empty | mark _ | joined _ | name _ _ | literal | rule _ | ahead _ | notAhead _ => false

/-- Whether pending trees are taken up only where no tokens have been read before. -/
def orderly : Pattern ρ → Bool
  | seq first second => first.orderly && second.orderly && !second.takesPending
  | alt first second | wrap first second => first.orderly && second.orderly
  | many p => p.orderly && !p.takesPending
  | node _ p | role _ p | only _ p | grow p => p.orderly
  | joined texts => !texts.isEmpty
  | empty | mark _ | name _ _ | literal | rule _ | ahead _ | notAhead _ | pending => true

end Pattern

namespace Grammar

theorem orderly_java (r : Rule) :
    ((java r).orderly && !(java r).takesPending) = true := by
  cases r <;> decide +kernel

end Grammar

/-- Where a node of the tree comes from: it begins with a token and goes on to the end of one, or it
is a piece of a token. Comments come from nowhere else. -/
def Founded (tokens : List Token) (t : Tree) : Prop :=
  t.isNamed = true → t.isComment = false →
    (t.start < t.stop ∧ ∃ u ∈ tokens, u.start = t.start) ∨
      ∃ u ∈ tokens, ∃ part ∈ u.parts, part.start = t.start ∧ part.stop = t.stop

namespace Tree

/-- What holds of a tree and of everything below it. -/
inductive All (P : Tree → Prop) : Tree → Prop
  | intro {t : Tree} (hHere : P t) (hBelow : ∀ c ∈ t.children, All P c) : All P t

variable {P : Tree → Prop}

theorem All.here {t : Tree} (h : t.All P) : P t := by
  cases h with
  | intro hHere _ => exact hHere

theorem All.of_mem_children {t c : Tree} (h : t.All P) (hc : c ∈ t.children) : c.All P := by
  cases h with
  | intro _ hBelow => exact hBelow c hc

@[simp] theorem start_withRole (r : Role) (t : Tree) : (t.withRole r).start = t.start := by
  cases t <;> rfl

@[simp] theorem stop_withRole (r : Role) (t : Tree) : (t.withRole r).stop = t.stop := by
  cases t <;> rfl

@[simp] theorem kind?_withRole (r : Role) (t : Tree) : (t.withRole r).kind? = t.kind? := by
  cases t <;> rfl

@[simp] theorem children_withRole (r : Role) (t : Tree) :
    (t.withRole r).children = t.children := by
  cases t <;> rfl

end Tree

/-- Trees in the order of the source, with the tokens that are left behind them. -/
structure Chain (tokens : List Token) (ts : List Tree) (rest : List Token) : Prop where
  ordered : ts.Pairwise fun t u => t.stop ≤ u.start
  proper : ∀ t ∈ ts, t.start < t.stop
  before : ∀ t ∈ ts, ∀ u ∈ rest, t.stop ≤ u.start
  begins : ∀ t ∈ ts, ∃ u ∈ tokens, u.start = t.start
  founded : ∀ t ∈ ts, t.All (Founded tokens)

namespace Chain

variable {tokens rest later : List Token} {ts us : List Tree} {t : Tree}

theorem nil : Chain tokens [] rest :=
  ⟨.nil, List.forall_mem_nil _, List.forall_mem_nil _, List.forall_mem_nil _, List.forall_mem_nil _⟩

theorem singleton (hProper : t.start < t.stop) (hBefore : ∀ u ∈ rest, t.stop ≤ u.start)
    (hBegins : ∃ u ∈ tokens, u.start = t.start) (hFounded : t.All (Founded tokens)) :
    Chain tokens [t] rest where
  ordered := List.pairwise_singleton _ _
  proper := List.forall_mem_singleton.2 hProper
  before := List.forall_mem_singleton.2 hBefore
  begins := List.forall_mem_singleton.2 hBegins
  founded := List.forall_mem_singleton.2 hFounded

/-- Trees behind other trees, of which each begins with a token that those have left. -/
theorem append (hFirst : Chain tokens ts later) (hSecond : Chain tokens us rest)
    (hRest : rest ⊆ later) (hBegins : ∀ t ∈ us, ∃ u ∈ later, u.start = t.start) :
    Chain tokens (ts ++ us) rest where
  ordered := by
    refine List.pairwise_append.2 ⟨hFirst.ordered, hSecond.ordered, fun t ht c hc => ?_⟩
    obtain ⟨u, hu, hStart⟩ := hBegins c hc
    rw [← hStart]
    exact hFirst.before t ht u hu
  proper := List.forall_mem_append.2 ⟨hFirst.proper, hSecond.proper⟩
  before := List.forall_mem_append.2
    ⟨fun t ht u hu => hFirst.before t ht u (hRest hu), hSecond.before⟩
  begins := List.forall_mem_append.2 ⟨hFirst.begins, hSecond.begins⟩
  founded := List.forall_mem_append.2 ⟨hFirst.founded, hSecond.founded⟩

/-- A node over trees begins with the first of them and ends with the last. -/
theorem node (h : Chain tokens ts rest) {kind : Kind} (hOver : Tree.over? kind ts = some t) :
    Chain tokens [t] rest ∧ ∃ c ∈ ts, c.start = t.start := by
  obtain ⟨first, last, hFirst, hLast, rfl⟩ := Tree.exists_of_over? hOver
  have hFirstMem : first ∈ ts := List.mem_of_head? hFirst
  have hLastMem : last ∈ ts := List.mem_of_getLast? hLast
  have hProper : first.start < last.stop := by
    obtain ⟨more, rfl⟩ := List.head?_eq_some_iff.1 hFirst
    have hFirstLt := h.proper first hFirstMem
    rcases List.mem_cons.1 hLastMem with rfl | hLastMem
    · exact hFirstLt
    · have hLe := (List.pairwise_cons.1 h.ordered).1 last hLastMem
      have hLastLt := h.proper last (List.mem_cons_of_mem _ hLastMem)
      omega
  obtain ⟨u, hu, hStart⟩ := h.begins first hFirstMem
  exact ⟨singleton hProper (h.before last hLastMem) ⟨u, hu, hStart⟩
    (.intro (fun _ _ => .inl ⟨hProper, u, hu, hStart⟩) h.founded), first, hFirstMem, rfl⟩

theorem withRole (h : Chain tokens ts rest) (r : Role) :
    Chain tokens (ts.map (Tree.withRole r)) rest where
  ordered := by simpa [List.pairwise_map] using h.ordered
  proper := by simpa using h.proper
  before := by simpa using h.before
  begins := by simpa using h.begins
  founded := by
    refine List.forall_mem_map.2 fun t ht => ?_
    have hFounded := h.founded t ht
    refine .intro ?_ (fun c hc => hFounded.of_mem_children (by simpa using hc))
    simpa [Founded, Tree.isNamed, Tree.isComment, Tree.kindIs] using hFounded.here

end Chain

namespace Pattern

section

variable {tokens given rest : List Token} {t : Token}

theorem founded_leafOf (ht : t ∈ tokens) (hProper : t.start < t.stop) (kind : Kind) :
    (leafOf kind t).All (Founded tokens) := by
  refine .intro (fun _ _ => .inl ⟨hProper, t, ht, rfl⟩) fun c hc => ?_
  obtain ⟨part, hPart, rfl⟩ := List.mem_map.1 hc
  exact .intro (fun _ _ => .inr ⟨t, ht, part, hPart, rfl, rfl⟩) (List.forall_mem_nil _)

/-- Marks that are read as one token begin with the first of them and end in front of the tokens
that are left. -/
theorem extent_of_join? {texts : List String} {start stop : Nat} (hTexts : texts ≠ [])
    (hOrder : given.Pairwise fun t u => t.stop ≤ u.start) (hProper : ∀ t ∈ given, t.start < t.stop)
    (h : join? texts start given = some (stop, rest)) :
    rest <:+ given ∧ start < stop ∧ (∃ u ∈ given, u.start = start) ∧
      ∀ u ∈ rest, stop ≤ u.start := by
  induction texts generalizing start given with
  | nil => exact absurd rfl hTexts
  | cons text texts ih =>
    cases given with
    | nil => cases h
    | cons t given =>
      rw [join?] at h
      split at h
      case isFalse => cases h
      case isTrue hMark =>
        simp only [Bool.and_eq_true, decide_eq_true_eq] at hMark
        obtain rfl := hMark.2
        obtain ⟨hFirst, hLater⟩ := List.pairwise_cons.1 hOrder
        obtain ⟨hHead, hOthers⟩ := List.forall_mem_cons.1 hProper
        have hBegin : ∃ u ∈ t :: given, u.start = t.start := ⟨t, List.mem_cons_self .., rfl⟩
        cases texts with
        | nil =>
          cases h
          exact ⟨List.suffix_cons .., hHead, hBegin, hFirst⟩
        | cons next texts =>
          obtain ⟨hRest, hLt, _, hBehind⟩ := ih (List.cons_ne_nil _ _) hLater hOthers h
          exact ⟨hRest.trans (List.suffix_cons ..), by omega, hBegin, hBehind⟩

end

/-- What a reading does: its trees stand behind each other, in front of the tokens that are left,
and each of them begins with a given token or, if pending trees are taken up, as one of those
does. -/
structure Advances (tokens : List Token) (takes : Bool) (left : List Tree) (given : List Token)
    (ts : List Tree) (rest : List Token) : Prop where
  chain : Chain tokens ts rest
  suffix : rest <:+ given
  begins : ∀ t ∈ ts, (∃ u ∈ given, u.start = t.start) ∨ takes = true ∧ ∃ l ∈ left, l.start = t.start

namespace Advances

variable {tokens given later rest : List Token} {takes takes' : Bool} {left ts us : List Tree}

theorem nil : Advances tokens takes left given [] given :=
  ⟨.nil, List.suffix_refl _, List.forall_mem_nil _⟩

theorem token {t : Token} {tree : Tree} (hOrder : tokens.Pairwise fun t u => t.stop ≤ u.start)
    (hProper : ∀ t ∈ tokens, t.start < t.stop) (hGiven : t :: rest <:+ tokens)
    (hStart : tree.start = t.start) (hStop : tree.stop = t.stop)
    (hFounded : tree.All (Founded tokens)) :
    Advances tokens takes left (t :: rest) [tree] rest := by
  have ht : t ∈ tokens := hGiven.subset (List.mem_cons_self ..)
  have hBehind := (List.pairwise_cons.1 (hOrder.sublist hGiven.sublist)).1
  refine ⟨.singleton ?_ ?_ ⟨t, ht, hStart.symm⟩ hFounded, List.suffix_cons .., ?_⟩
  · rw [hStart, hStop]
    exact hProper t ht
  · rw [hStop]
    exact hBehind
  · exact List.forall_mem_singleton.2 (.inl ⟨t, List.mem_cons_self .., hStart.symm⟩)

/-- One reading and then another that takes up nothing. -/
theorem append (hFirst : Advances tokens takes left given ts later)
    (hSecond : Advances tokens false left later us rest) :
    Advances tokens takes left given (ts ++ us) rest where
  chain := by
    refine hFirst.chain.append hSecond.chain hSecond.suffix.subset fun t ht => ?_
    exact (hSecond.begins t ht).resolve_right fun hTakes => Bool.false_ne_true hTakes.1
  suffix := hSecond.suffix.trans hFirst.suffix
  begins := by
    refine List.forall_mem_append.2 ⟨hFirst.begins, fun t ht => .inl ?_⟩
    obtain ⟨u, hu, hStart⟩ :=
      (hSecond.begins t ht).resolve_right fun hTakes => Bool.false_ne_true hTakes.1
    exact ⟨u, hFirst.suffix.subset hu, hStart⟩

/-- One reading and then another that may take up its trees. -/
theorem wrap (hBase : Advances tokens takes left given ts later)
    (hWhole : Advances tokens takes' ts later us rest) :
    Advances tokens takes left given us rest where
  chain := hWhole.chain
  suffix := hWhole.suffix.trans hBase.suffix
  begins t ht := by
    rcases hWhole.begins t ht with ⟨u, hu, hStart⟩ | ⟨_, l, hl, hStart⟩
    · exact .inl ⟨u, hBase.suffix.subset hu, hStart⟩
    · rw [← hStart]
      exact hBase.begins l hl

theorem mono (h : Advances tokens takes left given ts rest)
    (hTakes : takes = true → takes' = true) : Advances tokens takes' left given ts rest :=
  ⟨h.chain, h.suffix, fun t ht => (h.begins t ht).imp_right (And.imp_left hTakes)⟩

theorem node {kind : Kind} {t : Tree} (h : Advances tokens takes left given ts rest)
    (hOver : Tree.over? kind ts = some t) : Advances tokens takes left given [t] rest := by
  obtain ⟨hChain, c, hc, hStart⟩ := h.chain.node hOver
  refine ⟨hChain, h.suffix, List.forall_mem_singleton.2 ?_⟩
  rw [← hStart]
  exact h.begins c hc

theorem withRole (h : Advances tokens takes left given ts rest) (r : Role) :
    Advances tokens takes left given (ts.map (Tree.withRole r)) rest where
  chain := h.chain.withRole r
  suffix := h.suffix
  begins := List.forall_mem_map.2 fun t ht => by simpa using h.begins t ht

end Advances

variable {ρ : Type} {g : Grammar ρ} {tokens : List Token}

/-- Every reading of an orderly grammar goes on through the tokens. -/
theorem Reads.advances (hRules : ∀ r, ((g r).orderly && !(g r).takesPending) = true)
    (hOrder : tokens.Pairwise fun t u => t.stop ≤ u.start)
    (hProper : ∀ t ∈ tokens, t.start < t.stop)
    {p : Pattern ρ} {left ts : List Tree} {given rest : List Token}
    (h : Reads g p left given ts rest) (hOrderly : p.orderly = true)
    (hLeft : p.takesPending = true → Chain tokens left given) (hGiven : given <:+ tokens) :
    Advances tokens p.takesPending left given ts rest := by
  induction h with
  | empty | noMore | ahead | notAhead => exact .nil
  | mark => exact .token hOrder hProper hGiven rfl rfl (.intro nofun (List.forall_mem_nil _))
  | @joined _ _ given _ _ _ hJoin =>
    have hTexts := hOrderly
    simp only [orderly, Bool.not_eq_true', List.isEmpty_eq_false_iff] at hTexts
    obtain ⟨hRest, hLt, hBegin, hBehind⟩ := extent_of_join? hTexts
      (hOrder.sublist hGiven.sublist) (fun t ht => hProper t (hGiven.subset ht)) hJoin
    obtain ⟨u, hu, hStart⟩ := hBegin
    exact ⟨.singleton hLt hBehind ⟨u, hGiven.subset hu, hStart⟩
      (.intro nofun (List.forall_mem_nil _)), hRest,
      List.forall_mem_singleton.2 (.inl ⟨u, hu, hStart⟩)⟩
  | name _ | literal _ =>
    have ht := hGiven.subset (List.mem_cons_self ..)
    exact .token hOrder hProper hGiven rfl rfl (founded_leafOf ht (hProper _ ht) _)
  | @rule r _ _ _ _ _ ih =>
    obtain ⟨hRule, hNone⟩ := Bool.and_eq_true_iff.1 (hRules r)
    rw [Bool.not_eq_true'] at hNone
    rw [hNone] at ih
    exact ih hRule nofun hGiven
  | seq _ _ ihFirst ihSecond =>
    simp only [orderly, Bool.and_eq_true, Bool.not_eq_true'] at hOrderly
    obtain ⟨⟨hFirst, hSecond⟩, hNone⟩ := hOrderly
    rw [hNone] at ihSecond
    have hOne := ihFirst hFirst (fun h => hLeft (by simp [takesPending, h])) hGiven
    have hTwo := ihSecond hSecond nofun (hOne.suffix.trans hGiven)
    exact (hOne.append hTwo).mono fun h => by simp [takesPending, h]
  | either _ ih =>
    simp only [orderly, Bool.and_eq_true] at hOrderly
    exact (ih hOrderly.1 (fun h => hLeft (by simp [takesPending, h])) hGiven).mono
      fun h => by simp [takesPending, h]
  | or _ ih =>
    simp only [orderly, Bool.and_eq_true] at hOrderly
    exact (ih hOrderly.2 (fun h => hLeft (by simp [takesPending, h])) hGiven).mono
      fun h => by simp [takesPending, h]
  | more _ _ ihOne ihMore =>
    have hMany := hOrderly
    simp only [orderly, Bool.and_eq_true, Bool.not_eq_true'] at hMany
    have hOne := ihOne hMany.1 hLeft hGiven
    have hMore := ihMore hOrderly (fun h => by simp [takesPending, hMany.2] at h)
      (hOne.suffix.trans hGiven)
    rw [takesPending, hMany.2] at hMore ⊢
    rw [hMany.2] at hOne
    exact hOne.append hMore
  | node _ hOver ih => exact (ih hOrderly hLeft hGiven).node hOver
  | role _ ih => exact (ih hOrderly hLeft hGiven).withRole _
  | only _ _ ih => exact ih hOrderly hLeft hGiven
  | pending | grown =>
    exact ⟨hLeft rfl, List.suffix_refl _, fun t ht => .inr ⟨rfl, t, ht, rfl⟩⟩
  | wrap _ _ ihBase ihWhole =>
    simp only [orderly, Bool.and_eq_true] at hOrderly
    have hBase := ihBase hOrderly.1 hLeft hGiven
    exact hBase.wrap (ihWhole hOrderly.2 (fun _ => hBase.chain) (hBase.suffix.trans hGiven))
  | grow _ _ ihStep ihMore =>
    have hStep := ihStep hOrderly (fun _ => hLeft rfl) hGiven
    have hMore := ihMore hOrderly (fun _ => hStep.chain) (hStep.suffix.trans hGiven)
    exact (hStep.mono fun _ => rfl).wrap hMore

end Pattern

section Insert

variable {P : Tree → Prop} {comment : Tree}

mutual

/-- What holds of everything in a tree and of a comment still does with the comment put in, if a
node keeps it where the comment is put below the node. -/
theorem Tree.All.insert (hComment : comment.All P)
    (hKeep : ∀ role kind start stop cs, P (.node role kind start stop cs) →
      P (.node role kind start stop (Tree.insertAmong comment cs))) :
    ∀ t : Tree, t.All P → (Tree.insert comment t).All P
  | .token .., h => h
  | .node role kind start stop children, h => by
    rw [Tree.insert]
    exact .intro (hKeep _ _ _ _ _ h.here)
      (Tree.all_insertAmong hComment hKeep children fun _ => h.of_mem_children)

theorem Tree.all_insertAmong (hComment : comment.All P)
    (hKeep : ∀ role kind start stop cs, P (.node role kind start stop cs) →
      P (.node role kind start stop (Tree.insertAmong comment cs))) :
    ∀ ts : List Tree, (∀ t ∈ ts, t.All P) → ∀ t ∈ Tree.insertAmong comment ts, t.All P
  | [], _ => List.forall_mem_singleton.2 hComment
  | u :: rest, h => by
    obtain ⟨hu, hRest⟩ := List.forall_mem_cons.1 h
    rw [Tree.insertAmong]
    split
    case isTrue =>
      exact List.forall_mem_cons.2 ⟨hu, Tree.all_insertAmong hComment hKeep rest hRest⟩
    case isFalse =>
      split
      case isTrue =>
        exact List.forall_mem_cons.2 ⟨Tree.All.insert hComment hKeep u hu, hRest⟩
      case isFalse => exact List.forall_mem_cons.2 ⟨hComment, h⟩

end

end Insert

/-- Every node of a source but the one over all of it is founded on the tokens that are no
comments. -/
theorem founded_of_treeOf? {length : Nat} {tokens : List Token} {root : Tree}
    (hRegular : ∀ t ∈ tokens, t.lexeme.Regular t.parts)
    (hOrder : tokens.Pairwise fun t u => t.stop ≤ u.start)
    (hProper : ∀ t ∈ tokens, t.start < t.stop) (h : treeOf? length tokens = some root) :
    ∀ c ∈ root.children, c.All (Founded (tokens.filter (!·.isComment))) := by
  apply treeOf?_induction h
  · intro trees start hReads
    refine (hReads.advances Grammar.orderly_java (hOrder.sublist List.filter_sublist) ?_ rfl nofun
      (List.suffix_refl _)).chain.founded
    exact fun t ht => hProper t (List.mem_filter.1 ht).1
  · intro tree hTree t ht kind hLexeme
    have hKind : kind.isComment = true := (hRegular t ht).comment kind hLexeme
    cases tree with
    | token => exact hTree
    | node role k start stop children =>
      rw [Tree.insert]
      refine Tree.all_insertAmong (.intro (fun _ hNot => ?_) (List.forall_mem_nil _)) ?_ children
        hTree
      · simp [Tree.isComment, Tree.kindIs, Tree.kind?, hKind] at hNot
      · exact fun _ _ _ _ _ hHere => hHere

end ChangeSplit.Java
