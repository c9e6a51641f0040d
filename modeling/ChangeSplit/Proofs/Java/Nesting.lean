import ChangeSplit.Proofs.Java.Footing
import ChangeSplit.Proofs.Java.Piece

/-! Trees whose nodes lie inside of each other. In the tree of every source that can be read, the
nodes right below a node stand behind each other inside of it, each of them takes up some bytes,
and there are no nodes below comments but comments. Comments themselves may be anywhere. -/

namespace ChangeSplit.Java

theorem Kind.isComment_of_mem_literals : ∀ kind ∈ literals, kind.isComment = false := by decide

namespace Tree

/-- The nodes right below a tree, but for comments. -/
def inner (t : Tree) : List Tree := t.namedChildren.filter (!·.isComment)

/-- Trees that stand behind each other between two places, each over some bytes. -/
structure Row (first last : Nat) (ts : List Tree) : Prop where
  within : ∀ t ∈ ts, first ≤ t.start ∧ t.stop ≤ last
  proper : ∀ t ∈ ts, t.start < t.stop
  apart : ts.Pairwise fun t u => t.stop ≤ u.start

/-- A tree that the nodes right below it lie inside of, one behind the other. -/
structure Tidy (t : Tree) : Prop where
  row : Row t.start t.stop t.inner
  comment : t.isComment = true → t.inner = []

variable {t c comment : Tree} {ts : List Tree} {first last : Nat}

theorem mem_inner : c ∈ t.inner ↔ c ∈ t.namedChildren ∧ c.isComment = false := by
  simp [inner]

theorem Row.nil : Row first last [] := ⟨List.forall_mem_nil _, List.forall_mem_nil _, .nil⟩

theorem Row.sublist {us : List Tree} (h : Row first last ts) (hSub : us.Sublist ts) :
    Row first last us :=
  ⟨fun t ht => h.within t (hSub.subset ht), fun t ht => h.proper t (hSub.subset ht),
    h.apart.sublist hSub⟩

/-- A tree without nodes below it. -/
theorem tidy_of_inner_eq_nil (h : t.inner = []) : t.Tidy :=
  ⟨by rw [h]; exact .nil, fun _ => h⟩

@[simp] theorem inner_withRole (r : Role) (t : Tree) : (t.withRole r).inner = t.inner := by
  simp [inner, namedChildren]

theorem all_tidy_withRole (h : t.All Tidy) (r : Role) : (t.withRole r).All Tidy := by
  refine .intro ⟨by simpa using h.here.row, fun hComment => ?_⟩ fun c hc =>
    h.of_mem_children (by simpa using hc)
  rw [inner_withRole]
  exact h.here.comment (by simpa [isComment, kindIs] using hComment)

theorem all_tidy_token (text : String) (start stop : Nat) : (token text start stop).All Tidy :=
  .intro (tidy_of_inner_eq_nil rfl) (List.forall_mem_nil _)

theorem children_of_over? {kind : Kind} (h : over? kind ts = some t) : t.children = ts := by
  obtain ⟨first, last, _, _, rfl⟩ := exists_of_over? h
  rfl

/-- A node over trees that stand behind each other. -/
theorem tidy_of_over? {kind : Kind} (hRow : ts.Pairwise fun t u => t.stop ≤ u.start)
    (hProper : ∀ t ∈ ts, t.start < t.stop) (hKind : kind.isComment = false)
    (hOver : over? kind ts = some t) : t.Tidy := by
  obtain ⟨front, back, hFront, hBack, rfl⟩ := exists_of_over? hOver
  have hWithin : ∀ c ∈ ts, front.start ≤ c.start ∧ c.stop ≤ back.stop := by
    intro c hc
    obtain ⟨more, hMore⟩ := List.head?_eq_some_iff.1 hFront
    obtain ⟨init, hInit⟩ := List.getLast?_eq_some_iff.1 hBack
    constructor
    · have hHere := hc
      rw [hMore] at hHere hRow
      rcases List.mem_cons.1 hHere with rfl | hLater
      · exact Nat.le_refl _
      · have hFirst := hProper front (List.mem_of_head? hFront)
        have hLe := (List.pairwise_cons.1 hRow).1 c hLater
        omega
    · have hHere := hc
      rw [hInit] at hHere hRow
      rcases List.mem_append.1 hHere with hBefore | hLast
      · have hLast := hProper back (List.mem_of_getLast? hBack)
        have hLe := (List.pairwise_append.1 hRow).2.2 c hBefore back (List.mem_singleton.2 rfl)
        omega
      · rw [List.mem_singleton.1 hLast]
  have hSub : (node none kind front.start back.stop ts).inner.Sublist ts :=
    List.filter_sublist.trans List.filter_sublist
  refine ⟨Row.sublist ⟨hWithin, hProper, hRow⟩ hSub, fun hComment => ?_⟩
  have hIs : kind.isComment = true := by simpa [isComment, kindIs, kind?] using hComment
  rw [hKind] at hIs
  cases hIs

end Tree

namespace Token

/-- Pieces that stand behind each other between two places, each over some bytes. -/
structure Pieces (first last : Nat) (parts : List Part) : Prop where
  within : ∀ part ∈ parts, first ≤ part.start ∧ part.start < part.stop ∧ part.stop ≤ last
  apart : parts.Pairwise fun a b => a.stop ≤ b.start

variable {at_ n k first last : Nat} {cs : List Char} {parts later : List Part}

theorem Pieces.nil : Pieces first last [] := ⟨List.forall_mem_nil _, .nil⟩

theorem Pieces.mono (h : Pieces first last parts) {first' last' : Nat} (hFirst : first' ≤ first)
    (hLast : last ≤ last') : Pieces first' last' parts where
  within part hPart := by
    obtain ⟨hStart, hProper, hStop⟩ := h.within part hPart
    exact ⟨by omega, hProper, by omega⟩
  apart := h.apart

/-- A piece over some characters, if there is one, and pieces behind it. -/
theorem Pieces.append {own : Option Kind} (hRest : Pieces first last later) (hProper : at_ < first)
    (hLast : first ≤ last) :
    Pieces at_ last ((own.map fun kind => ⟨kind, at_, first⟩).toList ++ later) := by
  have hMore := hRest.mono (Nat.le_of_lt hProper) (Nat.le_refl last)
  cases own with
  | none => exact hMore
  | some kind =>
      refine ⟨List.forall_mem_cons.2 ⟨⟨Nat.le_refl _, hProper, hLast⟩, hMore.within⟩, ?_⟩
      exact List.pairwise_cons.2 ⟨fun part hPart => (hRest.within part hPart).1, hRest.apart⟩

theorem byteLength_take_add (k m : Nat) (cs : List Char) :
    byteLength (cs.take (k + m)) =
      byteLength (cs.take k) + byteLength ((cs.drop k).take m) := by
  rw [List.take_add, byteLength_append]

theorem byteLength_take_pos (hk : 0 < k) (hNe : cs ≠ []) : 0 < byteLength (cs.take k) := by
  refine Cuts.byteLength_pos fun hNil => ?_
  rcases List.take_eq_nil_iff.1 hNil with hZero | hEmpty
  · omega
  · exact hNe hEmpty

/-- A step that takes some characters, as a piece or not, and goes on behind them. -/
theorem Pieces.step (own : Option Kind) {m : Nat} (hk : 0 < k) (hNe : cs ≠ [])
    (hRest : Pieces (at_ + byteLength (cs.take k))
      (at_ + byteLength (cs.take k) + byteLength ((cs.drop k).take m)) later) :
    Pieces at_ (at_ + byteLength (cs.take (k + m)))
      ((own.map fun kind => ⟨kind, at_, at_ + byteLength (cs.take k)⟩).toList ++ later) := by
  have hPos := byteLength_take_pos hk hNe
  rw [byteLength_take_add, ← Nat.add_assoc]
  exact hRest.append (by omega) (by omega)

theorem Steps.pieces (h : Steps at_ cs parts n) :
    Pieces at_ (at_ + byteLength (cs.take n)) parts := by
  induction h with
  | close => exact .nil
  | step own hk _ _ _ ih => exact Pieces.step own hk (List.cons_ne_nil _ _) ih

/-- The pieces of a token stand behind each other inside of it. -/
theorem pieces_of_scan? {start : Nat} {lexeme : Lexeme}
    (h : scan? start cs = some (lexeme, n, parts)) :
    Pieces start (start + byteLength (cs.take n)) parts := by
  cases scans_of_scan? h with
  | @string front rest _ n _ hSteps =>
    refine hSteps.pieces.mono (Nat.le_add_right ..) ?_
    rw [byteLength_take_add, List.take_left, List.drop_left]
    exact Nat.le_of_eq (Nat.add_assoc ..)
  | lineComment | blockComment | character | number | mark | word => exact .nil

/-- No token begins in front of the first one. -/
theorem InOrder.head_le {ts : List Token} (h : InOrder ts) {u : Token} (hu : u ∈ ts) (d : Nat) :
    (ts.head?.map (·.start)).getD d ≤ u.start := by
  cases ts with
  | nil => cases hu
  | cons t ts =>
      rw [List.head?_cons, Option.map_some, Option.getD_some]
      rcases List.mem_cons.1 hu with rfl | hLater
      · exact Nat.le_refl _
      · exact Nat.le_trans (Nat.le_of_lt h.head.1) (h.head.2 u hLater)

theorem ScannedIn.pieces {start : Nat} {t : Token} (h : t.ScannedIn start cs) :
    Pieces t.start t.stop t.parts := by
  obtain ⟨before, rest, n, _, _, hScan, _, hStop⟩ := h
  rw [hStop]
  exact pieces_of_scan? hScan

end Token

namespace Pattern

variable {ρ : Type} {g : Grammar ρ} {tokens : List Token}

open Java.Tree

/-- A leaf is tidy, whatever pieces are below it. -/
theorem all_tidy_leafOf {t : Token} {kind : Kind} (h : Token.Pieces t.start t.stop t.parts)
    (hKind : kind.isComment = false) : (leafOf kind t).All Tidy := by
  have hRow : Row t.start t.stop
      (t.parts.map fun part => Tree.node none part.kind part.start part.stop []) := by
    refine ⟨List.forall_mem_map.2 fun part hPart => ?_, List.forall_mem_map.2 fun part hPart => ?_,
      List.pairwise_map.2 h.apart⟩
    · obtain ⟨hStart, _, hStop⟩ := h.within part hPart
      exact ⟨hStart, hStop⟩
    · exact (h.within part hPart).2.1
  refine .intro ⟨hRow.sublist (List.filter_sublist.trans List.filter_sublist), fun hComment => ?_⟩
    fun c hc => ?_
  · have hIs : kind.isComment = true := by simpa [leafOf, isComment, kindIs, kind?] using hComment
    rw [hKind] at hIs
    cases hIs
  · obtain ⟨part, _, rfl⟩ := List.mem_map.1 hc
    exact .intro (tidy_of_inner_eq_nil rfl) (List.forall_mem_nil _)

/-- Everything that is read is tidy. Where a node is put over trees, these stand behind each other
because the reading goes on through the tokens. -/
theorem Reads.tidy (hRules : ∀ r, ((g r).orderly && !(g r).takesPending) = true)
    (hMakes : ∀ r, (g r).makes (!Kind.minor.contains ·) = true)
    (hOrder : Token.InOrder tokens) (hRegular : ∀ t ∈ tokens, t.lexeme.Regular t.parts)
    (hPieces : ∀ t ∈ tokens, Token.Pieces t.start t.stop t.parts)
    {p : Pattern ρ} {left ts : List Tree} {given rest : List Token}
    (h : Reads g p left given ts rest) (hOrderly : p.orderly = true)
    (hMake : p.makes (!Kind.minor.contains ·) = true)
    (hLeft : p.takesPending = true → Chain tokens left given ∧ ∀ t ∈ left, t.All Tidy)
    (hGiven : given <:+ tokens) : ∀ t ∈ ts, t.All Tidy := by
  have hSolid {kind : Kind} (hMajor : (!Kind.minor.contains kind) = true) :
      kind.isComment = false := by
    rw [← Bool.not_eq_true]
    intro hComment
    simp [Kind.mem_minor_of_isComment hComment] at hMajor
  induction h with
  | empty | noMore | ahead | notAhead => exact List.forall_mem_nil _
  | mark | joined => exact List.forall_mem_singleton.2 (all_tidy_token ..)
  | name _ =>
    have ht := hGiven.subset (List.mem_cons_self ..)
    rw [makes] at hMake
    refine List.forall_mem_singleton.2 (all_tidy_leafOf (hPieces _ ht) ?_)
    rw [← Bool.not_eq_true]
    intro hComment
    rw [Kind.isWord_of_isComment hComment] at hMake
    cases hMake
  | literal hLexeme =>
    have ht := hGiven.subset (List.mem_cons_self ..)
    exact List.forall_mem_singleton.2 (all_tidy_leafOf (hPieces _ ht)
      (Kind.isComment_of_mem_literals _ ((hRegular _ ht).literal _ hLexeme)))
  | @rule r _ _ _ _ _ ih =>
    obtain ⟨hRule, hNone⟩ := Bool.and_eq_true_iff.1 (hRules r)
    rw [Bool.not_eq_true'] at hNone
    exact ih hRule (hMakes r) (fun h => by simp [hNone] at h) hGiven
  | seq hFirst _ ihFirst ihSecond =>
    simp only [orderly, Bool.and_eq_true, Bool.not_eq_true'] at hOrderly
    obtain ⟨⟨hOne, hTwo⟩, hNone⟩ := hOrderly
    rw [makes, Bool.and_eq_true] at hMake
    have hBefore := ihFirst hOne hMake.1 (fun h => hLeft (by simp [takesPending, h])) hGiven
    have hBehind := ihSecond hTwo hMake.2 (fun h => by simp [hNone] at h)
      (hFirst.suffix.trans hGiven)
    exact List.forall_mem_append.2 ⟨hBefore, hBehind⟩
  | either _ ih =>
    simp only [orderly, Bool.and_eq_true] at hOrderly
    rw [makes, Bool.and_eq_true] at hMake
    exact ih hOrderly.1 hMake.1 (fun h => hLeft (by simp [takesPending, h])) hGiven
  | or _ ih =>
    simp only [orderly, Bool.and_eq_true] at hOrderly
    rw [makes, Bool.and_eq_true] at hMake
    exact ih hOrderly.2 hMake.2 (fun h => hLeft (by simp [takesPending, h])) hGiven
  | more hOne _ ihOne ihMore =>
    have hMany := hOrderly
    simp only [orderly, Bool.and_eq_true, Bool.not_eq_true'] at hMany
    have hBefore := ihOne hMany.1 (by rwa [makes] at hMake) hLeft hGiven
    have hBehind := ihMore hOrderly hMake (fun h => by simp [takesPending, hMany.2] at h)
      (hOne.suffix.trans hGiven)
    exact List.forall_mem_append.2 ⟨hBefore, hBehind⟩
  | node hInner hOver ih =>
    rw [makes, Bool.and_eq_true] at hMake
    have hBelow := ih hOrderly hMake.2 hLeft hGiven
    have hChain := (hInner.advances hRules hOrder.ordered hOrder.proper hOrderly
      (fun h => (hLeft h).1) hGiven).chain
    refine List.forall_mem_singleton.2 (.intro
      (tidy_of_over? hChain.ordered hChain.proper (hSolid hMake.1) hOver) fun c hc => ?_)
    rw [Tree.children_of_over? hOver] at hc
    exact hBelow c hc
  | role _ ih =>
    exact List.forall_mem_map.2 fun t ht =>
      all_tidy_withRole (ih hOrderly (by rwa [makes] at hMake) hLeft hGiven t ht) _
  | only _ _ ih => exact ih hOrderly (by rwa [makes] at hMake) hLeft hGiven
  | pending | grown => exact (hLeft rfl).2
  | wrap hBase _ ihBase ihWhole =>
    simp only [orderly, Bool.and_eq_true] at hOrderly
    rw [makes, Bool.and_eq_true] at hMake
    have hBefore := ihBase hOrderly.1 hMake.1 hLeft hGiven
    have hChain := (hBase.advances hRules hOrder.ordered hOrder.proper hOrderly.1
      (fun h => (hLeft h).1) hGiven).chain
    exact ihWhole hOrderly.2 hMake.2 (fun _ => ⟨hChain, hBefore⟩) (hBase.suffix.trans hGiven)
  | grow hStep _ ihStep ihMore =>
    have hMakeStep := hMake
    rw [makes] at hMakeStep
    have hBefore := ihStep hOrderly hMakeStep (fun _ => hLeft rfl) hGiven
    have hChain := (hStep.advances hRules hOrder.ordered hOrder.proper hOrderly
      (fun _ => (hLeft rfl).1) hGiven).chain
    exact ihMore hOrderly hMake (fun _ => ⟨hChain, hBefore⟩) (hStep.suffix.trans hGiven)

end Pattern

namespace Tree

variable {comment : Tree} {ts : List Tree} {first last : Nat}

@[simp] theorem stop_insert (t : Tree) : (insert comment t).stop = t.stop := by
  cases t <;> rfl

@[simp] theorem isNamed_insert (t : Tree) : (insert comment t).isNamed = t.isNamed := by
  cases t <;> rfl

/-- The spans of the nodes among some trees, but for comments, are those from before with a comment
put among the trees. -/
theorem spans_insertAmong (hComment : comment.isComment = true) (ts : List Tree) :
    (((insertAmong comment ts).filter isNamed).filter (!·.isComment)).map
        (fun t => (t.start, t.stop)) =
      ((ts.filter isNamed).filter (!·.isComment)).map fun t => (t.start, t.stop) := by
  simp only [List.filter_filter]
  induction ts with
  | nil => simp [insertAmong, hComment]
  | cons t ts ih =>
    rw [insertAmong]
    split
    · rw [List.filter_cons, List.filter_cons]
      split
      · rw [List.map_cons, List.map_cons, ih]
      · exact ih
    · split <;> simp [List.filter_cons, hComment, apply_ite]

/-- What is known of a row is known of its spans. -/
theorem row_iff : Row first last ts ↔
    (∀ s ∈ ts.map fun t => (t.start, t.stop), first ≤ s.1 ∧ s.2 ≤ last) ∧
      (∀ s ∈ ts.map fun t => (t.start, t.stop), s.1 < s.2) ∧
      (ts.map fun t => (t.start, t.stop)).Pairwise fun s s' => s.2 ≤ s'.1 := by
  rw [List.forall_mem_map, List.forall_mem_map, List.pairwise_map]
  exact ⟨fun h => ⟨h.within, h.proper, h.apart⟩, fun h => ⟨h.1, h.2.1, h.2.2⟩⟩

/-- A node stays tidy with a comment put below it. -/
theorem Tidy.insertAmong (hComment : comment.isComment = true) {role : Option Role} {kind : Kind}
    {start stop : Nat} (h : (node role kind start stop ts).Tidy) :
    (node role kind start stop (Tree.insertAmong comment ts)).Tidy := by
  have hInner (cs : List Tree) : (node role kind start stop cs).inner =
      (cs.filter isNamed).filter (!·.isComment) := rfl
  have hSpans := spans_insertAmong hComment ts
  refine ⟨?_, fun hIs => ?_⟩
  · have hRow : Row start stop (node role kind start stop ts).inner := h.row
    show Row start stop (node role kind start stop (Tree.insertAmong comment ts)).inner
    rw [row_iff, hInner] at hRow ⊢
    rwa [hSpans]
  · have hNone := h.comment hIs
    rw [hInner] at hNone ⊢
    rw [hNone, List.map_nil] at hSpans
    exact List.map_eq_nil_iff.1 hSpans

end Tree

/-- The tree of a source is tidy, the node over all of it included. -/
theorem tidy_of_treeOf? {length : Nat} {tokens : List Token} {root : Tree}
    (hRegular : ∀ t ∈ tokens, t.lexeme.Regular t.parts) (hOrder : Token.InOrder tokens)
    (hPieces : ∀ t ∈ tokens, Token.Pieces t.start t.stop t.parts)
    (hInside : ∀ t ∈ tokens, t.stop ≤ length) (h : treeOf? length tokens = some root) :
    root.All Tree.Tidy := by
  apply treeOf?_induction_of_start h
  · intro trees hReads
    have hSub : tokens.filter (!·.isComment) ⊆ tokens := List.filter_sublist.subset
    have hSolid : Token.InOrder (tokens.filter (!·.isComment)) :=
      ⟨hOrder.ordered.sublist List.filter_sublist, fun t ht => hOrder.proper t (hSub ht)⟩
    have hRegularSolid := fun t ht => hRegular t (hSub ht)
    have hChain := (hReads.advances Grammar.orderly_java hSolid.ordered hSolid.proper rfl nofun
      (List.suffix_refl _)).chain
    obtain ⟨us, hUs, hStanding⟩ := hReads.standing Grammar.settled_java hSolid hRegularSolid rfl
      (nofun : _ → Pattern.Standing _ {} _ [] _) (List.infix_refl _)
    have hTidy := hReads.tidy Grammar.orderly_java Grammar.makes_java hSolid hRegularSolid
      (fun t ht => hPieces t (hSub ht)) rfl rfl nofun (List.suffix_refl _)
    have hWithin : ∀ t ∈ trees, (tokens.head?.map (·.start)).getD length ≤ t.start ∧
        t.stop ≤ length := by
      intro t ht
      obtain ⟨vs, hVs, hOn⟩ := hStanding.stand.exists_of_mem_trees ht
      have hMem : vs ⊆ tokens := fun u hu => hSub (hStanding.among.subset
        (List.mem_append_left _ (hVs.subset hu)))
      obtain ⟨first, hFirst, hStart⟩ := Option.map_eq_some_iff.1 hOn.begins
      obtain ⟨last, hLast, hStop⟩ := Option.map_eq_some_iff.1 hOn.ends
      rw [← hStart, ← hStop]
      exact ⟨hOrder.head_le (hMem (List.mem_of_head? hFirst)) length,
        hInside last (hMem (List.mem_of_getLast? hLast))⟩
    have hRow : Tree.Row ((tokens.head?.map (·.start)).getD length) length trees :=
      ⟨hWithin, hChain.proper, hChain.ordered⟩
    exact .intro ⟨hRow.sublist (List.filter_sublist.trans List.filter_sublist), nofun⟩ hTidy
  · intro tree hTree t ht kind hLexeme
    have hComment : (Tree.node none kind t.start t.stop []).isComment = true :=
      (hRegular t ht).comment kind hLexeme
    exact .insert (.intro (Tree.tidy_of_inner_eq_nil rfl) (List.forall_mem_nil _))
      (fun _ _ _ _ _ hHere => hHere.insertAmong hComment) tree hTree

/-- So is the tree of every source that can be read. -/
theorem SourceUnit.tidy_of_parse {source : List UInt8} {path : String} {unit : SourceUnit}
    (h : parse source path = .ok unit) : unit.root.All Tree.Tidy := by
  obtain ⟨cs, tokens, hDecode, hTokens, hTree, _⟩ := exists_tokens_of_parse h
  have hScanned (t : Token) (ht : t ∈ tokens) := Token.scannedIn_of_mem_tokens? hTokens ht
  obtain ⟨_, _, _, _, hCuts⟩ := Token.exists_cuts_of_tokens? hTokens
  obtain ⟨hProper, hOrdered⟩ := hCuts.ordered
  exact tidy_of_treeOf? (fun t ht => (hScanned t ht).regular)
    ⟨hOrdered, fun t ht => (hProper t ht).2⟩ (fun t ht => (hScanned t ht).pieces)
    (fun t ht => (decode_of_scannedIn hDecode (hScanned t ht)).2.2) hTree

end ChangeSplit.Java
