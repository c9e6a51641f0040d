import ChangeSplit.Proofs.Java.OuterType
import ChangeSplit.Proofs.Java.Outline
import ChangeSplit.Proofs.Java.Stretch

/-! Types as they are written, and what of them stands in the names of methods: the text in front
of the first type arguments and that behind the last ones. -/

namespace ChangeSplit.Java

namespace Token

variable {start : Nat} {cs : List Char} {t : Token}

/-- The characters of words are such as can stand in types. -/
theorem ScannedIn.isTypeText_of_word (h : ScannedIn start cs t) (hWord : t.lexeme = .word) :
    isTypeText t.text = true := by
  have hOther {c : Char} (hNot : isTypeChar c = false) :
      c ∈ [' ', '\t', '\n', '\r', '\x0B', '\x0C', '<', '>', ','] := by
    by_contra hMem
    simp only [List.mem_cons, List.not_mem_nil, or_false, not_or] at hMem
    simp [isTypeChar, isGap, hMem] at hNot
  have hNone : [' ', '\t', '\n', '\r', '\x0B', '\x0C', '<', '>', ','].all (fun c =>
      !Category.isIdentifierStart c && !Category.isIdentifierContinue c) = true := by decide
  simp only [List.all_eq_true, Bool.and_eq_true, Bool.not_eq_true'] at hNone
  obtain ⟨before, rest, n, _, _, hScan, hText, _⟩ := h
  rw [hWord] at hScan
  obtain ⟨c, later, _, hStart, hTake⟩ := scan?_eq_word hScan
  rw [isTypeText, hText, String.toList_ofList, hTake, List.all_eq_true]
  refine List.forall_mem_cons.2 ⟨?_, fun d hd => ?_⟩
  · by_contra hNot
    rw [(hNone c (hOther (by simpa using hNot))).1] at hStart
    cases hStart
  · by_contra hNot
    have hMore := List.all_eq_true.1 List.all_takeWhile d hd
    rw [(hNone d (hOther (by simpa using hNot))).2] at hMore
    cases hMore

/-- A comment begins with a slash. -/
theorem exists_take_of_scan?_eq_comment {kind : Kind} {n : Nat} {parts : List Part}
    (h : scan? start cs = some (.comment kind, n, parts)) : ∃ later, cs.take n = '/' :: later := by
  cases scans_of_scan? h with
  | lineComment | blockComment => exact ⟨_, by rw [Nat.add_comm, List.take_succ_cons]⟩

theorem ScannedIn.slash_mem_comment (h : ScannedIn start cs t) (hComment : t.isComment = true) :
    '/' ∈ t.text.toList := by
  obtain ⟨before, rest, n, _, _, hScan, hText, _⟩ := h
  cases hLexeme : t.lexeme with
  | word | mark | literal => simp [isComment, hLexeme] at hComment
  | comment kind =>
    rw [hLexeme] at hScan
    obtain ⟨later, hTake⟩ := exists_take_of_scan?_eq_comment hScan
    rw [hText, String.toList_ofList, hTake]
    exact List.mem_cons_self ..

end Token

section Drop

variable {front body rest : List Char}

/-- Characters in front of the first bracket stay. -/
theorem dropArguments_append (hFront : '<' ∉ front) (rest : List Char) :
    dropArguments 0 (front ++ rest) = front ++ dropArguments 0 rest := by
  induction front with
  | nil => rfl
  | cons c front ih =>
    obtain ⟨hc, hMore⟩ := List.ne_and_not_mem_of_not_mem_cons hFront
    rw [List.cons_append, dropArguments, if_neg hc.symm, ih hMore, List.cons_append]

theorem dropArguments_of_not_mem (hFront : '<' ∉ front) : dropArguments 0 front = front := by
  simpa [dropArguments] using dropArguments_append hFront []

/-- Of a text with brackets on one line, what is in front of the first one and behind the last
one stays. -/
theorem dropArguments_of_brackets (hFront : '<' ∉ front) (hBody : '\n' ∉ body)
    (hOpen : '<' ∉ rest) (hClose : '>' ∉ rest) :
    dropArguments 0 (front ++ '<' :: (body ++ '>' :: rest)) = front ++ rest := by
  have hEnclosed : enclosed (body ++ '>' :: rest) = '>' :: body.reverse := by
    have hBody' : ∀ c ∈ body, decide (c ≠ '\n') = true := fun c hc => by
      rw [decide_eq_true_eq]
      rintro rfl
      exact hBody hc
    have hRest : ∀ c ∈ (rest.takeWhile (· ≠ '\n')).reverse, decide (c ≠ '>') = true := by
      intro c hc
      rw [decide_eq_true_eq]
      rintro rfl
      exact hClose ((List.takeWhile_prefix _).subset (List.mem_reverse.1 hc))
    rw [enclosed, List.takeWhile_append_of_pos hBody', List.takeWhile_cons_of_pos (by decide),
      List.reverse_append, List.reverse_cons, List.append_assoc,
      List.dropWhile_append_of_pos hRest, List.singleton_append,
      List.dropWhile_cons_of_neg (by decide)]
  rw [dropArguments_append hFront, dropArguments_bracket, hEnclosed, if_neg (by simp),
    List.length_cons, List.length_reverse, ← List.drop_drop, List.drop_left' rfl, List.drop_one,
    List.tail_cons, dropArguments_of_not_mem hOpen]

end Drop

namespace SourceUnit

/-- The text of a type without type arguments. -/
def outerText (unit : SourceUnit) (t : Tree) : String := textAround t.start t.argumentLists
where
  textAround (place : Nat) : List Tree → String
    | [] => sliceText unit.source place t.stop
    | a :: rest => sliceText unit.source place a.start ++ textAround a.stop rest

/-- The text of a type but for that from the first type arguments to the last ones. -/
def shownText (unit : SourceUnit) (t : Tree) : String :=
  match t.argumentLists.head?, t.argumentLists.getLast? with
  | some first, some last =>
    sliceText unit.source t.start first.start ++ sliceText unit.source last.stop t.stop
  | _, _ => unit.text t

/-- The text of a type from the first type arguments to the last ones. -/
def hiddenText (unit : SourceUnit) (t : Tree) : String :=
  match t.argumentLists.head?, t.argumentLists.getLast? with
  | some first, some last => sliceText unit.source first.start last.stop
  | _, _ => ""

/-- A type with no more than one list of type arguments shows without type arguments. -/
theorem shownText_eq_outerText (unit : SourceUnit) {t : Tree} (h : t.argumentLists.length ≤ 1) :
    unit.shownText t = unit.outerText t := by
  rw [shownText, outerText]
  match hLists : t.argumentLists with
  | [] => rfl
  | [a] => rfl
  | a :: b :: rest => simp [hLists] at h

/-- A type that is written without arguments of annotations, without comments where it shows, and
with its type arguments on one line. -/
structure PlainType (unit : SourceUnit) (t : Tree) : Prop where
  kind : t.kindIs Kind.isPlainType = true
  bare : ∀ c ∈ t.outerNodes, c.isA .annotationUse = false
  uncommented : '/' ∉ (unit.shownText t).toList
  oneLine : '\n' ∉ (unit.hiddenText t).toList

instance (unit : SourceUnit) (t : Tree) : Decidable (unit.PlainType t) :=
  decidable_of_iff
    (t.kindIs Kind.isPlainType = true ∧ (∀ c ∈ t.outerNodes, c.isA .annotationUse = false) ∧
      '/' ∉ (unit.shownText t).toList ∧ '\n' ∉ (unit.hiddenText t).toList)
    ⟨fun ⟨hKind, hBare, hUncommented, hOneLine⟩ => ⟨hKind, hBare, hUncommented, hOneLine⟩,
      fun ⟨hKind, hBare, hUncommented, hOneLine⟩ => ⟨hKind, hBare, hUncommented, hOneLine⟩⟩

/-- A source with the characters in it and the tokens that they are cut into. -/
structure Scanned (unit : SourceUnit) (cs : List Char) (tokens : List Token) : Prop where
  decode : Utf8.decode unit.source = .ok cs
  cut : Token.tokens? cs = some tokens

variable {unit : SourceUnit} {source : List UInt8} {path : String} {cs : List Char}
  {tokens us : List Token} {t a : Tree} {first last : Nat}

theorem exists_scanned_of_parse (h : parse source path = .ok unit) :
    ∃ cs tokens, unit.Scanned cs tokens := by
  obtain ⟨cs, tokens, hDecode, hTokens, _⟩ := exists_tokens_of_parse h
  exact ⟨cs, tokens, hDecode, hTokens⟩

namespace Scanned

theorem solid_eq (h : unit.Scanned cs tokens) : unit.solid = tokens.filter (!·.isComment) := by
  rw [solid, h.decode]
  dsimp only
  rw [h.cut, Option.getD_some]

theorem mem_of_mem_solid (h : unit.Scanned cs tokens) {u : Token} (hu : u ∈ unit.solid) :
    u ∈ tokens := by
  rw [h.solid_eq] at hu
  exact (List.mem_filter.1 hu).1

theorem inOrder (h : unit.Scanned cs tokens) : Token.InOrder unit.solid := by
  obtain ⟨_, _, _, _, hCuts⟩ := Token.exists_cuts_of_tokens? h.cut
  obtain ⟨hProper, hOrdered⟩ := hCuts.ordered
  exact ⟨h.solid_eq ▸ hOrdered.sublist List.filter_sublist,
    fun u hu => (hProper u (h.mem_of_mem_solid hu)).2⟩

theorem isTypeText_of_word (h : unit.Scanned cs tokens) :
    ∀ u ∈ unit.solid, u.lexeme = .word → isTypeText u.text = true :=
  fun _ hu => (Token.scannedIn_of_mem_tokens? h.cut (h.mem_of_mem_solid hu)).isTypeText_of_word

theorem apart (h : unit.Scanned cs tokens) {u v : Token} (hu : u ∈ unit.solid)
    (hv : v ∈ unit.solid) : u = v ∨ u.stop ≤ v.start ∨ v.stop ≤ u.start := by
  obtain ⟨_, _, _, _, hCuts⟩ := Token.exists_cuts_of_tokens? h.cut
  exact hCuts.apart (h.mem_of_mem_solid hu) (h.mem_of_mem_solid hv)

/-- Where a node that has its place begins and ends, tokens do. -/
theorem isEdge (h : unit.Scanned cs tokens) (hSeat : t.Seat unit.solid us) :
    Token.IsEdge tokens t.start ∧ Token.IsEdge tokens t.stop := by
  obtain ⟨u, hHead, hStart⟩ := Option.map_eq_some_iff.1 hSeat.on.begins
  obtain ⟨v, hLast, hStop⟩ := Option.map_eq_some_iff.1 hSeat.on.ends
  have hMem {u : Token} (hu : u ∈ us) := h.mem_of_mem_solid (hSeat.among.subset hu)
  rw [← hStart, ← hStop]
  exact ⟨Token.isEdge_start (hMem (List.mem_of_head? hHead)),
    Token.isEdge_stop (hMem (List.mem_of_getLast? hLast))⟩

theorem start_le_stop (h : unit.Scanned cs tokens) (hSeat : t.Seat unit.solid us) :
    t.start ≤ t.stop := by
  obtain ⟨u, hu⟩ := List.exists_mem_of_ne_nil us hSeat.on.ne_nil
  obtain ⟨hBegins, hEnds⟩ := hSeat.on.bounds (hSeat.inOrder h.inOrder) hu
  have hProper := h.inOrder.proper u (hSeat.among.subset hu)
  omega

/-- The characters of a stretch without comments over words and marks of types. -/
theorem plain_of_mem_sliceText (h : unit.Scanned cs tokens) (hFirst : Token.IsEdge tokens first)
    (hLast : Token.IsEdge tokens last) (hLe : first ≤ last)
    (hSlash : '/' ∉ (sliceText unit.source first last).toList)
    (hSolid : ∀ u ∈ unit.solid, first ≤ u.start → u.stop ≤ last → isTypeText u.text = true)
    {c : Char} (hc : c ∈ (sliceText unit.source first last).toList) :
    c ≠ '<' ∧ c ≠ '>' ∧ c ≠ ',' := by
  rcases gap_or_exists_of_mem_sliceText h.decode h.cut hFirst hLast hLe hc with
    hGap | ⟨u, hu, hBegins, hEnds, hMem⟩
  · refine ⟨?_, ?_, ?_⟩ <;> rintro rfl <;> cases hGap
  · have hMajor : u.isComment = false := by
      rw [← Bool.not_eq_true]
      intro hComment
      exact hSlash (mem_sliceText_of_mem_text h.decode h.cut hFirst hLast hu hBegins hEnds
        ((Token.scannedIn_of_mem_tokens? h.cut hu).slash_mem_comment hComment))
    have hMem' : u ∈ unit.solid := by
      rw [h.solid_eq]
      exact List.mem_filter.2 ⟨hu, by simp [hMajor]⟩
    have hType := List.all_eq_true.1 (hSolid u hMem' hBegins hEnds) c hMem
    simp only [isTypeChar, Bool.and_eq_true, decide_eq_true_eq] at hType
    exact ⟨hType.1.1.2, hType.1.2, hType.2⟩

/-- A word or mark of types shows in every stretch around it. -/
theorem exists_of_isTypeText (h : unit.Scanned cs tokens) (hFirst : Token.IsEdge tokens first)
    (hLast : Token.IsEdge tokens last) {u : Token} (hu : u ∈ unit.solid) (hBegins : first ≤ u.start)
    (hEnds : u.stop ≤ last) (hText : isTypeText u.text = true) :
    ∃ c ∈ (sliceText unit.source first last).toList, c ≠ ' ' := by
  have hMem := h.mem_of_mem_solid hu
  obtain ⟨_, hSpan, _⟩ := decode_of_scannedIn h.decode (Token.scannedIn_of_mem_tokens? h.cut hMem)
  have hNe : u.text.toList ≠ [] := fun hNil => by
    have hProper := h.inOrder.proper u hu
    rw [hSpan, hNil] at hProper
    exact Nat.lt_irrefl _ hProper
  obtain ⟨c, hc⟩ := List.exists_mem_of_ne_nil _ hNe
  refine ⟨c, mem_sliceText_of_mem_text h.decode h.cut hFirst hLast hMem hBegins hEnds hc, ?_⟩
  rintro rfl
  cases List.all_eq_true.1 hText ' ' hc

/-- From one token to another, there is the text of either and what is between. -/
theorem sliceText_append_token (h : unit.Scanned cs tokens) {v w : Token} (hv : v ∈ unit.solid)
    (hw : w ∈ unit.solid) (hLe : v.stop ≤ w.start) : sliceText unit.source v.start w.stop =
      v.text ++ sliceText unit.source v.stop w.start ++ w.text := by
  have hFirst := h.mem_of_mem_solid hv
  have hSecond := h.mem_of_mem_solid hw
  have hProper := h.inOrder.proper v hv
  have hProper' := h.inOrder.proper w hw
  rw [← sliceText_of_scannedIn h.decode (Token.scannedIn_of_mem_tokens? h.cut hFirst),
    ← sliceText_of_scannedIn h.decode (Token.scannedIn_of_mem_tokens? h.cut hSecond),
    ← sliceText_append h.decode h.cut (Token.isEdge_start hFirst) (Token.isEdge_stop hFirst)
      (Token.isEdge_start hSecond) (by omega) hLe,
    ← sliceText_append h.decode h.cut (Token.isEdge_start hFirst) (Token.isEdge_start hSecond)
      (Token.isEdge_stop hSecond) (by omega) (by omega)]

/-- Type arguments stand between brackets. -/
theorem exists_brackets (h : unit.Scanned cs tokens) (hInner : Tree.Inner unit.solid t a) :
    ∃ v ∈ unit.solid, ∃ w ∈ unit.solid, v.start = a.start ∧ v.text = "<" ∧ v.stop ≤ a.stop ∧
      w.stop = a.stop ∧ w.text = ">" := by
  have hIs : a.kindIs (· = .typeArguments) = true := by
    simpa [Tree.kindIs, Tree.isA, Option.any_eq_true] using hInner.arguments
  obtain ⟨us, hSeat⟩ := hInner.seated.exists_seat (by decide) hIs
  obtain ⟨hOpen, hClose⟩ := hSeat.bracketed hInner.arguments
  obtain ⟨v, hHead, hBegins⟩ := Option.map_eq_some_iff.1 hSeat.on.begins
  obtain ⟨w, hLast, hEnds⟩ := Option.map_eq_some_iff.1 hSeat.on.ends
  rw [hHead, Option.map_some, Option.some_inj] at hOpen
  rw [hLast, Option.map_some, Option.some_inj] at hClose
  have hv := List.mem_of_head? hHead
  have hw := List.mem_of_getLast? hLast
  have hInside := hSeat.inOrder h.inOrder
  exact ⟨v, hSeat.among.subset hv, w, hSeat.among.subset hw, hBegins, hOpen,
    (hSeat.on.bounds hInside hv).2, hEnds, hClose⟩

theorem isEdge_of_inner (h : unit.Scanned cs tokens) (hInner : Tree.Inner unit.solid t a) :
    Token.IsEdge tokens a.start ∧ Token.IsEdge tokens a.stop := by
  obtain ⟨v, hv, w, hw, hOpens, _, _, hCloses, _⟩ := h.exists_brackets hInner
  exact ⟨hOpens ▸ Token.isEdge_start (h.mem_of_mem_solid hv),
    hCloses ▸ Token.isEdge_stop (h.mem_of_mem_solid hw)⟩

theorem start_lt_stop_of_inner (h : unit.Scanned cs tokens)
    (hInner : Tree.Inner unit.solid t a) : a.start < a.stop := by
  obtain ⟨v, hv, _, _, hOpens, _, hEnds, _⟩ := h.exists_brackets hInner
  have hProper := h.inOrder.proper v hv
  omega

/-- The first type arguments in a type are in front of all the others, and the last ones behind. -/
theorem bounds_of_argumentLists (h : unit.Scanned cs tokens)
    (hSeated : t.All (Tree.Seated unit.solid)) {f l : Tree}
    (hHead : t.argumentLists.head? = some f) (hLast : t.argumentLists.getLast? = some l) :
    ∀ a ∈ t.argumentLists, f.start ≤ a.start ∧ a.stop ≤ l.stop := by
  obtain ⟨hOrdered, hInner⟩ := Tree.argumentLists_ordered h.inOrder hSeated
  have hProper (a : Tree) (ha : a ∈ t.argumentLists) := h.start_lt_stop_of_inner (hInner a ha)
  obtain ⟨rest, hFirst⟩ := List.head?_eq_some_iff.1 hHead
  obtain ⟨front, hBack⟩ := List.getLast?_eq_some_iff.1 hLast
  intro a ha
  constructor
  · rw [hFirst] at hOrdered ha
    have hf := hProper f (List.mem_of_head? hHead)
    rcases List.mem_cons.1 ha with rfl | ha
    · exact Nat.le_refl _
    · have hLe := (List.pairwise_cons.1 hOrdered).1 a ha
      omega
  · rw [hBack] at hOrdered ha
    have hl := hProper l (List.mem_of_getLast? hLast)
    rcases List.mem_append.1 ha with ha | ha
    · have hLe := (List.pairwise_append.1 hOrdered).2.2 a ha l (List.mem_singleton.2 rfl)
      omega
    · rw [List.mem_singleton.1 ha]

/-- The characters of a stretch of a type without comments and type arguments. -/
theorem plain_of_outside (h : unit.Scanned cs tokens) (hSeated : t.All (Tree.Seated unit.solid))
    (hPlain : unit.PlainType t) (hFirst : Token.IsEdge tokens first)
    (hLast : Token.IsEdge tokens last) (hBegins : t.start ≤ first) (hLe : first ≤ last)
    (hEnds : last ≤ t.stop) (hSlash : '/' ∉ (sliceText unit.source first last).toList)
    (hOutside : ∀ a ∈ t.argumentLists, last ≤ a.start ∨ a.stop ≤ first) :
    ∀ c ∈ (sliceText unit.source first last).toList, c ≠ '<' ∧ c ≠ '>' ∧ c ≠ ',' := by
  intro c hc
  refine h.plain_of_mem_sliceText hFirst hLast hLe hSlash (fun u hu hFrom hTo => ?_) hc
  have hProper := h.inOrder.proper u hu
  rcases Tree.isTypeText_or_exists h.inOrder h.isTypeText_of_word hSeated
    (Tree.isTypePart_of_isPlainType hPlain.kind) hPlain.bare hu (by omega) (by omega) with
    hType | ⟨a, ha, hIn, hIn'⟩
  · exact hType
  · have hApart := hOutside a ha
    omega

/-- There is something to see at the beginning of a type, in front of its type arguments. -/
theorem exists_visible (h : unit.Scanned cs tokens) (hSeated : t.All (Tree.Seated unit.solid))
    (hPlain : unit.PlainType t) (hBegin : Token.IsEdge tokens t.start)
    (hLast : Token.IsEdge tokens last)
    (hFront : last = t.stop ∨ ∃ a, Tree.Inner unit.solid t a ∧ last = a.start) :
    ∃ c ∈ (sliceText unit.source t.start last).toList, c ≠ ' ' := by
  obtain ⟨u, hu, hStart, hStop, hText⟩ :=
    Tree.exists_first h.inOrder h.isTypeText_of_word hSeated hPlain.kind
  refine h.exists_of_isTypeText hBegin hLast hu (Nat.le_of_eq hStart.symm) ?_ hText
  rcases hFront with rfl | ⟨a, hInner, rfl⟩
  · exact hStop
  · -- The first token of a type is no bracket, so it is in front of all brackets.
    obtain ⟨v, hv, _, _, hOpens, hOpen, _⟩ := h.exists_brackets hInner
    have hProper := h.inOrder.proper v hv
    have hBegins := hInner.begins
    rcases h.apart hu hv with rfl | hApart | hApart
    · rw [hOpen] at hText
      cases hText
    · omega
    · omega

/-- From the first type arguments to the last ones, there is a text between brackets. -/
theorem exists_between_brackets (h : unit.Scanned cs tokens) {f l : Tree}
    (hf : Tree.Inner unit.solid t f) (hl : Tree.Inner unit.solid t l) (hLe : f.stop ≤ l.stop) :
    ∃ body, sliceText unit.source f.start l.stop = "<" ++ body ++ ">" := by
  obtain ⟨v, hv, _, _, hOpens, hOpen, hOpened, _⟩ := h.exists_brackets hf
  obtain ⟨_, _, w, hw, _, _, _, hCloses, hClose⟩ := h.exists_brackets hl
  have hProper := h.inOrder.proper v hv
  have hMid : v.stop ≤ w.start := by
    rcases h.apart hv hw with rfl | hApart | hApart
    · exact absurd (hOpen.symm.trans hClose) (by decide)
    · exact hApart
    · omega
  refine ⟨sliceText unit.source v.stop w.start, ?_⟩
  rw [← hOpens, ← hCloses, ← hOpen, ← hClose, h.sliceText_append_token hv hw hMid]

/-- What the text of a type is made of: what shows of it and, maybe, what is from the first bracket
to the last one. -/
structure Written (unit : SourceUnit) (t : Tree) : Prop where
  plain : ∀ c ∈ (unit.shownText t).toList, c ≠ '<' ∧ c ≠ '>' ∧ c ≠ ','
  visible : ∃ c ∈ (unit.shownText t).toList, c ≠ ' '
  hidden : unit.text t = unit.shownText t ∨ ∃ front body rest,
    unit.text t = front ++ ("<" ++ body ++ ">") ++ rest ∧ unit.shownText t = front ++ rest ∧
      '\n' ∉ body.toList

theorem written_of_nil (h : unit.Scanned cs tokens) (hSeated : t.All (Tree.Seated unit.solid))
    (hPlain : unit.PlainType t) (hBegin : Token.IsEdge tokens t.start)
    (hEnd : Token.IsEdge tokens t.stop) (hLe : t.start ≤ t.stop) (hNone : t.argumentLists = []) :
    Written unit t := by
  have hShown : unit.shownText t = sliceText unit.source t.start t.stop := by
    rw [shownText, hNone]
    rfl
  have hUncommented := hPlain.uncommented
  rw [hShown] at hUncommented
  refine ⟨?_, ?_, .inl hShown.symm⟩ <;> rw [hShown]
  · refine h.plain_of_outside hSeated hPlain hBegin hEnd (Nat.le_refl _) hLe (Nat.le_refl _)
      hUncommented ?_
    rw [hNone]
    exact List.forall_mem_nil _
  · exact h.exists_visible hSeated hPlain hBegin hEnd (.inl rfl)

theorem written_of_head (h : unit.Scanned cs tokens) (hSeated : t.All (Tree.Seated unit.solid))
    (hPlain : unit.PlainType t) (hBegin : Token.IsEdge tokens t.start)
    (hEnd : Token.IsEdge tokens t.stop) {f l : Tree} (hHead : t.argumentLists.head? = some f)
    (hLast : t.argumentLists.getLast? = some l) : Written unit t := by
  obtain ⟨_, hInner⟩ := Tree.argumentLists_ordered h.inOrder hSeated
  have hBounds := h.bounds_of_argumentLists hSeated hHead hLast
  have hf := hInner f (List.mem_of_head? hHead)
  have hl := hInner l (List.mem_of_getLast? hLast)
  have hOpen := (h.isEdge_of_inner hf).1
  have hClose := (h.isEdge_of_inner hl).2
  have hOrdered := hBounds f (List.mem_of_head? hHead)
  have hOpened := h.start_lt_stop_of_inner hf
  have hBefore := hf.begins
  have hBehind := hl.ends
  obtain ⟨body, hBody⟩ := h.exists_between_brackets hf hl hOrdered.2
  have hShown : unit.shownText t =
      sliceText unit.source t.start f.start ++ sliceText unit.source l.stop t.stop := by
    rw [shownText, hHead, hLast]
  have hHidden : unit.hiddenText t = "<" ++ body ++ ">" := by
    rw [hiddenText, hHead, hLast, ← hBody]
  have hUncommented := hPlain.uncommented
  rw [hShown, String.toList_append, List.mem_append, not_or] at hUncommented
  refine ⟨fun c hc => ?_, ?_, .inr ⟨_, body, _, ?_, hShown, ?_⟩⟩
  · rw [hShown, String.toList_append] at hc
    rcases List.mem_append.1 hc with hc | hc
    · exact h.plain_of_outside hSeated hPlain hBegin hOpen (Nat.le_refl _) hBefore (by omega)
        hUncommented.1 (fun a ha => .inl (hBounds a ha).1) c hc
    · exact h.plain_of_outside hSeated hPlain hClose hEnd (by omega) hBehind (Nat.le_refl _)
        hUncommented.2 (fun a ha => .inr (hBounds a ha).2) c hc
  · obtain ⟨c, hc, hSpace⟩ := h.exists_visible hSeated hPlain hBegin hOpen (.inr ⟨f, hf, rfl⟩)
    exact ⟨c, by rw [hShown, String.toList_append]; exact List.mem_append_left _ hc, hSpace⟩
  · rw [← hBody, text, sliceText_append h.decode h.cut hBegin hClose hEnd (by omega) hBehind,
      sliceText_append h.decode h.cut hBegin hOpen hClose hBefore (by omega)]
  · have hOneLine := hPlain.oneLine
    rw [hHidden, String.toList_append, String.toList_append] at hOneLine
    exact fun hMem => hOneLine (List.mem_append_left _ (List.mem_append_right _ hMem))

/-- The text of a type that is plainly written. -/
theorem written (h : unit.Scanned cs tokens) (hSeated : t.All (Tree.Seated unit.solid))
    (hPlain : unit.PlainType t) : Written unit t := by
  obtain ⟨us, hSeat⟩ := hSeated.exists_seat (by decide)
    (Tree.isTypePart_of_isPlainType hPlain.kind)
  obtain ⟨hBegin, hEnd⟩ := h.isEdge hSeat
  cases hHead : t.argumentLists.head? with
  | none =>
    have hLe := h.start_le_stop hSeat
    exact h.written_of_nil hSeated hPlain hBegin hEnd hLe (List.head?_eq_none_iff.1 hHead)
  | some f =>
    obtain ⟨rest, hLists⟩ := List.head?_eq_some_iff.1 hHead
    obtain ⟨l, hLast⟩ := Option.ne_none_iff_exists'.1
      (List.getLast?_eq_none_iff.not.2 (hLists ▸ List.cons_ne_nil f rest))
    exact h.written_of_head hSeated hPlain hBegin hEnd hHead hLast

end Scanned

/-- In the name of a method, a type that is plainly written is what shows of it, without spaces. -/
theorem Scanned.Written.signatureType_eq (h : Scanned.Written unit t) {suffix : String}
    (hSuffix : ∀ c ∈ suffix.toList, c ≠ '<' ∧ c ≠ '>') :
    signatureType (unit.text t ++ suffix) =
      String.ofList (spaceless (unit.shownText t ++ suffix)) := by
  have hOpen : '<' ∉ (unit.shownText t ++ suffix).toList := by
    rw [String.toList_append, List.mem_append, not_or]
    exact ⟨fun hc => (h.plain _ hc).1 rfl, fun hc => (hSuffix _ hc).1 rfl⟩
  have hClose : '>' ∉ (unit.shownText t ++ suffix).toList := by
    rw [String.toList_append, List.mem_append, not_or]
    exact ⟨fun hc => (h.plain _ hc).2.1 rfl, fun hc => (hSuffix _ hc).2 rfl⟩
  rw [signatureType, spaceless]
  rcases h.hidden with hSame | ⟨front, body, rest, hText, hShown, hBody⟩
  · rw [hSame, dropArguments_of_not_mem hOpen]
  · rw [hShown] at hOpen hClose ⊢
    rw [String.append_assoc, String.toList_append, List.mem_append, not_or] at hOpen hClose
    have hSplit : (unit.text t ++ suffix).toList = front.toList ++
        '<' :: (body.toList ++ '>' :: (rest ++ suffix).toList) := by
      rw [hText]
      simp
    rw [hSplit, dropArguments_of_brackets hOpen.1 hBody hOpen.2 hClose.2, ← String.toList_append,
      String.append_assoc]

end SourceUnit

end ChangeSplit.Java
