import ChangeSplit.Proofs.Java.Token

/-! What stands where in a source that is cut into tokens. Every rest of it is cut in its turn, no
token begins with a blank, and a place in the source is between tokens or inside one. -/

namespace ChangeSplit.Java

namespace Token

open Category

section Blank

/-! No token begins with a blank. -/

/-- The numbers of the blanks. -/
def blanks : List Nat :=
  [9, 10, 11, 12, 13, 28, 29, 30, 31, 32, 0x85, 0xA0, 0x1680, 0x2000, 0x2001, 0x2002, 0x2003,
    0x2004, 0x2005, 0x2006, 0x2007, 0x2008, 0x2009, 0x200A, 0x2028, 0x2029, 0x202F, 0x205F, 0x3000]

theorem mem_blanks {c : Char} (h : isBlank c = true) : c.toNat ∈ blanks := by
  simp only [isBlank, Bool.or_eq_true, Bool.and_eq_true, decide_eq_true_eq] at h
  simp only [blanks, List.mem_cons, List.not_mem_nil, or_false]
  omega

theorem separatedRun_eq_zero {digit : Char → Bool} {long : Bool} {c : Char} (h : digit c = false)
    (rest : List Char) : separatedRun digit long (c :: rest) = 0 := by
  simp [separatedRun, separatedRun.go, runLength, h]

theorem number?_eq_none {c : Char} (hDigit : isAsciiDigit c = false) (hPoint : c ≠ '.')
    (rest : List Char) : number? (c :: rest) = none := by
  have hZero : c ≠ '0' := by
    rintro rfl
    exact absurd hDigit (by decide)
  have hRun (long : Bool) : separatedRun isAsciiDigit long (c :: rest) = 0 :=
    separatedRun_eq_zero hDigit rest
  have hRules : ∀ rule ∈ numberRules, rule.2 (c :: rest) = 0 := by
    simp [numberRules, decimalInteger, radixInteger, octalInteger, decimalFloat, decimalRun,
      hexFloat, hRun, hZero, hPoint]
  unfold number?
  refine List.foldlRecOn (motive := (· = none)) numberRules _ rfl fun best hBest rule hRule => ?_
  simp [hRules rule hRule]
  exact hBest

theorem mark?_eq_none {c : Char} (h : ∀ m ∈ marks, m.toList.head? ≠ some c) (rest : List Char) :
    mark? (c :: rest) = none := by
  have hMarks : ∀ m ∈ marks, m.toList ≠ [] := by decide
  refine List.find?_eq_none.2 fun m hm => ?_
  obtain ⟨d, more, hMore⟩ := List.exists_cons_of_ne_nil (hMarks m hm)
  have hNe : d ≠ c := by simpa [hMore] using h m hm
  have hPrefix : (d :: more).isPrefixOf? (c :: rest) = none := if_neg (by simpa using hNe)
  rw [hMore, hPrefix]
  exact Bool.false_ne_true

theorem scan?_of_isBlank {c : Char} (hBlank : isBlank c = true) (start : Nat)
    (rest : List Char) : scan? start (c :: rest) = none := by
  have hMem := mem_blanks hBlank
  have hNe {d : Char} (h : d.toNat ∉ blanks) : c ≠ d := by
    rintro rfl
    exact h hMem
  have hNumber : number? (c :: rest) = none := by
    refine number?_eq_none ?_ (hNe (by decide)) rest
    rw [isAsciiDigit, ← Bool.not_eq_true, Bool.and_eq_true, decide_eq_true_eq, decide_eq_true_eq]
    rintro ⟨hLow, hHigh⟩
    have hRange : ∀ n ∈ blanks, n < 48 ∨ 57 < n := by decide
    rcases hRange _ hMem with hLt | hLt
    · exact absurd hLow (Nat.not_le.2 hLt)
    · exact absurd hHigh (Nat.not_le.2 hLt)
  have hMark : mark? (c :: rest) = none := by
    refine mark?_eq_none (fun m hm hHead => ?_) rest
    have hMarks : ∀ m ∈ marks, m.toList.head?.any isBlank = false := by decide
    have hNot := hMarks m hm
    rw [hHead, Option.any_some, hBlank] at hNot
    cases hNot
  have hStart : isIdentifierStart c = false := by
    have hAscii : ∀ n ∈ blanks, n < 128 →
        isIdentifierStart (Char.ofNat n) = false := by decide
    have hTable : ∀ n ∈ blanks.filter (128 ≤ ·), inRanges identifierStartRanges n = false := by
      decide +kernel
    by_cases hSmall : c.toNat < 128
    · simpa using hAscii _ hMem hSmall
    · have hLarge : c.toNat ∈ blanks.filter (128 ≤ ·) :=
        List.mem_filter.2 ⟨hMem, decide_eq_true (Nat.le_of_not_lt hSmall)⟩
      rw [isIdentifierStart, if_neg hSmall, hTable _ hLarge]
  have hSlash : c ≠ '/' := hNe (by decide)
  have hQuote : c ≠ '"' := hNe (by decide)
  have hApostrophe : c ≠ '\'' := hNe (by decide)
  unfold scan?
  split
  case h_1 => rfl
  case h_2 hCons => exact absurd (List.cons.inj hCons).1 hSlash
  case h_3 hCons => exact absurd (List.cons.inj hCons).1 hSlash
  case h_4 hCons => exact absurd (List.cons.inj hCons).1 hQuote
  case h_5 hCons => exact absurd (List.cons.inj hCons).1 hQuote
  case h_6 hCons => exact absurd (List.cons.inj hCons).1 hApostrophe
  case h_7 hCons =>
    obtain ⟨rfl, rfl⟩ := List.cons.inj hCons
    simp [hNumber, hMark, hStart]

end Blank

/-- A token has at least one character. -/
theorem pos_of_scan? {start n : Nat} {cs : List Char} {lexeme : Lexeme} {parts : List Part}
    (h : scan? start cs = some (lexeme, n, parts)) : 0 < n := by
  cases scans_of_scan? h with
  | lineComment | blockComment | word => omega
  | string _ hSteps => exact Nat.add_pos_right _ hSteps.pos
  | character hLength => exact Nat.pos_of_ne_zero hLength
  | number hNumber => exact (exists_rule_of_number? hNumber).1
  | mark hMark =>
    have hMarks : ∀ m ∈ marks, 0 < m.length := by decide
    exact hMarks _ (List.mem_of_find?_eq_some hMark)

/-- Whether a token has begun before a place and goes on behind it. -/
def Encloses (t : Token) (place : Nat) : Prop := t.start < place ∧ place < t.stop

namespace Cuts

variable {start : Nat} {cs rest : List Char} {ts : List Token} {c : Char}

theorem of_gap (h : Cuts start (c :: rest) ts) (hGap : isGap c = true) :
    Cuts (start + 1) rest ts := by
  cases h with
  | gap _ hRest => exact hRest
  | token hNot => rw [hGap] at hNot; cases hNot

theorem of_token (h : Cuts start (c :: rest) ts) (hGap : isGap c = false) :
    ∃ t n later, ts = t :: later ∧ t.start = start ∧
      scan? start (c :: rest) = some (t.lexeme, n, t.parts) ∧
      t.stop = start + byteLength ((c :: rest).take n) ∧
      Cuts t.stop ((c :: rest).drop n) later := by
  cases h with
  | gap hNot => rw [hGap] at hNot; cases hNot
  | token _ hScan hRest => exact ⟨_, _, _, rfl, rfl, hScan, rfl, hRest⟩

/-- Blanks where a token could begin are skipped. -/
theorem of_blanks {blanks : List Char} (hBlanks : ∀ c ∈ blanks, isBlank c = true)
    (h : Cuts start (blanks ++ rest) ts) : Cuts (start + byteLength blanks) rest ts := by
  induction blanks generalizing start with
  | nil => exact h
  | cons c blanks ih =>
    obtain ⟨hBlank, hOthers⟩ := List.forall_mem_cons.1 hBlanks
    cases hGap : isGap c with
    | false =>
      obtain ⟨_, _, _, _, _, hScan, _⟩ := h.of_token hGap
      rw [scan?_of_isBlank hBlank] at hScan
      cases hScan
    | true =>
      have hRest := ih hOthers (h.of_gap hGap)
      rwa [← byteLength_of_isGap hGap, Nat.add_assoc, ← byteLength_append] at hRest

theorem byteLength_pos (h : cs ≠ []) : 0 < byteLength cs := by
  obtain ⟨c, rest, rfl⟩ := List.exists_cons_of_ne_nil h
  have hSize := c.utf8Size_pos
  rw [byteLength_eq_sum, List.map_cons, List.sum_cons]
  omega

/-- Tokens stand behind each other, and each takes up some bytes. -/
theorem ordered (h : Cuts start cs ts) :
    (∀ t ∈ ts, start ≤ t.start ∧ t.start < t.stop) ∧ ts.Pairwise fun t u => t.stop ≤ u.start := by
  induction h with
  | done => exact ⟨List.forall_mem_nil _, .nil⟩
  | gap _ _ ih => exact ⟨fun t ht => ⟨by have := (ih.1 t ht).1; omega, (ih.1 t ht).2⟩, ih.2⟩
  | @token start n c rest lexeme parts ts hGap hScan hRest ih =>
    have hPos : 0 < byteLength ((c :: rest).take n) := by
      refine byteLength_pos fun hNil => ?_
      have hn := pos_of_scan? hScan
      simp at hNil
      omega
    refine ⟨List.forall_mem_cons.2 ⟨⟨Nat.le_refl _, by dsimp only; omega⟩, fun t ht => ?_⟩,
      List.pairwise_cons.2 ⟨fun t ht => (ih.1 t ht).1, ih.2⟩⟩
    have := ih.1 t ht
    exact ⟨by omega, this.2⟩

/-- Two tokens are the same or stand apart. -/
theorem apart (h : Cuts start cs ts) {t u : Token} (ht : t ∈ ts) (hu : u ∈ ts) :
    t = u ∨ t.stop ≤ u.start ∨ u.stop ≤ t.start := by
  have hPairs := h.ordered.2
  clear h
  induction hPairs with
  | nil => cases ht
  | cons hFirst _ ih =>
    rcases List.mem_cons.1 ht with rfl | htLater
    · rcases List.mem_cons.1 hu with rfl | huLater
      · exact .inl rfl
      · exact .inr (.inl (hFirst u huLater))
    · rcases List.mem_cons.1 hu with rfl | huLater
      · exact .inr (.inr (hFirst t htLater))
      · exact ih htLater huLater

theorem eq_of_encloses (h : Cuts start cs ts) {t u : Token} {place : Nat} (ht : t ∈ ts)
    (hu : u ∈ ts) (hT : t.Encloses place) (hU : u.Encloses place) : t = u := by
  obtain ⟨_, _⟩ := hT
  obtain ⟨_, _⟩ := hU
  rcases h.apart ht hu with rfl | hBefore | hBehind
  · rfl
  · omega
  · omega

/-- A place strictly inside a token, with the token as it was scanned. -/
structure Inside (start : Nat) (front rest : List Char) (ts : List Token) where
  token : Token
  mem : token ∈ ts
  after : List Token
  after_subset : after ⊆ ts
  /-- The characters in front of the token and those of it in front of the place. -/
  outer : List Char
  inner : List Char
  front_eq : front = outer ++ inner
  inner_ne : inner ≠ []
  start_eq : token.start = start + byteLength outer
  length : Nat
  scan : scan? token.start (inner ++ rest) = some (token.lexeme, length, token.parts)
  lt_length : inner.length < length
  stop_eq : token.stop = token.start + byteLength (inner ++ rest.take (length - inner.length))
  lt_stop : start + byteLength front < token.stop
  cuts : Cuts token.stop (rest.drop (length - inner.length)) after

theorem Inside.encloses {front : List Char} (p : Inside start front rest ts) :
    p.token.Encloses (start + byteLength front) := by
  refine ⟨?_, p.lt_stop⟩
  have hPos := byteLength_pos p.inner_ne
  rw [p.start_eq, congrArg byteLength p.front_eq, byteLength_append]
  omega

/-- A place is between tokens, and then what follows is cut by itself, or it is inside one. -/
theorem locate {front : List Char} (h : Cuts start (front ++ rest) ts) :
    (∃ before after, ts = before ++ after ∧ (∀ t ∈ before, t.stop ≤ start + byteLength front) ∧
      Cuts (start + byteLength front) rest after) ∨ Nonempty (Inside start front rest ts) := by
  have hBetween {start : Nat} {ts : List Token} (h : Cuts start rest ts) :
      ∃ before after, ts = before ++ after ∧ (∀ t ∈ before, t.stop ≤ start + byteLength []) ∧
        Cuts (start + byteLength []) rest after := ⟨[], ts, rfl, List.forall_mem_nil _, h⟩
  generalize hCs : front ++ rest = cs at h
  induction h generalizing front with
  | done =>
    obtain ⟨rfl, rfl⟩ := List.append_eq_nil_iff.1 hCs
    exact .inl (hBetween .done)
  | @gap start c more ts hGap hRest ih =>
    cases front with
    | nil =>
      obtain rfl : rest = c :: more := hCs
      exact .inl (hBetween (.gap hGap hRest))
    | cons d front =>
      obtain ⟨rfl, hMore⟩ := List.cons.inj hCs
      have hLength (cs : List Char) :
          start + byteLength (d :: cs) = start + 1 + byteLength cs := by
        rw [← byteLength_of_isGap hGap, Nat.add_assoc, ← byteLength_append, List.singleton_append]
      rw [hLength]
      refine (ih hMore).imp_right fun ⟨p⟩ => ⟨{ p with
        outer := d :: p.outer
        front_eq := congrArg (d :: ·) p.front_eq
        start_eq := by rw [hLength, p.start_eq]
        lt_stop := by rw [hLength]; exact p.lt_stop }⟩
  | @token start n c more lexeme parts ts hGap hScan hRest ih =>
    cases front with
    | nil =>
      obtain rfl : rest = c :: more := hCs
      exact .inl (hBetween (.token hGap hScan hRest))
    | cons d front =>
      rw [← hCs] at hScan hRest ih ⊢
      by_cases hn : n ≤ (d :: front).length
      · -- The token ends in front of the place, so the place is behind it.
        rw [List.take_append_of_le_length hn] at hRest ih ⊢
        rw [List.drop_append_of_le_length hn] at ih
        have hSplit : byteLength (d :: front) =
            byteLength ((d :: front).take n) + byteLength ((d :: front).drop n) := by
          rw [← byteLength_append, List.take_append_drop]
        have hLocated := ih rfl
        rw [Nat.add_assoc, ← hSplit] at hLocated
        rcases hLocated with ⟨before, after, rfl, hBefore, hAfter⟩ | ⟨⟨p⟩⟩
        · refine .inl ⟨_ :: before, after, rfl, List.forall_mem_cons.2 ⟨?_, hBefore⟩, hAfter⟩
          dsimp only
          omega
        · exact .inr ⟨{ p with
            mem := List.mem_cons_of_mem _ p.mem
            after_subset := List.Subset.trans p.after_subset (List.subset_cons_self ..)
            outer := (d :: front).take n ++ p.outer
            front_eq := by rw [List.append_assoc, ← p.front_eq, List.take_append_drop]
            start_eq := by rw [p.start_eq, byteLength_append, Nat.add_assoc]
            lt_stop := by rw [hSplit, ← Nat.add_assoc]; exact p.lt_stop }⟩
      · have hTake : ((d :: front) ++ rest).take n =
            (d :: front) ++ rest.take (n - (d :: front).length) := by
          rw [List.take_append, List.take_of_length_le (by omega)]
        have hDrop : ((d :: front) ++ rest).drop n = rest.drop (n - (d :: front).length) := by
          rw [List.drop_append, List.drop_of_length_le (by omega), List.nil_append]
        rw [hTake, hDrop] at hRest
        by_cases hNil : rest = []
        · -- The token ends with the characters, at the place.
          subst hNil
          rw [List.take_nil, List.append_nil, List.drop_nil] at hRest
          refine .inl ⟨[_], ts, rfl, List.forall_mem_singleton.2 ?_, hRest⟩
          dsimp only
          rw [hTake, List.take_nil, List.append_nil]
        · have hPos : 0 < byteLength (rest.take (n - (d :: front).length)) := by
            refine byteLength_pos fun hTakeNil => ?_
            rcases List.take_eq_nil_iff.1 hTakeNil with h | h
            · omega
            · exact hNil h
          exact .inr ⟨{
            token := _
            mem := List.mem_cons_self ..
            after := ts
            after_subset := List.subset_cons_self ..
            outer := []
            inner := d :: front
            front_eq := rfl
            inner_ne := List.cons_ne_nil d front
            start_eq := rfl
            length := n
            scan := hScan
            lt_length := by omega
            stop_eq := by rw [hTake]
            lt_stop := by
              dsimp only
              rw [hTake, byteLength_append]
              omega
            cuts := by rwa [hTake] }⟩

end Cuts

end Token

end ChangeSplit.Java
