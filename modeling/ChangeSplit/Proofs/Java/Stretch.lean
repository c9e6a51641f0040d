import ChangeSplit.Proofs.Java.Cut
import ChangeSplit.Proofs.Java.Source

/-! The text between two places where tokens begin or end. It can be cut where a token begins or
ends, and it is made of blanks and of the texts of the tokens between the places. -/

namespace ChangeSplit.Java

namespace Token

/-- Whether a token begins or ends at a place. -/
def IsEdge (tokens : List Token) (place : Nat) : Prop :=
  ∃ t ∈ tokens, place = t.start ∨ place = t.stop

section

variable {tokens : List Token} {t : Token}

theorem isEdge_start (ht : t ∈ tokens) : IsEdge tokens t.start := ⟨t, ht, .inl rfl⟩

theorem isEdge_stop (ht : t ∈ tokens) : IsEdge tokens t.stop := ⟨t, ht, .inr rfl⟩

end

/-- Of two beginnings of some characters, that with more bytes goes on from the other. -/
theorem exists_eq_append_of_byteLength_le {front more rest later : List Char}
    (h : front ++ rest = more ++ later) (hLe : byteLength front ≤ byteLength more) :
    ∃ mid, more = front ++ mid ∧ rest = mid ++ later := by
  rcases List.append_eq_append_iff.1 h with ⟨mid, hMore, hRest⟩ | ⟨mid, hFront, hLater⟩
  · exact ⟨mid, hMore, hRest⟩
  · obtain rfl : mid = [] := by
      by_contra hNe
      have hPos := Cuts.byteLength_pos hNe
      rw [hFront, byteLength_append] at hLe
      omega
    exact ⟨[], by simpa using hFront.symm, by simpa using hLater.symm⟩

/-- What is taken of some characters and others behind them ends with the first ones, if it is not
shorter and does not go on. -/
theorem take_append_eq_of_byteLength_le {mid rest : List Char} {n : Nat} (hLength : mid.length ≤ n)
    (hLe : byteLength ((mid ++ rest).take n) ≤ byteLength mid) : (mid ++ rest).take n = mid := by
  have hTake : (mid ++ rest).take n = mid ++ rest.take (n - mid.length) := by
    rw [List.take_append, List.take_of_length_le hLength]
  have hNone : rest.take (n - mid.length) = [] := by
    by_contra hNe
    have hPos := Cuts.byteLength_pos hNe
    rw [hTake, byteLength_append] at hLe
    omega
  rw [hTake, hNone, List.append_nil]

/-- Characters that end where no token goes on are blanks and those of tokens. -/
theorem Cuts.gap_or_exists {start : Nat} {mid rest : List Char} {ts : List Token} {c : Char}
    (h : Cuts start (mid ++ rest) ts) (hEdge : ∀ t ∈ ts, ¬ t.Encloses (start + byteLength mid))
    (hc : c ∈ mid) :
    isGap c = true ∨ ∃ t ∈ ts, t.stop ≤ start + byteLength mid ∧ c ∈ t.text.toList := by
  generalize hCs : mid ++ rest = cs at h
  induction h generalizing mid with
  | done =>
    rw [(List.append_eq_nil_iff.1 hCs).1] at hc
    cases hc
  | @gap start d more ts hGap hRest ih =>
    cases mid with
    | nil => cases hc
    | cons e mid =>
      obtain ⟨rfl, hMore⟩ := List.cons.inj hCs
      have hLength : start + byteLength (e :: mid) = start + 1 + byteLength mid := by
        rw [← byteLength_of_isGap hGap, Nat.add_assoc, ← byteLength_append, List.singleton_append]
      rw [hLength] at hEdge ⊢
      rcases List.mem_cons.1 hc with rfl | hc
      · exact .inl hGap
      · exact ih hEdge hc hMore
  | @token start n d more lexeme parts ts hGap hScan hRest ih =>
    cases mid with
    | nil => cases hc
    | cons e mid =>
      rw [← hCs] at ih hEdge hScan ⊢
      obtain ⟨hFirst, hOthers⟩ := List.forall_mem_cons.1 hEdge
      by_cases hn : n ≤ (e :: mid).length
      · rw [List.take_append_of_le_length hn] at ih ⊢
        rw [List.drop_append_of_le_length hn] at ih
        have hSplit : byteLength (e :: mid) =
            byteLength ((e :: mid).take n) + byteLength ((e :: mid).drop n) := by
          rw [← byteLength_append, List.take_append_drop]
        rw [hSplit, ← Nat.add_assoc] at hOthers ⊢
        rw [← List.take_append_drop n (e :: mid), List.mem_append] at hc
        rcases hc with hc | hc
        · exact .inr ⟨_, List.mem_cons_self .., Nat.le_add_right .., by simpa using hc⟩
        · exact (ih hOthers hc rfl).imp_right fun ⟨t, ht, hLater⟩ =>
            ⟨t, List.mem_cons_of_mem _ ht, hLater⟩
      · -- The token is not shorter than the characters, so it ends where they do.
        have hBegun := byteLength_pos (List.cons_ne_nil e mid)
        have hTake : ((e :: mid) ++ rest).take n = e :: mid := by
          refine take_append_eq_of_byteLength_le (by omega) (Nat.le_of_not_lt fun hLt => ?_)
          exact hFirst ⟨by dsimp only; omega, by dsimp only; omega⟩
        rw [hTake]
        exact .inr ⟨_, List.mem_cons_self .., Nat.le_refl _, by simpa using hc⟩

end Token

section Slice

open Token

variable {source : List UInt8} {cs : List Char} {tokens : List Token} {t : Token}
  {first place last : Nat}

theorem sliceText_eq {front mid rest : List Char}
    (h : Utf8.decode source = .ok (front ++ (mid ++ rest))) :
    sliceText source (byteLength front) (byteLength (front ++ mid)) = String.ofList mid := by
  obtain ⟨x, y, rfl, hFront, _, hRest⟩ := Utf8.decode_eq_append h
  obtain ⟨z, w, rfl, hMid, hSlice, _⟩ := Utf8.decode_eq_append hRest
  rw [← byteLength_eq_sum] at hFront hMid
  rw [sliceText, byteLength_append, Nat.add_sub_cancel_left, ← hFront, List.drop_left, ← hMid,
    List.take_left, hSlice]

/-- A place where a token begins or ends is between characters. -/
theorem Token.IsEdge.exists_front (h : IsEdge tokens place) (hTokens : tokens? cs = some tokens) :
    ∃ front rest, cs = front ++ rest ∧ place = byteLength front := by
  obtain ⟨t, ht, hPlace⟩ := h
  obtain ⟨front, rest, n, rfl, hStart, _, _, hStop⟩ := scannedIn_of_mem_tokens? hTokens ht
  rw [Nat.zero_add] at hStart
  rcases hPlace with rfl | rfl
  · exact ⟨front, rest, rfl, hStart⟩
  · refine ⟨front ++ rest.take n, rest.drop n, ?_, ?_⟩
    · rw [List.append_assoc, List.take_append_drop]
    · rw [hStop, hStart, byteLength_append]

/-- No token goes on behind a place where one begins or ends. -/
theorem Token.IsEdge.not_encloses (h : IsEdge tokens place) (hTokens : tokens? cs = some tokens)
    (ht : t ∈ tokens) : ¬ t.Encloses place := by
  obtain ⟨u, hu, hPlace⟩ := h
  obtain ⟨_, _, _, _, hCuts⟩ := exists_cuts_of_tokens? hTokens
  have hProper := (hCuts.ordered.1 u hu).2
  rintro ⟨hBefore, hBehind⟩
  rcases hCuts.apart ht hu with rfl | hApart | hApart <;> omega

theorem exists_between (hTokens : tokens? cs = some tokens) (hFirst : IsEdge tokens first)
    (hLast : IsEdge tokens last) (hLe : first ≤ last) :
    ∃ front mid rest, cs = front ++ (mid ++ rest) ∧ first = byteLength front ∧
      last = byteLength (front ++ mid) := by
  obtain ⟨front, rest, rfl, rfl⟩ := hFirst.exists_front hTokens
  obtain ⟨more, later, hMore, rfl⟩ := hLast.exists_front hTokens
  obtain ⟨mid, rfl, rfl⟩ := exists_eq_append_of_byteLength_le hMore hLe
  exact ⟨front, mid, later, rfl, rfl, rfl⟩

/-- The text between two places can be cut in between. -/
theorem sliceText_append (hDecode : Utf8.decode source = .ok cs)
    (hTokens : tokens? cs = some tokens) (hFirst : IsEdge tokens first)
    (hPlace : IsEdge tokens place) (hLast : IsEdge tokens last) (hLe : first ≤ place)
    (hLe' : place ≤ last) :
    sliceText source first last = sliceText source first place ++ sliceText source place last := by
  obtain ⟨front, mid, rest, rfl, rfl, rfl⟩ := exists_between hTokens hFirst hPlace hLe
  obtain ⟨more, later, hMore, rfl⟩ := hLast.exists_front hTokens
  rw [← List.append_assoc] at hMore
  obtain ⟨mid', rfl, rfl⟩ := exists_eq_append_of_byteLength_le hMore hLe'
  have hWhole : Utf8.decode source = .ok (front ++ ((mid ++ mid') ++ later)) := by
    simpa using hDecode
  have hSecond : Utf8.decode source = .ok ((front ++ mid) ++ (mid' ++ later)) := by
    simpa using hDecode
  rw [sliceText_eq hDecode, sliceText_eq hSecond, List.append_assoc, sliceText_eq hWhole,
    String.ofList_append]

/-- The text of a token is a part of the text between places around it. -/
theorem sliceText_eq_append_token (hDecode : Utf8.decode source = .ok cs)
    (hTokens : tokens? cs = some tokens) (hFirst : IsEdge tokens first)
    (hLast : IsEdge tokens last) (ht : t ∈ tokens) (hLe : first ≤ t.start) (hLe' : t.stop ≤ last) :
    sliceText source first last =
      sliceText source first t.start ++ t.text ++ sliceText source t.stop last := by
  obtain ⟨_, _, _, _, hCuts⟩ := exists_cuts_of_tokens? hTokens
  have hProper := (hCuts.ordered.1 t ht).2
  rw [← sliceText_of_scannedIn hDecode (scannedIn_of_mem_tokens? hTokens ht),
    ← sliceText_append hDecode hTokens hFirst (isEdge_start ht) (isEdge_stop ht) hLe (by omega),
    ← sliceText_append hDecode hTokens hFirst (isEdge_stop ht) hLast (by omega) hLe']

theorem mem_sliceText_of_mem_text {c : Char} (hDecode : Utf8.decode source = .ok cs)
    (hTokens : tokens? cs = some tokens) (hFirst : IsEdge tokens first)
    (hLast : IsEdge tokens last) (ht : t ∈ tokens) (hLe : first ≤ t.start) (hLe' : t.stop ≤ last)
    (hc : c ∈ t.text.toList) : c ∈ (sliceText source first last).toList := by
  rw [sliceText_eq_append_token hDecode hTokens hFirst hLast ht hLe hLe', String.toList_append,
    String.toList_append]
  exact List.mem_append_left _ (List.mem_append_right _ hc)

/-- The text between two places consists of blanks and of the texts of tokens. -/
theorem gap_or_exists_of_mem_sliceText {c : Char} (hDecode : Utf8.decode source = .ok cs)
    (hTokens : tokens? cs = some tokens) (hFirst : IsEdge tokens first)
    (hLast : IsEdge tokens last) (hLe : first ≤ last)
    (hc : c ∈ (sliceText source first last).toList) :
    isGap c = true ∨
      ∃ t ∈ tokens, first ≤ t.start ∧ t.stop ≤ last ∧ c ∈ t.text.toList := by
  obtain ⟨front, mid, rest, rfl, rfl, rfl⟩ := exists_between hTokens hFirst hLast hLe
  rw [sliceText_eq hDecode, String.toList_ofList] at hc
  obtain ⟨bom, body, hBody, _, hCuts⟩ := exists_cuts_of_tokens? hTokens
  have hBom : byteLength bom ≤ byteLength front := by
    obtain ⟨t, ht, hPlace⟩ := hFirst
    have hStart := hCuts.ordered.1 t ht
    omega
  obtain ⟨inner, rfl, rfl⟩ := exists_eq_append_of_byteLength_le hBody.symm hBom
  rw [byteLength_append] at hFirst
  rcases hCuts.locate with ⟨before, after, rfl, _, hAfter⟩ | ⟨⟨inside⟩⟩
  · have hLength : byteLength (bom ++ inner ++ mid) =
        byteLength bom + byteLength inner + byteLength mid := by
      rw [byteLength_append, byteLength_append]
    rw [hLength] at hLast ⊢
    have hEdge (t : Token) (ht : t ∈ after) :=
      hLast.not_encloses hTokens (List.mem_append_right before ht)
    refine (hAfter.gap_or_exists hEdge hc).imp_right fun ⟨t, ht, hStop, hMem⟩ =>
      ⟨t, List.mem_append_right _ ht, ?_, hStop, hMem⟩
    rw [byteLength_append]
    exact (hAfter.ordered.1 t ht).1
  · exact absurd inside.encloses (hFirst.not_encloses hTokens inside.mem)

end Slice

end ChangeSplit.Java
