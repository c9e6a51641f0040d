import ChangeSplit.Proofs.Java.Token

/-! The pieces of strings. Each of them begins with a quotation mark or a backslash or ends in front
of one, so a stretch of a string without such marks has no piece in it. -/

namespace ChangeSplit.Java

namespace Token

/-- The characters that pieces of strings begin with or end in front of. -/
def isPieceMark (c : Char) : Bool := c = '"' || c = '\\'

/-- A piece with a mark in it or right behind it, among the first `n` characters from the byte `at_`
on. -/
def Marked (at_ n : Nat) (cs : List Char) (part : Part) : Prop :=
  ∃ before c rest, cs = before ++ c :: rest ∧ isPieceMark c = true ∧ before.length < n ∧
    part.start ≤ at_ + byteLength before ∧ at_ + byteLength before ≤ part.stop

variable {at_ n m : Nat} {cs rest : List Char} {part : Part}

/-- A piece that begins with a mark. -/
theorem Marked.here {c : Char} {kind : Kind} {stop : Nat} (hc : isPieceMark c = true) (hn : 0 < n)
    (hStop : at_ ≤ stop) : Marked at_ n (c :: rest) ⟨kind, at_, stop⟩ :=
  ⟨[], c, rest, rfl, hc, hn, Nat.le_refl _, hStop⟩

/-- A piece behind some characters. -/
theorem Marked.after (front : List Char) (h : Marked (at_ + byteLength front) m rest part)
    (hn : front.length + m ≤ n) : Marked at_ n (front ++ rest) part := by
  obtain ⟨before, c, more, rfl, hc, hLength, hStart, hStop⟩ := h
  rw [Nat.add_assoc, ← byteLength_append] at hStart hStop
  refine ⟨front ++ before, c, more, (List.append_assoc ..).symm, hc, ?_, hStart, hStop⟩
  rw [List.length_append]
  omega

theorem Marked.drop {k : Nat} (h : Marked (at_ + byteLength (cs.take k)) m (cs.drop k) part) :
    Marked at_ (k + m) cs part := by
  have hLength := List.length_take_le k cs
  have hAfter := h.after (cs.take k) (n := k + m) (by omega)
  rwa [List.take_append_drop] at hAfter

/-- A piece of characters that stand for themselves ends in front of a mark. -/
theorem Marked.plain {kind : Kind} (hm : 0 < m) (hNe : cs.drop (runLength isPlain cs) ≠ []) :
    Marked at_ (runLength isPlain cs + m) cs
      ⟨kind, at_, at_ + byteLength (cs.take (runLength isPlain cs))⟩ := by
  obtain ⟨c, rest, hRest⟩ := List.exists_cons_of_ne_nil hNe
  have hLength := List.length_take_le (runLength isPlain cs) cs
  have hHead : (cs.dropWhile isPlain).head? = some c := by
    have hSplit : cs = cs.takeWhile isPlain ++ cs.dropWhile isPlain :=
      List.takeWhile_append_dropWhile.symm
    have hDrop : cs.drop (runLength isPlain cs) = cs.dropWhile isPlain :=
      (congrArg (List.drop _) hSplit).trans List.drop_left
    rw [← hDrop, hRest]
    rfl
  have hNot := List.head?_dropWhile_not isPlain cs
  rw [hHead] at hNot
  refine ⟨cs.take (runLength isPlain cs), c, rest, ?_, ?_, by omega, Nat.le_add_right ..,
    Nat.le_refl _⟩
  · rw [← hRest, List.take_append_drop]
  · simpa [isPlain, isPieceMark, or_iff_not_imp_left] using hNot

theorem Steps.marked {parts : List Part} (h : Steps at_ cs parts n) :
    ∀ part ∈ parts, Marked at_ n cs part := by
  induction h with
  | close => exact List.forall_mem_nil _
  | @step at_ k n c rest parts own hk _ hPlain hRest ih =>
    refine List.forall_mem_append.2 ⟨fun part hPart => ?_, fun part hPart => (ih part hPart).drop⟩
    obtain ⟨kind, hOwn, rfl⟩ := Option.map_eq_some_iff.1 (Option.mem_toList.1 hPart)
    have hPos := hRest.pos
    cases hFirst : isPlain c with
    | false =>
      have hMark : isPieceMark c = true := by
        simpa [isPlain, isPieceMark, or_iff_not_imp_left] using hFirst
      exact .here hMark (by omega) (Nat.le_add_right ..)
    | true =>
      obtain rfl := hPlain (by rw [hOwn]; rfl) hFirst
      exact .plain hPos hRest.ne_nil

/-- Every piece of a token has a mark in it or right behind it, inside the token. -/
theorem marked_of_scan? {start : Nat} {lexeme : Lexeme} {parts : List Part}
    (h : scan? start cs = some (lexeme, n, parts)) : ∀ part ∈ parts, Marked start n cs part := by
  cases scans_of_scan? h with
  | @string front _ _ _ _ hSteps =>
    exact fun part hPart => (hSteps.marked part hPart).after front (Nat.le_refl _)
  | lineComment | blockComment | character | number | mark | word => exact List.forall_mem_nil _

end Token

end ChangeSplit.Java
