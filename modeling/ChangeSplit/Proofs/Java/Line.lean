import ChangeSplit.Proofs.Collection.Traversal
import ChangeSplit.Proofs.Java.Token
import ChangeSplit.Proofs.Text.Utf8
import ChangeSplit.Java.Source

/-! The lines of a source. They are the stretches between line feeds, and the table of line starts
says at which byte each of them begins. -/

namespace ChangeSplit.Java

open Token (byteLength)

/-- The lines of a file, cut at line feeds only. A line feed at the very end begins no line. -/
def rows : List Char → List (List Char)
  | [] => [[]]
  | [c] => if c = '\n' then [[]] else [[c]]
  | c :: d :: rest =>
    if c = '\n' then [] :: rows (d :: rest)
    else
      match rows (d :: rest) with
      | row :: more => (c :: row) :: more
      | [] => [[c]]

theorem rows_ne_nil (cs : List Char) : rows cs ≠ [] := by
  fun_induction rows <;> simp_all

theorem newline_not_mem_of_mem_rows {cs row : List Char} (h : row ∈ rows cs) : '\n' ∉ row := by
  fun_induction rows generalizing row with
  | case1 | case2 => simp_all
  | case3 c hc => simp_all [eq_comm]
  | case4 d rest ih =>
    rcases List.mem_cons.1 h with rfl | h
    · exact List.not_mem_nil
    · exact ih h
  | case5 c d rest hc first more hRows ih =>
    rcases List.mem_cons.1 h with rfl | h
    · have hFirst : '\n' ∉ first := ih (by simp [hRows])
      simp [hFirst, Ne.symm hc]
    · exact ih (by simp [hRows, h])
  | case6 c d rest hc hRows => exact absurd hRows (rows_ne_nil _)

/-- Where rows begin that are put behind each other from a byte on. -/
def startsFrom (offset : Nat) : List (List Char) → List Nat
  | [] => []
  | row :: more => offset :: startsFrom (offset + byteLength row + 1) more

/-- The text of rows, each with a line feed behind it. -/
def ended (rs : List (List Char)) : List Char := rs.flatMap (· ++ ['\n'])

theorem ended_cons (row : List Char) (rs : List (List Char)) :
    ended (row :: rs) = row ++ '\n' :: ended rs := by
  rw [ended, List.flatMap_cons, List.append_assoc, List.singleton_append, ended]

theorem ended_append (rs rs' : List (List Char)) : ended (rs ++ rs') = ended rs ++ ended rs' :=
  List.flatMap_append

theorem getElem?_startsFrom {offset k : Nat} {rs : List (List Char)} (h : k < rs.length) :
    (startsFrom offset rs)[k]? = some (offset + byteLength (ended (rs.take k))) := by
  induction rs generalizing offset k with
  | nil => cases h
  | cons row rs ih =>
    cases k with
    | zero => rfl
    | succ k =>
      have hNewline : byteLength ['\n'] = 1 := rfl
      rw [startsFrom, List.getElem?_cons_succ, ih (Nat.lt_of_succ_lt_succ h)]
      simp only [ended, List.take_succ_cons, List.flatMap_cons, Token.byteLength_append, hNewline]
      congr 1
      omega

/-- A text is its rows, and only the line feed at its very end is left open by them. -/
theorem exists_eq_ended (cs : List Char) : ∃ tail, cs ++ tail = ended (rows cs) ∧
    (tail = [] ∨ tail = ['\n']) := by
  fun_induction rows with
  | case1 => exact ⟨['\n'], rfl, .inr rfl⟩
  | case2 => exact ⟨[], rfl, .inl rfl⟩
  | case3 c hc => exact ⟨['\n'], rfl, .inr rfl⟩
  | case4 d rest ih =>
    obtain ⟨tail, hEq, hTail⟩ := ih
    exact ⟨tail, by rw [List.cons_append, hEq]; rfl, hTail⟩
  | case5 c d rest hc first more hRows ih =>
    obtain ⟨tail, hEq, hTail⟩ := ih
    exact ⟨tail, by rw [List.cons_append, hEq, hRows]; rfl, hTail⟩
  | case6 c d rest hc hRows => exact absurd hRows (rows_ne_nil _)

theorem exists_eq_append_newline (rs : List (List Char)) :
    ∃ front, '\n' :: ended rs = front ++ ['\n'] ∧ (front = [] ∨ front.head? = some '\n') := by
  rcases rs.eq_nil_or_concat with rfl | ⟨rs, row, rfl⟩
  · exact ⟨[], rfl, .inl rfl⟩
  · exact ⟨'\n' :: (ended rs ++ row), by simp [ended], .inr rfl⟩

/-- A row stands behind the rows before it, with a line feed or nothing behind it. -/
theorem exists_of_getElem?_rows {cs row : List Char} {k : Nat} (h : (rows cs)[k]? = some row) :
    ∃ rest, cs = ended ((rows cs).take k) ++ (row ++ rest) ∧
      (rest = [] ∨ rest.head? = some '\n') := by
  obtain ⟨hk, hRow⟩ := List.getElem?_eq_some_iff.1 h
  obtain ⟨tail, hEq, hTail⟩ := exists_eq_ended cs
  have hRows : rows cs = (rows cs).take k ++ row :: (rows cs).drop (k + 1) := by
    rw [← hRow, ← List.drop_eq_getElem_cons, List.take_append_drop]
  have hEnded : ended (rows cs) = ended ((rows cs).take k) ++
      (row ++ '\n' :: ended ((rows cs).drop (k + 1))) :=
    (congrArg ended hRows).trans (by simp [ended])
  rw [hEnded] at hEq
  rcases hTail with rfl | rfl
  · exact ⟨_, by rw [← hEq, List.append_nil], .inr rfl⟩
  · obtain ⟨front, hFront, hHead⟩ := exists_eq_append_newline ((rows cs).drop (k + 1))
    rw [hFront, ← List.append_assoc, ← List.append_assoc] at hEq
    exact ⟨front, (List.append_cancel_right hEq).trans (List.append_assoc ..), hHead⟩

/-- The byte at which a row begins. -/
def rowStart (cs : List Char) (k : Nat) : Nat := byteLength (ended ((rows cs).take k))

theorem rowStart_mono (cs : List Char) {i k : Nat} (h : i ≤ k) : rowStart cs i ≤ rowStart cs k := by
  obtain ⟨more, hMore⟩ := List.take_prefix_take_left (l := rows cs) h
  rw [rowStart, rowStart, ← hMore, ended_append, Token.byteLength_append]
  exact Nat.le_add_right _ _

theorem rowStart_succ {cs row : List Char} {k : Nat} (h : (rows cs)[k]? = some row) :
    rowStart cs (k + 1) = rowStart cs k + byteLength row + 1 := by
  have hNewline : byteLength ('\n' :: ended []) = 1 := rfl
  rw [rowStart, rowStart, List.take_add_one, h, Option.toList_some, ended_append, ended_cons,
    Token.byteLength_append, Token.byteLength_append, hNewline, ← Nat.add_assoc]

theorem exists_of_mem_ended {rs : List (List Char)} {before rest : List Char} {c : Char}
    (h : ended rs = before ++ c :: rest) (hc : c ≠ '\n') :
    ∃ k row front more, rs[k]? = some row ∧ row = front ++ c :: more ∧
      before = ended (rs.take k) ++ front := by
  induction rs generalizing before with
  | nil =>
    rw [ended, List.flatMap_nil] at h
    simp at h
  | cons row rs ih =>
    rw [ended_cons] at h
    rcases List.append_eq_append_iff.1 h with ⟨lost, hBefore, hRest⟩ | ⟨more, hRow, hRest⟩
    · cases lost with
      | nil =>
        obtain ⟨hEq, -⟩ := List.cons.inj hRest
        exact absurd hEq.symm hc
      | cons d lost =>
        obtain ⟨rfl, hLater⟩ := List.cons.inj hRest
        obtain ⟨k, other, front, more, hOther, hEq, rfl⟩ := ih hLater
        refine ⟨k + 1, other, front, more, hOther, hEq, ?_⟩
        rw [hBefore, List.take_succ_cons, ended_cons, List.append_assoc, List.cons_append]
    · cases more with
      | nil =>
        obtain ⟨hEq, -⟩ := List.cons.inj hRest
        exact absurd hEq hc
      | cons d more =>
        obtain ⟨rfl, -⟩ := List.cons.inj hRest
        exact ⟨0, row, before, more, rfl, hRow, rfl⟩

/-- Every character but a line feed stands in a row. -/
theorem exists_row {cs before rest : List Char} {c : Char} (h : cs = before ++ c :: rest)
    (hc : c ≠ '\n') :
    ∃ k row front more, (rows cs)[k]? = some row ∧ row = front ++ c :: more ∧
      byteLength before = rowStart cs k + byteLength front := by
  obtain ⟨tail, hEnded, _⟩ := exists_eq_ended cs
  have hAll : ended (rows cs) = before ++ c :: (rest ++ tail) := by
    rw [← hEnded]
    conv_lhs => rw [h]
    rw [List.append_assoc, List.cons_append]
  obtain ⟨k, row, front, more, hRow, hEq, hBefore⟩ := exists_of_mem_ended hAll hc
  exact ⟨k, row, front, more, hRow, hEq, by rw [hBefore, Token.byteLength_append, rowStart]⟩

section Starts

variable {x y : List UInt8} {offset : Nat}

theorem lineStartsFrom_of_not_mem (h : 0x0A ∉ x) : lineStartsFrom offset x = [] := by
  fun_induction lineStartsFrom offset x <;> simp_all

theorem lineStartsFrom_append (hx : 0x0A ∉ x) (hy : y ≠ []) :
    lineStartsFrom offset (x ++ y) = lineStartsFrom (offset + x.length) y := by
  induction x generalizing offset with
  | nil => rfl
  | cons b x ih =>
    obtain ⟨hb, hx⟩ := not_or.1 (List.mem_cons.not.1 hx)
    obtain ⟨c, rest, hRest⟩ := List.exists_cons_of_ne_nil (show x ++ y ≠ [] by simp [hy])
    rw [List.cons_append, hRest, lineStartsFrom, if_neg (Ne.symm hb), ← hRest, ih hx,
      List.length_cons]
    congr 1
    omega

theorem lineStartsFrom_newline (hy : y ≠ []) :
    lineStartsFrom offset (0x0A :: y) = (offset + 1) :: lineStartsFrom (offset + 1) y := by
  obtain ⟨b, rest, rfl⟩ := List.exists_cons_of_ne_nil hy
  simp [lineStartsFrom]

end Starts

theorem nil_of_decode {source : List UInt8} (h : Utf8.decode source = .ok []) : source = [] := by
  cases source with
  | nil => rfl
  | cons b rest =>
    rw [Utf8.decode, Utf8.decodeFrom] at h
    split at h
    · obtain ⟨_, _, hCons⟩ := exists_ok_of_map h
      cases hCons
    · cases h

theorem ne_nil_of_decode {source : List UInt8} {c : Char} {cs : List Char}
    (h : Utf8.decode source = .ok (c :: cs)) : source ≠ [] := by
  rintro rfl
  cases h

/-- The first character of a source, with what its bytes say of line feeds. -/
theorem exists_of_decode_cons {source : List UInt8} {c : Char} {cs : List Char}
    (h : Utf8.decode source = .ok (c :: cs)) :
    ∃ x y, source = x ++ y ∧ (c ≠ '\n' → 0x0A ∉ x) ∧ (c = '\n' → x = [0x0A]) ∧
      x.length = c.utf8Size ∧ Utf8.decode y = .ok cs := by
  obtain ⟨x, y, rfl, hSize, hy, hAgain⟩ := Utf8.decode_eq_cons h
  have hx : Utf8.decode x = .ok [c] := by
    simpa [Utf8.decode, Utf8.decodeFrom, Except.map] using hAgain []
  obtain ⟨hMem, hNewline⟩ := Utf8.newline_of_decode hx hSize
  exact ⟨x, y, rfl, fun hc => hMem.not.2 hc, hNewline, hSize, hy⟩

/-- The table of line starts has one entry for each row. -/
theorem cons_lineStartsFrom {source : List UInt8} {cs : List Char}
    (h : Utf8.decode source = .ok cs) (offset : Nat) :
    offset :: lineStartsFrom offset source = startsFrom offset (rows cs) := by
  fun_induction rows cs generalizing source offset with
  | case1 =>
    obtain rfl : source = [] := nil_of_decode h
    rfl
  | case2 =>
    obtain ⟨x, y, rfl, hx, hNewline, hSize, hy⟩ := exists_of_decode_cons h
    obtain rfl : y = [] := nil_of_decode hy
    obtain rfl := hNewline rfl
    rfl
  | case3 c hc =>
    obtain ⟨x, y, rfl, hx, hNewline, hSize, hy⟩ := exists_of_decode_cons h
    obtain rfl : y = [] := nil_of_decode hy
    rw [List.append_nil, lineStartsFrom_of_not_mem (hx hc)]
    rfl
  | case4 d rest ih =>
    obtain ⟨x, y, rfl, hx, hNewline, hSize, hy⟩ := exists_of_decode_cons h
    obtain rfl := hNewline rfl
    have hNe : y ≠ [] := ne_nil_of_decode hy
    rw [List.singleton_append, lineStartsFrom_newline hNe, ih hy]
    rfl
  | case5 c d rest hc first more hRows ih =>
    obtain ⟨x, y, rfl, hx, hNewline, hSize, hy⟩ := exists_of_decode_cons h
    have hNe : y ≠ [] := ne_nil_of_decode hy
    have hRest := ih hy (offset + x.length)
    rw [hRows, startsFrom, List.cons.injEq] at hRest
    rw [lineStartsFrom_append (hx hc) hNe, hRest.2, startsFrom]
    have hCons : byteLength (c :: first) = x.length + byteLength first := by
      simp [Token.byteLength_eq_sum, hSize]
    rw [hCons, Nat.add_assoc offset]
  | case6 c d rest hc hRows => exact absurd hRows (rows_ne_nil _)

theorem length_startsFrom (offset : Nat) (rs : List (List Char)) :
    (startsFrom offset rs).length = rs.length := by
  induction rs generalizing offset with
  | nil => rfl
  | cons row rs ih => rw [startsFrom, List.length_cons, List.length_cons, ih]

theorem length_startsOfLines {source : List UInt8} {cs : List Char}
    (h : Utf8.decode source = .ok cs) : (startsOfLines source).length = (rows cs).length := by
  rw [startsOfLines, cons_lineStartsFrom h 0, length_startsFrom]

/-- Each line of a source begins where the table says. -/
theorem getElem?_startsOfLines {source : List UInt8} {cs row : List Char} {k : Nat}
    (h : Utf8.decode source = .ok cs) (hRow : (rows cs)[k]? = some row) :
    (startsOfLines source)[k]? = some (rowStart cs k) := by
  obtain ⟨hk, _⟩ := List.getElem?_eq_some_iff.1 hRow
  rw [startsOfLines, cons_lineStartsFrom h 0, getElem?_startsFrom hk, Nat.zero_add, rowStart]

/-- What stands from the start of a line on is the line, and then a line feed or nothing. -/
theorem decode_drop_start {source : List UInt8} {cs row : List Char} {k : Nat}
    (h : Utf8.decode source = .ok cs) (hRow : (rows cs)[k]? = some row) :
    ∃ start rest, (startsOfLines source)[k]? = some start ∧
      Utf8.decode (source.drop start) = .ok (row ++ rest) ∧
      (rest = [] ∨ rest.head? = some '\n') := by
  obtain ⟨rest, hEq, hRest⟩ := exists_of_getElem?_rows hRow
  have hStart := getElem?_startsOfLines h hRow
  obtain ⟨x, y, rfl, hLength, _, hy⟩ :=
    Utf8.decode_eq_append (h.trans (congrArg Except.ok hEq))
  rw [← Token.byteLength_eq_sum] at hLength
  exact ⟨x.length, rest, by rw [hStart, hLength, rowStart], by rwa [List.drop_left], hRest⟩

end ChangeSplit.Java
