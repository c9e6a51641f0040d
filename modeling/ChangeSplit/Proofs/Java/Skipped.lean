import ChangeSplit.Proofs.Java.Anchor
import ChangeSplit.Proofs.Java.Commented
import ChangeSplit.Proofs.Java.Extent
import ChangeSplit.Proofs.Java.Piece
import ChangeSplit.Proofs.Text.Lines

/-! Hunks that are skipped for their looks. Every node of a tree has a character of its own that is
no blank, and that character does not stand in a comment. A line without such characters can be
skipped. -/

namespace ChangeSplit

open Category (isBlank)

namespace Text

theorem trim_withoutReturn (line : List Char) : trim (withoutReturn line) = trim line := by
  unfold withoutReturn
  split
  case isTrue hLast =>
    obtain ⟨front, rfl⟩ := List.getLast?_eq_some_iff.1 hLast
    rw [List.dropLast_concat, trim_append_blank (by decide)]
  case isFalse => rfl

end Text

namespace Content

theorem ofLine_eq_of_trim {line other : String}
    (h : Text.trim line.toList = Text.trim other.toList) : ofLine line = ofLine other := by
  rw [ofLine, ofLine, h]

theorem not_isCode_of_mem {lines : List String} {line : String} (hLine : line ∈ lines)
    (h : (ofLines lines).isCode = false) : (ofLine line).isCode = false := by
  have hKind : ofLine line ∈ lines.map ofLine := List.mem_map_of_mem hLine
  unfold ofLines at h
  extract_lets kinds at h
  rw [if_neg (by simpa using List.ne_nil_of_mem hLine)] at h
  split at h
  case isTrue => cases h
  case isFalse hCode =>
    split at h
    case isTrue => cases h
    case isFalse hImports =>
      cases hOf : ofLine line with
      | code => exact absurd (List.contains_iff_mem.2 (hOf ▸ hKind)) hCode
      | imports => exact absurd (List.contains_iff_mem.2 (hOf ▸ hKind)) hImports
      | empty | blank | comment => rfl

end Content

/-- The lines of a side are those of a source at the numbers that the side gives. A carriage return
at the end of a line may be lost. -/
structure Side.QuotedFrom (s : Side) (source : List Char) : Prop where
  last_eq : s.last = s.first + s.lines.length - 1
  exists_row : ∀ i line, s.lines[i]? = some line →
    ∃ row, (Java.rows source)[s.first.toNat - 1 + i]? = some row ∧
      Text.withoutReturn row = Text.withoutReturn line.toList

namespace Java

open Token

/-- A node that is founded on tokens has a character of its own that is no blank: the first of a
token with which it begins, or a mark of a piece inside a token or right behind it. -/
theorem Founded.exists_char {source : List Char} {ts : List Token} {t : Tree}
    (hTokens : tokens? source = some ts) (h : Founded (ts.filter (!·.isComment)) t)
    (hNamed : t.isNamed = true) (hComment : t.isComment = false) :
    ∃ before c rest, source = before ++ c :: rest ∧ isBlank c = false ∧
      t.start ≤ byteLength before ∧ byteLength before ≤ t.stop ∧
      ∃ u ∈ ts, u.isComment = false ∧ u.start ≤ byteLength before ∧ byteLength before < u.stop ∧
        (byteLength before = u.start ∨ isPieceMark c = true) := by
  have hSolid {u : Token} (hu : u ∈ ts.filter (!·.isComment)) : u ∈ ts ∧ u.isComment = false := by
    simpa using List.mem_filter.1 hu
  rcases h hNamed hComment with ⟨hLt, u, hu, hStart⟩ | ⟨u, hu, part, hPart, hStart, hStop⟩
  · obtain ⟨hMem, hNot⟩ := hSolid hu
    obtain ⟨before, rest, n, rfl, hBefore, hScan, _, hEnd⟩ := scannedIn_of_mem_tokens? hTokens hMem
    rw [Nat.zero_add] at hBefore
    cases rest with
    | nil => cases hScan
    | cons c rest =>
      have hSolidChar : isBlank c = false := by
        rw [← Bool.not_eq_true]
        intro hBlank
        rw [scan?_of_isBlank hBlank] at hScan
        cases hScan
      have hPos : 0 < byteLength ((c :: rest).take n) := by
        refine Cuts.byteLength_pos fun hNil => ?_
        have hn := pos_of_scan? hScan
        simp at hNil
        omega
      exact ⟨before, c, rest, rfl, hSolidChar, by omega, by omega, u, hMem, hNot, by omega,
        by omega, .inl hBefore.symm⟩
  · obtain ⟨hMem, hNot⟩ := hSolid hu
    obtain ⟨before, rest, n, rfl, hBefore, hScan, _, hEnd⟩ := scannedIn_of_mem_tokens? hTokens hMem
    rw [Nat.zero_add] at hBefore
    obtain ⟨front, c, more, rfl, hMark, hLength, hFrom, hTo⟩ := marked_of_scan? hScan part hPart
    have hInside : byteLength front < byteLength ((front ++ c :: more).take n) := by
      have hPos : 0 < byteLength ((c :: more).take (n - front.length)) := by
        refine Cuts.byteLength_pos fun hNil => ?_
        simp at hNil
        omega
      rw [byteLength_take_append (by omega)]
      omega
    have hSolidChar : isBlank c = false := by
      simp only [isPieceMark, Bool.or_eq_true, decide_eq_true_eq] at hMark
      rcases hMark with rfl | rfl <;> decide
    refine ⟨before ++ front, c, more, (List.append_assoc ..).symm, hSolidChar, ?_⟩
    rw [byteLength_append]
    exact ⟨by omega, by omega, u, hMem, hNot, by omega, by omega, .inr hMark⟩

/-- The bytes of some lines begin with the first of the lines and end in front of the line behind
the last, if there is one. -/
theorem exists_lineSpan_eq {content : List UInt8} {source : List Char} {first last : Nat}
    (hDecode : Utf8.decode content = .ok source) (hFirst : first < last)
    (hLast : last ≤ (rows source).length) :
    ∃ stop, lineSpan content (first + 1 : Nat) last = (rowStart source first, stop) ∧
      (last < (rows source).length → stop < rowStart source last) := by
  have hStart (k : Nat) (hk : k < (rows source).length) :
      (startsOfLines content).getD k 0 = rowStart source k := by
    rw [List.getD_eq_getElem?_getD, getElem?_startsOfLines hDecode (List.getElem?_eq_getElem hk),
      Option.getD_some]
  have hFirstRow : first < (rows source).length := Nat.lt_of_lt_of_le hFirst hLast
  have hFinal : min (max (last : Int) (first + 1 : Nat)).toNat (rows source).length = last := by
    omega
  have hIndex : ((first + 1 : Nat) : Int).toNat - 1 = first := by omega
  have hIn : ¬((decide (((first + 1 : Nat) : Int) < 1) ||
      decide (((first + 1 : Nat) : Int) > (rows source).length)) = true) := by
    simp only [Bool.or_eq_true, decide_eq_true_eq]
    omega
  unfold lineSpan
  simp only [length_startsOfLines hDecode, hFinal, hIndex, hStart first hFirstRow]
  rw [if_neg hIn]
  refine ⟨_, rfl, fun hLt => ?_⟩
  have hRow := rowStart_succ (List.getElem?_eq_getElem hFirstRow)
  have hMono := rowStart_mono source (show first + 1 ≤ last from hFirst)
  rw [if_pos hLt, hStart last hLt]
  have hKept (n : Nat) : ((((content.drop (rowStart source first)).take n).reverse).dropWhile
      isLineEnd).length ≤ n := by
    refine Nat.le_trans (List.dropWhile_sublist _).length_le ?_
    rw [List.length_reverse]
    exact List.length_take_le ..
  have := hKept (rowStart source last - 1 - rowStart source first)
  omega

/-- A line that the gate takes for blank or a comment is one if it is what it looks like, also where
it is quoted without the carriage return at its end. -/
theorem idle_of_quoted {source row : List Char} {ts : List Token} {k : Nat} {line : String}
    (hTokens : tokens? source = some ts) (hRow : (rows source)[k]? = some row)
    (hLine : Text.withoutReturn row = Text.withoutReturn line.toList)
    (hContent : (Content.ofLine line).isCode = false)
    (hSincere : Sincere ts (rowStart source k) row) : Idle ts (rowStart source k) row := by
  refine hSincere.idle hTokens hRow ?_
  rw [← hContent]
  refine congrArg Content.isCode (Content.ofLine_eq_of_trim ?_)
  rw [String.toList_ofList, ← Text.trim_withoutReturn, hLine, Text.trim_withoutReturn]

/-- No node lies in a range of idle lines. -/
theorem not_founded_of_idle {source : List Char} {ts : List Token} {t : Tree}
    {stop first last : Nat} (hTokens : tokens? source = some ts)
    (hIdle : ∀ k row, first ≤ k → k < last → (rows source)[k]? = some row →
      Idle ts (rowStart source k) row)
    (hStop : last < (rows source).length → stop < rowStart source last)
    (hNamed : t.isNamed = true) (hComment : t.isComment = false)
    (hFirst : rowStart source first ≤ t.start) (hLast : t.stop ≤ stop) :
    ¬Founded (ts.filter (!·.isComment)) t := by
  intro hFounded
  obtain ⟨before, c, rest, hSource, hChar, hFrom, hTo, u, hu, hSolid, hIn, hOut, hOwn⟩ :=
    hFounded.exists_char hTokens hNamed hComment
  have hNewline : c ≠ '\n' := by
    rintro rfl
    exact absurd hChar (by decide)
  obtain ⟨k, row, front, more, hRow, hEq, hPlace⟩ := exists_row hSource hNewline
  obtain ⟨hk, _⟩ := List.getElem?_eq_some_iff.1 hRow
  have hSucc := rowStart_succ hRow
  have hLength : byteLength row = byteLength front + byteLength (c :: more) := by
    rw [hEq, byteLength_append]
  have hPos : 0 < byteLength (c :: more) := Cuts.byteLength_pos (List.cons_ne_nil _ _)
  have hAbove : first ≤ k := by
    by_contra hLt
    have hMono := rowStart_mono source (show k + 1 ≤ first by omega)
    omega
  have hBelow : k < last := by
    by_contra hLe
    have hMono := rowStart_mono source (show last ≤ k by omega)
    have := hStop (by omega)
    omega
  obtain ⟨v, hv, hStart, hEnd, hKind⟩ := hIdle k row hAbove hBelow hRow front c more hEq hChar
  rw [← hPlace] at hStart hEnd hKind
  obtain ⟨_, _, _, _, hCuts⟩ := exists_cuts_of_tokens? hTokens
  obtain rfl : u = v := by
    rcases hCuts.apart hu hv with hSame | hBefore | hBehind
    · exact hSame
    · omega
    · omega
  rcases hKind with hIs | ⟨hLt, hQuote, hBackslash⟩
  · rw [hSolid] at hIs
    cases hIs
  · rcases hOwn with hOwn | hMark
    · omega
    · simp only [isPieceMark, Bool.or_eq_true, decide_eq_true_eq] at hMark
      exact hMark.elim hQuote hBackslash

/-- What is covered below a place lies inside the range, is no comment, and has every property that
all below the place has. -/
theorem Place.all_of_mem_coveredBelow {P : Tree → Prop} {first last : Nat} {p q : Place}
    (hAll : ∀ c ∈ p.node.children, c.All P) (h : q ∈ coveredBelow first last p.above p.node) :
    P q.node ∧ q.node.isNamed = true ∧ q.node.isComment = false ∧ first ≤ q.node.start ∧
      q.node.stop ≤ last := by
  induction p using induction with
  | h p ih =>
    obtain ⟨c, hc, ⟨rfl, hInside⟩ | h⟩ := exists_of_mem_coveredBelow h
    · have hMem := List.mem_filter.1 (mem_namedChildren_iff.1 hc).1
      exact ⟨(hAll _ hMem.1).here, hMem.2, hInside⟩
    · exact ih c hc (fun _ => (hAll _ (node_mem_of_mem_namedChildren hc)).of_mem_children) h

/-- A node that is covered is one of those that are founded on tokens. -/
theorem founded_of_mem_covered {content : List UInt8} {path : String} {unit : SourceUnit}
    {source : List Char} {ts : List Token} {first last : Nat} {q : Place}
    (hParse : SourceUnit.parse content path = .ok unit) (hTokens : tokens? source = some ts)
    (hDecode : Utf8.decode content = .ok source) (hq : q ∈ unit.covered first last) :
    Founded (ts.filter (!·.isComment)) q.node ∧ q.node.isNamed = true ∧
      q.node.isComment = false ∧ first ≤ q.node.start ∧ q.node.stop ≤ last := by
  unfold SourceUnit.parse at hParse
  rw [hDecode] at hParse
  dsimp only at hParse
  rw [hTokens, Option.bind_some] at hParse
  split at hParse
  case h_1 => cases hParse
  case h_2 root hRoot =>
    cases hParse
    obtain ⟨_, _, _, _, hCuts⟩ := exists_cuts_of_tokens? hTokens
    have hAll := founded_of_treeOf? (fun t ht => (scannedIn_of_mem_tokens? hTokens ht).regular)
      hCuts.ordered.2 (fun t ht => (hCuts.ordered.1 t ht).2) hRoot
    unfold SourceUnit.covered at hq
    split at hq
    case isTrue => cases hq
    case isFalse => exact Place.all_of_mem_coveredBelow (p := ⟨root, []⟩) hAll hq

/-- A hunk that the gate skips changes no node of the source if each of its lines is what it looks
like. -/
theorem covered_eq_nil_of_not_containsCode {content : List UInt8} {path : String}
    {unit : SourceUnit} {source : List Char} {ts : List Token} {h : Hunk} {r : Revision}
    {first last : Int} (hParse : SourceUnit.parse content path = .ok unit)
    (hDecode : Utf8.decode content = .ok source) (hTokens : tokens? source = some ts)
    (hRange : (h.side r).range? = some (first, last)) (hQuoted : (h.side r).QuotedFrom source)
    (hSincere : ∀ k row, first.toNat ≤ k + 1 → k < last.toNat → (rows source)[k]? = some row →
      Sincere ts (rowStart source k) row)
    (hSkipped : h.containsCode = false) :
    unit.covered (lineSpan content first last).1 (lineSpan content first last).2 = [] := by
  have hSide : ((h.side r).content).isCode = false := by
    rw [Hunk.containsCode, Bool.or_eq_false_iff] at hSkipped
    cases r
    · exact hSkipped.1
    · exact hSkipped.2
  obtain ⟨hNe, hPositive, rfl, rfl⟩ : (h.side r).lines ≠ [] ∧ 0 < (h.side r).first ∧
      (h.side r).first = first ∧ (h.side r).last = last := by
    rw [Side.range?] at hRange
    split at hRange
    case isTrue => cases hRange
    case isFalse hSome =>
      cases hRange
      simpa using hSome
  generalize h.side r = s at *
  have hPos := List.length_pos_iff.2 hNe
  obtain ⟨first, hFirst⟩ : ∃ n : Nat, s.first = (n + 1 : Nat) := ⟨s.first.toNat - 1, by omega⟩
  have hLast : s.last = (first + s.lines.length : Nat) := by
    have := hQuoted.last_eq
    omega
  have hRow (i : Nat) (hi : i < s.lines.length) : ∃ row, (rows source)[first + i]? = some row ∧
      Text.withoutReturn row = Text.withoutReturn s.lines[i].toList := by
    have hLine := hQuoted.exists_row i _ (List.getElem?_eq_getElem hi)
    rwa [hFirst, Int.toNat_natCast, Nat.add_sub_cancel] at hLine
  have hLength : first + s.lines.length ≤ (rows source).length := by
    obtain ⟨row, hLastRow, _⟩ := hRow (s.lines.length - 1) (by omega)
    have := (List.getElem?_eq_some_iff.1 hLastRow).1
    omega
  have hIdle : ∀ k row, first ≤ k → k < first + s.lines.length → (rows source)[k]? = some row →
      Idle ts (rowStart source k) row := by
    intro k row hAbove hBelow hEq
    obtain ⟨i, rfl⟩ := Nat.exists_eq_add_of_le hAbove
    obtain ⟨other, hOther, hReturn⟩ := hRow i (by omega)
    cases hOther.symm.trans hEq
    refine idle_of_quoted hTokens hEq hReturn ?_ ?_
    · exact Content.not_isCode_of_mem (List.getElem_mem _) hSide
    · exact hSincere _ _ (by omega) (by omega) hEq
  obtain ⟨stop, hSpan, hStop⟩ := exists_lineSpan_eq hDecode (Nat.lt_add_of_pos_right hPos) hLength
  rw [hFirst, hLast, hSpan, List.eq_nil_iff_forall_not_mem]
  intro q hq
  obtain ⟨hFounded, hNamed, hComment, hFrom, hTo⟩ :=
    founded_of_mem_covered hParse hTokens hDecode hq
  exact not_founded_of_idle hTokens hIdle hStop hNamed hComment hFrom hTo hFounded

/-- A comment over three lines and a class. -/
def commentedClass : String := "/*\n * one\n */ // two\nclass A\x7b\x7d"

/-- A change of the comment. -/
def commentHunk : Hunk :=
  { index := 0, current := ⟨1, 3, ["/*", " * one", " */ // two"]⟩ }

/-- The comment covers nothing, but the line behind it does. -/
theorem covered_eq_nil_of_not_containsCode_commentedClass :
    ∃ unit, SourceUnit.parse (Utf8.encode commentedClass) "A.java" = .ok unit ∧
      unit.covered (lineSpan (Utf8.encode commentedClass) 1 3).1
        (lineSpan (Utf8.encode commentedClass) 1 3).2 = [] ∧
      (unit.covered (lineSpan (Utf8.encode commentedClass) 1 4).1
        (lineSpan (Utf8.encode commentedClass) 1 4).2).length = 1 := by
  have hUnit : ∃ unit ∈ (SourceUnit.parse (Utf8.encode commentedClass) "A.java").toOption.toList,
      (unit.covered (lineSpan (Utf8.encode commentedClass) 1 4).1
        (lineSpan (Utf8.encode commentedClass) 1 4).2).length = 1 := by
    decide +kernel
  have hTokens : ∃ ts ∈ (tokens? commentedClass.toList).toList,
      ∀ k < 3, ∀ row ∈ (rows commentedClass.toList)[k]?.toList,
        Sincere ts (rowStart commentedClass.toList k) row := by
    decide +kernel
  have hDecode : Utf8.decode (Utf8.encode commentedClass) = .ok commentedClass.toList :=
    mem_toOption_iff.1 (by decide +kernel)
  have hQuoted : commentHunk.current.QuotedFrom commentedClass.toList := by
    refine ⟨by decide, fun i line hLine => ?_⟩
    have hAll : ∀ i < 3, ∀ line ∈ commentHunk.current.lines[i]?.toList,
        ∃ row ∈ (rows commentedClass.toList)[i]?.toList,
          Text.withoutReturn row = Text.withoutReturn line.toList := by
      decide +kernel
    obtain ⟨row, hRow, hSame⟩ :=
      hAll i (List.getElem?_eq_some_iff.1 hLine).1 line (Option.mem_toList.2 hLine)
    refine ⟨row, ?_, hSame⟩
    rw [show commentHunk.current.first.toNat - 1 + i = i from Nat.zero_add i]
    exact Option.mem_toList.1 hRow
  obtain ⟨unit, hUnit, hClass⟩ := hUnit
  obtain ⟨ts, hts, hSincere⟩ := hTokens
  refine ⟨unit, mem_toOption_iff.1 hUnit, ?_, hClass⟩
  refine covered_eq_nil_of_not_containsCode (h := commentHunk) (r := .current)
    (mem_toOption_iff.1 hUnit) hDecode (Option.mem_toList.1 hts) rfl hQuoted ?_ (by decide +kernel)
  exact fun k row _ hk hRow => hSincere k hk row (Option.mem_toList.2 hRow)

/-- Where a slash inside a comment is taken for the beginning of one, code that stands behind the
end of the comment is skipped with its line. -/
example : (SourceUnit.parse (Utf8.encode "class A\x7b/*\n// */ int x;\n\x7d") "A.java").toOption.map
    (fun unit => (Content.ofLine "// */ int x;",
      (unit.covered (lineSpan unit.source 2 2).1 (lineSpan unit.source 2 2).2).length)) =
        some (.comment, 1) := by
  decide +kernel

end Java

end ChangeSplit
