import ChangeSplit.Proofs.Diff.Reader
import ChangeSplit.Proofs.Diff.Reading
import Mathlib.Data.List.DropRight

/-! What the reader records of any text that it does not refuse, whether or not a change looks like
that. Each side of a hunk gets the lines with its mark, and the numbers of the first and the last of
them are counted from the header: lines with the other mark and remarks do not count, and all other
lines count on both sides. -/

namespace ChangeSplit.Diff

open Category Content Numeral

/-- Whether a line has a mark. -/
def bears (mark : Char) (line : List Char) : Bool := line.head? = some mark

/-- Whether a line stands on both sides of a hunk. -/
def isContext (line : List Char) : Bool :=
  !isRemark line && !bears '-' line && !bears '+' line

/-- How many lines count on the side with a mark. -/
def counted (mark : Char) (lines : List (List Char)) : Nat :=
  lines.countP (bears mark) + lines.countP isContext

/-- Where a side of a hunk with lines begins and ends: from the first line with its mark to the
last. Its numbers take in its own lines and the context between them. -/
structure Extends (mark : Char) (start : Nat) (body : List (List Char)) (s : Side)
    (before inner after : List (List Char)) : Prop where
  body_eq : body = before ++ inner ++ after
  unmarked_before : ∀ line ∈ before, bears mark line = false
  unmarked_after : ∀ line ∈ after, bears mark line = false
  marked_head : ∃ line ∈ inner.head?, bears mark line = true
  marked_last : ∃ line ∈ inner.getLast?, bears mark line = true
  first : s.first = start + counted mark before
  last : s.last = start + counted mark (before ++ inner.dropLast)
  ordered : s.first ≤ s.last
  size : s.last - s.first + 1 = s.lines.length + inner.countP isContext

/-- Whether a side of a hunk is what the lines behind the header make it, if its first line would
have the number `start` right behind the header. -/
structure Counted (mark : Char) (start : Nat) (body : List (List Char)) (s : Side) : Prop where
  lines : s.lines = (body.filter (bears mark)).map fun line => String.ofList (line.drop 1)
  vacant : s.lines = [] → s.first = 0 ∧ s.last = 0
  numbered : s.lines ≠ [] → ∃ before inner after, Extends mark start body s before inner after

section Gather

variable {own other : Char} {number : Nat} {line : List Char}

/-- The two marks of a hunk, in either order. -/
def Marks (own other : Char) : Prop := own = '-' ∧ other = '+' ∨ own = '+' ∧ other = '-'

theorem Marks.isContext_eq (h : Marks own other) :
    isContext line = (!isRemark line && !bears own line && !bears other line) := by
  rcases h with ⟨rfl, rfl⟩ | ⟨rfl, rfl⟩
  · rfl
  · rw [isContext, Bool.and_assoc, Bool.and_assoc, Bool.and_comm (!bears '-' line)]

theorem Marks.not_bears_of_isRemark (h : Marks own other) (hRemark : isRemark line = true) :
    bears own line = false := by
  have hHead : line.head? = some '\\' := by
    obtain ⟨rest, rfl⟩ := List.isPrefixOf_iff_prefix.1 hRemark
    rfl
  rcases h with ⟨rfl, rfl⟩ | ⟨rfl, rfl⟩ <;> simp [bears, hHead]

theorem counted_append (mark : Char) (front back : List (List Char)) :
    counted mark (front ++ back) = counted mark front + counted mark back := by
  simp only [counted, List.countP_append]
  omega

/-- A line is recorded under its number if it has the mark, and moves the number on if it counts on
the side. -/
theorem gather_cons (h : Marks own other) (number : Nat) (line : List Char)
    (rest : List (List Char)) :
    gather own other number (line :: rest) =
      (if bears own line then [(number, String.ofList (line.drop 1))] else []) ++
        gather own other (number + counted own [line]) rest := by
  have hCount : counted own [line] =
      (if bears own line then 1 else 0) + if isContext line then 1 else 0 := by
    simp [counted, List.countP_cons]
  rw [hCount, h.isContext_eq, gather]
  cases hRemark : isRemark line with
  | true => simp [h.not_bears_of_isRemark hRemark]
  | false =>
      cases hOwn : bears own line with
      | true =>
          have hHead : line.head? = some own := by simpa [bears] using hOwn
          simp [hHead]
      | false =>
          have hHead : ¬ line.head? = some own := by simpa [bears] using hOwn
          cases hOther : bears other line with
          | true =>
              have hHead' : line.head? = some other := by simpa [bears] using hOther
              rw [if_neg (by simp), if_neg hHead, if_pos hHead']
              simp
          | false =>
              have hHead' : ¬ line.head? = some other := by simpa [bears] using hOther
              simp [hHead, hHead']

theorem gather_append (h : Marks own other) (number : Nat) (front back : List (List Char)) :
    gather own other number (front ++ back) =
      gather own other number front ++ gather own other (number + counted own front) back := by
  induction front generalizing number with
  | nil => simp [gather, counted]
  | cons line front ih =>
      have hCount := counted_append own [line] front
      rw [List.cons_append, gather_cons h, gather_cons h, ih, List.append_assoc, Nat.add_assoc,
        ← hCount, List.singleton_append]

theorem map_snd_gather (h : Marks own other) (number : Nat) (body : List (List Char)) :
    (gather own other number body).map Prod.snd =
      (body.filter (bears own)).map fun line => String.ofList (line.drop 1) := by
  induction body generalizing number with
  | nil => rfl
  | cons line body ih =>
      rw [gather_cons h, List.map_append, ih, List.filter_cons]
      split <;> simp

theorem gather_eq_nil (h : Marks own other) {body : List (List Char)}
    (hBody : ∀ line ∈ body, bears own line = false) (number : Nat) :
    gather own other number body = [] := by
  have hTexts := map_snd_gather h number body
  rw [List.filter_eq_nil_iff.2 (by simpa using hBody)] at hTexts
  exact List.map_eq_nil_iff.1 hTexts

/-- The stretch of a list from the first element that passes a test to the last. -/
theorem exists_inner {α : Type} {test : α → Bool} {l : List α} (h : l.filter test ≠ []) :
    ∃ before inner after, l = before ++ inner ++ after ∧ (∀ a ∈ before, test a = false) ∧
      (∀ a ∈ after, test a = false) ∧ (∃ a rest, inner = a :: rest ∧ test a = true) ∧
      ∃ front a, inner = front ++ [a] ∧ test a = true := by
  have hFront : l = l.takeWhile (!test ·) ++ l.dropWhile (!test ·) :=
    List.takeWhile_append_dropWhile.symm
  have hBack : l.dropWhile (!test ·) = (l.dropWhile (!test ·)).rdropWhile (!test ·) ++
      (l.dropWhile (!test ·)).rtakeWhile (!test ·) := List.rdropWhile_append_rtakeWhile.symm
  have hTail : l.dropWhile (!test ·) ≠ [] := by
    intro hNil
    apply h
    rw [List.filter_eq_nil_iff]
    simpa using List.dropWhile_eq_nil_iff.1 hNil
  have hFirst : test ((l.dropWhile (!test ·)).head hTail) = true := by
    simpa using List.head_dropWhile_not (!test ·) hTail
  generalize l.dropWhile (!test ·) = tail at hFront hBack hTail hFirst
  have hInner : tail.rdropWhile (!test ·) ≠ [] := by
    intro hNil
    have hNone := List.rdropWhile_eq_nil_iff.1 hNil _ (List.head_mem hTail)
    simp [hFirst] at hNone
  refine ⟨_, _, _, by rw [List.append_assoc, ← hBack]; exact hFront, ?_, ?_, ?_, ?_⟩
  · intro a ha
    simpa using List.mem_takeWhile_imp ha
  · intro a ha
    simpa using List.mem_rtakeWhile_imp ha
  · obtain ⟨a, rest, hRest⟩ := List.exists_cons_of_ne_nil hInner
    refine ⟨a, rest, hRest, ?_⟩
    have hHead : tail.head? = some a := by
      rw [hBack, hRest]
      rfl
    rw [List.head?_eq_some_head hTail] at hHead
    rwa [Option.some.inj hHead] at hFirst
  · obtain ⟨front, a, hConcat⟩ := (List.eq_nil_or_concat' _).resolve_left hInner
    refine ⟨front, a, hConcat, ?_⟩
    have hLast := List.rdropWhile_last_not (!test ·) tail hInner
    simpa [hConcat] using hLast

/-- The first and the last line with the mark are numbered by what counts in front of them. -/
theorem counted_sideOf (h : Marks own other) (start : Nat) (body : List (List Char)) :
    Counted own start body (sideOf (gather own other start body)) where
  lines := map_snd_gather h start body
  vacant hNil := by
    have hNone : gather own other start body = [] := List.map_eq_nil_iff.1 hNil
    simp [hNone, sideOf]
  numbered hSome := by
    have hFilter : body.filter (bears own) ≠ [] := by
      intro hNil
      apply hSome
      show (gather own other start body).map Prod.snd = []
      rw [map_snd_gather h, hNil]
      rfl
    obtain ⟨before, inner, after, rfl, hBefore, hAfter, hHeads, hLasts⟩ := exists_inner hFilter
    obtain ⟨a, rest, hHead, ha⟩ := hHeads
    obtain ⟨front, b, hLast, hb⟩ := hLasts
    have hGather : gather own other start (before ++ inner ++ after) =
        gather own other (start + counted own before) inner := by
      rw [gather_append h, gather_append h, gather_eq_nil h hBefore, gather_eq_nil h hAfter,
        List.nil_append, List.append_nil]
    have hFirst : (sideOf (gather own other start (before ++ inner ++ after))).first =
        start + counted own before := by
      rw [hGather, hHead, gather_cons h, if_pos ha]
      rfl
    have hFinal : (sideOf (gather own other start (before ++ inner ++ after))).last =
        start + counted own (before ++ inner.dropLast) := by
      rw [hGather, hLast, gather_append h, gather_cons h, if_pos hb, List.dropLast_concat,
        counted_append]
      simp [sideOf, gather]
      omega
    have hLines : (sideOf (gather own other start (before ++ inner ++ after))).lines.length =
        inner.countP (bears own) := by
      show ((gather own other start (before ++ inner ++ after)).map Prod.snd).length = _
      rw [hGather, map_snd_gather h, List.length_map, List.countP_eq_length_filter]
    have hCount : inner.countP (bears own) + inner.countP isContext =
        counted own inner.dropLast + 1 := by
      have hContext : isContext b = false := by simp [h.isContext_eq, hb]
      have hOne : counted own [b] = 1 := by simp [counted, hb, hContext]
      rw [← hOne, hLast, List.dropLast_concat, ← counted_append]
      rfl
    refine ⟨before, inner, after, rfl, hBefore, hAfter, ?_, ?_, hFirst, hFinal, ?_, ?_⟩
    · rw [hHead]
      exact ⟨a, rfl, ha⟩
    · rw [hLast]
      exact ⟨b, by simp, hb⟩
    · rw [hFirst, hFinal, counted_append]
      omega
    · rw [hFirst, hFinal, hLines, counted_append]
      omega

end Gather

section Header

/-- A run of digits that shows a number. -/
structure Shows (digits : List Char) (n : Nat) : Prop where
  nonempty : digits ≠ []
  plain : ∀ c ∈ digits, isDigit c = true
  value : n = ofDigits (digits.filterMap digitValue?)

/-- The text of a range in the header of a hunk: where it begins, and how many lines it has. -/
inductive IsRange : List Char → Nat → Prop where
  | bare {digits : List Char} {n : Nat} (hStart : Shows digits n) : IsRange digits n
  | withCount {digits count : List Char} {n m : Nat} (hStart : Shows digits n)
      (hCount : Shows count m) : IsRange (digits ++ ',' :: count) n

/-- The first line of a hunk, with the numbers that it gives to the first lines of both sides. -/
def IsHeader (header : List Char) (base current : Nat) : Prop :=
  ∃ old new more, header =
      "@@ -".toList ++ old ++ " +".toList ++ new ++ " @@".toList ++ more ∧
    IsRange old base ∧ IsRange new current

theorem eq_append_of_after? {word text rest : List Char} (h : after? word text = some rest) :
    text = word ++ rest := by
  unfold after? at h
  split at h
  case isTrue hPrefix =>
    obtain ⟨more, rfl⟩ := List.isPrefixOf_iff_prefix.1 hPrefix
    rw [List.drop_left] at h
    rw [Option.some.inj h]
  case isFalse => cases h

theorem shows_takeWhile {cs : List Char} (h : (cs.takeWhile isDigit).isEmpty = false) :
    Shows (cs.takeWhile isDigit) (ofDigits ((cs.takeWhile isDigit).filterMap digitValue?)) :=
  ⟨by simpa using h, fun _ hc => List.mem_takeWhile_imp hc, rfl⟩

theorem exists_isRange {cs rest : List Char} {n : Nat} (h : readRange? cs = some (n, rest)) :
    ∃ range, cs = range ++ rest ∧ IsRange range n := by
  unfold readRange? at h
  extract_lets digits behind afterCount at h
  split at h
  case isTrue => cases h
  case isFalse hDigits =>
    obtain ⟨rfl, rfl⟩ := Prod.mk.inj (Option.some.inj h)
    have hStart := shows_takeWhile (Bool.eq_false_iff.2 hDigits)
    have hSplit : cs = digits ++ behind := List.takeWhile_append_dropWhile.symm
    clear_value behind
    by_cases hCount : ∃ more, behind = ',' :: more ∧ (more.takeWhile isDigit).isEmpty = false
    · obtain ⟨more, hBehind, hMore⟩ := hCount
      have hAfter : afterCount = more.dropWhile isDigit := by simp [afterCount, hBehind, hMore]
      refine ⟨digits ++ ',' :: more.takeWhile isDigit, ?_,
        .withCount hStart (shows_takeWhile hMore)⟩
      rw [hAfter, List.append_assoc, List.cons_append, List.takeWhile_append_dropWhile, ← hBehind]
      exact hSplit
    · have hAfter : afterCount = behind := by
        simp only [afterCount]
        split
        case h_1 more =>
          split
          case isTrue => rfl
          case isFalse hMore => exact absurd ⟨more, rfl, Bool.eq_false_iff.2 hMore⟩ hCount
        case h_2 => rfl
      rw [hAfter]
      exact ⟨digits, hSplit, .bare hStart⟩

theorem isHeader_of_readHeader? {header : List Char} {base current : Nat}
    (h : readHeader? header = some (base, current)) : IsHeader header base current := by
  unfold readHeader? at h
  split at h
  case h_1 => cases h
  case h_2 base' rest hBase =>
    split at h
    case h_1 => cases h
    case h_2 current' rest' hCurrent =>
      obtain ⟨more, hMore, hStarts⟩ := Option.map_eq_some_iff.1 h
      obtain ⟨rfl, rfl⟩ := Prod.mk.inj hStarts
      obtain ⟨text, hText, hRange⟩ := Option.bind_eq_some_iff.1 hBase
      obtain ⟨text', hText', hRange'⟩ := Option.bind_eq_some_iff.1 hCurrent
      obtain ⟨old, rfl, hOld⟩ := exists_isRange hRange
      obtain ⟨new, rfl, hNew⟩ := exists_isRange hRange'
      refine ⟨old, new, more, ?_, hOld, hNew⟩
      rw [eq_append_of_after? hText, eq_append_of_after? hText', eq_append_of_after? hMore]
      simp only [List.append_assoc]

end Header

/-- Whether a hunk is read off a header and the lines behind it. -/
def ReadOff (header : List Char) (body : List (List Char)) (h : Hunk) : Prop :=
  ∃ base current, IsHeader header base current ∧ Counted '-' base body h.base ∧
    Counted '+' current body h.current

/-- The hunks that the lines of a section have. There are none if no line labels a file, or if a
line in front of the first label says that the content is not text. Otherwise each header behind
that label begins a hunk, which goes on to the next header or to the end of the section. -/
inductive HunksOf (body : List (List Char)) : List Hunk → Prop where
  | unlabelled (hBody : ∀ line ∈ body, begins "--- " line = false) : HunksOf body []
  | binary {remarks rest : List (List Char)} {label : List Char}
      (hBody : body = remarks ++ label :: rest) (hLabel : begins "--- " label = true)
      (hRemarks : ∀ line ∈ remarks, begins "--- " line = false)
      (hBinary : ∃ line ∈ remarks, tellsBinary line = true) : HunksOf body []
  | text {remarks rest front : List (List Char)} {label : List Char}
      {pieces : List (List Char × List (List Char))} {hunks : List Hunk}
      (hBody : body = remarks ++ label :: rest) (hLabel : begins "--- " label = true)
      (hRemarks : ∀ line ∈ remarks, begins "--- " line = false)
      (hText : ∀ line ∈ remarks, tellsBinary line = false)
      (hCut : Cut beginsHunk rest front pieces)
      (hHunks : List.Forall₂ (fun p h => ReadOff p.1 p.2 h) pieces hunks) : HunksOf body hunks

section Read

variable {header : List Char} {body : List (List Char)}
  {pieces : List (List Char × List (List Char))} {index : Nat}

theorem GivesHunks.readOff {hunks : List Hunk} (h : GivesHunks index pieces hunks) :
    List.Forall₂ (fun p h => ReadOff p.1 p.2 h) pieces hunks := by
  induction h with
  | nil => exact .nil
  | @cons _ base current _ body _ _ hHeader _ ih =>
      have hBase := counted_sideOf (.inl ⟨rfl, rfl⟩) base body
      have hCurrent := counted_sideOf (.inr ⟨rfl, rfl⟩) current body
      exact .cons ⟨base, current, isHeader_of_readHeader? hHeader, hBase, hCurrent⟩ ih

theorem GivesFile.hunksOf {f : FileChange} (h : GivesFile index header body (some f)) :
    HunksOf body f.hunks := by
  cases h with
  | unlabelled _ hBody => exact .unlabelled hBody
  | binary _ hBody hLabel hRemarks hBinary => exact .binary hBody hLabel hRemarks hBinary
  | text _ hBody hLabel hRemarks hText _ hHunks =>
      exact .text hBody hLabel hRemarks hText (cut_cutBefore _ _) hHunks.readOff

theorem pathsInHeader?_eq_none_iff :
    pathsInHeader? header = none ↔ (Text.words header).length < 4 := by
  rw [pathsInHeader?, ← List.length_reverse]
  generalize (Text.words header).reverse = words
  match words with
  | [] | [_] | [_, _] | [_, _, _] => simp
  | _ :: _ :: _ :: _ :: _ => simp

/-- A section is passed over just if its first line has not enough words. -/
theorem GivesFile.eq_none_iff {found : Option FileChange} (h : GivesFile index header body found) :
    found = none ↔ (Text.words header).length < 4 := by
  rw [← pathsInHeader?_eq_none_iff]
  cases h with
  | nameless hPaths => simp [hPaths]
  | unlabelled hPaths | binary hPaths | text hPaths => simp [hPaths]

/-- Sections that name no paths are passed over, and the others give one file each. -/
theorem GivesFiles.hunksOf {files : List FileChange} (h : GivesFiles index pieces files) :
    List.Forall₂ (fun s f => HunksOf s.2 f.hunks)
      (pieces.filter fun s => 4 ≤ (Text.words s.1).length) files := by
  induction h with
  | nil => exact .nil
  | skip hHead _ ih =>
      have hWords := hHead.eq_none_iff.1 rfl
      rwa [List.filter_cons_of_neg (by simpa using hWords)]
  | file hHead _ ih =>
      have hWords := mt hHead.eq_none_iff.2 (Option.some_ne_none _)
      rw [List.filter_cons_of_pos (by simpa using hWords)]
      exact .cons hHead.hunksOf ih

end Read

/-- Whatever text is read, files and the hunks of each file are numbered by their places, so hunks
have names of their own. A file comes from a section of the text, and its hunks from the stretches
behind their headers there. Each side of a hunk has just the lines with its mark. It has no numbers
if there are none, and otherwise those of the first and the last of them, counted from the header
over these lines and the context. -/
theorem read_counted {text : String} {files : List FileChange} (h : read text = .ok files) :
    files.map (·.index) = (List.range files.length).map (↑) ∧
      (∀ f ∈ files, f.hunks.map (·.index) = (List.range f.hunks.length).map (↑)) ∧
      (hunkNames files).Nodup ∧
      ∃ front sections, Cut beginsSection (Text.lines text.toList) front sections ∧
        List.Forall₂ (fun s f => HunksOf s.2 f.hunks)
          (sections.filter fun s => 4 ≤ (Text.words s.1).length) files := by
  obtain ⟨hFiles, hHunks⟩ := read_indexes h
  exact ⟨hFiles, hHunks, nodup_hunkNames_of_read h (.refl files), _, _, cut_cutBefore _ _,
    (givesFiles_of_readSections h).hunksOf⟩

/-- Lines in front of all sections, a section that names no paths, and one with two hunks. In the
first of them a mark stands in front, in the middle and at the end of the context, and a remark and
a line of the other side are between them; the second hunk breaks off at once. -/
def raggedSections : String :=
  "From\n@@\ndiff --git a\n@@\ndiff --git a/A b/A\n@@\n--- a/A\n+++ b/A\nx\n@@ -7,2 +3 @@ f\n\n" ++
    "-a\n c\n\\ No newline at end of file\n+b\n--- d\n \n@@ -0,0 +1 @@"

def raggedFiles : List FileChange := [
  { index := 0, basePath := some "A", currentPath := some "A"
    hunks := [{ index := 0, base := ⟨8, 10, ["a", "-- d"]⟩, current := ⟨5, 5, ["b"]⟩ },
      { index := 1 }] }]

theorem read_counted_raggedSections :
    read raggedSections = .ok raggedFiles ∧
      raggedFiles.map (·.index) = (List.range raggedFiles.length).map (↑) ∧
      (∀ f ∈ raggedFiles, f.hunks.map (·.index) = (List.range f.hunks.length).map (↑)) ∧
      (hunkNames raggedFiles).Nodup ∧
      ∃ front sections, Cut beginsSection (Text.lines raggedSections.toList) front sections ∧
        List.Forall₂ (fun s f => HunksOf s.2 f.hunks)
          (sections.filter fun s => 4 ≤ (Text.words s.1).length) raggedFiles := by
  have hRead : read raggedSections = .ok raggedFiles := by decide +kernel
  exact ⟨hRead, read_counted hRead⟩

end ChangeSplit.Diff
