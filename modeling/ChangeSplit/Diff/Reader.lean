import ChangeSplit.Diff.Hunk

/-! Reading the unified form of a change. It falls into sections, one for each file, and a section
into what is said of the file and into hunks. Lines here are lists of characters. -/

namespace ChangeSplit.Diff

open Content (after?)
open Numeral (ofDigits)

/-- A line that should have been the header of a hunk. -/
structure MalformedHeader where
  line : String
deriving DecidableEq, Repr

/-- The words for a line that should have been the header of a hunk. -/
def MalformedHeader.message (e : MalformedHeader) : String :=
  "malformed hunk header: " ++ Text.quoted e.line

/-- Cut some lines before each line that passes the test. Every piece but the lines in front of
the first such line is kept, as its first line and the others. -/
def cutBefore (test : List Char → Bool) :
    List (List Char) → List (List Char) × List (List Char × List (List Char))
  | [] => ([], [])
  | line :: rest =>
    let (front, cuts) := cutBefore test rest
    if test line then ([], (line, front) :: cuts) else (line :: front, cuts)

/-- Whether a line begins with a word. -/
def begins (word : String) (line : List Char) : Bool := word.toList.isPrefixOf line

/-- Whether a line begins the section of a file. -/
def beginsSection (line : List Char) : Bool := begins "diff --git " line

/-- Whether a line begins a hunk. -/
def beginsHunk (line : List Char) : Bool := begins "@@" line

/-- A path without the mark of its revision. -/
def withoutMark (mark : String) (path : List Char) : String :=
  String.ofList ((after? mark.toList path).getD path)

/-- The path that a label gives, which is none if the revision does not have the file. -/
def labelled (mark : String) (label : List Char) : Option String :=
  let label := Text.trim label
  if label = "/dev/null".toList then none else some (withoutMark mark label)

/-- A number, and an optional second one after a comma, in front of a text. -/
def readRange? (cs : List Char) : Option (Nat × List Char) :=
  let digits := cs.takeWhile Category.isDigit
  let rest := cs.dropWhile Category.isDigit
  let afterCount := match rest with
    | ',' :: more =>
      if (more.takeWhile Category.isDigit).isEmpty then rest else more.dropWhile Category.isDigit
    | _ => rest
  if digits.isEmpty then none
  else some (ofDigits (digits.filterMap Category.digitValue?), afterCount)

/-- The numbers at which the two sides of a hunk begin, read off its header. The counts of lines
play no part, nor does what follows the header. -/
def readHeader? (line : List Char) : Option (Nat × Nat) :=
  match (after? "@@ -".toList line).bind readRange? with
  | none => none
  | some (base, rest) =>
    match (after? " +".toList rest).bind readRange? with
    | none => none
    | some (current, rest) => (after? " @@".toList rest).map fun _ => (base, current)

/-- Whether a line is a remark on the line before it. -/
def isRemark (line : List Char) : Bool := begins "\\ No newline at end of file" line

/-- The lines with one of the two marks, each with its number. Lines with the other mark and
remarks do not count, and any other line stands on both sides. -/
def gather (own other : Char) (number : Nat) : List (List Char) → List (Nat × String)
  | [] => []
  | line :: rest =>
    if isRemark line then gather own other number rest
    else if line.head? = some own then
      (number, String.ofList (line.drop 1)) :: gather own other (number + 1) rest
    else if line.head? = some other then gather own other number rest
    else gather own other (number + 1) rest

/-- The side that some numbered lines make up. -/
def sideOf (numbered : List (Nat × String)) : Side :=
  ⟨(numbered.head?.map (·.1)).getD 0, (numbered.getLast?.map (·.1)).getD 0, numbered.map (·.2)⟩

/-- Read a hunk from its header and the lines after it. -/
def readHunk (index : Nat) (header : List Char) (body : List (List Char)) :
    Except MalformedHeader Hunk :=
  match readHeader? header with
  | none => .error ⟨String.ofList header⟩
  | some (base, current) =>
    .ok ⟨index, sideOf (gather '-' '+' base body), sideOf (gather '+' '-' current body)⟩

/-- Read hunks, numbered from the given index on. -/
def readHunks (index : Nat) : List (List Char × List (List Char)) →
    Except MalformedHeader (List Hunk)
  | [] => .ok []
  | (header, body) :: rest =>
    match readHunk index header body with
    | .error e => .error e
    | .ok h => (readHunks (index + 1) rest).map (h :: ·)

/-- The paths of a file in both revisions. -/
structure Paths where
  base : Option String
  current : Option String

/-- The paths in the first line of a section, which has to have four words at least. -/
def pathsInHeader? (header : List Char) : Option Paths :=
  match (Text.words header).reverse with
  | current :: base :: _ :: _ :: _ => some ⟨withoutMark "a/" base, withoutMark "b/" current⟩
  | _ => none

/-- Paths corrected by one line of what is said of a file. -/
def Paths.renamed (p : Paths) (line : List Char) : Paths :=
  match after? "rename from ".toList line with
  | some old => { p with base := some (String.ofList (Text.trim old)) }
  | none =>
    match after? "rename to ".toList line with
    | some new => { p with current := some (String.ofList (Text.trim new)) }
    | none => p

/-- Whether a line says that the content of a file is not text. -/
def tellsBinary (line : List Char) : Bool :=
  begins "Binary files " line || begins "GIT binary patch" line

/-- Read the section of a file. It is passed over if its first line names no paths. -/
def readSection (index : Nat) (header : List Char) (body : List (List Char)) :
    Except MalformedHeader (Option FileChange) :=
  match pathsInHeader? header with
  | none => .ok none
  | some paths =>
    let isLabel (line : List Char) : Bool := begins "--- " line
    let remarks := body.takeWhile (!isLabel ·)
    let paths := remarks.foldl Paths.renamed paths
    match body.dropWhile (!isLabel ·) with
    | [] => .ok (some ⟨index, paths.base, paths.current, []⟩)
    | old :: rest =>
      if remarks.any tellsBinary then .ok (some ⟨index, paths.base, paths.current, []⟩)
      else
        let base := labelled "a/" (old.drop 4)
        let current := match rest with
          | new :: _ => if begins "+++ " new then labelled "b/" (new.drop 4) else paths.current
          | [] => paths.current
        match readHunks 0 (cutBefore beginsHunk rest).2 with
        | .error e => .error e
        | .ok hunks => .ok (some ⟨index, base, current, hunks⟩)

/-- Read sections, numbered from the given index on. -/
def readSections (index : Nat) : List (List Char × List (List Char)) →
    Except MalformedHeader (List FileChange)
  | [] => .ok []
  | (header, body) :: rest =>
    match readSection index header body with
    | .error e => .error e
    | .ok none => readSections index rest
    | .ok (some f) => (readSections (index + 1) rest).map (f :: ·)

/-- Read a change. Whatever stands before the first section is passed over. -/
def read (text : String) : Except MalformedHeader (List FileChange) :=
  readSections 0 (cutBefore beginsSection (Text.lines text.toList)).2

end ChangeSplit.Diff
