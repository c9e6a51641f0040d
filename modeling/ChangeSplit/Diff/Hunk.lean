import ChangeSplit.Diff.Content
import ChangeSplit.Number.Numeral
import ChangeSplit.Revision
import ChangeSplit.Text.Quoted

/-! The hunks of a change: stretches of lines that differ between the two revisions of a file. -/

namespace ChangeSplit

/-- One side of a hunk: its lines and the numbers of the first and the last of them. Lines count
from one, and a side without lines has zero for both numbers. -/
structure Side where
  first : Int := 0
  last : Int := 0
  lines : List String := []
deriving DecidableEq, Repr, Inhabited

namespace Side

/-- What the lines of a side hold. -/
def content (s : Side) : Content := .ofLines s.lines

/-- The numbers of the first and the last line of a side, if it has lines. -/
def range? (s : Side) : Option (Int × Int) :=
  if s.lines.isEmpty || s.first ≤ 0 then none else some (s.first, s.last)

end Side

/-- A stretch of changed lines. -/
structure Hunk where
  /-- The place of the hunk among those of its file. -/
  index : Int
  base : Side := {}
  current : Side := {}
deriving DecidableEq, Repr, Inhabited

namespace Hunk

/-- The side of a hunk that belongs to a revision. -/
def side (h : Hunk) : Revision → Side
  | .base => h.base
  | .current => h.current

/-- Whether a hunk changes anything but blank lines and comments. -/
def containsCode (h : Hunk) : Bool := h.base.content.isCode || h.current.content.isCode

end Hunk

/-- One changed file. A file that a revision does not have has no path in it. -/
structure FileChange where
  /-- The place of the file in the change. -/
  index : Int
  basePath : Option String := none
  currentPath : Option String := none
  hunks : List Hunk := []
deriving DecidableEq, Repr, Inhabited

namespace FileChange

/-- The path of a file in a revision. An empty path is none. -/
def path? (f : FileChange) (r : Revision) : Option String :=
  (match r with
  | .base => f.basePath
  | .current => f.currentPath).filter (· ≠ "")

/-- The path by which a file is shown. -/
def displayPath (f : FileChange) : String :=
  ((f.path? .current).orElse fun _ => f.path? .base).getD "unknown"

/-- Whether either revision of a file is a Java source. -/
def isJava (f : FileChange) : Bool :=
  [f.path? .base, f.path? .current].any fun path => path.any (·.endsWith ".java")

end FileChange

/-- The files of a change that are Java sources in either revision. -/
def javaFiles (files : List FileChange) : List FileChange := files.filter (·.isJava)

/-- A text that should have been an integer. -/
structure NotInteger where
  text : String
deriving DecidableEq, Repr

/-- The words for a text that should have been an integer. A long text is cut short. -/
def NotInteger.message (e : NotInteger) : String :=
  "invalid literal for int() with base 10: " ++
    String.ofList ((Text.quoted e.text).toList.take 200)

namespace HunkName

/-- The name of a hunk in a change: the index of its file and its own. -/
def ofIndexes (file hunk : Int) : String := toString file ++ ":" ++ toString hunk

/-- The integer in one part of a name. -/
def part (cs : List Char) : Except NotInteger Int :=
  match Numeral.int? cs with
  | some n => .ok n
  | none => .error ⟨String.ofList cs⟩

/-- The indexes in a name. The second is zero if the name ends before it. -/
def indexes (name : String) : Except NotInteger (Int × Int) :=
  let cs := name.toList
  let second := (cs.dropWhile (· ≠ ':')).drop 1
  match part (cs.takeWhile (· ≠ ':')) with
  | .error e => .error e
  | .ok file =>
    if second.isEmpty then .ok (file, 0)
    else
      match part second with
      | .error e => .error e
      | .ok hunk => .ok (file, hunk)

/-- The order of hunks: by file, then by place in the file. -/
def le (a b : Int × Int) : Bool := a.1 < b.1 || (a.1 = b.1 && a.2 ≤ b.2)

/-- Whether one hunk comes before another. -/
def lt (a b : Int × Int) : Bool := !le b a

end HunkName

/-- The names of all hunks of a change in the order of the change. -/
def hunkNames (files : List FileChange) : List String :=
  files.flatMap fun f => f.hunks.map fun h => HunkName.ofIndexes f.index h.index

end ChangeSplit
