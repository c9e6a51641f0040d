import ChangeSplit.Run

/-! Recordings of what a run takes from outside: answers of the repository, and files that are not
committed yet. A recording is a sequence of records. The record of an answer begins with the line
`answer ARGUMENTS CODE OUTPUT COMPLAINT`, which gives the number of arguments, the exit code, and
the lengths of what follows. The arguments come next, a line for each, then the output and the
complaint. The record of a file has the line `file LENGTH`, a line with its path, and its
content. The path goes from the working folder on or from the root of all files on. -/

namespace ChangeSplit

/-- What a run takes from outside. -/
structure Recording where
  answers : List (List String × Answer) := []
  /-- The files below the working folder. -/
  files : Folder := {}
  /-- The files whose paths lead out of the working folder, or may do so. -/
  elsewhere : List (String × List UInt8) := []

namespace Recording

/-- A line of bytes as text, and the bytes after it. -/
def splitLine (bytes : List UInt8) : String × List UInt8 :=
  (Utf8.decodeLossy (bytes.takeWhile (· ≠ 0x0A)), (bytes.dropWhile (· ≠ 0x0A)).drop 1)

/-- So many lines of bytes as text, and the bytes after them. -/
def splitLines : Nat → List UInt8 → List String × List UInt8
  | 0, bytes => ([], bytes)
  | count + 1, bytes =>
    let (line, rest) := splitLine bytes
    let (lines, rest) := splitLines count rest
    (line :: lines, rest)

/-- A recording with one more answer. -/
def addAnswer (r : Recording) (arguments : List String) (a : Answer) : Recording :=
  { r with answers := r.answers ++ [(arguments, a)] }

/-- A recording with one more file. A file that has no place beside the others is left out. -/
def addFile (r : Recording) (path : String) (content : List UInt8) : Recording :=
  if Path.isAbsolute path || (Path.parts path).contains ".." then
    { r with elsewhere := (Path.tidy path, content) :: r.elsewhere }
  else
    match r.files.write (Path.parts path) content with
    | .ok files => { r with files }
    | .error _ => r

/-- Read at most the given number of records. -/
def readRecords (r : Recording) : Nat → List UInt8 → Recording
  | 0, _ => r
  | count + 1, bytes =>
    let (header, rest) := splitLine bytes
    match (Text.words header.toList).map String.ofList with
    | ["answer", arguments, code, output, complaint] =>
      let size (s : String) : Nat := s.toNat?.getD 0
      let (lines, rest) := splitLines (size arguments) rest
      let answer := Answer.completed (code.toInt?.getD 0) (rest.take (size output))
        ((rest.drop (size output)).take (size complaint))
      readRecords (r.addAnswer lines answer) count (rest.drop (size output + size complaint))
    | ["file", length] =>
      let size := length.toNat?.getD 0
      let (path, rest) := splitLine rest
      readRecords (r.addFile path (rest.take size)) count (rest.drop size)
    | _ => r

/-- Read a recording. Each record takes some bytes. -/
def ofBytes (bytes : List UInt8) : Recording := readRecords {} bytes.length bytes

/-- The surroundings of a run that was recorded. What was not recorded is refused. -/
def surroundings (r : Recording) (scratchPath : String) : Surroundings where
  answer arguments := (r.answers.lookup arguments).getD
    (.completed 128 [] (Utf8.encode "fatal: not recorded\n"))
  workingFolder := r.files
  scratchPath := scratchPath
  elsewhere _ path := (r.elsewhere.lookup path).map .ok

end Recording

end ChangeSplit
