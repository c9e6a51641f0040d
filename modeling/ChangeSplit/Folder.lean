import ChangeSplit.Text.Blank
import ChangeSplit.Text.Quoted

/-! A tree of files, and paths into it. Folders are there by way of the files in them. -/

namespace ChangeSplit

namespace Path

/-- The parts of a path. A part that stays in the same folder is none. -/
def parts (path : String) : List String :=
  ((Text.pieces (· = '/') path.toList).map String.ofList).filter fun p => p ≠ "" && p ≠ "."

/-- Parts put together to a path. -/
def ofParts (parts : List String) : String := "/".intercalate parts

/-- Whether a path begins at the root of all files. -/
def isAbsolute (path : String) : Bool := path.toList.head? = some '/'

/-- Where a path begins. Two slashes are a root of their own, any more are not. -/
def root (path : String) : String :=
  match path.toList with
  | '/' :: '/' :: '/' :: _ => "/"
  | '/' :: '/' :: _ => "//"
  | '/' :: _ => "/"
  | _ => ""

/-- The path with a root and parts. -/
def ofRoot (root : String) (parts : List String) : String :=
  if root = "" ∧ parts = [] then "." else root ++ ofParts parts

/-- A path without parts that stay in the same folder. -/
def tidy (path : String) : String := ofRoot (root path) (parts path)

/-- A path taken from a folder on. -/
def within (folder path : String) : String :=
  if isAbsolute path then tidy path else ofRoot (root folder) (parts folder ++ parts path)

/-- The parts of a path with every step back taken. -/
def resolved (parts : List String) : List String :=
  parts.foldl (fun done p => if p = ".." then done.dropLast else done ++ [p]) []

end Path

/-- A tree of files, with the parts of the path of each. -/
structure Folder where
  files : List (List String × List UInt8) := []
deriving DecidableEq, Inhabited, Repr

/-- Why a file cannot be read. -/
inductive ReadFault where
  | missing
  | isFolder
  /-- The path leads through a file. -/
  | notFolder
deriving DecidableEq, Repr

/-- The words for a file that cannot be read, which show its path. -/
def ReadFault.message (path : String) : ReadFault → String
  | missing => "[Errno 2] No such file or directory: " ++ Text.quoted path
  | isFolder => "[Errno 21] Is a directory: " ++ Text.quoted path
  | notFolder => "[Errno 20] Not a directory: " ++ Text.quoted path

/-- Why a file cannot be written. -/
inductive WriteFault where
  /-- A folder has the path. -/
  | isFolder
  /-- The folder around the file is itself a file. -/
  | isFile
  /-- The path leads through a file further up. -/
  | notFolder
deriving DecidableEq, Repr

namespace Folder

/-- Whether one path leads through another, and on. -/
def leadsThrough (path outer : List String) : Bool := outer.isPrefixOf path && outer ≠ path

/-- Whether there is a folder at a path. There is always one at the top. -/
def isFolder (f : Folder) (path : List String) : Bool :=
  path.isEmpty || f.files.any fun (p, _) => leadsThrough p path

/-- The content of the file at a path. -/
def read (f : Folder) (path : List String) : Except ReadFault (List UInt8) :=
  match f.files.lookup path with
  | some bytes => .ok bytes
  | none =>
    if f.isFolder path then .error .isFolder
    else if f.files.any fun (p, _) => leadsThrough path p then .error .notFolder
    else .error .missing

/-- Read a file by going from a folder along the parts of a path. Each step leads out of a folder
that is there. What lies around the top is not known. -/
def readAlong (f : Folder) : List String → List String → Except ReadFault (List UInt8)
  | place, [] => f.read place
  | place, part :: rest =>
    match f.read place with
    | .ok _ => .error .notFolder
    | .error .isFolder =>
      if part ≠ ".." then f.readAlong (place ++ [part]) rest
      else if place.isEmpty then .error .missing
      else f.readAlong place.dropLast rest
    | .error e => .error e

/-- What comes of reading the file at a path, if there are no files but those in a folder. -/
def readFile (f : Folder) (path : String) : Except String (List UInt8) :=
  (if Path.isAbsolute path then .error .missing else f.readAlong [] (Path.parts path)).mapError
    (ReadFault.message path)

/-- Files with one written at a path. -/
def writeIn (path : List String) (bytes : List UInt8) :
    List (List String × List UInt8) → List (List String × List UInt8)
  | [] => [(path, bytes)]
  | (p, b) :: rest => if p = path then (p, bytes) :: rest else (p, b) :: writeIn path bytes rest

/-- Write a file, together with the folders around it. -/
def write (f : Folder) (path : List String) (bytes : List UInt8) : Except WriteFault Folder :=
  if f.files.any fun (p, _) => leadsThrough path.dropLast p then .error .notFolder
  else if f.files.any fun (p, _) => p = path.dropLast then .error .isFile
  else if f.isFolder path then .error .isFolder
  else .ok ⟨writeIn path bytes f.files⟩

/-- The folder at a path. -/
def subfolder (f : Folder) (path : List String) : Folder :=
  ⟨f.files.filterMap fun (p, bytes) =>
    if leadsThrough p path then some (p.drop path.length, bytes) else none⟩

end Folder

end ChangeSplit
