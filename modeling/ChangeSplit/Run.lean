import ChangeSplit.ChangeGraph.Build
import ChangeSplit.Diff.Reader
import ChangeSplit.Grouping.Partition
import ChangeSplit.Text.Utf8

/-! Taking a change of a repository apart. The repository is asked for the change and for the
revisions of its files, one request at a time. Everything else follows from the answers. -/

namespace ChangeSplit

/-- What comes back on a request to the repository. -/
inductive Answer where
  | completed (code : Int) (output complaint : List UInt8)
  /-- Nobody is there to answer, for the reason given. -/
  | unavailable (reason : String)
  /-- The user wants the run to end. -/
  | interrupted

/-- A request to the repository in a folder. -/
structure Request where
  arguments : List String
  folder : String
deriving DecidableEq, Repr

/-- What went wrong with the repository. -/
inductive RepositoryFault where
  | unavailable (reason : String)
  | refused (arguments : List String) (complaint : String)
  /-- A file that is not committed yet cannot be read. -/
  | unreadable (path reason : String)
deriving DecidableEq, Repr

/-- The words for what went wrong with the repository. -/
def RepositoryFault.message : RepositoryFault → String
  | unavailable reason => "failed to execute git: " ++ reason
  | refused arguments complaint =>
    "git command failed: " ++ " ".intercalate ("git" :: arguments) ++ ": " ++ complaint
  | unreadable path reason => "cannot read working tree file " ++ path ++ ": " ++ reason

/-- Why a change cannot be taken apart. -/
inductive Failure where
  | settings (fault : SettingsFault)
  | repository (fault : RepositoryFault)
  | diff (fault : Diff.MalformedHeader)
  | graph (fault : ChangeGraph.Fault)
  | partition (fault : PartitionFault)

/-- The words for a change that cannot be taken apart. -/
def Failure.message : Failure → String
  | settings fault => fault.message
  | repository fault => fault.message
  | diff fault => fault.message
  | graph fault => fault.message
  | partition fault => fault.message

/-- Why a run ends early. -/
inductive Stop where
  | interrupted
  | failed (failure : Failure)
  /-- A revision of a file has no place beside the others. -/
  | unwritable (fault : WriteFault)
  /-- The names of hunks or nodes are not as they should be. -/
  | ungroupable (fault : Grouping.Fault)

/-- What a run takes from outside. -/
structure Surroundings where
  /-- The answers of the repository. -/
  answer : List String → Answer
  /-- The files below the folder in which the program runs. -/
  workingFolder : Folder
  /-- Where the revisions of files are put, as it is shown. -/
  scratchPath : String
  /-- What comes of reading the file at a path, if the files below the working folder do not tell:
  its content, or the words for the fault. The path may lead anywhere, also to files that the run
  put below the root of all files. -/
  elsewhere : Folder → String → Option (Except String (List UInt8)) := fun _ _ => none

namespace Surroundings

/-- Read the file at a path, after files were put below the root of all files. -/
def readFile (w : Surroundings) (root : Folder) (path : String) : Except String (List UInt8) :=
  (w.elsewhere root path).getD (w.workingFolder.readFile path)

/-- The place of the folder for revisions of files, from the root of all files on. -/
def scratchPlace (w : Surroundings) : List String := Path.resolved (Path.parts w.scratchPath)

/-- The place of a revision of a file, from the root of all files on. It is in the folder for
revisions unless the path leads out of it. -/
def place (w : Surroundings) (r : Revision) (path : String) : List String :=
  Path.resolved (Path.parts (Path.within (Path.within w.scratchPath r.name) path))

end Surroundings

/-- What a run did. -/
structure Transcript where
  requests : List Request := []
  notes : List Note := []
deriving Inhabited

/-- A part of a run. What it did is known even if it ends early. -/
abbrev Session (α : Type) := ReaderT Surroundings (ExceptT Stop (StateM Transcript)) α

namespace Session

/-- Take down notes. -/
def notes (ns : List Note) : Session Unit :=
  modify fun t => { t with notes := t.notes ++ ns }

/-- End the run. -/
def fail {α : Type} (f : Failure) : Session α := throw (.failed f)

/-- Put a request to the repository. A refusal is an outcome. -/
def request (folder : String) (arguments : List String) :
    Session (Except RepositoryFault (List UInt8)) := do
  modify fun t => { t with requests := t.requests ++ [⟨arguments, folder⟩] }
  match (← read).answer arguments with
  | .interrupted => throw .interrupted
  | .unavailable reason => return .error (.unavailable reason)
  | .completed code output complaint =>
    if code = 0 then return .ok output
    else return .error (.refused arguments (Text.trimmed (Utf8.decodeLossy complaint)))

/-- Put a request to the repository. A refusal ends the run. -/
def demand (folder : String) (arguments : List String) : Session (List UInt8) := do
  match ← request folder arguments with
  | .ok output => return output
  | .error e => fail (.repository e)

end Session

/-- The name of the revision without any files. -/
def emptyRevision : String := "4b825dc642cb6eb9a060e54bf8d69288fbee4904"

/-- The text of a change and the names of its revisions. A missing base has no files, and without
a target the files on disk are meant. -/
structure ChosenChange where
  text : String
  base : Option String
  target : Option String

/-- Output that names a revision. -/
def revisionName (output : List UInt8) : String := Text.trimmed (Utf8.decodeLossy output)

/-- The request for the text of a change between two revisions, or up to the files on disk. -/
def diffArguments (revisions : List String) : List String :=
  ["diff", "--unified=0", "--find-renames"] ++ revisions

/-- Get the change of one commit from its first parent. A commit without a parent changes the
revision without any files. -/
def commitChange (folder commit : String) : Session ChosenChange := do
  let target := revisionName (← Session.demand folder ["rev-parse", commit])
  let base := (← Session.request folder ["rev-parse", target ++ "^"]).toOption.map revisionName
  let before := (base.filter (· ≠ "")).getD emptyRevision
  let output ← Session.demand folder (diffArguments [before, target])
  return ⟨Utf8.decodeLossy output, base, some target⟩

/-- Get the change that is not committed yet. -/
def openChange (folder : String) : Session ChosenChange := do
  let base := revisionName (← Session.demand folder ["rev-parse", "HEAD"])
  let output ← Session.demand folder (diffArguments ["HEAD"])
  return ⟨Utf8.decodeLossy output, some base, none⟩

/-- Get the change that the settings ask for. -/
def chosenChange (s : Settings) : Session ChosenChange := do
  if s.workingTree then
    Session.notes [.takesWorkingTree]
    openChange s.repository
  else
    let target := (s.target.filter (· ≠ "")).getD "HEAD"
    Session.notes [.takesCommit target]
    commitChange s.repository target

/-- Get a file of a revision. -/
def committedFile (folder revision path : String) : Session (List UInt8) :=
  Session.demand folder ["show", revision ++ ":" ++ path]

/-- Get a file that is not committed yet, after files were put below the root of all files. -/
def openFile (folder : String) (root : Folder) (path : String) : Session (List UInt8) := do
  match (← read).readFile root (Path.within folder path) with
  | .ok content => return content
  | .error reason => Session.fail (.repository (.unreadable path reason))

/-- Put a revision of a file beside the others, below the root of all files. The folder for them
and those around it are in the way of a file at their own places. -/
def put (root : Folder) (r : Revision) (path : String) (content : List UInt8) :
    Session Folder := do
  let w ← read
  let place := w.place r path
  if place.isPrefixOf w.scratchPlace then throw (.unwritable .isFolder)
  match root.write place content with
  | .ok root => return root
  | .error e => throw (.unwritable e)

/-- Get both revisions of a file and put them beside the others. -/
def addRevisions (folder : String) (c : ChosenChange) (root : Folder) (f : FileChange) :
    Session Folder := do
  let root ← match f.path? .base, c.base.filter (· ≠ "") with
    | some path, some revision => do put root .base path (← committedFile folder revision path)
    | _, _ => pure root
  match f.path? .current with
  | none => return root
  | some path =>
    let content ← match c.target.filter (· ≠ "") with
      | some revision => committedFile folder revision path
      | none => openFile folder root path
    put root .current path content

/-- What taking a change apart comes to. -/
structure Analysis where
  files : List FileChange
  groups : List Group

/-- Take a change apart. -/
def analyze (s : Settings) : Session Analysis := do
  if let some e := s.fault? then Session.fail (.settings e)
  let change ← chosenChange s
  let files ← match Diff.read change.text with
    | .ok files => pure files
    | .error e => Session.fail (.diff e)
  let sources := javaFiles files
  Session.notes [.read files.length sources.length]
  let root ← sources.foldlM (addRevisions s.repository change) {}
  let w ← read
  Session.notes [.wroteRevisions w.scratchPath]
  let g ← match ChangeGraph.build w.scratchPath (root.subfolder w.scratchPlace) [] sources with
    | .ok g => pure g
    | .error e => do
      Session.notes e.notes
      Session.fail (.graph e)
  Session.notes g.notes
  match Grouping.run s g.graph files with
  | .error e => throw (.ungroupable e)
  | .ok outcome =>
    Session.notes (outcome.counts.toList.map fun (before, after) => .merged before after)
    match partitionFault? outcome.groups files with
    | some e => Session.fail (.partition e)
    | none => return ⟨files, outcome.groups⟩

end ChangeSplit
