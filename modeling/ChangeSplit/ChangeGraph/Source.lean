import ChangeSplit.Collection.Sorting
import ChangeSplit.Diff.Matching
import ChangeSplit.Folder
import ChangeSplit.Java.Declaration

/-! The Java sources in a folder that a change touches. -/

namespace ChangeSplit

/-- A source of one revision with the file of the change to which it belongs. -/
structure ChangedSource where
  /-- The path inside the folder. -/
  path : String
  revision : Revision
  change : FileChange
  content : List UInt8

namespace ChangedSource

/-- The sources of a change in a folder, in order of their paths. Paths go part by part. -/
def inFolder (folder : Folder) (files : List FileChange) : List ChangedSource :=
  let sources := folder.files.filter fun (path, _) => path.getLast?.any (·.endsWith ".java")
  (sortBy (fun a b => (compare a.1 b.1).isLE) sources).filterMap fun (parts, content) =>
    let path := Path.ofParts parts
    let revision := Revision.ofPath path
    (fileAt? files path revision).map fun change => ⟨path, revision, change, content⟩

/-- Where a source lies, given where its folder lies. -/
def shownPath (folderPath : String) (s : ChangedSource) : String := folderPath ++ "/" ++ s.path

/-- Read a source, which takes the path by which it is shown. -/
def subject (folderPath : String) (s : ChangedSource) : Except Java.SourceFault Java.Subject :=
  (Java.SourceUnit.parse s.content (s.shownPath folderPath)).map fun unit =>
    .ofUnit unit s.revision s.change.index

end ChangedSource

end ChangeSplit
