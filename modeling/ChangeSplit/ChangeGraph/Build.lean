import ChangeSplit.ChangeGraph.Placement
import ChangeSplit.ChangeGraph.Source
import ChangeSplit.ChangeGraph.Wiring

/-! Building the graph of a change from the sources of both revisions. -/

namespace ChangeSplit

namespace ChangeGraph

/-- Why a graph cannot be built. -/
inductive Fault where
  | noFolder (path : String)
  /-- A hunk has its own node already. -/
  | blocked (blocked : Blocked)
deriving DecidableEq, Repr

/-- The words for a graph that cannot be built. -/
def Fault.message : Fault → String
  | noFolder path => "source directory does not exist: " ++ path
  | blocked b => b.node.message

/-- What there was to note before it turned out that a graph cannot be built. -/
def Fault.notes : Fault → List Note
  | noFolder _ => []
  | blocked b => b.notes

/-- The sources that can be read, each with its place in the change. -/
def readable (folderPath : String) (sources : List ChangedSource) :
    List (Java.Subject × FileChange) :=
  sources.filterMap fun s => (s.subject folderPath).toOption.map (·, s.change)

/-- A note for each source that cannot be read. -/
def skippedNotes (folderPath : String) (sources : List ChangedSource) : List Note :=
  sources.filterMap fun s =>
    match s.subject folderPath with
    | .ok _ => none
    | .error e =>
      some (.skipped ("failed to parse " ++ s.shownPath folderPath ++ ": " ++ e.message))

/-- Place the hunks of all sources. -/
def placeAll (subjects : List (Java.Subject × FileChange)) (g : ChangeGraph) :
    Except Blocked ChangeGraph :=
  subjects.foldlM (fun g (s, f) => placeHunks s f.hunks g) g

/-- The graph of a change whose sources are given. -/
def ofSources (folderPath : String) (sources : List ChangedSource) :
    Except Blocked ChangeGraph :=
  let subjects := readable folderPath sources
  let start : ChangeGraph := {
    notes := .foundSources sources.length folderPath :: skippedNotes folderPath sources }
  let declared := subjects.foldl (fun g (s, _) => g.addSource s) start
  match placeAll subjects declared with
  | .error e => .error e
  | .ok placed =>
    let g := placed.wire
    .ok (g.note (.built g.graph.nodes.length g.graph.edges.length g.graph.touched.length))

/-- The graph of a change whose sources lie in the part of a tree of files with the given path. -/
def build (rootPath : String) (root : Folder) (path : List String) (files : List FileChange) :
    Except Fault ChangeGraph :=
  let folderPath := Path.ofParts (rootPath :: path)
  if !root.isFolder path then .error (.noFolder folderPath)
  else
    match ofSources folderPath (ChangedSource.inFolder (root.subfolder path) files) with
    | .error e => .error (.blocked e)
    | .ok g => .ok g

end ChangeGraph

end ChangeSplit
