import ChangeSplit.Graph.Kind

/-! What a run tells on its way, apart from its outcome. -/

namespace ChangeSplit

/-- How much a note matters. -/
inductive Level where
  | info
  | warning
  | error
deriving DecidableEq, Repr

/-- The name of a level. -/
def Level.name : Level → String
  | info => "INFO"
  | warning => "WARNING"
  | error => "ERROR"

/-- A note about the course of a run. -/
inductive Note where
  | takesWorkingTree
  | takesCommit (target : String)
  | read (files javaFiles : Nat)
  | wroteRevisions (folder : String)
  | foundSources (count : Nat) (folder : String)
  /-- A source cannot be read, for the reason given. -/
  | skipped (reason : String)
  | duplicate (kind : NodeKind) (key path : String)
  /-- No node stands for a declaration that a hunk touches. -/
  | unanchored (hunk : String) (kind : NodeKind) (name : String)
  /-- No declaration with a node is around what a hunk touches. -/
  | detached (hunk : String)
  | built (nodes edges touched : Nat)
  | merged (before after : Nat)
deriving DecidableEq, Repr

namespace Note

/-- How much a note matters. -/
def level : Note → Level
  | skipped .. | duplicate .. => .warning
  | unanchored .. | detached .. => .error
  | _ => .info

/-- The part of the program that a note comes from. -/
def topic : Note → String
  | takesWorkingTree | takesCommit .. | read .. => "untangle.analyzer"
  | wroteRevisions .. => "untangle.git_adapter"
  | merged .. => "untangle.grouping"
  | _ => "untangle.builder"

/-- The words of a note. -/
def message : Note → String
  | takesWorkingTree => "Using working tree changes as diff source"
  | takesCommit target => "Using commit " ++ target ++ " as diff source"
  | read files javaFiles =>
    "Diff touches " ++ toString files ++ " files, " ++ toString javaFiles ++ " of them Java"
  | wroteRevisions folder => "Materialized revisions under " ++ folder
  | foundSources count folder =>
    "Found " ++ toString count ++ " changed Java files under " ++ folder
  | skipped reason => "Skipping " ++ reason
  | duplicate kind key path =>
    "Duplicate " ++ kind.name ++ " " ++ key ++ " in " ++ path ++ " ignored"
  | unanchored hunk kind name => "Hunk " ++ hunk ++ ": no " ++ kind.name ++ " node for " ++ name
  | detached hunk => "Hunk " ++ hunk ++ " has no enclosing declaration in the graph"
  | built nodes edges touched =>
    "Built semantic graph: " ++ toString nodes ++ " nodes, " ++ toString edges ++ " edges, " ++
      toString touched ++ " touched"
  | merged before after =>
    "Merged " ++ toString before ++ " candidate groups into " ++ toString after

end Note

end ChangeSplit
