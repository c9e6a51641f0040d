import ChangeSplit.Grouping.Merging

/-! The groups of a change: which hunks belong together, and what each group is about. -/

namespace ChangeSplit

/-- A group of hunks. -/
structure Group where
  id : String
  /-- The names of the hunks in the order of the change. -/
  hunks : List String
  description : String := ""
deriving DecidableEq, Repr

/-- A group on one line. -/
def Group.text (g : Group) : String :=
  g.id ++ ": " ++ g.description ++ " [" ++ ", ".intercalate g.hunks ++ "]"

namespace Grouping

/-- What a node is called in the description of a group. The node of a hunk is called after the
first declaration that contains it. -/
def label (g : Graph) (n : Node) : String :=
  if n.kind = .hunk then
    match g.containers n with
    | [] => "code"
    | container :: _ => "code in " ++ container.entityName?.getD ""
  else n.kind.name ++ " " ++ n.entityName?.getD ""

/-- What a cluster is about: how many hunks it has, and the first three things that they touch. -/
def describe (g : Graph) (c : Cluster) : String :=
  let names := (c.members.map fun m => label g m.node).eraseDups
  let more := if names.length > 3 then " and " ++ toString (names.length - 3) ++ " more" else ""
  let count := c.hunks.size
  toString count ++ (if count = 1 then " hunk" else " hunks") ++ " touching " ++
    ", ".intercalate (names.take 3) ++ more

/-- The hunks of a change, each with the path by which its file is shown. -/
def paths (files : List FileChange) : Table String String :=
  files.foldl (fun t f =>
    f.hunks.foldl (fun t h => t.put (HunkName.ofIndexes f.index h.index) f.displayPath) t) {}

/-- Some hunks that make up a group, with what they are about. -/
structure Draft where
  hunks : List HunkMark
  description : String

/-- The place of the first hunk of a group. -/
def Draft.first (d : Draft) : Int × Int := (d.hunks.head?.map (·.position)).getD (0, 0)

/-- The hunks that touch no node, each in a group of its own. -/
def leftOver (files : List FileChange) (clusters : List Cluster) : List Draft :=
  let table := paths files
  let anchored := clusters.flatMap fun c => c.hunks.toList.map (·.name)
  let own := files.flatMap fun f => f.hunks.map fun h =>
    (⟨f.index, h.index, HunkName.ofIndexes f.index h.index⟩ : HunkMark)
  (own.eraseDups.filter (!anchored.contains ·.name)).map fun m =>
    ⟨[m], "standalone change in " ++ (table.find? m.name).getD ""⟩

/-- Groups named by number, in order. -/
def named (next : Nat) : List Draft → List Group
  | [] => []
  | d :: rest =>
    ⟨"group" ++ toString next, d.hunks.map (·.name), d.description⟩ :: named (next + 1) rest

/-- The groups that some clusters and the other hunks of a change make up, in order of their first
hunks. -/
def groupsOf (g : Graph) (files : List FileChange) (clusters : List Cluster) : List Group :=
  let drafts := (clusters.map fun c => ⟨c.hunks.toList, describe g c⟩) ++ leftOver files clusters
  named 0 (sortBy (fun a b => HunkName.le a.first b.first) drafts)

/-- What grouping a change comes to. -/
structure Outcome where
  groups : List Group
  /-- The numbers of clusters before and after merging. They are not counted if the change has no
  hunks. -/
  counts : Option (Nat × Nat) := none

/-- Group the hunks of a change whose graph is given. -/
def run (s : Settings) (g : Graph) (files : List FileChange) : Except Fault Outcome :=
  if (hunkNames files).isEmpty then .ok ⟨[], none⟩
  else
    match members g s.maxDistance with
    | .error e => .error e
    | .ok members =>
      let before := Cluster.initial members
      let after := mergeClusters s g.edges before
      .ok ⟨groupsOf g files after, some (before.length, after.length)⟩

/-- The groups of a change whose graph is given. -/
def groups (s : Settings) (g : Graph) (files : List FileChange) : Except Fault (List Group) :=
  (run s g files).map (·.groups)

end Grouping

end ChangeSplit
