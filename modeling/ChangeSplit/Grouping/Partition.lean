import ChangeSplit.Collection.OrderedSet
import ChangeSplit.Grouping.Group

/-! Whether some groups are a partition of the hunks of a change. -/

namespace ChangeSplit

/-- Why some groups are no partition of the hunks. -/
inductive PartitionFault where
  /-- Groups have hunks that the change does not have. -/
  | unknown (names : List String)
  | repeated
  /-- No group has these hunks. -/
  | missing (names : List String)
deriving DecidableEq, Repr

/-- The words for groups that are no partition. -/
def PartitionFault.message : PartitionFault → String
  | unknown names => "groups reference unknown hunks " ++ Text.quotedList names
  | repeated => "at least one hunk was assigned to several groups"
  | missing names => "hunks missing from every group: " ++ Text.quotedList names

/-- What keeps some groups from being a partition of the hunks of a change. -/
def partitionFault? (groups : List Group) (files : List FileChange) : Option PartitionFault :=
  let expected := OrderedSet.ofList (hunkNames files)
  let assigned := groups.flatMap (·.hunks)
  let distinct := OrderedSet.ofList assigned
  let unknown := distinct.without expected
  let missing := expected.without distinct
  if !unknown.isEmpty then some (.unknown unknown)
  else if assigned.length ≠ distinct.size then some .repeated
  else if !missing.isEmpty then some (.missing missing)
  else none

end ChangeSplit
