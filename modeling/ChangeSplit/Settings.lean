import ChangeSplit.Number.Shortest

/-! The settings of a run and the values that they may have. -/

namespace ChangeSplit

/-- The settings of a run. -/
structure Settings where
  /-- The path of the repository. -/
  repository : String := "."
  /-- The commit to take apart, if not the latest. -/
  target : Option String := none
  /-- Whether the changes that are not committed yet are taken apart instead. -/
  workingTree : Bool := false
  /-- What the edges between two merged groups have to weigh more than. -/
  weightThreshold : Binary64 := .finite 0
  /-- The least overlap of the facts of two merged groups. -/
  minSimilarity : Binary64 := .round (4 / 5)
  /-- The greatest distance between two merged groups. -/
  maxDistance : Int := 2
  /-- How many sources are read at a time. The outcome does not depend on it. -/
  workers : Int := 1
  /-- Whether the groups are shown as data. -/
  asData : Bool := false
  /-- How often more messages were asked for. -/
  verbosity : Nat := 0
deriving Inhabited

/-- A setting that cannot be used. -/
inductive SettingsFault where
  | maxDistance (given : Int)
  | minSimilarity (given : Binary64)
  | weightThreshold (given : Binary64)
  | workers (given : Int)
  | targetOfWorkingTree
deriving DecidableEq

/-- The words for a setting that cannot be used. -/
def SettingsFault.message : SettingsFault → String
  | maxDistance given => "max_distance must be one of (0, 1, 2, 3), got " ++ toString given
  | minSimilarity given => "min_similarity must be within [0, 1], got " ++ given.text
  | weightThreshold given => "weight_threshold must be non-negative, got " ++ given.text
  | workers given => "workers must be at least 1, got " ++ toString given
  | targetOfWorkingTree => "a commit target cannot be combined with --working-tree"

/-- The first setting that cannot be used. A weight threshold that is no number passes. -/
def Settings.fault? (s : Settings) : Option SettingsFault :=
  if s.maxDistance < 0 || s.maxDistance > 3 then some (.maxDistance s.maxDistance)
  else if !((Binary64.finite 0).le s.minSimilarity && s.minSimilarity.le (.finite 1)) then
    some (.minSimilarity s.minSimilarity)
  else if s.weightThreshold.lt (.finite 0) then some (.weightThreshold s.weightThreshold)
  else if s.workers < 1 then some (.workers s.workers)
  else if s.workingTree && s.target.any (· ≠ "") then some .targetOfWorkingTree
  else none

end ChangeSplit
