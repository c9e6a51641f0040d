/-! The two revisions that a change lies between. -/

namespace ChangeSplit

/-- The revision before a change and the one after it. -/
inductive Revision where
  | base
  | current
deriving DecidableEq, Repr

namespace Revision

/-- The name of a revision. It also names the folder in which the files of the revision lie. -/
def name : Revision → String
  | base => "base"
  | current => "current"

/-- A name that is told apart from the same name in the other revision. -/
def scope (r : Revision) (s : String) : String := r.name ++ ":" ++ s

end Revision

end ChangeSplit
