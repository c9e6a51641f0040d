import ChangeSplit.Diff.Hunk

/-! Which changed file a path belongs to, when the two revisions of all files lie in one folder
each. -/

namespace ChangeSplit

/-- The revision to which the file at a path belongs: the first part of the path may name it.
Otherwise it is the current one if a folder on the way has that name. -/
def Revision.ofPath (path : String) : Revision :=
  let parts := (Text.pieces (· = '/') path.toList).map String.ofList
  if parts.head? = some Revision.base.name then .base
  else if parts.head? = some Revision.current.name then .current
  else if parts.dropLast.contains Revision.current.name then .current
  else .base

/-- The changed file to which a path belongs. The first file whose own path is the whole path,
with or without the folder of the revision, is taken, and else the one with the longest path that
the path ends in. Of two equally long ones the first is taken. -/
def fileAt? (files : List FileChange) (path : String) (r : Revision) : Option FileChange :=
  let isWhole (f : FileChange) : Bool :=
    (f.path? r).any fun own => path = own || path = r.name ++ "/" ++ own
  let tailLength (f : FileChange) : Option Nat :=
    (f.path? r).bind fun own => if path.endsWith ("/" ++ own) then some own.length else none
  (files.find? isWhole).orElse fun _ =>
    (files.foldl (fun best f =>
      match tailLength f, best with
      | none, _ => best
      | some n, none => some (f, n)
      | some n, some (g, m) => if n > m then some (f, n) else some (g, m)) none).map (·.1)

end ChangeSplit
