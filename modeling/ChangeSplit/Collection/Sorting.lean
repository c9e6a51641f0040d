/-! Sorting by an order that need not tell all elements apart. Elements that it does not tell apart
keep their order. -/

namespace ChangeSplit

/-- Put an element into a sorted list, in front of those that it may precede. -/
def insertBy {α : Type} (le : α → α → Bool) (a : α) : List α → List α
  | [] => [a]
  | b :: rest => if le a b then a :: b :: rest else b :: insertBy le a rest

/-- Sort a list. -/
def sortBy {α : Type} (le : α → α → Bool) (l : List α) : List α := l.foldr (insertBy le) []

end ChangeSplit
