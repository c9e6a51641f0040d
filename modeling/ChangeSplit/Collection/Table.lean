/-! Tables from keys to values that remember the order in which keys came in. Writing under a key
that is there changes its value and leaves its place. -/

namespace ChangeSplit

/-- A table, as the list of its entries in order of their first writing. -/
structure Table (κ α : Type) where
  entries : List (κ × α) := []
deriving Inhabited

namespace Table

variable {κ α : Type} [DecidableEq κ]

/-- The value under a key. -/
def find? (t : Table κ α) (key : κ) : Option α := (t.entries.find? (·.1 = key)).map (·.2)

/-- Whether a key has a value. -/
def contains (t : Table κ α) (key : κ) : Bool := t.entries.any (·.1 = key)

/-- Entries with a value written under a key, at the end if the key is new. -/
def putIn (key : κ) (value : α) : List (κ × α) → List (κ × α)
  | [] => [(key, value)]
  | (k, v) :: rest => if k = key then (k, value) :: rest else (k, v) :: putIn key value rest

/-- Write a value under a key. -/
def put (t : Table κ α) (key : κ) (value : α) : Table κ α := ⟨putIn key value t.entries⟩

/-- Write a value under a key that has none. -/
def putNew (t : Table κ α) (key : κ) (value : α) : Table κ α :=
  if t.contains key then t else t.put key value

/-- Take a key and its value out. -/
def erase (t : Table κ α) (key : κ) : Table κ α := ⟨t.entries.filter (·.1 ≠ key)⟩

/-- The values in order. -/
def values (t : Table κ α) : List α := t.entries.map (·.2)

/-- The number of keys. -/
def size (t : Table κ α) : Nat := t.entries.length

end Table

end ChangeSplit
