import ChangeSplit.Grouping.Group

/-! The groups of a change as text, for readers and for other programs. -/

namespace ChangeSplit.Report

/-- Where the hunks of a change lie, under their names: the path, and the first line and the
number of lines in the current revision, or in the base revision if nothing is left. -/
def locations (files : List FileChange) : Table String String :=
  files.foldl (fun t f =>
    f.hunks.foldl (fun t h =>
      let (mark, side) := if h.current.lines.isEmpty then ("-", h.base) else ("+", h.current)
      t.put (HunkName.ofIndexes f.index h.index)
        (f.displayPath ++ " " ++ mark ++ toString side.first ++ "," ++
          toString side.lines.length)) t) {}

/-- A text filled up with spaces to at least the given length. -/
def padded (width : Nat) (s : String) : String :=
  s ++ String.ofList (List.replicate (width - s.length) ' ')

/-- The line of a hunk below that of its group. -/
def hunkLine (table : Table String String) (name : String) : String :=
  let line := "  " ++ padded 8 name ++ " " ++ (table.find? name).getD ""
  String.ofList (Text.trimEnd line.toList)

/-- The groups for a reader: a line for each group, and below it one for each of its hunks. -/
def text (groups : List Group) (files : List FileChange) : String :=
  if groups.isEmpty then "No changes to untangle."
  else
    let table := locations files
    "\n".intercalate (groups.flatMap fun g =>
      (g.id ++ ": " ++ g.description) :: g.hunks.map (hunkLine table))

/-- An escape for one unit of text with sixteen bits. -/
def escapedUnit (n : Nat) : List Char := '\\' :: 'u' :: Text.hexadecimal 4 n

/-- A character inside a string of the data format. What is not visible ASCII is escaped, and
characters past sixteen bits as two units. -/
def escaped (c : Char) : List Char :=
  if c = '"' || c = '\\' then ['\\', c]
  else if c = '\n' then ['\\', 'n']
  else if c = '\r' then ['\\', 'r']
  else if c = '\t' then ['\\', 't']
  else if c = '\x0c' then ['\\', 'f']
  else if c = '\x08' then ['\\', 'b']
  else if ' ' ≤ c && c ≤ '~' then [c]
  else if c.toNat < 0x10000 then escapedUnit c.toNat
  else
    let n := c.toNat - 0x10000
    escapedUnit (0xD800 + n / 0x400) ++ escapedUnit (0xDC00 + n % 0x400)

/-- A string of the data format. -/
def dataString (s : String) : String :=
  String.ofList ('"' :: s.toList.flatMap escaped ++ ['"'])

/-- Parts between two marks, each on a line of its own two columns further in, or nothing between
the marks if there are no parts. -/
def block (first last : String) (indent : Nat) (parts : List String) : String :=
  let line (n : Nat) : String := "\n" ++ String.ofList (List.replicate n ' ')
  if parts.isEmpty then first ++ last
  else first ++ line (indent + 2) ++ (("," ++ line (indent + 2)).intercalate parts) ++
    line indent ++ last

/-- One group as data, under its name. -/
def dataGroup (g : Group) : String :=
  dataString g.id ++ ": " ++ block "\x7b" "\x7d" 2 [
    "\"hunks\": " ++ block "[" "]" 4 (g.hunks.map dataString),
    "\"description\": " ++ dataString g.description]

/-- The groups for other programs. -/
def data (groups : List Group) : String := block "\x7b" "\x7d" 0 (groups.map dataGroup)

end ChangeSplit.Report
