import ChangeSplit.Text.Category

/-! Texts between quotes, as messages show them. What a reader could not see, or could not tell
from the quotes, is escaped. -/

namespace ChangeSplit.Text

/-- A number in base sixteen with at least `width` digits, in lower case. -/
def hexadecimal (width n : Nat) : List Char :=
  let digits := Nat.toDigits 16 n
  List.replicate (width - digits.length) '0' ++ digits

/-- An escape for a character that is not shown as itself, as short as its number allows. -/
def escapeNumber (n : Nat) : List Char :=
  if n < 0x100 then '\\' :: 'x' :: hexadecimal 2 n
  else if n < 0x10000 then '\\' :: 'u' :: hexadecimal 4 n
  else '\\' :: 'U' :: hexadecimal 8 n

/-- A character between the given quotes. -/
def quotedChar (quote c : Char) : List Char :=
  if c = quote || c = '\\' then ['\\', c]
  else if c = '\t' then ['\\', 't']
  else if c = '\n' then ['\\', 'n']
  else if c = '\r' then ['\\', 'r']
  else if Category.isPrintable c then [c]
  else escapeNumber c.toNat

/-- A text between single quotes, or between double quotes if it holds single quotes only. -/
def quoted (s : String) : String :=
  let cs := s.toList
  let quote := if cs.contains '\'' && !cs.contains '"' then '"' else '\''
  String.ofList (quote :: (cs.flatMap (quotedChar quote)) ++ [quote])

/-- A list of texts, each between quotes. -/
def quotedList (items : List String) : String := "[" ++ ", ".intercalate (items.map quoted) ++ "]"

end ChangeSplit.Text
