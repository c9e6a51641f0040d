import ChangeSplit.Text.Category

/-! Reading data of other programs: texts, numerals, truth values, lists and records, with gaps
between them. A text is written in units of sixteen bits, two of which can make up a character. -/

namespace ChangeSplit.Data

/-- A piece of data. Numerals are kept as they are written, and the members of a record in order. -/
inductive Value where
  | null
  | truth (holds : Bool)
  | numeral (digits : String)
  | text (s : String)
  | list (items : List Value)
  | record (members : List (String × Value))
deriving Repr

/-- What may stand between the pieces. Other blanks may not. -/
def isGap (c : Char) : Bool := c = ' ' || c = '\t' || c = '\n' || c = '\r'

/-- The text without the gap in front. -/
def skip (cs : List Char) : List Char := cs.dropWhile isGap

/-- The value of a digit in base sixteen, of either case. -/
def digitValue? (c : Char) : Option Nat :=
  if '0' ≤ c && c ≤ '9' then some (c.toNat - '0'.toNat)
  else if 'a' ≤ c && c ≤ 'f' then some (c.toNat - 'a'.toNat + 10)
  else if 'A' ≤ c && c ≤ 'F' then some (c.toNat - 'A'.toNat + 10)
  else none

/-- The number with the given digits in base sixteen. -/
def hexadecimal? (digits : List Char) : Option Nat :=
  digits.foldlM (fun n c => (digitValue? c).map (16 * n + ·)) 0

/-- The character that a letter stands for behind a backslash. -/
def shorthand? : Char → Option Char
  | '"' => some '"'
  | '\\' => some '\\'
  | '/' => some '/'
  | 'b' => some '\x08'
  | 'f' => some '\x0c'
  | 'n' => some '\n'
  | 'r' => some '\r'
  | 't' => some '\t'
  | _ => none

/-- The units of a text up to the quotation mark that ends it, and what follows the mark. A
character that is not escaped is one unit, and control characters have to be escaped. -/
def units? : List Char → Option (List Nat × List Char)
  | [] => none
  | '"' :: rest => some ([], rest)
  | '\\' :: 'u' :: a :: b :: c :: d :: rest =>
    match hexadecimal? [a, b, c, d], units? rest with
    | some n, some (units, rest) => some (n :: units, rest)
    | _, _ => none
  | '\\' :: c :: rest =>
    match shorthand? c, units? rest with
    | some d, some (units, rest) => some (d.toNat :: units, rest)
    | _, _ => none
  | c :: rest =>
    if c < ' ' then none else (units? rest).map fun (units, rest) => (c.toNat :: units, rest)

/-- Whether a unit is the first half of a character. -/
def isUpperHalf (n : Nat) : Bool := 0xD800 ≤ n && n < 0xDC00

/-- Whether a unit is the second half of a character. -/
def isLowerHalf (n : Nat) : Bool := 0xDC00 ≤ n && n < 0xE000

/-- The characters that some units make up. No half stands alone. -/
def characters? : List Nat → Option (List Char)
  | [] => some []
  | n :: rest =>
    if isUpperHalf n then
      match rest with
      | [] => none
      | m :: rest =>
        if isLowerHalf m then
          (characters? rest).map (Char.ofNat (0x10000 + (n - 0xD800) * 0x400 + (m - 0xDC00)) :: ·)
        else none
    else if isLowerHalf n then none
    else (characters? rest).map (Char.ofNat n :: ·)

/-- The text in front, behind the quotation mark that begins it, and what follows. -/
def text? (cs : List Char) : Option (String × List Char) :=
  match units? cs with
  | none => none
  | some (units, rest) => (characters? units).map fun s => (String.ofList s, rest)

/-- What follows some digits. There has to be a digit. -/
def afterDigits? (cs : List Char) : Option (List Char) :=
  if (cs.takeWhile Category.isAsciiDigit).isEmpty then none
  else some (cs.dropWhile Category.isAsciiDigit)

/-- What follows the whole part of a numeral. Nothing may follow a zero in front. -/
def afterWhole? : List Char → Option (List Char)
  | '0' :: rest => some rest
  | cs => afterDigits? cs

/-- What follows the fraction of a numeral, if it has one. -/
def afterFraction? : List Char → Option (List Char)
  | '.' :: rest => afterDigits? rest
  | cs => some cs

/-- What follows the exponent of a numeral, if it has one. -/
def afterExponent? : List Char → Option (List Char)
  | c :: rest =>
    if c = 'e' || c = 'E' then
      match rest with
      | '+' :: rest => afterDigits? rest
      | '-' :: rest => afterDigits? rest
      | rest => afterDigits? rest
    else some (c :: rest)
  | [] => some []

/-- The numeral in front, and what follows. -/
def numeral? (cs : List Char) : Option (String × List Char) :=
  let unsigned := if cs.head? = some '-' then cs.drop 1 else cs
  (((afterWhole? unsigned).bind afterFraction?).bind afterExponent?).map fun rest =>
    (String.ofList (cs.take (cs.length - rest.length)), rest)

variable {α : Type}

/-- At most so many items with commas between them, up to the mark behind the last one. -/
def separated? (item? : List Char → Option (α × List Char)) (last : Char) :
    Nat → List Char → Option (List α × List Char)
  | 0, _ => none
  | count + 1, cs =>
    match item? (skip cs) with
    | none => none
    | some (a, rest) =>
      match skip rest with
      | [] => none
      | c :: rest =>
        if c = last then some ([a], rest)
        else if c = ',' then
          (separated? item? last count rest).map fun (more, rest) => (a :: more, rest)
        else none

/-- The items up to a mark, of which there may be none. -/
def enclosed? (item? : List Char → Option (α × List Char)) (last : Char) (cs : List Char) :
    Option (List α × List Char) :=
  match skip cs with
  | [] => none
  | c :: rest => if c = last then some ([], rest) else separated? item? last cs.length cs

/-- A member of a record: its name, and its value behind a colon. -/
def member? (value? : List Char → Option (α × List Char)) :
    List Char → Option ((String × α) × List Char)
  | '"' :: rest =>
    match text? rest with
    | none => none
    | some (name, rest) =>
      match skip rest with
      | ':' :: rest => (value? (skip rest)).map fun (a, rest) => ((name, a), rest)
      | _ => none
  | _ => none

/-- The value in front, and what follows. Values lie in each other at most so deep. -/
def value? : Nat → List Char → Option (Value × List Char)
  | 0, _ => none
  | depth + 1, cs =>
    match cs with
    | '"' :: rest => (text? rest).map fun (s, rest) => (.text s, rest)
    | '[' :: rest =>
      (enclosed? (value? depth) ']' rest).map fun (items, rest) => (.list items, rest)
    | '\x7b' :: rest =>
      (enclosed? (member? (value? depth)) '\x7d' rest).map fun (members, rest) =>
        (.record members, rest)
    | 'n' :: 'u' :: 'l' :: 'l' :: rest => some (.null, rest)
    | 't' :: 'r' :: 'u' :: 'e' :: rest => some (.truth true, rest)
    | 'f' :: 'a' :: 'l' :: 's' :: 'e' :: rest => some (.truth false, rest)
    | cs => (numeral? cs).map fun (digits, rest) => (.numeral digits, rest)

/-- The data that a text holds, if it holds one value and nothing else. A value is no deeper than
its text is long. -/
def read? (s : String) : Option Value :=
  match value? s.length (skip s.toList) with
  | none => none
  | some (v, rest) => if (skip rest).isEmpty then some v else none

end ChangeSplit.Data
