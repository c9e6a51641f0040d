import ChangeSplit.Number.Binary64
import ChangeSplit.Text.Category

/-! Numbers read from text. Digits may be of any script, and a low line may stand between two of
them. Padding at both ends is passed over. -/

namespace ChangeSplit.Numeral

open Category

/-- The blanks that may stand around a number. Those that separate records may not. -/
def isPadding (c : Char) : Bool := isBlank c && !(28 ≤ c.toNat && c.toNat ≤ 31)

/-- The text without the padding at both ends. -/
def unpadded (cs : List Char) : List Char :=
  ((cs.dropWhile isPadding).reverse.dropWhile isPadding).reverse

/-- The values of the digits of a numeral, in which low lines may stand between digits. -/
def digitValues? : List Char → Option (List Nat)
  | [] => none
  | [c] => (digitValue? c).map ([·])
  | c :: d :: rest =>
    match digitValue? c with
    | none => none
    | some n =>
      if d = '_' then (digitValues? rest).map (n :: ·) else (digitValues? (d :: rest)).map (n :: ·)

/-- The number with the given digits. -/
def ofDigits (digits : List Nat) : Nat := digits.foldl (fun n d => 10 * n + d) 0

/-- Whether a sign makes the number after it negative, and the text after the sign. -/
def splitSign : List Char → Bool × List Char
  | '-' :: rest => (true, rest)
  | '+' :: rest => (false, rest)
  | cs => (false, cs)

/-- The number with a sign. -/
def withSign (negative : Bool) (n : Nat) : Int := if negative then -n else n

/-- The integer that a text shows. -/
def int? (cs : List Char) : Option Int :=
  let (negative, rest) := splitSign (unpadded cs)
  (digitValues? rest).map fun digits => withSign negative (ofDigits digits)

/-- The digits of a part of a fractional number that may be empty. -/
def digitValuesOrNone? (cs : List Char) : Option (List Nat) :=
  if cs.isEmpty then some [] else digitValues? cs

/-- The number `digits * 10 ^ exponent`. One whose size is far outside the floating format is
decided without working it out. -/
def scaled (negative : Bool) (digits : Nat) (exponent : Int) : Binary64 :=
  let size := (Nat.toDigits 10 digits).length + exponent
  if digits = 0 || size < -400 then (if negative then .negativeZero else .finite 0)
  else if size > 400 then .infinite negative
  else
    let power : Rat := Nat.pow 10 exponent.natAbs
    let q := withSign negative digits
    .round (if exponent < 0 then q / power else q * power)

/-- The exponent at the end of a number, with its mark in front. There may be none. -/
def exponent? : List Char → Option Int
  | [] => some 0
  | _ :: rest =>
    let (negative, digits) := splitSign rest
    (digitValues? digits).map fun digits => withSign negative (ofDigits digits)

/-- The number that a text without sign and padding shows. -/
def unsigned? (negative : Bool) (cs : List Char) : Option Binary64 :=
  let word := String.ofList (cs.map Char.toLower)
  if word = "inf" || word = "infinity" then some (.infinite negative)
  else if word = "nan" then some .undefined
  else
    let isMark (c : Char) : Bool := c = 'e' || c = 'E'
    let mantissa := cs.takeWhile (!isMark ·)
    let whole := mantissa.takeWhile (· ≠ '.')
    let fraction := (mantissa.dropWhile (· ≠ '.')).drop 1
    match digitValuesOrNone? whole, digitValuesOrNone? fraction,
        exponent? (cs.dropWhile (!isMark ·)) with
    | some w, some f, some e =>
      if w.isEmpty && f.isEmpty then none
      else some (scaled negative (ofDigits (w ++ f)) (e - f.length))
    | _, _, _ => none

/-- The number of the floating format that a text shows. -/
def binary64? (cs : List Char) : Option Binary64 :=
  let (negative, rest) := splitSign (unpadded cs)
  unsigned? negative rest

end ChangeSplit.Numeral
