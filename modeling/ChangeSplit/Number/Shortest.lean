import ChangeSplit.Number.Binary64

/-! Numbers of the floating format in decimal: the fewest digits from which the number can be read
back, and of those with the fewest digits the nearest. -/

namespace ChangeSplit.Binary64

/-- A power of ten, the exponent of which may be negative. -/
def tenTo (e : Int) : Rat := if 0 ≤ e then Nat.pow 10 e.toNat else 1 / Nat.pow 10 (-e).toNat

/-- Whether a decimal reads back as the given positive number: it lies within half a place of it.
The ends count for an even number of places. -/
def readsBackTo (q d : Rat) : Bool :=
  let unit := twoTo (lastPlace q)
  let places := q / unit
  let below := if places = twoTo 52 && lastPlace q > -1074 then unit / 2 else unit
  let low := q - below / 2
  let high := q + unit / 2
  if places.num % 2 = 0 then low ≤ d && d ≤ high else low < d && d < high

/-- The position of the point before the first digit of a positive number: the least power of ten
that is greater than the number. -/
def pointPosition (q : Rat) : Int :=
  if q ≥ 1 then (Nat.toDigits 10 q.floor.toNat).length
  else 1 - (Nat.toDigits 10 ((1 / q).ceil - 1).toNat).length

/-- The nearest decimal on the given grid that reads back, as a count of grid steps. -/
def onGrid? (q grid : Rat) : Option Nat :=
  let low := (q / grid).floor
  let fits (n : Int) : Bool := readsBackTo q (n * grid)
  let distance (n : Int) : Rat := (q - n * grid).abs
  if fits low && fits (low + 1) then
    let nearer := if distance low < distance (low + 1) then low
      else if distance (low + 1) < distance low then low + 1
      else if low % 2 = 0 then low else low + 1
    some nearer.toNat
  else if fits low then some low.toNat
  else if fits (low + 1) then some (low + 1).toNat
  else none

/-- The digits of a positive number and the position of the point before the first of them.
Seventeen digits are always enough. -/
def shortestDigits (q : Rat) : List Char × Int :=
  let point := pointPosition q
  let found := (List.range 17).findSome? fun (i : Nat) =>
    let exponent := point - (i + 1 : Nat)
    (onGrid? q (tenTo exponent)).map (·, exponent)
  match found with
  | none => (['0'], 1)
  | some (count, exponent) =>
    let digits := Nat.toDigits 10 count
    ((digits.reverse.dropWhile (· = '0')).reverse, digits.length + exponent)

/-- The digits of a positive number as a text. The point is written in place for sizes from a ten
thousandth up to sixteen digits before it, and with an exponent of at least two digits
otherwise. -/
def positiveText (q : Rat) : List Char :=
  let (digits, point) := shortestDigits q
  if point > 16 || point ≤ -4 then
    let exponent := point - 1
    let size := Nat.toDigits 10 exponent.natAbs
    let fraction := if digits.length > 1 then '.' :: digits.drop 1 else []
    digits.take 1 ++ fraction ++ ['e', if exponent < 0 then '-' else '+'] ++
      List.replicate (2 - size.length) '0' ++ size
  else if point ≤ 0 then '0' :: '.' :: List.replicate (-point).toNat '0' ++ digits
  else if point.toNat ≥ digits.length then
    digits ++ List.replicate (point.toNat - digits.length) '0' ++ ['.', '0']
  else digits.take point.toNat ++ '.' :: digits.drop point.toNat

/-- A number as a text. -/
def text : Binary64 → String
  | undefined => "nan"
  | infinite false => "inf"
  | infinite true => "-inf"
  | negativeZero => "-0.0"
  | finite q =>
    String.ofList <|
      if q = 0 then ['0', '.', '0'] else if q < 0 then '-' :: positiveText (-q) else positiveText q

end ChangeSplit.Binary64
