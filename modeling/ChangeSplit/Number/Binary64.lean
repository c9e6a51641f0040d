/-! Numbers of the common floating format with 53 significant bits, as exact values. -/

namespace ChangeSplit

/-- The integer nearest to a number, and of two that are equally near the even one. -/
def halfEven (q : Rat) : Int :=
  let low := q.floor
  let part := q - low
  if part < 1 / 2 then low
  else if part > 1 / 2 then low + 1
  else if low % 2 = 0 then low
  else low + 1

/-- A number of the floating format, or what stands in for one. -/
inductive Binary64 where
  /-- No number at all. -/
  | undefined
  | infinite (negative : Bool)
  /-- A zero with a sign, which tells only that something negative was rounded. -/
  | negativeZero
  | finite (value : Rat)
deriving DecidableEq, Inhabited

namespace Binary64

/-- A power of two, the exponent of which may be negative. -/
def twoTo (e : Int) : Rat := if 0 ≤ e then Nat.pow 2 e.toNat else 1 / Nat.pow 2 (-e).toNat

/-- The exponent of the last place of a positive number: it leaves 53 significant bits, or fewer
right above zero. -/
def lastPlace (q : Rat) : Int :=
  let size : Int := (Nat.log2 q.num.natAbs : Int) - Nat.log2 q.den
  max (-1074) (if q < twoTo size then size - 53 else size - 52)

/-- The number of the format that is nearest to a positive one, as if it had no greatest
exponent. -/
def nearestPositive (q : Rat) : Rat :=
  let unit := twoTo (lastPlace q)
  halfEven (q / unit) * unit

/-- The number of the format that is nearest, as if it had no greatest exponent. -/
def nearest (q : Rat) : Rat :=
  if q = 0 then 0 else if q < 0 then -nearestPositive (-q) else nearestPositive q

/-- The number of the format that is nearest. What lies too far from zero becomes infinite. -/
def round (q : Rat) : Binary64 :=
  let r := nearest q
  if r ≥ twoTo 1024 then .infinite false
  else if r ≤ -twoTo 1024 then .infinite true
  else if r = 0 && q < 0 then .negativeZero
  else .finite r

/-- A number without the sign of zero. -/
def plain : Binary64 → Binary64
  | negativeZero => finite 0
  | x => x

/-- Whether one number is at most another. Both zeros are equal, and nothing is at most, or at
least, what is no number. -/
def le (x y : Binary64) : Bool :=
  match x.plain, y.plain with
  | undefined, _ | _, undefined => false
  | infinite true, _ | _, infinite false => true
  | finite a, finite b => a ≤ b
  | _, _ => false

/-- Whether one number is less than another. -/
def lt (x y : Binary64) : Bool := x.le y && !y.le x

end Binary64

end ChangeSplit
