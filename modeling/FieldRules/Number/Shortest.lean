/-
Writing doubles: the fewest decimal digits that read back as the same double,
always positional, and whole numbers in full.
-/
import FieldRules.Number.Double

namespace FieldRules

/-- A decimal number: `digits` times ten to the `exponent`. -/
structure DecimalForm where
  digits : Nat
  exponent : Int
deriving DecidableEq, Repr

/-- The numbers that round to one double, in quarters of a unit.  The ends
belong to it when the last bit of the double is even. -/
structure RoundingInterval where
  low : Nat
  high : Nat
  closed : Bool
deriving DecidableEq, Repr

namespace RoundingInterval

/-- The interval around a magnitude.  Below a power of two the doubles stand
twice as dense. -/
def around (magnitude : Nat) : RoundingInterval :=
  let shift := magnitude.log2 - 52
  let spacing := Nat.pow 2 shift
  let below := if shift > 0 && magnitude == Nat.pow 2 (shift + 52) then spacing else 2 * spacing
  ⟨4 * magnitude - below, 4 * magnitude + 2 * spacing, (magnitude / spacing) % 2 == 0⟩

/-- Whether `value / scale` quarters of a unit lie in the interval. -/
def holds (i : RoundingInterval) (value scale : Nat) : Bool :=
  if i.closed then i.low * scale ≤ value && value ≤ i.high * scale
  else i.low * scale < value && value < i.high * scale

end RoundingInterval

/-- How many digits stand before the point; negative for leading zeros after it. -/
def leadingPlace (magnitude : Nat) : Int :=
  (Nat.toDigits 10 (magnitude * Nat.pow 10 400 / unitsPerOne)).length - 400

/-- The multiple of ten to the `exponent` next to the magnitude that rounds to
it: of two, the nearer one, and the larger at equal distance. -/
def roundingNeighbour? (magnitude : Nat) (exponent : Int) : Option DecimalForm :=
  let scale := if exponent < 0 then Nat.pow 10 exponent.natAbs else 1
  let step := if exponent < 0 then unitsPerOne else unitsPerOne * Nat.pow 10 exponent.natAbs
  let value := magnitude * scale
  let below := value / step
  let interval := RoundingInterval.around magnitude
  let belowHits := interval.holds (4 * below * step) scale
  let aboveHits := interval.holds (4 * (below + 1) * step) scale
  if belowHits && (!aboveHits || 2 * (value % step) < step) then some ⟨below, exponent⟩
  else if aboveHits then some ⟨below + 1, exponent⟩
  else none

/-- The fewest digits that read back, and of those the nearest.  Seventeen
always suffice. -/
def shortestForm (magnitude : Nat) : DecimalForm :=
  let place := leadingPlace magnitude
  ((List.range' 1 17).findSome? fun (count : Nat) => roundingNeighbour? magnitude (place - count)).getD
    ⟨magnitude, 0⟩

namespace DecimalForm

/-- Positional digits, without zeros after the last one of a fraction. -/
def toChars (n : DecimalForm) : List Char :=
  let all := Nat.toDigits 10 n.digits
  let digits := (all.reverse.dropWhile (· == '0')).reverse
  let exponent := n.exponent + (all.length - digits.length : Nat)
  let place := digits.length + exponent
  if exponent ≥ 0 then digits ++ List.replicate exponent.toNat '0'
  else if place > 0 then digits.take place.toNat ++ '.' :: digits.drop place.toNat
  else '0' :: '.' :: List.replicate (-place).toNat '0' ++ digits

end DecimalForm

namespace Double

def signed (d : Double) (text : List Char) : List Char :=
  if d.negative then '-' :: text else text

/-- The fewest digits that read back, never with an exponent. -/
def shortestChars (d : Double) : List Char :=
  d.signed (if d.magnitude = 0 then ['0'] else (shortestForm d.magnitude).toChars)

/-- A whole number in full, any other number with the fewest digits. -/
def exactChars (d : Double) : List Char :=
  if d.isWhole then d.signed (Nat.toDigits 10 (d.magnitude / unitsPerOne)) else d.shortestChars

end Double

end FieldRules
