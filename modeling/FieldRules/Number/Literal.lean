/-
Reading numbers: whole numbers of 64 bits, and decimal numbers rounded to the
nearest double.
-/
import FieldRules.Number.Double

namespace FieldRules

/-- The number written by decimal digits, the most significant first. -/
def digitsValue (cs : List Char) : Nat :=
  cs.foldl (fun n c => 10 * n + (c.toNat - '0'.toNat)) 0

/-- Split off a sign; true for a minus. -/
def splitSign : List Char → Bool × List Char
  | '-' :: cs => (true, cs)
  | '+' :: cs => (false, cs)
  | cs => (false, cs)

/-- A whole number: an optional sign and digits, within 64 bits. -/
def readInteger? (cs : List Char) : Option Int64 :=
  let (negative, digits) := splitSign cs
  if digits.isEmpty || !digits.all Char.isDigit then none
  else
    let n : Int := if negative then -(digitsValue digits : Int) else digitsValue digits
    if Int64.minValue.toInt ≤ n ∧ n ≤ Int64.maxValue.toInt then some (Int64.ofInt n) else none

/-- A decimal number as written: digits and a power of ten. -/
structure DecimalLiteral where
  negative : Bool
  digits : Nat
  exponent : Int
deriving DecidableEq, Repr

/-- The exponent part after the digits, if any. -/
def readExponent? : List Char → Option Int
  | [] => some 0
  | c :: cs =>
      if c = 'e' || c = 'E' then
        let (negative, digits) := splitSign cs
        if digits.isEmpty || !digits.all Char.isDigit then none
        else some (if negative then -(digitsValue digits : Int) else digitsValue digits)
      else none

/-- Digits with at most one point among or around them, and an optional
exponent. -/
def readDecimalLiteral? (cs : List Char) : Option DecimalLiteral :=
  let (negative, body) := splitSign cs
  let (whole, rest) := body.span Char.isDigit
  let (fraction, rest) :=
    match rest with
    | '.' :: rest => rest.span Char.isDigit
    | rest => ([], rest)
  if whole.isEmpty && fraction.isEmpty then none
  else
    (readExponent? rest).map fun exponent =>
      ⟨negative, digitsValue (whole ++ fraction), exponent - fraction.length⟩

namespace DecimalLiteral

/-- The nearest double.  A literal whose first digit stands beyond the 310th
place is too large, and one that starts after the 330th decimal is zero; both
are decided before any power of ten is formed. -/
def toDouble? (n : DecimalLiteral) : Option Double :=
  if n.digits = 0 then some (.zero n.negative)
  else
    let leading : Int := (Nat.toDigits 10 n.digits).length + n.exponent
    if leading > 310 then none
    else if leading < -330 then some (.zero n.negative)
    else if n.exponent < 0 then
      Double.ofRatio? n.negative n.digits (Nat.pow 10 n.exponent.natAbs)
    else
      Double.ofRatio? n.negative (n.digits * Nat.pow 10 n.exponent.natAbs) 1

end DecimalLiteral

/-- A finite decimal number. -/
def readDecimal? (cs : List Char) : Option Double := do
  let literal ← readDecimalLiteral? cs
  literal.toDouble?

end FieldRules
