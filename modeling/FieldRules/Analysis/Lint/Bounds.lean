/-
The lint for bounds that contradict each other: it narrows an interval by every
check and reports when nothing is left.
-/
import FieldRules.Analysis.Lint.Basic

namespace FieldRules

/-- An end of an interval; a strict one does not belong to it. -/
structure Edge where
  value : Double
  strict : Bool
deriving DecidableEq, Repr

/-- The numbers between two ends; a missing end leaves that side open. -/
structure Interval where
  lower : Option Edge
  upper : Option Edge
deriving DecidableEq, Repr

namespace Interval

def full : Interval := ⟨none, none⟩

/-- Whether the lower end `cur` leaves out all that `e` does. -/
def lowerCovers (cur e : Edge) : Bool :=
  e.value.units < cur.value.units || (cur.value.units == e.value.units && cur.strict)

/-- Whether the upper end `cur` leaves out all that `e` does. -/
def upperCovers (cur e : Edge) : Bool :=
  cur.value.units < e.value.units || (cur.value.units == e.value.units && cur.strict)

def raise (i : Interval) (e : Edge) : Interval :=
  if i.lower.any fun cur => lowerCovers cur e then i else { i with lower := some e }

def cap (i : Interval) (e : Edge) : Interval :=
  if i.upper.any fun cur => upperCovers cur e then i else { i with upper := some e }

/-- Leave out the numbers that fail a check against `bound`.  A check for one
number alone is taken as a lower and an upper end. -/
def exclude (i : Interval) (comparison : Comparison) (bound : Double) : Interval :=
  match comparison with
  | .lt => i.raise ⟨bound, false⟩
  | .le => i.raise ⟨bound, true⟩
  | .gt => i.cap ⟨bound, false⟩
  | .ge => i.cap ⟨bound, true⟩
  | .ne => (i.raise ⟨bound, false⟩).cap ⟨bound, false⟩

def isEmpty (i : Interval) : Bool :=
  match i.lower, i.upper with
  | some lo, some hi =>
      hi.value.units < lo.value.units ||
        (lo.value.units == hi.value.units && (lo.strict || hi.strict))
  | _, _ => false

end Interval

/-- A bound as a double; whole numbers are rounded to one. -/
def Bound.toDouble : Bound → Double
  | int n => .ofInt64 n
  | float d => d

def Operand.isLen : Operand → Bool
  | len _ => true
  | value _ => false

/-- What the checks on lengths, or those on values, let through. -/
def admitted (lengths : Bool) (checks : List Check) : Interval :=
  (checks.filter fun c => c.condition.operand.isLen == lengths).foldl
    (fun i c => i.exclude c.condition.comparison c.condition.bound.toDouble) .full

def contradiction (what record : String) (f : Field) : Diagnostic :=
  .warningAt "lint" (fieldLocation record f)
    (s!"no {what} of '{f.name}' satisfies " ++
      " and ".intercalate (f.rules.map Rule.text) ++ "; every value fails")

/-- Report a field whose lengths or whose values are all rejected. -/
def contradictions (record : String) (f : Field) : List Diagnostic :=
  let report (lengths : Bool) (what : String) : List Diagnostic :=
    if (admitted lengths f.checks).isEmpty then [contradiction what record f] else []
  report true "length" ++ report false "value"

def contradictoryBounds : Lint :=
  ⟨"contradictory-bounds", "Bounds on a field that reject every value",
    checkFields contradictions⟩

end FieldRules
