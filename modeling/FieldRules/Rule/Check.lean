/-
Checks: single comparisons of a value or its length with a bound.  A check fails
the value when its comparison holds.
-/
import FieldRules.Number.Shortest

namespace FieldRules

/-- What is compared, by the expression that reads it. -/
inductive Operand where
  | len (access : String)
  | value (access : String)
deriving DecidableEq, Repr

def Operand.access : Operand → String
  | len access | value access => access

inductive Comparison where
  | lt
  | le
  | gt
  | ge
  | ne
deriving DecidableEq, Repr

def Comparison.symbol : Comparison → String
  | lt => "<"
  | le => "<="
  | gt => ">"
  | ge => ">="
  | ne => "!="

inductive Bound where
  | int (n : Int64)
  | float (d : Double)
deriving DecidableEq, Repr

/-- Whole numbers are written without a fraction. -/
def Bound.text : Bound → String
  | int n => toString n.toInt
  | float d => String.ofList d.exactChars

structure Condition where
  operand : Operand
  comparison : Comparison
  bound : Bound
deriving DecidableEq, Repr

/-- The report of a failing check. -/
structure CheckFailure where
  message : String
  code : Option String
  /-- The value itself is added to the message. -/
  reportActual : Bool
deriving DecidableEq, Repr

/-- A message of the rule's own replaces the usual one and reports no value. -/
def CheckFailure.of (custom : Option String) (usual : String) (code : Option String) :
    CheckFailure :=
  ⟨custom.getD usual, code, custom.isNone⟩

structure Check where
  condition : Condition
  failure : CheckFailure
deriving DecidableEq, Repr

end FieldRules
