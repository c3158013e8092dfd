/-
The lint for rules on types that they cannot check: lengths of numbers, ranges of
texts and collections, fractional bounds on whole numbers.
-/
import FieldRules.Analysis.Lint.Basic

namespace FieldRules

/-- What kind of value the rules of a field meet. -/
inductive RuleTarget where
  | text
  | integer
  | float
  | collection
  | unknown
deriving DecidableEq, Repr

def ScalarKind.target : ScalarKind → RuleTarget
  | text => .text
  | integer => .integer
  | float => .float

/-- The kind of a type name: predeclared, or an enumeration of the file. -/
def scalarOf? (file : AnnotatedFile) (name : String) : Option ScalarKind :=
  match ScalarKind.ofBuiltin? name with
  | some kind => some kind
  | none =>
      match (file.get? name).map Declaration.body with
      | some (.enumeration e) => some e.base
      | _ => none

/-- The target of a shape, behind its optional layers. -/
def Shape.target (file : AnnotatedFile) (s : Shape) : RuleTarget :=
  match s.peelOptional.2 with
  | .sequence _ | .mapping _ => .collection
  | .direct (.named name) => (scalarOf? file name).elim .unknown ScalarKind.target
  | _ => .unknown

/-- Whether a check cannot be made on the target at all. -/
def Check.mismatches (c : Check) (target : RuleTarget) : Bool :=
  match c.condition.operand, target with
  | .len _, .integer | .len _, .float => true
  | .value _, .text | .value _, .collection => true
  | _, _ => false

/-- Whether a check compares with a number that is not whole. -/
def Check.fractional (c : Check) : Bool :=
  match c.condition.bound with
  | .float d => !d.isWhole
  | .int _ => false

/-- The complaint about one rule, if there is one. -/
def targetComplaint? (f : Field) (target : RuleTarget) (rule : Rule) : Option String :=
  let checks := rule.checks f.name "v"
  if checks.any fun c => c.mismatches target then
    some s!"rule {rule.text} does not apply to '{f.name}' of type {f.shape.text}"
  else if target = .integer && checks.any Check.fractional then
    some (s!"rule {rule.text} has a fractional bound but '{f.name}' is of integer type " ++
      f.shape.text)
  else none

def targetComplaints (file : AnnotatedFile) (record : String) (f : Field) : List Diagnostic :=
  let target := f.shape.target file
  if target = .unknown then []
  else
    (f.rules.filterMap (targetComplaint? f target)).map
      (Diagnostic.warningAt "lint" (fieldLocation record f))

def ruleTargets : Lint :=
  ⟨"rule-target",
    "Length rules on numbers, range rules on strings and collections, " ++
      "fractional bounds on integers",
    fun file => checkFields (targetComplaints file) file⟩

end FieldRules
