/-
The two kinds of rules, the checks they stand for and the text they are shown by.
-/
import FieldRules.Rule.Attribute
import FieldRules.Rule.Check

namespace FieldRules

/-- How many elements or bytes a value may have. -/
structure Length where
  min : Option Int64
  max : Option Int64
  equal : Option Int64
  message : Option String
  code : Option String
deriving DecidableEq, Repr

/-- Which numbers a value may be.  `min` and `max` are allowed themselves, the
exclusive bounds are not. -/
structure Range where
  min : Option Double
  max : Option Double
  exclusiveMin : Option Double
  exclusiveMax : Option Double
  message : Option String
  code : Option String
deriving DecidableEq, Repr

/-- A double-quoted spelling that reads back as the same text. -/
def quoteValue (s : String) : String :=
  String.ofList <|
    '"' :: s.toList.flatMap (fun c => if c = '\\' || c = '"' then ['\\', c] else [c]) ++ ['"']

/-- A rule as a directive writes it. -/
def ruleText (name : String) (bounds : List (String × Option String))
    (message code : Option String) : String :=
  let texts := [("message", message.map quoteValue), ("code", code.map quoteValue)]
  let params := (bounds ++ texts).filterMap fun (key, value) => value.map fun v => s!"{key}={v}"
  name ++ "(" ++ ", ".intercalate params ++ ")"

namespace Length

def name : String := "length"

def unset : Length := ⟨none, none, none, none, none⟩

/-- Take one attribute; an unknown key changes nothing. -/
def withAttribute (rule : Length) (a : Attribute) : Except RuleError Length :=
  match a.folded with
  | "min" => do return { rule with min := some (← a.integer name) }
  | "max" => do return { rule with max := some (← a.integer name) }
  | "equal" => do return { rule with equal := some (← a.integer name) }
  | "message" => do return { rule with message := some (← a.text name) }
  | "code" => do return { rule with code := some (← a.text name) }
  | _ => .ok rule

def ofAttributes (attributes : AttributeList) : Except RuleError Length :=
  attributes.entries.foldlM withAttribute unset

/-- One check for each bound that is set. -/
def checks (rule : Length) (display access : String) : List Check :=
  let check (comparison : Comparison) (phrase : String) (bound : Int64) : Check :=
    ⟨⟨.len access, comparison, .int bound⟩,
      .of rule.message s!"{display} length must be {phrase} {(Bound.int bound).text}" rule.code⟩
  (rule.min.map (check .lt "at least")).toList ++
    (rule.max.map (check .gt "at most")).toList ++
    (rule.equal.map (check .ne "exactly")).toList

def text (rule : Length) : String :=
  let bound (n : Option Int64) := n.map fun n => (Bound.int n).text
  ruleText name [("min", bound rule.min), ("max", bound rule.max), ("equal", bound rule.equal)]
    rule.message rule.code

end Length

namespace Range

def name : String := "range"

def unset : Range := ⟨none, none, none, none, none, none⟩

/-- Take one attribute; an unknown key changes nothing. -/
def withAttribute (rule : Range) (a : Attribute) : Except RuleError Range :=
  match a.folded with
  | "min" => do return { rule with min := some (← a.decimal name) }
  | "max" => do return { rule with max := some (← a.decimal name) }
  | "exclusivemin" => do return { rule with exclusiveMin := some (← a.decimal name) }
  | "exclusivemax" => do return { rule with exclusiveMax := some (← a.decimal name) }
  | "message" => do return { rule with message := some (← a.text name) }
  | "code" => do return { rule with code := some (← a.text name) }
  | _ => .ok rule

def ofAttributes (attributes : AttributeList) : Except RuleError Range :=
  attributes.entries.foldlM withAttribute unset

/-- One check for each bound that is set. -/
def checks (rule : Range) (display access : String) : List Check :=
  let check (comparison : Comparison) (phrase : String) (bound : Double) : Check :=
    ⟨⟨.value access, comparison, .float bound⟩,
      .of rule.message s!"{display} must be {phrase} {(Bound.float bound).text}" rule.code⟩
  (rule.min.map (check .lt "at least")).toList ++
    (rule.max.map (check .gt "at most")).toList ++
    (rule.exclusiveMin.map (check .le "greater than")).toList ++
    (rule.exclusiveMax.map (check .ge "less than")).toList

def text (rule : Range) : String :=
  let bound (d : Option Double) := d.map fun d => (Bound.float d).text
  ruleText name
    [("min", bound rule.min), ("max", bound rule.max),
      ("exclusive_min", bound rule.exclusiveMin), ("exclusive_max", bound rule.exclusiveMax)]
    rule.message rule.code

end Range

/-- A constraint on the values of a field. -/
inductive Rule where
  | length (rule : Length)
  | range (rule : Range)
deriving DecidableEq, Repr

namespace Rule

def name : Rule → String
  | length _ => Length.name
  | range _ => Range.name

/-- The checks of a rule.  `display` names the field in messages and `access`
reads its value. -/
def checks (rule : Rule) (display access : String) : List Check :=
  match rule with
  | length rule => rule.checks display access
  | range rule => rule.checks display access

def text : Rule → String
  | length rule => rule.text
  | range rule => rule.text

end Rule

end FieldRules
