/-
Why a field directive gives no rule.
-/
namespace FieldRules

/-- What an attribute value should have been. -/
inductive Expected where
  | integer
  | number
  | quotedString
deriving DecidableEq, Repr

def Expected.describe : Expected → String
  | integer => "an integer"
  | number => "a number"
  | quotedString => "a quoted string"

inductive RuleError where
  | malformed (text : String)
  | unsupported (name : String)
  | invalidValue (rule key value : String) (expected : Expected)
deriving DecidableEq, Repr

namespace RuleError

def message : RuleError → String
  | malformed text => s!"malformed annotation '{text}'"
  | unsupported name => s!"unsupported rule '{name}'"
  | invalidValue rule key value expected =>
      s!"invalid value '{value}' for {rule}.{key}: expected " ++ expected.describe

/-- A hint shown beside the message. -/
def help : RuleError → String
  | malformed _ =>
      "directives look like `+validate(rule(key=value, ...))` or `+validate(skip)`"
  | unsupported _ => "run `valgen rules` to list the available rules"
  | invalidValue _ _ _ expected => "use " ++ expected.describe ++ " here"

end RuleError

end FieldRules
