/-
Field directives: a marker and, in parentheses, a rule with its attributes.
-/
import FieldRules.Rule.Attribute

namespace FieldRules

inductive Directive where
  /-- The field takes no part in validation. -/
  | skip
  /-- A rule with its attributes as written. -/
  | rule (name attributes : String)
deriving DecidableEq, Repr

/-- What follows `marker` at the start of a text. -/
def afterMarker? (marker cs : List Char) : Option (List Char) :=
  if marker.isPrefixOf cs then some (cs.drop marker.length) else none

/-- Whether a comment body is a directive: the marker and a parenthesis right
after it. -/
def isDirective (body marker : String) : Bool :=
  match afterMarker? marker.toList (trim body.toList) with
  | some ('(' :: _) => true
  | _ => false

/-- What stands between the first opening and the last closing parenthesis. -/
def parenthesized? (cs : List Char) : Option (List Char) := do
  let (_, inside) ← splitOnce? '(' cs
  let (_, reversed) ← splitOnce? ')' inside.reverse
  return reversed.reverse

/-- The rule name and its attribute text, inside the outer parentheses. -/
def ruleParts (content : List Char) : List Char × List Char :=
  match splitOnce? '(' content with
  | some (name, rest) =>
      (trim name, if rest.getLast? = some ')' then rest.dropLast else rest)
  | none => (trim content, [])

def parseDirective (text : String) : Except RuleError Directive :=
  match (parenthesized? text.toList).map ruleParts with
  | none => .error (.malformed (trimText text))
  | some (name, attributes) =>
      if name.isEmpty then .error (.malformed (trimText text))
      else if name = "skip".toList then .ok .skip
      else .ok (.rule (String.ofList name) (String.ofList attributes))

end FieldRules
