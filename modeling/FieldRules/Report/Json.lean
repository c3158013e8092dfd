/-
JSON values and their text: one member a line, two blanks for each level.
-/
import FieldRules.Code.Quoted

namespace FieldRules

inductive JsonValue where
  | null
  | bool (b : Bool)
  | text (s : String)
  | list (items : List JsonValue)
  | object (members : List (String × JsonValue))

namespace JsonValue

def texts (ss : List String) : JsonValue := list (ss.map text)

def ofOption (f : α → JsonValue) : Option α → JsonValue
  | some a => f a
  | none => null

/-- One character inside a JSON string. -/
def escapeChar (c : Char) : List Char :=
  if c = '"' then ['\\', '"']
  else if c = '\\' then ['\\', '\\']
  else if c = '\x08' then ['\\', 'b']
  else if c = '\t' then ['\\', 't']
  else if c = '\n' then ['\\', 'n']
  else if c = '\x0c' then ['\\', 'f']
  else if c = '\r' then ['\\', 'r']
  else if c.toNat < 0x20 then
    ['\\', 'u', '0', '0', hexDigit (c.toNat / 16), hexDigit (c.toNat % 16)]
  else [c]

def escaped (s : String) : String :=
  "\"" ++ String.ofList (s.toList.flatMap escapeChar) ++ "\""

/-- A line end and the blanks of a level. -/
def newline (level : Nat) : String := "\n" ++ String.ofList (List.replicate (2 * level) ' ')

mutual
/-- The text of a value whose first line starts at a level. -/
def pretty (level : Nat) : JsonValue → String
  | null => "null"
  | bool b => if b then "true" else "false"
  | text s => escaped s
  | list [] => "[]"
  | list (v :: vs) =>
      "[" ++ newline (level + 1) ++ pretty (level + 1) v ++ prettyItems (level + 1) vs ++
        newline level ++ "]"
  | object [] => "\x7b\x7d"
  | object ((key, v) :: ms) =>
      "\x7b" ++ newline (level + 1) ++ escaped key ++ ": " ++ pretty (level + 1) v ++
        prettyMembers (level + 1) ms ++ newline level ++ "\x7d"

/-- The items after the first. -/
def prettyItems (level : Nat) : List JsonValue → String
  | [] => ""
  | v :: vs => "," ++ newline level ++ pretty level v ++ prettyItems level vs

/-- The members after the first. -/
def prettyMembers (level : Nat) : List (String × JsonValue) → String
  | [] => ""
  | (key, v) :: ms =>
      "," ++ newline level ++ escaped key ++ ": " ++ pretty level v ++ prettyMembers level ms
end

/-- The text of a whole document, without a line end after it. -/
def document (v : JsonValue) : String := v.pretty 0

end JsonValue

end FieldRules
