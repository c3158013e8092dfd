/-
Names in their folded forms: snake case for rule names, and the bare lowercase
letters by which attribute keys are compared.
-/
import FieldRules.Text.Blank
import FieldRules.Text.Case

namespace FieldRules

/-- Lowercase `cs`, with an underscore before every capital that neither
starts the name nor follows an underscore.  `last` is the character written
just before. -/
def snakeFrom (last : Option Char) : List Char → List Char
  | [] => []
  | c :: cs =>
      let lead := if isUppercase c && last.isSome && last != some '_' then ['_'] else []
      lead ++ lowercase c ++ snakeFrom (lowercase c).getLast? cs

/-- The snake case of a name; dashes become underscores. -/
def snakeChars (cs : List Char) : List Char :=
  (snakeFrom none cs).map fun c => if c = '-' then '_' else c

def snakeCase (name : String) : String :=
  String.ofList (snakeChars name.toList)

/-- A key without white space around it, underscores, dashes and case. -/
def foldKeyChars (cs : List Char) : List Char :=
  ((trim cs).filter fun c => c != '_' && c != '-').flatMap lowercase

def foldKey (key : String) : String :=
  String.ofList (foldKeyChars key.toList)

theorem snakeFrom_of_not_upper {last : Option Char} {c : Char} {cs : List Char}
    (h : isUppercase c = false) :
    snakeFrom last (c :: cs) = lowercase c ++ snakeFrom (lowercase c).getLast? cs := by
  simp [snakeFrom, h]

theorem dash_not_mem_snakeChars (cs : List Char) : '-' ∉ snakeChars cs := by
  simp only [snakeChars, List.mem_map, not_exists, not_and]
  intro c _ h
  split at h <;> simp_all

end FieldRules
