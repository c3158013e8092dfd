/-
Why a file cannot be read as Go declarations.
-/
import FieldRules.Source.Token

namespace FieldRules

/-- A piece of text that has to be closed. -/
inductive Enclosed where
  | comment
  | interpreted
  | raw
  | rune
deriving DecidableEq, Repr

def Enclosed.describe : Enclosed → String
  | comment => "comment"
  | interpreted => "string literal"
  | raw => "raw string literal"
  | rune => "rune literal"

inductive SourceError where
  | unreadable (path : String)
  | unexpectedChar (found : Char) (span : Span)
  | unterminated (what : Enclosed) (span : Span)
  | unexpectedToken (expected found : String) (span : Span)
deriving DecidableEq, Repr

namespace SourceError

def message : SourceError → String
  | unreadable path => s!"failed to read '{path}'"
  | unexpectedChar found _ => s!"unexpected character '{found}'"
  | unterminated what _ => "unterminated " ++ what.describe
  | unexpectedToken expected found _ => s!"syntax error: expected {expected}, found {found}"

/-- The name by which tools tell the kinds of error apart. -/
def code : SourceError → String
  | unreadable _ => "valgen::source::io"
  | unexpectedChar .. => "valgen::source::unexpected_char"
  | unterminated .. => "valgen::source::unterminated"
  | unexpectedToken .. => "valgen::source::syntax"

def help? : SourceError → Option String
  | unexpectedToken .. => some "the file must be valid Go source"
  | _ => none

/-- The place in the file that is to blame, with a note on it. -/
def label? : SourceError → Option (Span × String)
  | unreadable _ => none
  | unexpectedChar _ span => some (span, "not valid here")
  | unterminated what span => some (span, what.describe ++ " starts here")
  | unexpectedToken expected _ span => some (span, s!"expected {expected}")

end SourceError

end FieldRules
