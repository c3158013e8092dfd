/-
What an analysis has to say about a file without failing.
-/
namespace FieldRules

inductive Severity where
  | error
  | warning
  | info
deriving DecidableEq, Repr

def Severity.text : Severity → String
  | error => "error"
  | warning => "warning"
  | info => "info"

structure Diagnostic where
  severity : Severity
  /-- The phase that found it. -/
  phase : String
  message : String
  /-- The declaration it is about. -/
  location : Option String
deriving DecidableEq, Repr

namespace Diagnostic

def warningAt (phase location message : String) : Diagnostic :=
  ⟨.warning, phase, message, some location⟩

/-- The message after the place it is about. -/
def text (d : Diagnostic) : String :=
  match d.location with
  | some location => location ++ ": " ++ d.message
  | none => d.message

end Diagnostic

end FieldRules
