/-
Lines of reports, for standard output or standard error.
-/
namespace FieldRules

inductive Line where
  | out (s : String)
  | err (s : String)
deriving DecidableEq, Repr

namespace Line

def warning (s : String) : Line := err ("warning: " ++ s)

def error (s : String) : Line := err ("error: " ++ s)

def heading (s : String) : Line := out (s ++ ":")

def item (s : String) : Line := out ("  - " ++ s)

def added (s : String) : Line := out ("  + " ++ s)

def detail (key value : String) : Line := out ("      " ++ key ++ ": " ++ value)

def setting (key value : String) : Line := out ("  " ++ key ++ ": " ++ value)

def divider (s : String) : Line := out ("── " ++ s ++ " ──")

def blank : Line := out ""

/-- What a line adds to standard output. -/
def outText : Line → String
  | out s => s ++ "\n"
  | err _ => ""

/-- What a line adds to standard error. -/
def errText : Line → String
  | out _ => ""
  | err s => s ++ "\n"

end Line

end FieldRules
