/-
Go files: a header line, a package clause, imports and methods.
-/
import FieldRules.Code.Stmt

namespace FieldRules

/-- A method without parameters that returns an error.  Its receiver is `r`. -/
structure Method where
  receiver : String
  pointer : Bool
  name : String
  body : List Stmt

namespace Method

def signature (m : Method) : String :=
  "func (r " ++ (if m.pointer then "*" else "") ++ m.receiver ++ ") " ++ m.name ++ "() error"

def fragment (m : Method) : Fragment := .braced m.signature (Stmt.fragments m.body)

end Method

structure GoFile where
  header : String
  package : String
  imports : List String
  methods : List Method

namespace GoFile

/-- A single import is written on one line, several in a block. -/
def importFragments : List String → List Fragment
  | [] => []
  | [path] => [.blank, .line ("import " ++ quote path)]
  | paths => [.blank, .block "import (" (paths.map fun path => .line (quote path)) (some ")")]

def fragments (f : GoFile) : List Fragment :=
  [.line f.header, .blank, .line ("package " ++ f.package)] ++ importFragments f.imports ++
    f.methods.flatMap fun m => [.blank, m.fragment]

def render (f : GoFile) : String := Fragment.render f.fragments

end GoFile

end FieldRules
