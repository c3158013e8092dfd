/-
Pieces of code before they are indented, and the sheet on which they are written.
-/
namespace FieldRules

inductive Fragment where
  | line (text : String)
  /-- An empty line, which is never indented. -/
  | blank
  /-- A header, an indented body and perhaps a closing line. -/
  | block (header : String) (body : List Fragment) (close : Option String)

/-- A block in braces. -/
def Fragment.braced (header : String) (body : List Fragment) : Fragment :=
  .block (header ++ " \x7b") body (some "\x7d")

/-- The text written so far, and how deep the next line is indented. -/
structure Sheet where
  depth : Nat
  text : String
deriving DecidableEq, Repr

namespace Sheet

def empty : Sheet := ⟨0, ""⟩

/-- One tab for each level. -/
def tabs (depth : Nat) : String := String.ofList (List.replicate depth '\t')

def addLine (s : Sheet) (text : String) : Sheet :=
  { s with text := s.text ++ tabs s.depth ++ text ++ "\n" }

def addBlank (s : Sheet) : Sheet := { s with text := s.text ++ "\n" }

def indent (s : Sheet) : Sheet := { s with depth := s.depth + 1 }

def dedent (s : Sheet) : Sheet := { s with depth := s.depth - 1 }

mutual
/-- Write a fragment below what is there. -/
def add (s : Sheet) : Fragment → Sheet
  | .line text => s.addLine text
  | .blank => s.addBlank
  | .block header body close =>
      let inner := (s.addLine header).indent.addAll body
      match close with
      | some text => inner.dedent.addLine text
      | none => inner.dedent

def addAll (s : Sheet) : List Fragment → Sheet
  | [] => s
  | f :: fs => (s.add f).addAll fs
end

end Sheet

/-- The text of fragments from the left margin on. -/
def Fragment.render (fs : List Fragment) : String := (Sheet.empty.addAll fs).text

end FieldRules
