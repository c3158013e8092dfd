/-
Lints: questions to the declarations of a file that are answered by diagnostics.
-/
import FieldRules.Model.Declaration
import FieldRules.Analysis.Diagnostic

namespace FieldRules

structure Lint where
  name : String
  description : String
  check : AnnotatedFile → List Diagnostic

/-- Where a field stands, as a diagnostic tells it. -/
def fieldLocation (record : String) (f : Field) : String := record ++ "." ++ f.name

/-- Ask about each field of each record, in order. -/
def checkFields (ask : String → Field → List Diagnostic) (file : AnnotatedFile) :
    List Diagnostic :=
  file.records.flatMap fun (name, fields) => fields.flatMap (ask name)

end FieldRules
