/-
The lint for enumerations without a value.
-/
import FieldRules.Analysis.Lint.Basic

namespace FieldRules

def noConstants (name : String) : Diagnostic :=
  .warningAt "lint" name s!"enumeration '{name}' has no constants; every value is rejected"

def emptyEnumerations : Lint :=
  ⟨"empty-enum", "Enumerations with no allowed values", fun file =>
    (file.enumerations.filter fun e => e.2.allowed.values.isEmpty).map fun e => noConstants e.1⟩

end FieldRules
