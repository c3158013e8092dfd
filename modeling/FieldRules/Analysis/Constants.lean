/-
The values of an enumeration, from the constants declared with its type.
-/
import FieldRules.Source.Declaration
import FieldRules.Model.Declaration
import FieldRules.Analysis.Diagnostic

namespace FieldRules

/-- What one constant says about an enumeration. -/
inductive ConstantFinding where
  /-- The enumeration has this value. -/
  | value (l : Literal)
  /-- The constant has a value that is not known here. -/
  | unknown (constant text : String)
deriving DecidableEq, Repr

/-- What carries over between the specs of a group: the type that a spec without
type and values takes on, and whether it goes on counting. -/
structure ConstantRun where
  current : Option String
  counting : Bool
deriving DecidableEq, Repr

/-- A literal as an allowed value; imaginary numbers have none. -/
def literalValue? : LiteralKind → String → Option Literal
  | .str, spelling => some ⟨.text, spelling⟩
  | .int, spelling | .char, spelling => some ⟨.integer, spelling⟩
  | .float, spelling => some ⟨.float, spelling⟩
  | .imag, _ => none

namespace ConstSpec

/-- The value of `iota` in a spec. -/
def counter (s : ConstSpec) : Literal := ⟨.integer, toString s.index⟩

/-- What the constant `name` with this value says. -/
def finding (s : ConstSpec) (name : String) : ConstExpr → ConstantFinding
  | .ident "iota" _ => .value s.counter
  | .ident text _ => .unknown name text
  | .literal kind spelling _ =>
      match literalValue? kind spelling with
      | some l => .value l
      | none => .unknown name spelling
  | .verbatim text _ => .unknown name text

/-- What the constants with a value of their own say, in order. -/
def findings (s : ConstSpec) : List ConstantFinding :=
  (s.names.zip s.values).map fun (name, value) => s.finding name.name value

end ConstSpec

def isIota : ConstExpr → Bool
  | .ident "iota" _ => true
  | _ => false

namespace ConstantRun

def initial : ConstantRun := ⟨none, false⟩

/-- The type of a spec: its own, or the one before if it repeats that spec. -/
def typeOf (r : ConstantRun) (s : ConstSpec) : Option String :=
  match s.type with
  | some type => type.localName?
  | none => if s.values.isEmpty then r.current else none

/-- Read one spec for the enumeration `name`.  A spec without values counts on
while the last value before it was `iota`. -/
def step (name : String) (r : ConstantRun) (s : ConstSpec) :
    ConstantRun × List ConstantFinding :=
  let current := r.typeOf s
  if current ≠ some name then (⟨current, false⟩, [])
  else if s.values.isEmpty then
    (⟨current, r.counting⟩, if r.counting then [.value s.counter] else [])
  else
    let last := (s.names.zip s.values).getLast?
    (⟨current, last.elim r.counting fun pair => isIota pair.2⟩, s.findings)

def steps (name : String) (r : ConstantRun) : List ConstSpec → List ConstantFinding
  | [] => []
  | s :: rest =>
      let (after, found) := r.step name s
      found ++ after.steps name rest

end ConstantRun

/-- All that the constants say about the enumeration `name`, group by group. -/
def constantFindings (name : String) (decls : List ConstDecl) : List ConstantFinding :=
  decls.flatMap fun d => ConstantRun.initial.steps name d.specs

def unknownConstant (name constant text : String) : Diagnostic :=
  .warningAt "collect" (name ++ "." ++ constant)
    s!"cannot evaluate constant '{constant}' ({text}); it is not an allowed value of '{name}'"

/-- The allowed values of the enumeration `name`, and a warning for each constant
whose value is not known. -/
def allowedValues (name : String) (decls : List ConstDecl) : AllowedValues × List Diagnostic :=
  let found := constantFindings name decls
  (.ofList (found.filterMap fun
      | .value l => some l
      | .unknown _ _ => none),
    found.filterMap fun
      | .value _ => none
      | .unknown constant text => some (unknownConstant name constant text))

end FieldRules
