/-
Annotated declarations: records with the rules of their fields, and enumerations
with the values they allow.
-/
import FieldRules.Model.Shape
import FieldRules.Rule.Basic

namespace FieldRules

/-- The three kinds of predeclared types that have constants. -/
inductive ScalarKind where
  | text
  | integer
  | float
deriving DecidableEq, Repr

namespace ScalarKind

/-- The kind of a predeclared type; none for any other name. -/
def ofBuiltin? (name : String) : Option ScalarKind :=
  if name = "string" then some text
  else if name ∈ ["int", "int8", "int16", "int32", "int64", "uint", "uint8", "uint16", "uint32",
      "uint64", "uintptr", "byte", "rune"] then some integer
  else if name ∈ ["float32", "float64"] then some float
  else none

def describe : ScalarKind → String
  | text => "text"
  | integer => "integer"
  | float => "float"

end ScalarKind

/-- A constant by its spelling, quotes included. -/
structure Literal where
  kind : ScalarKind
  spelling : String
deriving DecidableEq, Repr

/-- The values of an enumeration in the order of their first mention. -/
structure AllowedValues where
  values : List Literal
deriving DecidableEq, Repr

namespace AllowedValues

def empty : AllowedValues := ⟨[]⟩

/-- Add a value that is not there yet. -/
def push (a : AllowedValues) (l : Literal) : AllowedValues :=
  if l ∈ a.values then a else ⟨a.values ++ [l]⟩

def ofList (ls : List Literal) : AllowedValues := ls.foldl push empty

def spellings (a : AllowedValues) : List String := a.values.map Literal.spelling

theorem mem_push {a : AllowedValues} {l m : Literal} :
    m ∈ (a.push l).values ↔ m ∈ a.values ∨ m = l := by
  unfold push
  split
  · rename_i h
    constructor
    · exact Or.inl
    · rintro (hm | rfl)
      · exact hm
      · exact h
  · simp

theorem nodup_push {a : AllowedValues} (l : Literal) (h : a.values.Nodup) :
    (a.push l).values.Nodup := by
  unfold push
  split
  · exact h
  · rename_i hl
    exact List.nodup_append.mpr ⟨h, by simp, fun x hx y hy e => by
      simp only [List.mem_singleton] at hy
      exact hl (hy ▸ e ▸ hx)⟩

end AllowedValues

/-- A field with the shape of its type and its rules. -/
structure Field where
  name : String
  shape : Shape
  rules : List Rule
  /-- Its values have a Validate method of their own, which is called. -/
  nested : Bool
deriving DecidableEq, Repr

/-- All checks of a field, with a placeholder for the access to its value. -/
def Field.checks (f : Field) : List Check :=
  f.rules.flatMap fun rule => rule.checks f.name "v"

structure Enumeration where
  base : ScalarKind
  /-- The predeclared type as written. -/
  underlying : String
  allowed : AllowedValues
deriving DecidableEq, Repr

inductive DeclarationBody where
  | record (fields : List Field)
  | enumeration (e : Enumeration)
deriving DecidableEq, Repr

structure Declaration where
  name : String
  body : DeclarationBody
deriving DecidableEq, Repr

/-- The annotated declarations of one file, in the order of the file. -/
structure AnnotatedFile where
  path : String
  package : String
  declarations : List Declaration
deriving DecidableEq, Repr

namespace AnnotatedFile

def isEmpty (f : AnnotatedFile) : Bool := f.declarations.isEmpty

/-- The first declaration of a name. -/
def get? (f : AnnotatedFile) (name : String) : Option Declaration :=
  f.declarations.find? fun d => d.name == name

def records (f : AnnotatedFile) : List (String × List Field) :=
  f.declarations.filterMap fun d =>
    match d.body with
    | .record fields => some (d.name, fields)
    | .enumeration _ => none

def enumerations (f : AnnotatedFile) : List (String × Enumeration) :=
  f.declarations.filterMap fun d =>
    match d.body with
    | .record _ => none
    | .enumeration e => some (d.name, e)

end AnnotatedFile

end FieldRules
