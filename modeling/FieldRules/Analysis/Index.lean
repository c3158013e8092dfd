/-
Which types of a file are annotated, and what is generated for each.
-/
import FieldRules.Source.Declaration
import FieldRules.Model.Declaration
import FieldRules.Analysis.Diagnostic

namespace FieldRules

inductive DeclKind where
  | record
  | enumeration (base : ScalarKind)
deriving DecidableEq, Repr

/-- Type specs with the marker on their own documentation or on their group's. -/
def annotatedSpecs (marker : String) (f : SourceFile) : List TypeSpec :=
  let marked (doc : Option CommentGroup) : Bool := doc.any fun g => g.hasLine marker
  f.typeDecls.flatMap fun d => d.specs.filter fun s => marked d.doc || marked s.doc

/-- Why nothing is generated for an annotated type. -/
inductive Unsupported where
  | generic
  | aliased
  | neither
deriving DecidableEq, Repr

def Unsupported.describe : Unsupported → String
  | generic => "has type parameters"
  | aliased => "is a type alias"
  | neither => "is neither a struct nor a scalar type"

/-- What is generated for a type spec. -/
def TypeSpec.kind (s : TypeSpec) : Except Unsupported DeclKind :=
  if s.generic then .error .generic
  else if s.aliased then .error .aliased
  else
    match s.type with
    | .struct _ _ => .ok .record
    | type =>
        match type.localName?.bind ScalarKind.ofBuiltin? with
        | some base => .ok (.enumeration base)
        | none => .error .neither

/-- Annotated types in the order of their first declaration. -/
structure DeclIndex where
  entries : List (String × DeclKind)
deriving DecidableEq, Repr

/-- Put a kind in the place of the entry of that name, or at the end. -/
def insertKind (name : String) (kind : DeclKind) :
    List (String × DeclKind) → List (String × DeclKind)
  | [] => [(name, kind)]
  | e :: es => if e.1 = name then (name, kind) :: es else e :: insertKind name kind es

namespace DeclIndex

def empty : DeclIndex := ⟨[]⟩

def get? (i : DeclIndex) (name : String) : Option DeclKind :=
  (i.entries.find? fun e => e.1 == name).map Prod.snd

def contains (i : DeclIndex) (name : String) : Bool := (i.get? name).isSome

def insert (i : DeclIndex) (name : String) (kind : DeclKind) : DeclIndex :=
  ⟨insertKind name kind i.entries⟩

def unsupported (name : String) (reason : Unsupported) : Diagnostic :=
  .warningAt "index" name s!"'{name}' {reason.describe}; no validation generated"

/-- Index specs in order; those that nothing is generated for are reported. -/
def addSpecs (i : DeclIndex) : List TypeSpec → DeclIndex × List Diagnostic
  | [] => (i, [])
  | s :: rest =>
      match s.kind with
      | .ok kind => (i.insert s.name.name kind).addSpecs rest
      | .error reason =>
          let (index, more) := i.addSpecs rest
          (index, unsupported s.name.name reason :: more)

/-- The index of a file. -/
def ofFile (marker : String) (f : SourceFile) : DeclIndex × List Diagnostic :=
  empty.addSpecs (annotatedSpecs marker f)

end DeclIndex

end FieldRules
