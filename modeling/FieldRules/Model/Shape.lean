/-
The shape of a field's type: which layers of pointers, sequences and maps stand
around the type that is named in the end.
-/
namespace FieldRules

/-- A type that is no container. -/
inductive TypeRef where
  /-- A type of this file or of the language. -/
  | named (name : String)
  /-- A type of another package. -/
  | qualified (package name : String)
  /-- Any other type, by its text. -/
  | verbatim (text : String)
deriving DecidableEq, Repr

def TypeRef.text : TypeRef → String
  | named name => name
  | qualified package name => package ++ "." ++ name
  | verbatim text => text

inductive Shape where
  /-- May be absent, and is valid then. -/
  | optional (inner : Shape)
  | sequence (inner : Shape)
  /-- By keys; only the values count. -/
  | mapping (inner : Shape)
  | direct (type : TypeRef)
deriving DecidableEq, Repr

namespace Shape

/-- The type inside all layers. -/
def leaf : Shape → TypeRef
  | optional inner | sequence inner | mapping inner => inner.leaf
  | direct type => type

def isOptional : Shape → Bool
  | optional _ => true
  | _ => false

/-- How many optional layers come first, and what they enclose. -/
def peelOptional : Shape → Nat × Shape
  | optional inner => (inner.peelOptional.1 + 1, inner.peelOptional.2)
  | shape => (0, shape)

def text : Shape → String
  | optional inner => "optional<" ++ inner.text ++ ">"
  | sequence inner => "sequence<" ++ inner.text ++ ">"
  | mapping inner => "mapping<" ++ inner.text ++ ">"
  | direct type => type.text

/-- Put `n` optional layers around a shape. -/
def wrapOptional : Nat → Shape → Shape
  | 0, shape => shape
  | n + 1, shape => optional (wrapOptional n shape)

theorem wrapOptional_peelOptional (s : Shape) :
    wrapOptional s.peelOptional.1 s.peelOptional.2 = s := by
  induction s with
  | optional inner ih => simp [peelOptional, wrapOptional, ih]
  | _ => rfl

theorem isOptional_peelOptional (s : Shape) : s.peelOptional.2.isOptional = false := by
  induction s with
  | optional inner ih => simpa [peelOptional] using ih
  | _ => rfl

theorem leaf_peelOptional (s : Shape) : s.peelOptional.2.leaf = s.leaf := by
  induction s with
  | optional inner ih => simpa [peelOptional, leaf] using ih
  | _ => rfl

end Shape

end FieldRules
