/-
Values of shapes: how values of the target language stand for them, and the values inside
them, in order and with the path to each.
-/
import FieldRules.Proofs.Code.Meaning

namespace FieldRules

namespace Shape

/-- The values of a type with this shape.  A nil pointer is no value. -/
def Value : Shape → Type
  | optional s => Option s.Value
  | sequence s => List s.Value
  | mapping s => List (Leaf × s.Value)
  | direct _ => Leaf

def embed : (s : Shape) → s.Value → GoValue
  | optional s, x =>
      match (x : Option s.Value) with
      | none => .absent
      | some y => .pointer (s.embed y)
  | sequence s, xs => .sequence (List.map s.embed xs)
  | mapping s, xs => .mapping (List.map (fun (k, y) => (k, s.embed y)) xs)
  | direct _, l => .leaf l

end Shape

/-- One step into a container. -/
inductive PathStep where
  | index (n : Nat)
  | key (k : Leaf)

def PathStep.text : PathStep → String
  | index n => "[" ++ toString n ++ "]"
  | key k => "[" ++ k.printed ++ "]"

/-- A value that is reached, by the steps to it from outside. -/
structure Visit where
  path : List PathStep
  leaf : Leaf

namespace Visit

def within (step : PathStep) (v : Visit) : Visit := ⟨step :: v.path, v.leaf⟩

/-- Where the value stands inside something of the name `name`. -/
def place (name : String) (v : Visit) : String :=
  v.path.foldl (fun text step => text ++ step.text) name

/-- The error for a value, which wraps its own complaint. -/
def error? (name : String) (v : Visit) : Option GoError :=
  v.leaf.complaint.map fun e => .wrapped (v.place name ++ ": " ++ e.message) e

theorem error?_within (name : String) (step : PathStep) (v : Visit) :
    (v.within step).error? name = v.error? (name ++ step.text) := rfl

end Visit

/-- The values inside a shape that are reached through pointers, elements and entries. -/
def Shape.visits : (s : Shape) → s.Value → List Visit
  | optional s, x =>
      match (x : Option s.Value) with
      | none => []
      | some y => s.visits y
  | sequence s, xs =>
      (List.zipIdx xs).flatMap fun (y, i) => (s.visits y).map (Visit.within (.index i))
  | mapping s, xs => List.flatMap (fun (k, y) => (s.visits y).map (Visit.within (.key k))) xs
  | direct _, l => [⟨[], l⟩]

end FieldRules
