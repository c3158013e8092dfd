/-
Where generated code compares, and which comparisons have sides of fitting types.  An operand is a
field behind its pointers, or the length of one; what stands on its right is `nil` or a constant.
-/
import FieldRules.Proofs.Code.BoundConstants
import FieldRules.Proofs.Code.Imports
import FieldRules.Proofs.Rule.Conditions

namespace FieldRules

/-! The comparisons in a piece of code. -/

def comparisonSymbols : List String := ["==", "!=", "<", "<=", ">", ">="]

namespace Expr

mutual
/-- The sides of the comparisons in an expression. -/
def compared : Expr → List (Expr × Expr)
  | ident _ | raw _ | str _ | set _ _ => []
  | selector base _ => base.compared
  | deref inner | not inner => inner.compared
  | call function args => function.compared ++ comparedAll args
  | index base key => base.compared ++ key.compared
  | binary left op right =>
      (if op ∈ comparisonSymbols then [(left, right)] else []) ++ left.compared ++ right.compared

def comparedAll : List Expr → List (Expr × Expr)
  | [] => []
  | e :: es => e.compared ++ comparedAll es
end

@[simp] theorem comparedAll_eq_flatMap (es : List Expr) : comparedAll es = es.flatMap compared := by
  induction es with
  | nil => rfl
  | cons e es ih => rw [comparedAll, List.flatMap_cons, ih]

end Expr

def SimpleStmt.compared : SimpleStmt → List (Expr × Expr)
  | define _ value => value.compared
  | assign target value => target.compared ++ value.compared

namespace Stmt

mutual
/-- The sides of the comparisons in a statement. -/
def compared : Stmt → List (Expr × Expr)
  | simple s => s.compared
  | declare _ _ => []
  | branch first condition body =>
      (first.map SimpleStmt.compared).getD [] ++ condition.compared ++ comparedAll body
  | loop _ _ whole body => whole.compared ++ comparedAll body
  | result value => value.compared

def comparedAll : List Stmt → List (Expr × Expr)
  | [] => []
  | s :: ss => s.compared ++ comparedAll ss
end

@[simp] theorem comparedAll_eq_flatMap (ss : List Stmt) : comparedAll ss = ss.flatMap compared := by
  induction ss with
  | nil => rfl
  | cons s ss ih => rw [comparedAll, List.flatMap_cons, ih]

end Stmt

/-! The comparisons of a field. -/

/-- The sides of the comparison that a condition becomes. -/
def Condition.sides (c : Condition) : Expr × Expr := (c.operand.expr, .raw c.bound.text)

section Comparing

attribute [local simp] Expr.compared Stmt.compared

theorem compared_operand (o : Operand) : o.expr.compared = [] := by
  cases o <;> simp [Operand.expr]

theorem compared_dereferenced (depth : Nat) (e : Expr) :
    (dereferenced depth e).compared = e.compared := by
  induction depth with
  | zero => rfl
  | succ depth ih => rwa [dereferenced, Expr.compared]

/-- Reporting compares nothing. -/
theorem compared_error (c : Check) : c.error.compared = [] := by
  unfold Check.error
  split <;> simp [formattedError, fixedError, Expr.method, compared_operand]

/-- A check makes one comparison. -/
theorem compared_check (c : Check) : c.lower.compared = [c.condition.sides] := by
  have hsymbol : c.condition.comparison.symbol ∈ comparisonSymbols := by
    cases c.condition.comparison <;> decide
  simp [Check.lower, hsymbol, compared_operand, joinError, Stmt.assign, SimpleStmt.compared,
    Expr.method, compared_error, Condition.sides]

theorem compared_notNil (e : Expr) : e.notNil.compared = (e, Expr.nil) :: e.compared := by
  have hsymbol : "!=" ∈ comparisonSymbols := by decide
  simp [Expr.notNil, Expr.nil, hsymbol]

end Comparing

/-- The condition on the layers of a value compares each of them with `nil`. -/
theorem mem_compared_presence {e guard : Expr} {depth : Nat} {p : Expr × Expr}
    (hguard : presence? e depth = some guard) (he : e.compared = []) (hp : p ∈ guard.compared) :
    ∃ layer < depth, p = (dereferenced layer e, .nil) := by
  induction depth generalizing guard with
  | zero => cases hguard
  | succ depth ih =>
      have hand : "&&" ∉ comparisonSymbols := by decide
      have hlast : (dereferenced depth e).notNil.compared = [(dereferenced depth e, .nil)] := by
        rw [compared_notNil, compared_dereferenced, he]
      rw [presence?] at hguard
      cases hfirst : presence? e depth with
      | none =>
          rw [hfirst] at hguard
          cases hguard
          rw [hlast, List.mem_singleton] at hp
          exact ⟨depth, Nat.lt_succ_self depth, hp⟩
      | some first =>
          rw [hfirst] at hguard
          cases hguard
          rw [Expr.compared, if_neg hand, hlast, List.nil_append, List.mem_append,
            List.mem_singleton] at hp
          rcases hp with hp | hp
          · obtain ⟨layer, hlayer, heq⟩ := ih hfirst hp
            exact ⟨layer, Nat.lt_succ_of_lt hlayer, heq⟩
          · exact ⟨depth, Nat.lt_succ_self depth, hp⟩

/-- The text by which the checks of a field read its value. -/
def Field.accessText (f : Field) : String := (dereferenced f.shape.peelOptional.1 f.access).text

/-- The comparisons that the rules of a field become, as the method makes them. -/
def Field.conditions (f : Field) : List Condition :=
  f.rules.flatMap fun rule => rule.conditions f.accessText

theorem Field.compared_loweredChecks (f : Field) :
    f.loweredChecks.flatMap Stmt.compared = f.conditions.map Condition.sides := by
  have hcheck : ∀ c : Check, c.lower.compared = [c.condition].map Condition.sides :=
    compared_check
  simp only [loweredChecks, conditions, accessText, List.flatMap_map, hcheck, List.map_flatMap,
    ← Rule.map_condition_checks _ f.name, List.flatMap_assoc, List.map_map]
  refine List.flatMap_congr fun rule _ => ?_
  rw [List.map_eq_flatMap]
  rfl

/-- A property of all comparisons of a field, if the guards have it. -/
theorem Field.forall_compared_iff (f : Field) {P : Expr × Expr → Prop}
    (hguards : ∀ layer < f.shape.peelOptional.1, P (dereferenced layer f.access, .nil)) :
    (∀ p ∈ f.lowerRules.flatMap Stmt.compared, P p) ↔ ∀ c ∈ f.conditions, P c.sides := by
  have hchecks : (∀ p ∈ f.loweredChecks.flatMap Stmt.compared, P p) ↔
      ∀ c ∈ f.conditions, P c.sides := by
    rw [f.compared_loweredChecks, List.forall_mem_map]
  unfold lowerRules
  split
  · rename_i guard check checks hguard heq
    have hnil : f.access.compared = [] := rfl
    rw [← hchecks, heq, List.flatMap_singleton, Stmt.compared, Stmt.comparedAll_eq_flatMap,
      List.forall_mem_append, Option.map_none, Option.getD_none, List.nil_append]
    refine and_iff_right fun p hp => ?_
    obtain ⟨layer, hlayer, rfl⟩ := mem_compared_presence hguard hnil hp
    exact hguards layer hlayer
  · exact hchecks

/-! The types of operands. -/

namespace Shape

/-- The type behind a pointer. -/
def pointee? : Shape → Option Shape
  | optional inner => some inner
  | _ => none

/-- The type of the length of a value.  Texts and collections have a length, numbers have none. -/
def lengthType? : Shape → Option Shape
  | sequence _ | mapping _ => some (direct (.named "int"))
  | direct (.named name) => if name = "string" then some (direct (.named "int")) else none
  | _ => none

end Shape

section Types

variable (fields : String → Option Shape)

/-- The type of a piece of code that reads a field, behind so many pointers as stars stand in
front. -/
def accessType? : List Char → Option Shape
  | '*' :: cs => (accessType? cs).bind Shape.pointee?
  | 'r' :: '.' :: name => fields (String.ofList name)
  | _ => none

mutual
/-- The type of an operand, where the fields of the receiver have the given types. -/
def Expr.type? : Expr → Option Shape
  | .raw text => accessType? fields text.toList
  | .selector base name => if base.name? = some "r" then fields name else none
  | .deref inner => inner.type?.bind Shape.pointee?
  | .call function args =>
      if function.name? = some "len" then
        match Expr.types args with
        | [some type] => type.lengthType?
        | _ => none
      else none
  | .ident _ | .str _ | .not _ | .index _ _ | .binary _ _ _ | .set _ _ => none

def Expr.types : List Expr → List (Option Shape)
  | [] => []
  | e :: es => e.type? :: Expr.types es
end

/-- Whether the sides of a comparison have fitting types.  A pointer is compared with `nil`, and
another operand with a constant that its type accepts. -/
def fits (accepts : String → String → Bool) (sides : Expr × Expr) : Bool :=
  match sides.1.type? fields, sides.2 with
  | some (.optional _), .raw text => text == "nil"
  | some (.direct (.named type)), .raw text => accepts type text
  | _, _ => false

end Types

/-- Whether a constant is of the kind of a type: a text, a whole number, or any number. -/
def ofKind (type spelling : String) : Bool :=
  match ScalarKind.ofBuiltin? type with
  | some .text => (bytesOf? spelling).isSome
  | some .integer => (numberOf? spelling).any fun q => q.den == 1
  | some .float => (numberOf? spelling).isSome
  | none => false

/-- Whether a constant is one of a type, so that it lies in its range as well. -/
def isConstantOf (type spelling : String) : Bool := (constantOf? type spelling).isSome

/-- A constant of a type is of its kind. -/
theorem ofKind_of_isConstantOf {type spelling : String} (h : isConstantOf type spelling = true) :
    ofKind type spelling = true := by
  rw [isConstantOf, constantOf?] at h
  unfold ofKind
  cases hkind : ScalarKind.ofBuiltin? type with
  | none => simp [hkind] at h
  | some kind =>
      rw [hkind] at h
      cases kind with
      | text => simpa using h
      | integer | float =>
          cases hnumber : numberOf? spelling with
          | none => simp [hnumber] at h
          | some q => simp_all

/-- Types that accept less make fewer comparisons fit. -/
theorem fits_mono {accepts accepts' : String → String → Bool} {fields : String → Option Shape}
    (h : ∀ type spelling, accepts type spelling = true → accepts' type spelling = true)
    {sides : Expr × Expr} (hfits : fits fields accepts sides = true) :
    fits fields accepts' sides = true := by
  unfold fits at hfits ⊢
  split at hfits
  · exact hfits
  · exact h _ _ hfits
  · cases hfits

section FieldTypes

variable {fields : String → Option Shape} {f : Field}

theorem type?_dereferenced {e : Expr} {s : Shape} (he : e.type? fields = some s) {layer : Nat}
    (hlayer : layer ≤ s.peelOptional.1) :
    (dereferenced layer e).type? fields =
      some (.wrapOptional (s.peelOptional.1 - layer) s.peelOptional.2) := by
  induction layer with
  | zero => rw [dereferenced, he, Nat.sub_zero, Shape.wrapOptional_peelOptional]
  | succ layer ih =>
      obtain ⟨rest, hrest⟩ : ∃ rest, s.peelOptional.1 - layer = rest + 1 :=
        ⟨s.peelOptional.1 - (layer + 1), by omega⟩
      have hpeeled : s.peelOptional.1 - (layer + 1) = rest := by omega
      rw [dereferenced, Expr.type?, ih (by omega), hrest, hpeeled]
      rfl

/-- The text of a dereferenced expression has the type of the expression. -/
theorem accessType?_dereferenced {e : Expr}
    (he : accessType? fields e.text.toList = e.type? fields) (layer : Nat) :
    accessType? fields (dereferenced layer e).text.toList =
      (dereferenced layer e).type? fields := by
  induction layer with
  | zero => exact he
  | succ layer ih => rw [toList_dereferenced, accessType?, ih, dereferenced, Expr.type?]

theorem type?_access (hfield : fields f.name = some f.shape) :
    f.access.type? fields = some f.shape := by
  rw [Field.access, Expr.type?, receiver, Expr.name?, if_pos rfl, hfield]

/-- The checks of a field read the value behind all its pointers. -/
theorem type?_accessText (hfield : fields f.name = some f.shape) :
    (Expr.raw f.accessText).type? fields = some f.shape.peelOptional.2 := by
  have haccess : accessType? fields f.access.text.toList = f.access.type? fields := by
    rw [type?_access hfield, f.toList_access, accessType?, String.ofList_toList, hfield]
  rw [Expr.type?, Field.accessText, accessType?_dereferenced haccess,
    type?_dereferenced (type?_access hfield) (Nat.le_refl _), Nat.sub_self]
  rfl

/-- The guards of a field compare pointers. -/
theorem fits_guard (hfield : fields f.name = some f.shape) (accepts : String → String → Bool)
    {layer : Nat} (hlayer : layer < f.shape.peelOptional.1) :
    fits fields accepts (dereferenced layer f.access, .nil) = true := by
  obtain ⟨rest, hrest⟩ : ∃ rest, f.shape.peelOptional.1 - layer = rest + 1 :=
    ⟨f.shape.peelOptional.1 - (layer + 1), by omega⟩
  rw [fits, type?_dereferenced (type?_access hfield) (Nat.le_of_lt hlayer), hrest]
  rfl

/-- All comparisons of a field have fitting types when those of its rules have. -/
theorem Field.fits_iff (hfield : fields f.name = some f.shape)
    (accepts : String → String → Bool) :
    (∀ sides ∈ f.lowerRules.flatMap Stmt.compared, fits fields accepts sides = true) ↔
      ∀ c ∈ f.conditions, fits fields accepts c.sides = true :=
  f.forall_compared_iff fun _ hlayer => fits_guard hfield accepts hlayer

end FieldTypes

end FieldRules
