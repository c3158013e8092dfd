/-
Operands of generated checks: the texts of bounds are read as the bounds, and the text of
an access as the value behind the pointers of a field.
-/
import FieldRules.Proofs.Code.Violations
import FieldRules.Proofs.Number.ReadBack

namespace FieldRules

/-! The texts of bounds. -/

def Bound.value : Bound → Rat
  | int n => n.toInt
  | float d => d.toRat

/-- Digits after an optional sign denote a whole number. -/
theorem literalNumber?_digits {cs digits : List Char} {negative : Bool}
    (hsplit : splitSign cs = (negative, digits)) (hne : digits ≠ [])
    (hdigits : ∀ c ∈ digits, c.isDigit = true) :
    literalNumber? cs =
      some (if negative then -(digitsValue digits : Rat) else digitsValue digits) := by
  have hall : (!digits.isEmpty && digits.all Char.isDigit) = true := by
    simp [hne, List.all_eq_true.mpr hdigits]
  simp only [literalNumber?, hsplit]
  rw [if_pos hall]

theorem toRat_of_whole {d : Double} {n : Nat} (h : d.magnitude = n * unitsPerOne) :
    d.toRat = if d.negative then -(n : Rat) else n := by
  have hunits : (unitsPerOne : Rat) ≠ 0 := Nat.cast_ne_zero.mpr (Nat.ne_of_gt unitsPerOne_pos)
  rw [Double.toRat, Double.units, Rat.mkRat_eq_div, h]
  by_cases hneg : d.negative = true
  · rw [if_pos hneg, if_pos hneg]
    push_cast
    rw [neg_div, mul_div_cancel_right₀ _ hunits]
  · rw [if_neg hneg, if_neg hneg]
    push_cast
    rw [mul_div_cancel_right₀ _ hunits]

theorem literalNumber?_exactChars (d : Double) : literalNumber? d.exactChars = some d.toRat := by
  by_cases hwhole : d.isWhole = true
  · obtain ⟨digits, hsplit, hne, hdigits, hvalue⟩ := splitSign_exactChars hwhole
    rw [literalNumber?_digits hsplit hne hdigits, toRat_of_whole hvalue]
  · have hread := readDecimal?_exactChars d
    have hfraction : ¬ (!(splitSign d.exactChars).2.isEmpty &&
        (splitSign d.exactChars).2.all Char.isDigit) = true := by
      intro h
      rw [Bool.and_eq_true, Bool.not_eq_true', List.isEmpty_eq_false_iff, List.all_eq_true] at h
      exact hwhole (isWhole_of_digits rfl h.1 h.2 hread)
    simp only [literalNumber?]
    rw [if_neg hfraction, hread]
    rfl

theorem literalNumber?_text (b : Bound) : literalNumber? b.text.toList = some b.value := by
  cases b with
  | int n =>
      rw [Bound.text, literalNumber?_digits (splitSign_int n.toInt) Nat.toDigits_ne_nil
        (isDigit_toDigits _), digitsValue_toDigits, Bound.value]
      by_cases hneg : n.toInt < 0
      · have habs : (n.toInt.natAbs : Int) = -n.toInt := by omega
        rw [if_pos (decide_eq_true hneg), ← Int.cast_natCast, habs, Int.cast_neg, neg_neg]
      · have habs : (n.toInt.natAbs : Int) = n.toInt := by omega
        rw [if_neg (by simpa using hneg), ← Int.cast_natCast, habs]
  | float d =>
      rw [Bound.text, String.toList_ofList]
      exact literalNumber?_exactChars d

theorem mem_text {b : Bound} {c : Char} (h : c ∈ b.text.toList) :
    c = '-' ∨ c = '.' ∨ c.isDigit = true := by
  cases b with
  | int n => exact (mem_int h).imp_right Or.inr
  | float d =>
      rw [Bound.text, String.toList_ofList] at h
      exact mem_exactChars h

/-- Code for a bound is read as its number. -/
theorem rawValue_text (s : Scope) (b : Bound) :
    rawValue s b.text.toList = .ok (.number (.finite b.value)) := by
  have hread := literalNumber?_text b
  have hchars : ∀ c ∈ b.text.toList, c = '-' ∨ c = '.' ∨ c.isDigit = true := fun _ => mem_text
  generalize b.text.toList = cs at hread hchars
  cases cs with
  | nil => cases hread
  | cons c cs =>
      have hc := hchars c List.mem_cons_self
      have hne : ∀ d : Char, (d = '-' ∨ d = '.' ∨ d.isDigit = true → False) → c ≠ d :=
        fun d hd heq => hd (heq ▸ hc)
      have hstar := hne '*' (by decide)
      have hr := hne 'r' (by decide)
      have hn := hne 'n' (by decide)
      simp [rawValue, hstar, hr, hn, hread]

/-! Values behind pointers. -/

namespace GoValue

/-- What stands behind so many pointers; none if one of them is nil. -/
def through : Nat → GoValue → Option GoValue
  | 0, v => some v
  | depth + 1, pointer v => through depth v
  | _ + 1, _ => none

/-- Whether a value has so many layers of pointers, down to the first that is nil. -/
def Layered : Nat → GoValue → Prop
  | 0, _ => True
  | _ + 1, absent => True
  | depth + 1, pointer v => Layered depth v
  | _ + 1, _ => False

theorem through_succ (depth : Nat) (v : GoValue) :
    v.through (depth + 1) = (v.through depth).bind (through 1) := by
  induction depth generalizing v with
  | zero => rfl
  | succ depth ih =>
      cases v with
      | pointer w => exact ih w
      | _ => rfl

/-- The last layer is nil or a pointer. -/
theorem Layered.last {depth : Nat} {v w : GoValue} (h : v.Layered (depth + 1))
    (hw : v.through depth = some w) : w = absent ∨ ∃ u, w = pointer u := by
  induction depth generalizing v with
  | zero =>
      cases hw
      cases w with
      | absent => exact Or.inl rfl
      | pointer u => exact Or.inr ⟨u, rfl⟩
      | _ => exact h.elim
  | succ depth ih =>
      cases v with
      | pointer u => exact ih h hw
      | _ => cases hw

theorem Layered.of_succ {depth : Nat} {v : GoValue} (h : v.Layered (depth + 1)) :
    v.Layered depth := by
  induction depth generalizing v with
  | zero => trivial
  | succ depth ih =>
      cases v with
      | absent => trivial
      | pointer u => exact ih h
      | _ => exact h.elim

theorem exists_through_of_succ {depth : Nat} {v w : GoValue} (h : v.through (depth + 1) = some w) :
    v.through depth = some (pointer w) := by
  rw [through_succ] at h
  obtain ⟨u, hu, hw⟩ := Option.bind_eq_some_iff.mp h
  cases u with
  | pointer u =>
      cases hw
      exact hu
  | _ => cases hw

end GoValue

namespace Shape

theorem layered_embed (s : Shape) (x : s.Value) : (s.embed x).Layered s.peelOptional.1 := by
  induction s with
  | optional s ih =>
      cases x with
      | none => trivial
      | some y => exact ih y
  | _ => trivial

theorem reach_eq_through (s : Shape) (x : s.Value) :
    s.reach x = (s.embed x).through s.peelOptional.1 := by
  induction s with
  | optional s ih =>
      cases x with
      | none => rfl
      | some y => exact ih y
  | _ => rfl

end Shape

section Access

variable {m : Machine} {e : Expr} {v w : GoValue} {depth : Nat}

theorem eval_dereferenced (he : e.eval m = .ok (v, m)) (h : v.through depth = some w) :
    (dereferenced depth e).eval m = .ok (w, m) := by
  induction depth generalizing w with
  | zero =>
      cases h
      exact he
  | succ depth ih =>
      rw [dereferenced, Expr.eval, ih (GoValue.exists_through_of_succ h)]
      rfl

theorem toList_dereferenced (depth : Nat) (e : Expr) :
    (dereferenced (depth + 1) e).text.toList = '*' :: (dereferenced depth e).text.toList := by
  simp [dereferenced, Expr.text]

/-- The text of a dereferenced expression is read as the value behind its pointers. -/
theorem rawValue_dereferenced {s : Scope} (he : rawValue s e.text.toList = .ok v)
    (h : v.through depth = some w) :
    rawValue s (dereferenced depth e).text.toList = .ok w := by
  induction depth generalizing w with
  | zero =>
      cases h
      exact he
  | succ depth ih =>
      rw [toList_dereferenced, rawValue, if_pos rfl, ih (GoValue.exists_through_of_succ h)]
      rfl

/-- The condition that all layers are present stops at the first nil. -/
theorem eval_presence (he : e.eval m = .ok (v, m)) (h : v.Layered (depth + 1)) :
    ∃ guard, presence? e (depth + 1) = some guard ∧
      guard.eval m = .ok (.truth (v.through (depth + 1)).isSome, m) := by
  induction depth with
  | zero =>
      refine ⟨e.notNil, rfl, ?_⟩
      rcases h.last rfl with rfl | ⟨u, rfl⟩
      · exact eval_notNil (b := true) he rfl
      · exact eval_notNil (b := false) he rfl
  | succ depth ih =>
      obtain ⟨guard, hguard, heval⟩ := ih h.of_succ
      refine ⟨.binary guard "&&" (dereferenced (depth + 1) e).notNil, ?_, ?_⟩
      · rw [presence?, hguard]
      · rw [Expr.eval, heval, GoValue.through_succ (depth + 1)]
        cases hw : v.through (depth + 1) with
        | none => rfl
        | some w =>
            have hlast := eval_dereferenced he hw
            rcases h.last hw with rfl | ⟨u, rfl⟩
            · exact eval_notNil (b := true) hlast rfl
            · exact eval_notNil (b := false) hlast rfl

end Access

theorem Field.toList_access (f : Field) : f.access.text.toList = 'r' :: '.' :: f.name.toList := by
  simp [access, receiver, Expr.text, Expr.enclosed, Expr.hasOperator]

theorem Field.rawValue_access {f : Field} {s : Scope} {fields : String → GoValue}
    (hself : s.get? "r" = some (.pointer (.record fields))) :
    rawValue s f.access.text.toList = .ok (fields f.name) := by
  simp [f.toList_access, rawValue, hself, GoValue.field]

end FieldRules
