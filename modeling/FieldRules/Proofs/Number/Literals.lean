/-
The decimal text of a bound is a number as the lexer reads it, perhaps with a minus sign.
-/
import FieldRules.Proofs.Number.ReadBack
import FieldRules.Proofs.Source.Trees
import FieldRules.Rule.Check

namespace FieldRules

/-- Digits and points all belong to one number. -/
theorem numberExtent_decimal {cs : List Char} (h : ∀ c ∈ cs, c = '.' ∨ c.isDigit = true) :
    numberExtent false false cs = (cs.length, cs.contains '.') := by
  induction cs with
  | nil => rfl
  | cons c cs ih =>
      obtain ⟨hc, hcs⟩ := List.forall_mem_cons.mp h
      rw [numberExtent, ih hcs]
      rcases hc with rfl | hc
      · simp [startsExponent]
      · have hexponent : startsExponent false c = false :=
          of_isDigit (p := fun c => startsExponent false c = false) (by decide) hc
        have hpoint : c ≠ '.' := of_isDigit (p := fun c => c ≠ '.') (by decide) hc
        simp [hexponent, hpoint, hpoint.symm, Char.isAlphanum, hc]

/-- The kind of a decimal number without an exponent. -/
def decimalKind (cs : List Char) : LiteralKind := if cs.contains '.' then .float else .int

/-- A digit with more digits and points is a number. -/
theorem isLiteral_decimal {c : Char} {cs : List Char} (hc : c.isDigit = true)
    (h : ∀ d ∈ cs, d = '.' ∨ d.isDigit = true) :
    IsLiteral (decimalKind (c :: cs)) (String.ofList (c :: cs)) := by
  refine ⟨c, cs, String.toList_ofList, ?_⟩
  have hall : ∀ d ∈ c :: cs, d = '.' ∨ d.isDigit = true :=
    List.forall_mem_cons.mpr ⟨.inr hc, h⟩
  have hother : ∀ d, d ≠ '.' → d.isDigit = false → d ∉ c :: cs := by
    intro d hpoint hdigit hd
    rcases hall d hd with rfl | hd
    · exact hpoint rfl
    · rw [hd] at hdigit
      cases hdigit
  have hident : startsIdent c = false :=
    of_isDigit (p := fun c => startsIdent c = false) (by decide) hc
  have hhead : ∀ d, d ≠ '.' → d.isDigit = false → (cs.head? == some d) = false := by
    intro d hpoint hdigit
    rw [beq_eq_false_iff_ne]
    intro hd
    exact hother d hpoint hdigit (List.mem_cons_of_mem c (List.mem_of_head? hd))
  have hlast : (c :: cs).getLast? ≠ some 'i' := fun hlast =>
    hother 'i' (by decide) (by decide) (List.mem_of_getLast? hlast)
  rw [tokenAt, hident, if_neg Bool.false_ne_true, if_pos (by simp [hc]),
    hhead 'x' (by decide) (by decide), hhead 'X' (by decide) (by decide)]
  simp [numberExtent_decimal hall, numberKind, hlast, decimalKind]

theorem decimalKind_eq (cs : List Char) : decimalKind cs = .int ∨ decimalKind cs = .float := by
  unfold decimalKind
  split
  · exact .inr rfl
  · exact .inl rfl

/-- What the lexer reads as a number, with a minus sign or without. -/
def IsNumber (spelling : String) : Prop :=
  ∃ kind, (kind = .int ∨ kind = .float) ∧ IsSigned kind spelling

/-- A text of digits and points that starts with a digit. -/
def IsDecimal (cs : List Char) : Prop :=
  ∃ c ds, cs = c :: ds ∧ c.isDigit = true ∧ ∀ d ∈ ds, d = '.' ∨ d.isDigit = true

theorem isDecimal_digits {cs : List Char} (hne : cs ≠ []) (h : ∀ c ∈ cs, c.isDigit = true) :
    IsDecimal cs := by
  obtain ⟨c, ds, rfl⟩ := List.exists_cons_of_ne_nil hne
  obtain ⟨hc, hds⟩ := List.forall_mem_cons.mp h
  exact ⟨c, ds, rfl, hc, fun d hd => .inr (hds d hd)⟩

theorem isDecimal_toDigits (n : Nat) : IsDecimal (Nat.toDigits 10 n) :=
  isDecimal_digits Nat.toDigits_ne_nil (isDigit_toDigits n)

theorem IsDecimal.append {cs ds : List Char} (h : IsDecimal cs)
    (hmore : ∀ d ∈ ds, d = '.' ∨ d.isDigit = true) : IsDecimal (cs ++ ds) := by
  obtain ⟨c, more, rfl, hc, hcs⟩ := h
  exact ⟨c, more ++ ds, rfl, hc, List.forall_mem_append.mpr ⟨hcs, hmore⟩⟩

theorem IsDecimal.isNumber {cs : List Char} (h : IsDecimal cs) : IsNumber (String.ofList cs) := by
  obtain ⟨c, ds, rfl, hc, hds⟩ := h
  exact ⟨_, decimalKind_eq (c :: ds), .inl (isLiteral_decimal hc hds)⟩

theorem IsDecimal.isNumber_neg {cs : List Char} (h : IsDecimal cs) :
    IsNumber (String.ofList ('-' :: cs)) := by
  obtain ⟨c, ds, rfl, hc, hds⟩ := h
  refine ⟨_, decimalKind_eq (c :: ds), .inr ⟨decimalKind_eq (c :: ds), _,
    isLiteral_decimal hc hds, ?_⟩⟩
  rw [← String.toList_inj]
  simp

/-- A number in positional notation. -/
theorem DecimalForm.isDecimal_toChars {n : DecimalForm} (hpos : 0 < n.digits) :
    IsDecimal n.toChars := by
  obtain ⟨kept, z, hkept, -, hne, hdigits, -⟩ := exists_kept_digits hpos
  have hlength := List.length_pos_iff.mpr hne
  simp only [DecimalForm.toChars, hkept]
  split
  · exact (isDecimal_digits hne hdigits).append fun d hd => .inr (isDigit_zeros _ d hd)
  split
  · rename_i hplace
    refine (isDecimal_digits ?_ fun c hc => hdigits c (List.mem_of_mem_take hc)).append ?_
    · rw [ne_eq, List.take_eq_nil_iff, not_or]
      exact ⟨by omega, hne⟩
    · exact List.forall_mem_cons.mpr
        ⟨.inl rfl, fun d hd => .inr (hdigits d (List.mem_of_mem_drop hd))⟩
  · refine ⟨'0', _, rfl, by decide, List.forall_mem_cons.mpr ⟨.inl rfl, ?_⟩⟩
    exact List.forall_mem_append.mpr ⟨fun d hd => .inr (isDigit_zeros _ d hd),
      fun d hd => .inr (hdigits d hd)⟩

theorem Double.isNumber_signed {cs : List Char} (d : Double) (h : IsDecimal cs) :
    IsNumber (String.ofList (d.signed cs)) := by
  unfold Double.signed
  split
  · exact h.isNumber_neg
  · exact h.isNumber

theorem Double.isNumber_exactChars (d : Double) : IsNumber (String.ofList d.exactChars) := by
  unfold Double.exactChars Double.shortestChars
  split
  · exact d.isNumber_signed (isDecimal_toDigits _)
  split
  · exact d.isNumber_signed ⟨'0', [], rfl, by decide, List.forall_mem_nil _⟩
  · rename_i hne
    have hdigits := digits_shortestForm_pos (Nat.pos_of_ne_zero hne)
    exact d.isNumber_signed (DecimalForm.isDecimal_toChars hdigits)

theorem isNumber_int (n : Int) : IsNumber (toString n) := by
  rw [← String.ofList_toList (s := toString n), toList_int]
  split
  · exact (isDecimal_toDigits _).isNumber_neg
  · exact (isDecimal_toDigits _).isNumber

/-- Every bound is written as a number. -/
theorem Bound.isNumber_text (b : Bound) : IsNumber b.text := by
  cases b with
  | int n => exact isNumber_int n.toInt
  | float d => exact d.isNumber_exactChars

end FieldRules
