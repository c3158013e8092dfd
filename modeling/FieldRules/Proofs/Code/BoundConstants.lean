/-
The constants that the texts of bounds denote.  A text with a point is read exactly, while a double
stands for all numbers that round to it; still one of them is whole exactly if the other is.
-/
import FieldRules.Proofs.Code.Access
import FieldRules.Proofs.Code.BasicLiterals

namespace FieldRules

section Pointed

variable {xs ys : List Char}

theorem moreDigits?_ten {cs : List Char} (h : ∀ c ∈ cs, c.isDigit = true) :
    moreDigits? 10 cs = some (cs.map fun c => c.toNat - '0'.toNat) := by
  have hdigits := digits?_ten h
  rw [digits?] at hdigits
  split at hdigits
  · cases hdigits
  · exact hdigits

/-- Digits with a point among them denote a fraction of a power of ten. -/
theorem magnitude?_pointed (hne : xs ≠ []) (hx : ∀ c ∈ xs, c.isDigit = true)
    (hy : ∀ c ∈ ys, c.isDigit = true) :
    magnitude? (xs ++ '.' :: ys) = some (mkRat (digitsValue (xs ++ ys)) (10 ^ ys.length)) := by
  have hchars : ∀ c ∈ xs ++ '.' :: ys, c = '.' ∨ c.isDigit = true :=
    List.forall_mem_append.mpr ⟨fun c hc => .inr (hx c hc),
      List.forall_mem_cons.mpr ⟨.inl rfl, fun c hc => .inr (hy c hc)⟩⟩
  have hplain : ∀ c ∈ xs ++ '.' :: ys, c ≠ 'x' ∧ c ≠ 'X' ∧ marksPower false c = false := by
    intro c hc
    rcases hchars c hc with rfl | hdigit
    · decide
    · exact of_isDigit (p := fun c => c ≠ 'x' ∧ c ≠ 'X' ∧ marksPower false c = false) (by decide)
        hdigit
  have hhex : isHexadecimal (xs ++ '.' :: ys) = false := by
    generalize xs ++ '.' :: ys = cs at hplain
    unfold isHexadecimal
    split
    · rename_i c cs
      obtain ⟨hlower, hupper, -⟩ := hplain c (by simp)
      simp [hlower, hupper]
    · rfl
  have hpoint : ((xs ++ '.' :: ys).any fun c => decide (c = '.') || marksPower false c) = true := by
    simp
  have hpower : (xs ++ '.' :: ys).span (fun c => !marksPower false c) = (xs ++ '.' :: ys, []) := by
    have hspan := span_append (p := fun c => !marksPower false c) []
      (fun c hc => by rw [(hplain c hc).2.2, Bool.not_false]) (by simp)
    rwa [List.append_nil] at hspan
  have hmantissa : (xs ++ '.' :: ys).span (fun c => c != '.') = (xs, '.' :: ys) :=
    span_append ('.' :: ys) (fun c hc => of_isDigit (p := fun c => (c != '.') = true) (by decide)
      (hx c hc)) (by simp)
  rw [magnitude?, hhex, hpoint, if_neg Bool.false_ne_true, if_pos rfl]
  have hempty : (xs.isEmpty && ys.isEmpty) = false := by simp [hne]
  have hvalue : valueOfDigits 10 ((xs.map fun c => c.toNat - '0'.toNat) ++
      ys.map fun c => c.toNat - '0'.toNat) = digitsValue (xs ++ ys) := by
    rw [← List.map_append, valueOfDigits_ten]
  simp only [fraction?, hpower, hmantissa, List.drop_one, List.tail_cons, hempty, exponent?,
    Bool.false_eq_true, if_false, moreDigits?_ten hx, digits?_ten hy, Option.bind_eq_bind,
    Option.bind_some, hvalue]
  simp

end Pointed

/-- Positional notation is digits, or has a point behind the first of them. -/
theorem DecimalForm.toChars_cases {n : DecimalForm} (hpos : 0 < n.digits) :
    (n.toChars ≠ [] ∧ ∀ c ∈ n.toChars, c.isDigit = true) ∨
      ∃ xs ys, n.toChars = xs ++ '.' :: ys ∧ xs ≠ [] ∧ (∀ c ∈ xs, c.isDigit = true) ∧
        ∀ c ∈ ys, c.isDigit = true := by
  obtain ⟨kept, z, hkept, -, hne, hdigits, -⟩ := exists_kept_digits hpos
  have hlength := List.length_pos_iff.mpr hne
  simp only [toChars, hkept]
  split
  · exact .inl ⟨by simp [hne], List.forall_mem_append.mpr ⟨hdigits, isDigit_zeros _⟩⟩
  split
  · refine .inr ⟨_, _, rfl, ?_, fun c hc => hdigits c (List.mem_of_mem_take hc),
      fun c hc => hdigits c (List.mem_of_mem_drop hc)⟩
    rw [ne_eq, List.take_eq_nil_iff, not_or]
    exact ⟨by omega, hne⟩
  · exact .inr ⟨['0'], _, rfl, List.cons_ne_nil _ _, List.forall_mem_singleton.mpr rfl,
      List.forall_mem_append.mpr ⟨isDigit_zeros _, hdigits⟩⟩

namespace Double

/-- In front of the digits of a number stands its sign. -/
theorem numberOf?_signed (d : Double) {c : Char} {cs : List Char} (hc : c.isDigit = true) :
    numberOf? (String.ofList (d.signed (c :: cs))) =
      (magnitude? (c :: cs)).map fun q => if d.negative then -q else q := by
  have hquote : c ≠ '\'' := of_isDigit (p := fun c => c ≠ '\'') (by decide) hc
  have hminus : c ≠ '-' := of_isDigit (p := fun c => c ≠ '-') (by decide) hc
  cases hneg : d.negative with
  | true => simp [numberOf?, signed, hneg, signed?]
  | false => simp [numberOf?, signed, hneg, signed?, hquote, hminus]

/-- The text of a double denotes a number, which is whole exactly if the double is. -/
theorem exists_numberOf?_exactChars (d : Double) :
    ∃ q, numberOf? (String.ofList d.exactChars) = some q ∧ (q.den = 1 ↔ d.isWhole = true) := by
  have hread := readDecimal?_exactChars d
  by_cases hwhole : d.isWhole = true
  · obtain ⟨c, cs, hcs⟩ := List.exists_cons_of_ne_nil
      (Nat.toDigits_ne_nil (b := 10) (n := d.magnitude / unitsPerOne))
    have hc : c.isDigit = true := isDigit_toDigits _ c (by rw [hcs]; exact List.mem_cons_self)
    rw [exactChars, if_pos hwhole, hcs, numberOf?_signed d hc, ← hcs, magnitude?_toDigits]
    refine ⟨_, rfl, iff_of_true ?_ hwhole⟩
    split <;> simp
  · have hpos : 0 < d.magnitude := by
      refine Nat.pos_of_ne_zero fun hzero => hwhole ?_
      rw [isWhole, hzero, Nat.zero_mod]
      rfl
    rw [exactChars, if_neg hwhole, shortestChars, if_neg (Nat.ne_of_gt hpos)] at hread ⊢
    rcases DecimalForm.toChars_cases (digits_shortestForm_pos hpos) with
      ⟨hne, hdigits⟩ | ⟨xs, ys, hchars, hne, hx, hy⟩
    · obtain ⟨c, cs, hcs⟩ := List.exists_cons_of_ne_nil hne
      rw [hcs] at hread hdigits
      have hsplit : splitSign (d.signed (c :: cs)) = (d.negative, c :: cs) :=
        splitSign_signed d (hdigits c List.mem_cons_self)
      exact absurd (isWhole_of_digits hsplit (List.cons_ne_nil c cs) hdigits hread) hwhole
    · have hvalue := magnitude?_pointed hne hx hy
      have hliteral := readDecimalLiteral?_fraction d hne hx hy
      rw [hchars] at hread ⊢
      obtain ⟨c, cs, hcs⟩ := List.exists_cons_of_ne_nil hne
      have hc : c.isDigit = true := hx c (by rw [hcs]; exact List.mem_cons_self)
      rw [hcs, List.cons_append] at hvalue ⊢
      rw [numberOf?_signed d hc, hvalue]
      refine ⟨_, rfl, iff_of_false (fun hden => hwhole ?_) hwhole⟩
      have hdvd : 10 ^ ys.length ∣ digitsValue (xs ++ ys) := by
        have hsigned : (mkRat (digitsValue (xs ++ ys)) (10 ^ ys.length)).den = 1 := by
          rw [hcs]
          split at hden
          · rwa [Rat.neg_den] at hden
          · exact hden
        rw [Rat.mkRat_eq_div, Int.cast_natCast] at hsigned
        exact (Rat.den_div_natCast_eq_one_iff _ _ (by positivity)).mp hsigned
      exact isWhole_of_literal hliteral (Nat.div_mul_cancel hdvd).symm hread

end Double

namespace Bound

/-- The text of a bound denotes a number, which is whole unless the bound is a double that is
not. -/
theorem exists_numberOf?_text (b : Bound) :
    ∃ q, numberOf? b.text = some q ∧
      (q.den = 1 ↔ ∀ d, b = float d → d.isWhole = true) := by
  cases b with
  | int n => exact ⟨n.toInt, numberOf?_int n.toInt, iff_of_true (Rat.den_intCast _) (by simp)⟩
  | float d =>
      obtain ⟨q, hq, hwhole⟩ := d.exists_numberOf?_exactChars
      exact ⟨q, hq, by simpa using hwhole⟩

/-- A number is no text. -/
theorem bytesOf?_text (b : Bound) : bytesOf? b.text = none := by
  have hother : ∀ mark ∈ ['"', '\x60'], ∀ cs, b.text.toList ≠ mark :: cs := by
    intro mark hmark cs heq
    rcases mem_text (b := b) (c := mark) (by rw [heq]; exact List.mem_cons_self) with
      rfl | rfl | hdigit
    · exact absurd hmark (by decide)
    · exact absurd hmark (by decide)
    · exact of_isDigit (p := fun c => c ∉ ['"', '\x60']) (by decide) hdigit hmark
  unfold bytesOf? interpretedBytes?
  split
  · rename_i cs heq
    exact absurd heq (hother '\x60' (by decide) cs)
  · split
    · rename_i cs heq
      exact absurd heq (hother '"' (by decide) cs)
    · rfl

end Bound

end FieldRules
