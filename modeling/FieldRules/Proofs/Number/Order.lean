/-
The order of doubles is the order of their values, and rounding to a double keeps it: of two
whole numbers, the smaller one never becomes the larger double.
-/
import FieldRules.Proofs.Number.Interval
import Mathlib.Algebra.Order.Field.Rat
import Mathlib.Data.Rat.Cast.Order

namespace FieldRules

namespace Double

variable {x y : Double}

theorem toRat_eq_div (d : Double) : d.toRat = d.units / unitsPerOne := by
  rw [toRat, Rat.mkRat_eq_div]

theorem toRat_lt_iff : x.toRat < y.toRat ↔ x.units < y.units := by
  have hpos : (0 : Rat) < unitsPerOne := Nat.cast_pos.mpr unitsPerOne_pos
  rw [toRat_eq_div, toRat_eq_div, div_lt_div_iff_of_pos_right hpos, Int.cast_lt]

theorem toRat_le_iff : x.toRat ≤ y.toRat ↔ x.units ≤ y.units := by
  rw [← not_lt, toRat_lt_iff, not_lt]

theorem toRat_eq_iff : x.toRat = y.toRat ↔ x.units = y.units := by
  rw [le_antisymm_iff, toRat_le_iff, toRat_le_iff, le_antisymm_iff]

end Double

/-! Rounding. -/

theorem le_roundHalfEven (num den : Nat) : num / den ≤ roundHalfEven num den := by
  simp only [roundHalfEven]
  split
  · exact Nat.le_refl _
  · split
    · exact Nat.le_succ _
    · exact Nat.le_add_right _ _

theorem roundHalfEven_mono {a b : Nat} (den : Nat) (h : a ≤ b) :
    roundHalfEven a den ≤ roundHalfEven b den := by
  rcases Nat.lt_or_eq_of_le (Nat.div_le_div_right (c := den) h) with hlt | heq
  · calc roundHalfEven a den ≤ a / den + 1 := roundHalfEven_le_succ a den
      _ ≤ b / den := hlt
      _ ≤ roundHalfEven b den := le_roundHalfEven b den
  · -- with one quotient the remainders decide
    have ha := Nat.div_add_mod a den
    have hb := Nat.div_add_mod b den
    rw [heq] at ha
    have hmod : a % den ≤ b % den := by omega
    simp only [roundHalfEven, heq]
    split
    · split
      · exact Nat.le_refl _
      · split
        · exact Nat.le_succ _
        · exact Nat.le_add_right _ _
    · split
      · rw [if_neg (by omega), if_pos (by omega)]
      · rw [if_neg (by omega)]
        split
        · have := Nat.mod_lt (b / den) (show 0 < 2 by decide)
          omega
        · exact Nat.le_refl _

/-- What is rounded stays between the powers of two around it. -/
theorem le_nearestMagnitude {num s : Nat} (h : 2 ^ s ≤ num) : 2 ^ s ≤ nearestMagnitude num 1 := by
  have hpos : num ≠ 0 := Nat.ne_of_gt (Nat.lt_of_lt_of_le (Nat.two_pow_pos s) h)
  have hlog : s ≤ num.log2 := (Nat.le_log2 hpos).mpr h
  simp only [nearestMagnitude, Nat.pow_eq, Nat.div_one, Nat.one_mul]
  calc 2 ^ s ≤ 2 ^ num.log2 := Nat.pow_le_pow_right (by decide) hlog
    _ = 2 ^ num.log2 / 2 ^ (num.log2 - 52) * 2 ^ (num.log2 - 52) :=
        (Nat.div_mul_cancel (Nat.pow_dvd_pow 2 (Nat.sub_le _ _))).symm
    _ ≤ num / 2 ^ (num.log2 - 52) * 2 ^ (num.log2 - 52) :=
        Nat.mul_le_mul_right _ (Nat.div_le_div_right (Nat.log2_self_le hpos))
    _ ≤ roundHalfEven num (2 ^ (num.log2 - 52)) * 2 ^ (num.log2 - 52) :=
        Nat.mul_le_mul_right _ (le_roundHalfEven _ _)

theorem nearestMagnitude_le_pow {num s : Nat} (h : num < 2 ^ s) :
    nearestMagnitude num 1 ≤ 2 ^ s := by
  simp only [nearestMagnitude, Nat.pow_eq, Nat.div_one, Nat.one_mul]
  have hdvd : 2 ^ (num.log2 - 52) ∣ 2 ^ s := by
    apply Nat.pow_dvd_pow
    rcases Nat.eq_zero_or_pos num with rfl | hpos
    · exact Nat.zero_le _
    · have := (Nat.log2_lt (Nat.ne_of_gt hpos)).mpr h
      omega
  have hquotient : num / 2 ^ (num.log2 - 52) + 1 ≤ 2 ^ s / 2 ^ (num.log2 - 52) :=
    Nat.div_lt_div_of_lt_of_dvd hdvd h
  calc roundHalfEven num (2 ^ (num.log2 - 52)) * 2 ^ (num.log2 - 52)
      ≤ 2 ^ s / 2 ^ (num.log2 - 52) * 2 ^ (num.log2 - 52) :=
        Nat.mul_le_mul_right _ ((roundHalfEven_le_succ _ _).trans hquotient)
    _ = 2 ^ s := Nat.div_mul_cancel hdvd

/-- Rounding to 53 bits keeps the order, also across powers of two, where the spacing changes. -/
theorem nearestMagnitude_mono {a b : Nat} (h : a ≤ b) :
    nearestMagnitude a 1 ≤ nearestMagnitude b 1 := by
  rcases Nat.eq_zero_or_pos a with rfl | hpos
  · exact Nat.zero_le _
  · have hb : b ≠ 0 := by omega
    have hlog : a.log2 ≤ b.log2 :=
      (Nat.le_log2 hb).mpr ((Nat.log2_self_le (Nat.ne_of_gt hpos)).trans h)
    rcases Nat.lt_or_eq_of_le hlog with hlt | heq
    · have hbelow : a < 2 ^ b.log2 := (Nat.log2_lt (Nat.ne_of_gt hpos)).mp hlt
      exact (nearestMagnitude_le_pow hbelow).trans (le_nearestMagnitude (Nat.log2_self_le hb))
    · simp only [nearestMagnitude, Nat.pow_eq, Nat.div_one, Nat.one_mul, heq]
      exact Nat.mul_le_mul_right _ (roundHalfEven_mono _ h)

theorem nearestMagnitude_self {num : Nat} (h : 2 ^ (num.log2 - 52) ∣ num) :
    nearestMagnitude num 1 = num := by
  simp only [nearestMagnitude, Nat.pow_eq, Nat.div_one, Nat.one_mul]
  rw [roundHalfEven_of_dvd (Nat.two_pow_pos _) h, Nat.div_mul_cancel h]

namespace Double

/-- Whole numbers keep their order as doubles; different ones may become the same. -/
theorem units_ofInt64_mono {a b : Int64} (h : a.toInt ≤ b.toInt) :
    (ofInt64 a).units ≤ (ofInt64 b).units := by
  simp only [units, ofInt64, decide_eq_true_eq]
  split
  · split
    · have hscaled := Nat.mul_le_mul_right unitsPerOne
        (show b.toInt.natAbs ≤ a.toInt.natAbs by omega)
      exact Int.neg_le_neg (Int.ofNat_le.mpr (nearestMagnitude_mono hscaled))
    · omega
  · rw [if_neg (by omega)]
    have hscaled := Nat.mul_le_mul_right unitsPerOne
      (show a.toInt.natAbs ≤ b.toInt.natAbs by omega)
    exact Int.ofNat_le.mpr (nearestMagnitude_mono hscaled)

/-- Whole numbers of at most 53 bits are doubles themselves. -/
theorem toRat_ofInt64 {n : Int64} (h : n.toInt.natAbs ≤ 2 ^ 53) :
    (ofInt64 n).toRat = n.toInt := by
  have hdvd : 2 ^ ((n.toInt.natAbs * unitsPerOne).log2 - 52) ∣ n.toInt.natAbs * unitsPerOne := by
    obtain ⟨s, hs⟩ : ∃ s, unitsPerOne = Nat.pow 2 s := by
      unfold unitsPerOne
      exact exists_apply_eq_apply' _ _
    rw [hs]
    exact spacing_dvd_of_le h
  have hmagnitude : (ofInt64 n).magnitude = n.toInt.natAbs * unitsPerOne :=
    nearestMagnitude_self hdvd
  have hunits : (ofInt64 n).units = n.toInt * unitsPerOne := by
    rw [units, hmagnitude]
    simp only [ofInt64, decide_eq_true_eq]
    generalize unitsPerOne = unit
    split <;> push_cast
    · rw [← Int.neg_mul, abs_of_neg (by assumption), Int.neg_neg]
    · rw [abs_of_nonneg (by omega)]
  have hne : (unitsPerOne : Rat) ≠ 0 := Nat.cast_ne_zero.mpr (Nat.ne_of_gt unitsPerOne_pos)
  rw [toRat_eq_div, hunits, Int.cast_mul, Int.cast_natCast, mul_div_cancel_right₀ _ hne]

end Double

end FieldRules
