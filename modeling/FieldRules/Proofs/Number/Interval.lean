/-
The rounding interval of a magnitude is what it says: every ratio in it rounds
to that magnitude, and a decimal grid of seventeen places always meets it.
-/
import FieldRules.Number.Shortest
import Mathlib.Tactic.Linarith
import Mathlib.Tactic.Ring

namespace FieldRules

/-- A ratio within half a unit of `k` rounds to it; on the edge only an even `k`
gets it. -/
theorem roundHalfEven_eq {num den k : Nat} (hden : 0 < den)
    (hlow : 2 * k * den ≤ 2 * num + den) (hhigh : 2 * num ≤ 2 * k * den + den)
    (htie : k % 2 = 1 → 2 * k * den < 2 * num + den ∧ 2 * num < 2 * k * den + den) :
    roundHalfEven num den = k := by
  have hsplit := Nat.div_add_mod num den
  have hlt := Nat.mod_lt num hden
  generalize hq : num / den = q at hsplit
  generalize hr : num % den = r at hsplit hlt
  have hqk : q ≤ k := by
    by_contra hcon
    have := Nat.mul_le_mul_left den (show k + 1 ≤ q by omega)
    nlinarith
  have hkq : k ≤ q + 1 := by
    by_contra hcon
    have := Nat.mul_le_mul_left den (show q + 2 ≤ k by omega)
    nlinarith
  simp only [roundHalfEven, hq, hr]
  rcases Nat.lt_or_eq_of_le hqk with hstep | rfl
  · obtain rfl : k = q + 1 := by omega
    have hlow' : den ≤ 2 * r := by nlinarith
    rcases Nat.lt_or_eq_of_le hlow' with hlt' | htie'
    · rw [if_neg (by omega), if_pos hlt']
    · have hodd : q % 2 = 1 := by
        by_contra heven
        have := (htie (by omega)).1
        nlinarith
      rw [if_neg (by omega), if_neg (by omega), hodd]
  · have hhigh' : 2 * r ≤ den := by nlinarith
    rcases Nat.lt_or_eq_of_le hhigh' with hlt' | htie'
    · rw [if_pos hlt']
    · have heven : q % 2 = 0 := by
        by_contra hodd
        have := (htie (by omega)).2
        nlinarith
      rw [if_neg (by omega), if_neg (by omega), heven]
      rfl

/-- Numbers of at most 53 bits stand one unit apart. -/
theorem spacing_of_lt {q : Nat} (h : q < 2 ^ 53) : 2 ^ (q.log2 - 52) = 1 := by
  rcases Nat.eq_zero_or_pos q with rfl | hpos
  · rfl
  · have := (Nat.log2_lt (Nat.ne_of_gt hpos)).mpr h
    rw [show q.log2 - 52 = 0 by omega, pow_zero]

/-- Between two powers of two the spacing is one and the same. -/
theorem spacing_of_mem {q s : Nat} (hlow : 2 ^ (52 + s) ≤ q) (hhigh : q < 2 ^ (53 + s)) :
    2 ^ (q.log2 - 52) = 2 ^ s := by
  have hq : q ≠ 0 := Nat.ne_of_gt (Nat.lt_of_lt_of_le (Nat.two_pow_pos _) hlow)
  have := (Nat.log2_lt hq).mpr hhigh
  have := (Nat.le_log2 hq).mpr hlow
  rw [show q.log2 - 52 = s by omega]

/-- A ratio within half a spacing of a multiple of its spacing rounds to it. -/
theorem nearestMagnitude_eq_mul {num den k t : Nat} (hden : 0 < den)
    (hspacing : 2 ^ ((num / den).log2 - 52) = t)
    (hlow : 2 * k * (den * t) ≤ 2 * num + den * t)
    (hhigh : 2 * num ≤ 2 * k * (den * t) + den * t)
    (htie : k % 2 = 1 →
      2 * k * (den * t) < 2 * num + den * t ∧ 2 * num < 2 * k * (den * t) + den * t) :
    nearestMagnitude num den = k * t := by
  have ht : 0 < t := hspacing ▸ Nat.two_pow_pos _
  simp only [nearestMagnitude, Nat.pow_eq, hspacing]
  rw [roundHalfEven_eq (Nat.mul_pos hden ht) hlow hhigh htie]

/-- Whether `num / den` units lie in the rounding interval of a magnitude. -/
def RoundsTo (m num den : Nat) : Prop :=
  (RoundingInterval.around m).holds (4 * num) den = true

/-- What the rounding interval of `k` spacings says, without subtraction.  The
first spacing above a power of two is half as wide below it. -/
theorem roundsTo_iff {k s num den : Nat} (hk : 0 < k) (hlog : (k * 2 ^ s).log2 - 52 = s) :
    RoundsTo (k * 2 ^ s) num den ↔
      (4 * k * (den * 2 ^ s) ≤
          4 * num + (if 0 < s ∧ k = 2 ^ 52 then 1 else 2) * (den * 2 ^ s) ∧
        4 * num ≤ 4 * k * (den * 2 ^ s) + 2 * (den * 2 ^ s)) ∧
      (k % 2 = 1 →
        4 * k * (den * 2 ^ s) < 4 * num + 2 * (den * 2 ^ s) ∧
          4 * num < 4 * k * (den * 2 ^ s) + 2 * (den * 2 ^ s)) := by
  have hpow : 0 < 2 ^ s := Nat.two_pow_pos s
  have hedge : (k * 2 ^ s == 2 ^ (s + 52)) = decide (k = 2 ^ 52) := by
    rw [pow_add, mul_comm (2 ^ s), beq_eq_decide]
    simp only [Nat.mul_left_inj (Nat.ne_of_gt hpow)]
  have hwide : (if 0 < s ∧ k = 2 ^ 52 then 1 else 2) * 2 ^ s ≤ 4 * (k * 2 ^ s) := by
    have := Nat.mul_le_mul_right (2 ^ s) hk
    split <;> omega
  have hbelow :
      (if (decide (0 < s) && decide (k = 2 ^ 52)) = true then 2 ^ s else 2 * 2 ^ s) =
        (if 0 < s ∧ k = 2 ^ 52 then 1 else 2) * 2 ^ s := by
    simp only [Bool.and_eq_true, decide_eq_true_eq]
    split <;> simp
  simp only [RoundsTo, RoundingInterval.around, RoundingInterval.holds, hlog, gt_iff_lt, hedge,
    Nat.pow_eq, Nat.mul_div_cancel _ hpow, hbelow, Nat.sub_mul, Nat.add_mul]
  generalize hw : (if 0 < s ∧ k = 2 ^ 52 then 1 else 2) = w at hwide
  have hwide' := Nat.mul_le_mul_right den hwide
  have hodd : k % 2 = 1 → w = 2 := by
    intro h
    rw [← hw, if_neg]
    omega
  have e₁ : 4 * (k * 2 ^ s) * den = 4 * k * (den * 2 ^ s) := by ring
  have e₂ : w * 2 ^ s * den = w * (den * 2 ^ s) := by ring
  have e₃ : 2 * 2 ^ s * den = 2 * (den * 2 ^ s) := by ring
  rw [e₁, e₂] at hwide'
  rw [e₁, e₂, e₃]
  clear hwide hbelow hedge hw e₁ e₂ e₃
  generalize den * 2 ^ s = d at *
  generalize 4 * k * d = centre at *
  rcases Nat.mod_two_eq_zero_or_one k with h | h
  · simp only [h, beq_self_eq_true, if_true, Bool.and_eq_true, decide_eq_true_eq, zero_ne_one,
      false_implies, and_true]
    generalize w * d = below at *
    omega
  · simp only [h, hodd h, Nat.reduceBEq, Bool.false_eq_true, if_false, Bool.and_eq_true,
      decide_eq_true_eq, true_implies]
    rw [hodd h] at hwide'
    omega

/-- Below the first power of two of a spacing, the spacing is half as wide; a
ratio that close to the power still rounds to it. -/
theorem nearestMagnitude_eq_pow {num den s : Nat} (hden : 0 < den)
    (hlow : 4 * 2 ^ 52 * (den * 2 ^ (s + 1)) ≤ 4 * num + den * 2 ^ (s + 1))
    (hhigh : num < 2 ^ 52 * (den * 2 ^ (s + 1))) :
    nearestMagnitude num den = 2 ^ 52 * 2 ^ (s + 1) := by
  have hd : den * 2 ^ (s + 1) = 2 * (den * 2 ^ s) := by ring
  rw [hd] at hlow hhigh
  have hspacing : 2 ^ ((num / den).log2 - 52) = 2 ^ s := by
    apply spacing_of_mem
    · rw [Nat.le_div_iff_mul_le hden, pow_add, mul_assoc, mul_comm (2 ^ s) den]
      omega
    · rw [Nat.div_lt_iff_lt_mul hden, pow_add, mul_assoc, mul_comm (2 ^ s) den]
      omega
  have h := nearestMagnitude_eq_mul (k := 2 ^ 53) hden hspacing (by omega) (by omega) (by omega)
  rw [h]
  ring

/-- Every ratio in the rounding interval of a magnitude rounds to it. -/
theorem nearestMagnitude_eq {m num den : Nat} (hden : 0 < den) (hpos : 0 < m)
    (hdvd : 2 ^ (m.log2 - 52) ∣ m) (h : RoundsTo m num den) : nearestMagnitude num den = m := by
  obtain ⟨k, hk⟩ := hdvd
  generalize hs : m.log2 - 52 = s at hk
  rw [mul_comm] at hk
  subst hk
  have hkpos : 0 < k := Nat.pos_of_mul_pos_right hpos
  obtain ⟨⟨hlow, hhigh⟩, htie⟩ := (roundsTo_iff hkpos hs).mp h
  have hlow' : 4 * k * (den * 2 ^ s) ≤ 4 * num + 2 * (den * 2 ^ s) := by
    refine hlow.trans (Nat.add_le_add_left (Nat.mul_le_mul_right _ ?_) _)
    split <;> omega
  have hbits : k < 2 ^ 53 := by
    have hlt : k * 2 ^ s < 2 ^ (53 + s) := (Nat.log2_lt (Nat.ne_of_gt hpos)).mp (by omega)
    rw [pow_add] at hlt
    exact Nat.lt_of_mul_lt_mul_right hlt
  have htop : num / den < 2 ^ (53 + s) := by
    rw [Nat.div_lt_iff_lt_mul hden, pow_add, mul_assoc, mul_comm (2 ^ s) den]
    have := Nat.mul_le_mul_right (den * 2 ^ s) (show k + 1 ≤ 2 ^ 53 by omega)
    have := Nat.mul_pos hden (Nat.two_pow_pos s)
    linarith
  have hround (hspacing : 2 ^ ((num / den).log2 - 52) = 2 ^ s) :
      nearestMagnitude num den = k * 2 ^ s := by
    refine nearestMagnitude_eq_mul hden hspacing (by linarith) (by linarith) fun hodd => ?_
    obtain ⟨h₁, h₂⟩ := htie hodd
    constructor <;> linarith
  rcases s with _ | s
  · exact hround (spacing_of_lt (by simpa using htop))
  · rcases Nat.lt_or_ge (num / den) (2 ^ (52 + (s + 1))) with hbelow | habove
    · rw [Nat.div_lt_iff_lt_mul hden, pow_add, mul_assoc, mul_comm (2 ^ (s + 1)) den] at hbelow
      have hdpos : 0 < den * 2 ^ (s + 1) := Nat.mul_pos hden (Nat.two_pow_pos _)
      have hge : 2 ^ 52 ≤ k := by
        have hle : 2 ^ (52 + (s + 1)) ≤ k * 2 ^ (s + 1) :=
          (Nat.le_log2 (Nat.ne_of_gt hpos)).mp (by omega)
        rw [pow_add] at hle
        exact Nat.le_of_mul_le_mul_right hle (Nat.two_pow_pos _)
      -- a ratio below the power of two is in the interval of that power only
      have hle : k ≤ 2 ^ 52 := by
        by_contra hcon
        have := Nat.mul_le_mul_right (den * 2 ^ (s + 1)) (show 2 ^ 52 + 1 ≤ k by omega)
        linarith
      obtain rfl : k = 2 ^ 52 := Nat.le_antisymm hle hge
      rw [if_pos ⟨Nat.succ_pos s, rfl⟩, one_mul] at hlow
      exact nearestMagnitude_eq_pow hden hlow hbelow
    · exact hround (spacing_of_mem habove htop)

/-- Comparing a ratio with a whole number does not depend on how it is written. -/
theorem mul_le_iff_of_ratio_eq {a num den num' den' : Nat} (hden : 0 < den) (hden' : 0 < den')
    (hratio : num * den' = num' * den) : a * den ≤ num ↔ a * den' ≤ num' := by
  rw [← Nat.mul_le_mul_right_iff hden', hratio, mul_right_comm, Nat.mul_le_mul_right_iff hden]

theorem le_mul_iff_of_ratio_eq {a num den num' den' : Nat} (hden : 0 < den) (hden' : 0 < den')
    (hratio : num * den' = num' * den) : num ≤ a * den ↔ num' ≤ a * den' := by
  rw [← Nat.mul_le_mul_right_iff hden', hratio, mul_right_comm, Nat.mul_le_mul_right_iff hden]

/-- Equal ratios lie in the same intervals. -/
theorem RoundsTo.of_ratio_eq {m num den num' den' : Nat} (hden : 0 < den) (hden' : 0 < den')
    (hratio : num * den' = num' * den) (h : RoundsTo m num den) : RoundsTo m num' den' := by
  have hratio' : 4 * num * den' = 4 * num' * den := by linarith
  simpa only [RoundsTo, RoundingInterval.holds, ← Nat.not_le,
    mul_le_iff_of_ratio_eq hden hden' hratio', le_mul_iff_of_ratio_eq hden hden' hratio'] using h

/-- One on the decimal grid of an exponent, in units, as a ratio. -/
def gridStep (exponent : Int) : Nat :=
  if exponent < 0 then unitsPerOne else unitsPerOne * Nat.pow 10 exponent.natAbs

def gridScale (exponent : Int) : Nat :=
  if exponent < 0 then Nat.pow 10 exponent.natAbs else 1

theorem gridScale_pos (exponent : Int) : 0 < gridScale exponent := by
  unfold gridScale
  split
  · exact Nat.pow_pos (by omega)
  · exact Nat.one_pos

theorem unitsPerOne_pos : 0 < unitsPerOne := by decide +kernel

theorem gridStep_pos (exponent : Int) : 0 < gridStep exponent := by
  unfold gridStep
  split
  · exact unitsPerOne_pos
  · exact Nat.mul_pos unitsPerOne_pos (Nat.pow_pos (by omega))

/-- The search on one grid: the point below the magnitude, the point above, and
which of them rounds to it. -/
theorem roundingNeighbour?_eq (m : Nat) (exponent : Int) :
    roundingNeighbour? m exponent =
      let below := m * gridScale exponent / gridStep exponent
      let hits (point : Nat) := (RoundingInterval.around m).holds
        (4 * point * gridStep exponent) (gridScale exponent)
      if hits below && (!hits (below + 1) ||
          2 * (m * gridScale exponent % gridStep exponent) < gridStep exponent) then
        some ⟨below, exponent⟩
      else if hits (below + 1) then some ⟨below + 1, exponent⟩
      else none := rfl

/-- A grid point that is found rounds to the magnitude. -/
theorem roundsTo_of_neighbour {m : Nat} {exponent : Int} {n : DecimalForm}
    (h : roundingNeighbour? m exponent = some n) :
    n.exponent = exponent ∧ RoundsTo m (n.digits * gridStep exponent) (gridScale exponent) := by
  simp only [roundingNeighbour?_eq] at h
  split at h
  · rename_i hbelow
    cases h
    simp only [Bool.and_eq_true] at hbelow
    exact ⟨rfl, by simpa only [RoundsTo, mul_assoc] using hbelow.1⟩
  · split at h
    · rename_i habove
      cases h
      exact ⟨rfl, by simpa only [RoundsTo, mul_assoc] using habove⟩
    · cases h

/-- A ratio that is strictly inside the rounding interval. -/
theorem roundsTo_of_lt {k s num den : Nat} (hk : 0 < k) (hlog : (k * 2 ^ s).log2 - 52 = s)
    (hlow : 4 * k * (den * 2 ^ s) <
      4 * num + (if 0 < s ∧ k = 2 ^ 52 then 1 else 2) * (den * 2 ^ s))
    (hhigh : 4 * num < 4 * k * (den * 2 ^ s) + 2 * (den * 2 ^ s)) :
    RoundsTo (k * 2 ^ s) num den := by
  refine (roundsTo_iff hk hlog).mpr ⟨⟨hlow.le, hhigh.le⟩, fun hodd => ⟨?_, hhigh⟩⟩
  rwa [if_neg (by omega)] at hlow

/-- A magnitude rounds to itself. -/
theorem roundsTo_self {m : Nat} (hpos : 0 < m) (hdvd : 2 ^ (m.log2 - 52) ∣ m) :
    RoundsTo m m 1 := by
  obtain ⟨k, hk⟩ := hdvd
  generalize hs : m.log2 - 52 = s at hk
  rw [mul_comm] at hk
  subst hk
  have hspacing := Nat.two_pow_pos s
  apply roundsTo_of_lt (Nat.pos_of_mul_pos_right hpos) hs
  · split <;> linarith
  · linarith

/-- Of two grid points around a magnitude one rounds to it, where the grid is fine
enough: the interval is wider than one step. -/
theorem roundsTo_or_succ {m step scale below : Nat} (hpos : 0 < m)
    (hdvd : 2 ^ (m.log2 - 52) ∣ m) (hscale : 0 < scale) (hfine : 10 ^ 16 * step ≤ m * scale)
    (hlow : below * step ≤ m * scale) (hhigh : m * scale < (below + 1) * step) :
    RoundsTo m (below * step) scale ∨ RoundsTo m ((below + 1) * step) scale := by
  obtain ⟨k, hk⟩ := hdvd
  generalize hs : m.log2 - 52 = s at hk
  rw [mul_comm] at hk
  subst hk
  have hkpos : 0 < k := Nat.pos_of_mul_pos_right hpos
  have hbits : k < 2 ^ 53 := by
    have hlt : k * 2 ^ s < 2 ^ (53 + s) := (Nat.log2_lt (Nat.ne_of_gt hpos)).mp (by omega)
    rw [pow_add] at hlt
    exact Nat.lt_of_mul_lt_mul_right hlt
  have hdpos : 0 < scale * 2 ^ s := Nat.mul_pos hscale (Nat.two_pow_pos s)
  have hd : k * 2 ^ s * scale = k * (scale * 2 ^ s) := by ring
  rw [hd] at hfine hlow hhigh
  rw [add_mul, one_mul] at hhigh ⊢
  by_contra hmiss
  rw [not_or] at hmiss
  -- neither point is inside, so the interval fits between them
  have hunder := not_lt.mp fun h => hmiss.1 (roundsTo_of_lt hkpos hs h (by nlinarith))
  have hover := not_lt.mp fun h => hmiss.2 (roundsTo_of_lt hkpos hs (by split <;> nlinarith) h)
  have hcount := Nat.mul_le_mul_right (scale * 2 ^ s) hbits.le
  split at hunder <;> rename_i hedge
  · rw [hedge.2] at *
    linarith
  · linarith

/-- A grid of sixteen digits below the first digit of a magnitude has a point
that rounds to it. -/
theorem exists_neighbour {m : Nat} {exponent : Int} (hpos : 0 < m)
    (hdvd : 2 ^ (m.log2 - 52) ∣ m)
    (hfine : 10 ^ 16 * gridStep exponent ≤ m * gridScale exponent) :
    ∃ n, roundingNeighbour? m exponent = some n := by
  have hlow := Nat.div_mul_le_self (m * gridScale exponent) (gridStep exponent)
  have hhigh := Nat.lt_div_mul_add (a := m * gridScale exponent) (gridStep_pos exponent)
  rw [← Nat.succ_mul] at hhigh
  have hhits := roundsTo_or_succ hpos hdvd (gridScale_pos exponent) hfine hlow hhigh
  simp only [RoundsTo, ← mul_assoc] at hhits
  rw [roundingNeighbour?_eq]
  generalize m * gridScale exponent / gridStep exponent = below at hhits
  simp only
  split
  · exact ⟨_, rfl⟩
  · rename_i hbelow
    split
    · exact ⟨_, rfl⟩
    · rename_i habove
      rcases hhits with h | h
      · simp [h, habove] at hbelow
      · exact absurd h habove

end FieldRules
