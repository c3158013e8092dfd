/-
Finite double-precision numbers as exact integers: every one of them is a whole
number of units of 2^-1074, so comparing two is comparing integers.
-/
namespace FieldRules

/-- Units in one: 2^1074. -/
def unitsPerOne : Nat := Nat.pow 2 1074

/-- The first magnitude that is too large: 2^1024, in units. -/
def magnitudeLimit : Nat := Nat.pow 2 2098

/-- Magnitudes of doubles: at most 53 significant bits, and not too large. -/
def IsMagnitude (m : Nat) : Prop :=
  Nat.pow 2 (m.log2 - 52) ∣ m ∧ m < magnitudeLimit

instance (m : Nat) : Decidable (IsMagnitude m) :=
  inferInstanceAs (Decidable (_ ∧ _))

/-- A finite double: a sign and a magnitude in units.  Zero has two signs. -/
structure Double where
  negative : Bool
  magnitude : Nat
  isMagnitude : IsMagnitude magnitude
deriving DecidableEq, Repr

/-- The whole number nearest to `num / den`; a half goes to the even neighbour. -/
def roundHalfEven (num den : Nat) : Nat :=
  let q := num / den
  let r := num % den
  if 2 * r < den then q else if den < 2 * r then q + 1 else q + q % 2

/-- The magnitude of 53 significant bits nearest to `num / den` units. -/
def nearestMagnitude (num den : Nat) : Nat :=
  let spacing := Nat.pow 2 ((num / den).log2 - 52)
  roundHalfEven num (den * spacing) * spacing

theorem roundHalfEven_of_dvd {num den : Nat} (hden : 0 < den) (h : den ∣ num) :
    roundHalfEven num den = num / den := by
  have hr : num % den = 0 := Nat.mod_eq_zero_of_dvd h
  simp [roundHalfEven, hr, hden]

/-- Rounding moves a ratio by at most half a unit. -/
theorem roundHalfEven_near (num den : Nat) (hden : 0 < den) :
    2 * (roundHalfEven num den * den) ≤ 2 * num + den ∧
      2 * num ≤ 2 * (roundHalfEven num den * den) + den := by
  have hsplit := Nat.div_add_mod num den
  have hlt := Nat.mod_lt num hden
  have hcomm : num / den * den = den * (num / den) := Nat.mul_comm _ _
  simp only [roundHalfEven]
  split
  · omega
  · split
    · rw [Nat.add_mul]; omega
    · rcases Nat.mod_two_eq_zero_or_one (num / den) with hp | hp <;> rw [hp, Nat.add_mul] <;> omega

/-- A multiple of a power of two with at most 53 bits before it. -/
theorem spacing_dvd_of_le {k s : Nat} (h : k ≤ Nat.pow 2 53) :
    Nat.pow 2 ((k * Nat.pow 2 s).log2 - 52) ∣ k * Nat.pow 2 s := by
  simp only [Nat.pow_eq] at h ⊢
  rcases Nat.eq_zero_or_pos k with rfl | hk
  · simp
  · have hpos : k * 2 ^ s ≠ 0 := Nat.ne_of_gt (Nat.mul_pos hk (Nat.two_pow_pos s))
    rcases Nat.lt_or_eq_of_le h with hlt | rfl
    · have hlog : (k * 2 ^ s).log2 < 53 + s := by
        rw [Nat.log2_lt hpos, Nat.pow_add]
        exact Nat.mul_lt_mul_of_pos_right hlt (Nat.two_pow_pos s)
      exact Nat.dvd_trans (Nat.pow_dvd_pow 2 (by omega)) (Nat.dvd_mul_left _ _)
    · rw [← Nat.pow_add, Nat.log2_two_pow]
      exact Nat.pow_dvd_pow 2 (by omega)

/-- Rounding never skips a whole number. -/
theorem roundHalfEven_le_succ (num den : Nat) : roundHalfEven num den ≤ num / den + 1 := by
  simp only [roundHalfEven]
  split
  · omega
  · split
    · omega
    · have := Nat.mod_lt (num / den) (show 0 < 2 by omega)
      omega

/-- The nearest magnitude keeps to 53 significant bits, also where rounding up
gains a bit. -/
theorem spacing_dvd_nearestMagnitude (num den : Nat) :
    Nat.pow 2 ((nearestMagnitude num den).log2 - 52) ∣ nearestMagnitude num den := by
  apply spacing_dvd_of_le
  simp only [Nat.pow_eq]
  generalize hs : 2 ^ ((num / den).log2 - 52) = spacing
  have hspacing : 0 < spacing := hs ▸ Nat.two_pow_pos _
  have hlt : num / den < 2 ^ 53 * spacing := by
    rw [← hs, ← Nat.pow_add]
    exact Nat.lt_of_lt_of_le Nat.lt_log2_self (Nat.pow_le_pow_right (by omega) (by omega))
  have hround := roundHalfEven_le_succ num (den * spacing)
  rw [← Nat.div_div_eq_div_mul] at hround
  have := (Nat.div_lt_iff_lt_mul hspacing).mpr hlt
  omega

/-- The nearest magnitude is at most twice the number. -/
theorem nearestMagnitude_le (num : Nat) : nearestMagnitude num 1 ≤ 2 * num := by
  rcases Nat.eq_zero_or_pos num with rfl | hpos
  · decide
  · simp only [nearestMagnitude, Nat.pow_eq, Nat.div_one, Nat.one_mul]
    generalize hs : 2 ^ (num.log2 - 52) = spacing
    have hle : spacing ≤ num :=
      hs ▸ Nat.le_trans (Nat.pow_le_pow_right (by omega) (Nat.sub_le _ _))
        (Nat.log2_self_le (Nat.ne_of_gt hpos))
    have hround := Nat.mul_le_mul_right spacing (roundHalfEven_le_succ num spacing)
    have := Nat.div_mul_le_self num spacing
    rw [Nat.add_mul] at hround
    omega

/-- Whole numbers of 64 bits are far below the limit. -/
theorem nearestMagnitude_int64_lt (n : Int64) :
    nearestMagnitude (n.toInt.natAbs * unitsPerOne) 1 < magnitudeLimit := by
  have hlow := n.le_toInt
  have hhigh := n.toInt_lt
  have hsize : n.toInt.natAbs ≤ 2 ^ 63 := by omega
  have hdouble := nearestMagnitude_le (n.toInt.natAbs * unitsPerOne)
  have hscaled := Nat.mul_le_mul_right unitsPerOne hsize
  have hlimit : 2 * (2 ^ 63 * unitsPerOne) < magnitudeLimit := by decide +kernel
  omega

theorem magnitudeLimit_pos : 0 < magnitudeLimit := by decide +kernel

namespace Double

/-- Zero with a sign. -/
def zero (negative : Bool) : Double :=
  ⟨negative, 0, Nat.dvd_zero _, magnitudeLimit_pos⟩

/-- The value in units. -/
def units (d : Double) : Int :=
  if d.negative then -(d.magnitude : Int) else d.magnitude

/-- The exact value. -/
def toRat (d : Double) : Rat :=
  mkRat d.units unitsPerOne

/-- Round a ratio to the nearest double; none when it is too large for one. -/
def ofRatio? (negative : Bool) (num den : Nat) : Option Double :=
  let magnitude := nearestMagnitude (num * unitsPerOne) den
  if h : magnitude < magnitudeLimit then
    some ⟨negative, magnitude, spacing_dvd_nearestMagnitude _ _, h⟩
  else none

/-- The double nearest to a whole number of 64 bits. -/
def ofInt64 (n : Int64) : Double :=
  ⟨n.toInt < 0, nearestMagnitude (n.toInt.natAbs * unitsPerOne) 1,
    spacing_dvd_nearestMagnitude _ _, nearestMagnitude_int64_lt n⟩

/-- Whether the value is a whole number. -/
def isWhole (d : Double) : Bool :=
  d.magnitude % unitsPerOne == 0

instance : LT Double := ⟨fun x y => x.units < y.units⟩
instance : LE Double := ⟨fun x y => x.units ≤ y.units⟩

instance (x y : Double) : Decidable (x < y) := inferInstanceAs (Decidable (x.units < y.units))
instance (x y : Double) : Decidable (x ≤ y) := inferInstanceAs (Decidable (x.units ≤ y.units))

theorem lt_iff {x y : Double} : x < y ↔ x.units < y.units := Iff.rfl

theorem le_iff {x y : Double} : x ≤ y ↔ x.units ≤ y.units := Iff.rfl

end Double

end FieldRules
