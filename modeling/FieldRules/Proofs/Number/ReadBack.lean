/-
The text of a number reads back as the number: whole numbers of 64 bits, and every
double, whether it is written in full or with the fewest digits.
-/
import FieldRules.Number.Literal
import FieldRules.Proofs.Number.Interval
import FieldRules.Proofs.Text.Cutting

namespace FieldRules

/-! Digits. -/

theorem digitsValue_eq (cs : List Char) : digitsValue cs = Nat.ofDigitChars 10 cs 0 := rfl

@[simp] theorem digitsValue_toDigits (n : Nat) : digitsValue (Nat.toDigits 10 n) = n := by
  simp [digitsValue_eq]

theorem digitsValue_append (xs ys : List Char) :
    digitsValue (xs ++ ys) = 10 ^ ys.length * digitsValue xs + digitsValue ys := by
  simp only [digitsValue_eq, Nat.ofDigitChars_append]
  exact Nat.ofDigitChars_eq_ofDigitChars_zero

theorem digitsValue_zeros (n : Nat) : digitsValue (List.replicate n '0') = 0 := by
  simp [digitsValue_eq]

theorem isDigit_toDigits (n : Nat) : ∀ c ∈ Nat.toDigits 10 n, c.isDigit = true :=
  fun _ h => Nat.isDigit_of_mem_toDigits (by omega) (by omega) h

/-- A number of so many digits is at least the power of ten that has as many. -/
theorem pow_le_of_length_toDigits {n : Nat} (h : 0 < n) :
    10 ^ ((Nat.toDigits 10 n).length - 1) ≤ n := by
  by_contra hlt
  rcases Nat.eq_zero_or_pos ((Nat.toDigits 10 n).length - 1) with hone | hmore
  · rw [hone] at hlt
    omega
  · have := (Nat.length_toDigits_le_iff (by omega) hmore).mpr (Nat.lt_of_not_le hlt)
    omega

theorem lt_pow_length_toDigits (n : Nat) : n < 10 ^ (Nat.toDigits 10 n).length :=
  (Nat.length_toDigits_le_iff (by omega) Nat.length_toDigits_pos).mp (Nat.le_refl _)

/-! Decimal grids. -/

/-- Going to a coarser grid divides the number of its points. -/
theorem gridStep_add (exponent : Int) (z : Nat) :
    gridStep (exponent + z) * gridScale exponent =
      10 ^ z * (gridStep exponent * gridScale (exponent + z)) := by
  simp only [gridStep, gridScale, Nat.pow_eq]
  by_cases hneg : exponent < 0
  · by_cases hsum : exponent + z < 0
    · have hz : exponent.natAbs = z + (exponent + z).natAbs := by omega
      simp only [hneg, hsum, if_true]
      rw [hz, pow_add]
      ring
    · have hz : z = (exponent + z).natAbs + exponent.natAbs := by omega
      simp only [hneg, hsum, if_true, if_false]
      rw [hz, pow_add, ← hz]
      ring
  · have hsum : ¬ exponent + z < 0 := by omega
    have hz : (exponent + z).natAbs = z + exponent.natAbs := by omega
    simp only [hneg, hsum, if_false]
    rw [hz, pow_add]
    ring

/-- A number with `n` digits before the point has a grid of sixteen digits below
the first. -/
theorem fine_of_leading {m p n : Nat} (hn : 0 < n)
    (h : 10 ^ (n - 1) * unitsPerOne ≤ m * Nat.pow 10 p) :
    10 ^ 16 * gridStep ((n : Int) - p - 17) ≤ m * gridScale ((n : Int) - p - 17) := by
  simp only [gridStep, gridScale, Nat.pow_eq] at h ⊢
  by_cases hneg : (n : Int) - p - 17 < 0
  · have he : ((n : Int) - p - 17).natAbs + (n - 1) = p + 16 := by omega
    simp only [hneg, if_true]
    generalize ((n : Int) - p - 17).natAbs = e at he
    apply Nat.le_of_mul_le_mul_right _ (Nat.pow_pos (n := p) (show 0 < 10 by omega))
    calc
      10 ^ 16 * unitsPerOne * 10 ^ p = 10 ^ e * (10 ^ (n - 1) * unitsPerOne) := by
        rw [← mul_assoc, ← pow_add, he, pow_add]
        ring
      _ ≤ 10 ^ e * (m * 10 ^ p) := Nat.mul_le_mul_left _ h
      _ = m * 10 ^ e * 10 ^ p := by ring
  · have he : n - 1 = ((n : Int) - p - 17).natAbs + 16 + p := by omega
    simp only [hneg, if_false]
    generalize ((n : Int) - p - 17).natAbs = e at he
    apply Nat.le_of_mul_le_mul_right _ (Nat.pow_pos (n := p) (show 0 < 10 by omega))
    calc
      10 ^ 16 * (unitsPerOne * 10 ^ e) * 10 ^ p = 10 ^ (n - 1) * unitsPerOne := by
        rw [he, pow_add, pow_add]
        ring
      _ ≤ m * 10 ^ p := h
      _ = m * 1 * 10 ^ p := by ring

/-- The same for a number that was shifted left far enough to be a whole number. -/
theorem fine_of_shift {m p : Nat} (hpos : 0 < m) (hshift : unitsPerOne ≤ Nat.pow 10 p) :
    let leading := (Nat.toDigits 10 (m * Nat.pow 10 p / unitsPerOne)).length
    10 ^ 16 * gridStep ((leading : Int) - p - 17) ≤ m * gridScale ((leading : Int) - p - 17) := by
  have hwhole : 0 < m * Nat.pow 10 p / unitsPerOne :=
    Nat.div_pos (hshift.trans (Nat.le_mul_of_pos_left _ hpos)) unitsPerOne_pos
  apply fine_of_leading Nat.length_toDigits_pos
  exact (Nat.le_div_iff_mul_le unitsPerOne_pos).mp (pow_le_of_length_toDigits hwhole)

theorem fine_leadingPlace {m : Nat} (hpos : 0 < m) :
    10 ^ 16 * gridStep (leadingPlace m - 17) ≤ m * gridScale (leadingPlace m - 17) := by
  have hshift : unitsPerOne ≤ Nat.pow 10 400 := by decide +kernel
  exact_mod_cast fine_of_shift hpos hshift

/-- Among seventeen digits some grid has a point that reads back. -/
theorem roundsTo_shortestForm {m : Nat} (hpos : 0 < m) (hdvd : 2 ^ (m.log2 - 52) ∣ m) :
    RoundsTo m ((shortestForm m).digits * gridStep (shortestForm m).exponent)
      (gridScale (shortestForm m).exponent) := by
  obtain ⟨last, hlast⟩ := exists_neighbour hpos hdvd (fine_leadingPlace hpos)
  have hsome : ((List.range' 1 17).findSome? fun count =>
      roundingNeighbour? m (leadingPlace m - (count : Nat))).isSome := by
    rw [List.findSome?_isSome_iff]
    exact ⟨17, by simp, by simp [hlast]⟩
  obtain ⟨n, hn⟩ := Option.isSome_iff_exists.mp hsome
  obtain ⟨count, _, hcount⟩ := List.exists_of_findSome?_eq_some hn
  obtain ⟨hexponent, hrounds⟩ := roundsTo_of_neighbour hcount
  simp only [shortestForm, hn, Option.getD_some]
  rwa [hexponent]

/-! Reading a literal. -/

/-- A ratio in the interval of a magnitude is at most twice as large. -/
theorem RoundsTo.le_two_mul {m num den : Nat} (hpos : 0 < m) (hdvd : 2 ^ (m.log2 - 52) ∣ m)
    (h : RoundsTo m num den) : num ≤ 2 * (m * den) ∧ m * den ≤ 2 * num := by
  obtain ⟨k, hk⟩ := hdvd
  generalize hs : m.log2 - 52 = s at hk
  rw [mul_comm] at hk
  subst hk
  have hkpos : 0 < k := Nat.pos_of_mul_pos_right hpos
  obtain ⟨⟨hlow, hhigh⟩, -⟩ := (roundsTo_iff hkpos hs).mp h
  have hd : k * 2 ^ s * den = k * (den * 2 ^ s) := by ring
  have hone := Nat.mul_le_mul_right (den * 2 ^ s) hkpos
  rw [hd]
  split at hlow <;> constructor <;> linarith

/-- A literal that rounds to a magnitude does not start too far to the left. -/
theorem leading_le {m digits a : Nat} {exponent : Int} (hm : m < magnitudeLimit)
    (hdigits : 0 < digits) (hlimit : 2 * magnitudeLimit ≤ 10 ^ a * unitsPerOne)
    (h : digits * gridStep exponent ≤ 2 * (m * gridScale exponent)) :
    ((Nat.toDigits 10 digits).length + exponent : Int) ≤ a := by
  have hfirst := pow_le_of_length_toDigits hdigits
  have hlength := Nat.length_toDigits_pos (b := 10) (n := digits)
  by_contra hlarge
  simp only [gridStep, gridScale, Nat.pow_eq] at h
  split at h <;> rename_i hneg
  · have hpow : 10 ^ (a + exponent.natAbs) ≤ digits :=
      (Nat.pow_le_pow_right (by omega) (by omega)).trans hfirst
    have hscaled := Nat.mul_le_mul_right unitsPerOne hpow
    have hcap := Nat.mul_lt_mul_of_pos_right hm
      (Nat.pow_pos (n := exponent.natAbs) (show 0 < 10 by omega))
    have hroom := Nat.mul_le_mul_right (10 ^ exponent.natAbs) hlimit
    rw [pow_add] at hscaled
    linarith
  · have hpow : 10 ^ a ≤ digits * 10 ^ exponent.natAbs := by
      have hscaled := Nat.mul_le_mul_right (10 ^ exponent.natAbs) hfirst
      rw [← pow_add] at hscaled
      exact (Nat.pow_le_pow_right (by omega) (by omega)).trans hscaled
    have hscaled := Nat.mul_le_mul_right unitsPerOne hpow
    linarith

/-- Nor does it start too far to the right. -/
theorem le_leading {m digits b : Nat} {exponent : Int} (hpos : 0 < m)
    (hlimit : 2 * unitsPerOne < 10 ^ b)
    (h : m * gridScale exponent ≤ 2 * (digits * gridStep exponent)) :
    -(b : Int) ≤ (Nat.toDigits 10 digits).length + exponent := by
  have hlast := lt_pow_length_toDigits digits
  by_contra hsmall
  simp only [gridStep, gridScale, Nat.pow_eq] at h
  rw [if_pos (by omega), if_pos (by omega)] at h
  have hpow : 10 ^ (Nat.toDigits 10 digits).length * 10 ^ b ≤ 10 ^ exponent.natAbs := by
    rw [← pow_add]
    exact Nat.pow_le_pow_right (by omega) (by omega)
  have hone := Nat.le_mul_of_pos_left (10 ^ exponent.natAbs) hpos
  have hunits := Nat.mul_lt_mul_of_pos_right hlast unitsPerOne_pos
  have hroom := Nat.mul_lt_mul_of_pos_left hlimit
    (Nat.pow_pos (n := (Nat.toDigits 10 digits).length) (show 0 < 10 by omega))
  linarith

/-- A literal whose value lies in the rounding interval of a double is read as that
double. -/
theorem toDouble?_eq {d : Double} {digits : Nat} {exponent : Int} (hpos : 0 < d.magnitude)
    (hdigits : 0 < digits)
    (h : RoundsTo d.magnitude (digits * gridStep exponent) (gridScale exponent)) :
    DecimalLiteral.toDouble? ⟨d.negative, digits, exponent⟩ = some d := by
  obtain ⟨hdvd, hlimit⟩ := d.isMagnitude
  obtain ⟨hle, hge⟩ := h.le_two_mul hpos hdvd
  have hhigh := leading_le (a := 310) hlimit hdigits (by decide +kernel) hle
  have hlow := le_leading (b := 330) hpos (by decide +kernel) hge
  have hnearest := nearestMagnitude_eq (gridScale_pos exponent) hpos hdvd h
  simp only [DecimalLiteral.toDouble?]
  rw [if_neg (by omega), if_neg (by omega), if_neg (by omega)]
  simp only [gridStep, gridScale] at hnearest
  split <;> rename_i hneg
  · simp only [hneg, if_true] at hnearest
    simp only [Double.ofRatio?, hnearest, hlimit, dif_pos]
  · simp only [hneg, if_false] at hnearest
    rw [mul_comm unitsPerOne, ← mul_assoc] at hnearest
    simp only [Double.ofRatio?, hnearest, hlimit, dif_pos]

/-! Positional text. -/

theorem splitSign_signed (d : Double) {c : Char} {cs : List Char} (h : c.isDigit = true) :
    splitSign (d.signed (c :: cs)) = (d.negative, c :: cs) := by
  have hminus : c ≠ '-' := by
    rintro rfl
    exact absurd h (by decide)
  have hplus : c ≠ '+' := by
    rintro rfl
    exact absurd h (by decide)
  cases hneg : d.negative <;> simp [Double.signed, hneg, splitSign, hminus, hplus]

/-- Digits after an optional sign are a literal without a fraction. -/
theorem readDecimalLiteral?_digits {cs xs : List Char} {negative : Bool}
    (hsplit : splitSign cs = (negative, xs)) (hne : xs ≠ []) (hx : ∀ c ∈ xs, c.isDigit = true) :
    readDecimalLiteral? cs = some ⟨negative, digitsValue xs, 0⟩ := by
  obtain ⟨x, xs, rfl⟩ := List.exists_cons_of_ne_nil hne
  have hspan := span_append [] hx (by simp)
  rw [List.append_nil] at hspan
  simp only [readDecimalLiteral?, hsplit, hspan]
  simp [readExponent?]

theorem readDecimalLiteral?_whole (d : Double) {xs : List Char} (hne : xs ≠ [])
    (hx : ∀ c ∈ xs, c.isDigit = true) :
    readDecimalLiteral? (d.signed xs) = some ⟨d.negative, digitsValue xs, 0⟩ := by
  obtain ⟨c, cs, rfl⟩ := List.exists_cons_of_ne_nil hne
  exact readDecimalLiteral?_digits (splitSign_signed d (hx c List.mem_cons_self)) hne hx

theorem readDecimalLiteral?_fraction (d : Double) {xs ys : List Char} (hne : xs ≠ [])
    (hx : ∀ c ∈ xs, c.isDigit = true) (hy : ∀ c ∈ ys, c.isDigit = true) :
    readDecimalLiteral? (d.signed (xs ++ '.' :: ys)) =
      some ⟨d.negative, digitsValue (xs ++ ys), -(ys.length : Int)⟩ := by
  obtain ⟨c, cs, rfl⟩ := List.exists_cons_of_ne_nil hne
  have hspan := span_append ('.' :: ys) hx (by simp)
  have hspan' := span_append [] hy (by simp)
  rw [List.append_nil] at hspan'
  simp only [readDecimalLiteral?, List.cons_append,
    splitSign_signed d (hx c List.mem_cons_self)] at hspan ⊢
  simp only [hspan, hspan']
  simp [readExponent?]

/-- The zeros at the end of a number and its other digits. -/
theorem exists_append_zeros (cs : List Char) :
    ∃ z, cs = (cs.reverse.dropWhile (· == '0')).reverse ++ List.replicate z '0' := by
  refine ⟨(cs.reverse.takeWhile (· == '0')).length, ?_⟩
  have hzeros : cs.reverse.takeWhile (· == '0') =
      List.replicate (cs.reverse.takeWhile (· == '0')).length '0' :=
    List.eq_replicate_of_mem fun c hc => by
      simpa using List.all_eq_true.mp List.all_takeWhile c hc
  have hsplit := List.takeWhile_append_dropWhile (p := (· == '0')) (l := cs.reverse)
  rw [← List.reverse_inj, List.reverse_append, List.reverse_reverse, List.reverse_replicate,
    ← hzeros, hsplit]

/-- The digits of a decimal form without the zeros at its end: they have a value of
their own, and the exponent grows by the zeros. -/
theorem exists_kept_digits {n : DecimalForm} (hpos : 0 < n.digits) :
    ∃ (kept : List Char) (z : Nat),
      ((Nat.toDigits 10 n.digits).reverse.dropWhile (· == '0')).reverse = kept ∧
        (Nat.toDigits 10 n.digits).length - kept.length = z ∧ kept ≠ [] ∧
        (∀ c ∈ kept, c.isDigit = true) ∧ n.digits = 10 ^ z * digitsValue kept := by
  obtain ⟨z, hz⟩ := exists_append_zeros (Nat.toDigits 10 n.digits)
  generalize ((Nat.toDigits 10 n.digits).reverse.dropWhile (· == '0')).reverse = kept at hz
  have hvalue := congrArg digitsValue hz
  rw [digitsValue_toDigits, digitsValue_append, digitsValue_zeros, List.length_replicate,
    Nat.add_zero] at hvalue
  refine ⟨kept, z, rfl, ?_, ?_, fun c hc => ?_, hvalue⟩
  · rw [hz, List.length_append, List.length_replicate, Nat.add_sub_cancel_left]
  · rintro rfl
    rw [hvalue] at hpos
    simp [digitsValue] at hpos
  · apply isDigit_toDigits n.digits
    rw [hz]
    exact List.mem_append_left _ hc

theorem isDigit_zeros (count : Nat) : ∀ c ∈ List.replicate count '0', c.isDigit = true := by
  intro c hc
  rw [List.eq_of_mem_replicate hc]
  decide

/-- Digits with a point at the place that a negative exponent asks for. -/
theorem readDecimalLiteral?_pointed (d : Double) {kept : List Char} {e : Int} (hneg : e < 0)
    (hne : kept ≠ []) (hdigits : ∀ c ∈ kept, c.isDigit = true) :
    readDecimalLiteral? (d.signed
        (if kept.length + e > 0 then
          kept.take (kept.length + e).toNat ++ '.' :: kept.drop (kept.length + e).toNat
        else '0' :: '.' :: List.replicate (-(kept.length + e)).toNat '0' ++ kept)) =
      some ⟨d.negative, digitsValue kept, e⟩ := by
  have hlength := List.length_pos_iff.mpr hne
  split
  · rename_i hplace
    rw [readDecimalLiteral?_fraction d, List.take_append_drop, List.length_drop]
    · simp only [Option.some.injEq, DecimalLiteral.mk.injEq, true_and]
      omega
    · rw [ne_eq, List.take_eq_nil_iff, not_or]
      exact ⟨by omega, hne⟩
    · exact fun c hc => hdigits c (List.mem_of_mem_take hc)
    · exact fun c hc => hdigits c (List.mem_of_mem_drop hc)
  · rename_i hplace
    have hread := readDecimalLiteral?_fraction d (List.cons_ne_nil '0' [])
      (List.forall_mem_singleton.mpr rfl)
      fun c hc => (List.mem_append.mp hc).elim
        (isDigit_zeros (-(kept.length + e)).toNat c) (hdigits c)
    rw [← List.append_assoc, digitsValue_append, ← List.replicate_one (a := '0'),
      List.replicate_append_replicate, digitsValue_zeros, List.length_append,
      List.length_replicate] at hread
    simp only [List.replicate_one, List.singleton_append, Nat.mul_zero, Nat.zero_add] at hread
    rw [List.cons_append, List.cons_append, hread]
    simp only [Option.some.injEq, DecimalLiteral.mk.injEq, true_and]
    omega

/-- Positional digits are a literal for the same number. -/
theorem readDecimalLiteral?_toChars (d : Double) {n : DecimalForm} (hpos : 0 < n.digits) :
    ∃ digits exponent,
      readDecimalLiteral? (d.signed n.toChars) = some ⟨d.negative, digits, exponent⟩ ∧
        0 < digits ∧
        n.digits * gridStep n.exponent * gridScale exponent =
          digits * gridStep exponent * gridScale n.exponent := by
  obtain ⟨kept, z, hkept, hz, hne, hdigits, hvalue⟩ := exists_kept_digits hpos
  have hgrid := gridStep_add n.exponent z
  have hkpos : 0 < digitsValue kept := by
    rw [hvalue] at hpos
    exact Nat.pos_of_mul_pos_left hpos
  simp only [DecimalForm.toChars, hkept, hz]
  generalize n.exponent + (z : Int) = e at hgrid
  by_cases hwhole : e ≥ 0
  · rw [if_pos hwhole]
    refine ⟨_, _, readDecimalLiteral?_whole d (by simp [hne]) fun c hc => ?_, ?_, ?_⟩
    · exact (List.mem_append.mp hc).elim (hdigits c) (isDigit_zeros _ c)
    · rw [digitsValue_append, digitsValue_zeros, List.length_replicate]
      positivity
    · have hstep : gridStep e = gridStep 0 * 10 ^ e.toNat := by
        simp [gridStep, show ¬ e < 0 by omega, show e.toNat = e.natAbs by omega]
      have hscale : gridScale e = gridScale 0 := by
        simp [gridScale, show ¬ e < 0 by omega]
      rw [hstep, hscale] at hgrid
      rw [digitsValue_append, digitsValue_zeros, List.length_replicate, hvalue, Nat.add_zero,
        mul_right_comm _ _ (gridStep n.exponent), mul_right_comm _ _ (gridScale 0), mul_assoc _ _
        (gridScale 0), ← hgrid]
      ring
  · rw [if_neg hwhole]
    refine ⟨digitsValue kept, e,
      readDecimalLiteral?_pointed d (by omega) hne hdigits, hkpos, ?_⟩
    rw [hvalue, mul_assoc _ (gridStep e), hgrid]
    ring

/-! Doubles. -/

theorem eq_zero_of_magnitude {d : Double} (h : d.magnitude = 0) : d = .zero d.negative := by
  obtain ⟨negative, magnitude, isMagnitude⟩ := d
  cases h
  rfl

/-- A literal for the number of a double is read as that double, also for zero. -/
theorem readDecimal?_eq {d : Double} {text : List Char} {digits : Nat} {exponent : Int}
    (hread : readDecimalLiteral? text = some ⟨d.negative, digits, exponent⟩)
    (hzero : d.magnitude = 0 → digits = 0)
    (hpos : 0 < d.magnitude → 0 < digits ∧
      RoundsTo d.magnitude (digits * gridStep exponent) (gridScale exponent)) :
    readDecimal? text = some d := by
  simp only [readDecimal?, hread, Option.bind_eq_bind, Option.bind_some]
  rcases Nat.eq_zero_or_pos d.magnitude with h | h
  · rw [hzero h, eq_zero_of_magnitude h]
    rfl
  · exact toDouble?_eq h (hpos h).1 (hpos h).2

theorem digits_shortestForm_pos {d : Double} (hpos : 0 < d.magnitude) :
    0 < (shortestForm d.magnitude).digits := by
  rcases Nat.eq_zero_or_pos (shortestForm d.magnitude).digits with h | h
  · have hle := ((roundsTo_shortestForm hpos d.isMagnitude.1).le_two_mul hpos d.isMagnitude.1).2
    rw [h, Nat.zero_mul] at hle
    have hscale := Nat.mul_pos hpos (gridScale_pos (shortestForm d.magnitude).exponent)
    omega
  · exact h

/-- The fewest digits read back as the double. -/
theorem readDecimal?_shortestChars (d : Double) : readDecimal? d.shortestChars = some d := by
  unfold Double.shortestChars
  split
  · rename_i hzero
    have hread := readDecimalLiteral?_whole d (List.cons_ne_nil '0' [])
      (List.forall_mem_singleton.mpr rfl)
    exact readDecimal?_eq hread (fun _ => rfl) fun hpos => absurd hzero (Nat.ne_of_gt hpos)
  · rename_i hne
    have hpos := Nat.pos_of_ne_zero hne
    have hrounds := roundsTo_shortestForm hpos d.isMagnitude.1
    obtain ⟨digits, exponent, hread, hdigits, hratio⟩ :=
      readDecimalLiteral?_toChars d (digits_shortestForm_pos hpos)
    exact readDecimal?_eq hread (fun h => absurd h hne) fun _ =>
      ⟨hdigits, hrounds.of_ratio_eq (gridScale_pos _) (gridScale_pos _) hratio⟩

/-- So does the text of a bound, where whole numbers are written in full. -/
theorem readDecimal?_exactChars (d : Double) : readDecimal? d.exactChars = some d := by
  unfold Double.exactChars
  split
  · rename_i hwhole
    have hdvd : unitsPerOne ∣ d.magnitude := by
      simpa [Double.isWhole, Nat.dvd_iff_mod_eq_zero] using hwhole
    obtain ⟨n, hn⟩ := hdvd
    have hdiv : d.magnitude / unitsPerOne = n := by
      rw [hn, Nat.mul_div_cancel_left _ unitsPerOne_pos]
    have hread := readDecimalLiteral?_whole d Nat.toDigits_ne_nil (isDigit_toDigits n)
    rw [digitsValue_toDigits] at hread
    rw [hdiv]
    refine readDecimal?_eq hread (fun h => ?_) fun hpos => ⟨?_, ?_⟩
    · rw [hn] at h
      exact (Nat.mul_eq_zero.mp h).resolve_left (Nat.ne_of_gt unitsPerOne_pos)
    · rw [hn] at hpos
      exact Nat.pos_of_mul_pos_left hpos
    · have hself := roundsTo_self hpos d.isMagnitude.1
      simpa [gridStep, gridScale, hn, mul_comm] using hself
  · exact readDecimal?_shortestChars d

/-- A whole number stays whole when it is rounded to a double. -/
theorem unitsPerOne_dvd_nearestMagnitude (n : Nat) :
    unitsPerOne ∣ nearestMagnitude (n * unitsPerOne) 1 := by
  have hpow : ∃ k, unitsPerOne = Nat.pow 2 k := by
    unfold unitsPerOne
    exact exists_apply_eq_apply' _ _
  obtain ⟨k, hk⟩ := hpow
  simp only [nearestMagnitude, Nat.pow_eq, Nat.one_mul, hk]
  generalize (n * 2 ^ k / 1).log2 - 52 = shift
  rcases Nat.le_total k shift with h | h
  · exact Nat.dvd_mul_left_of_dvd (Nat.pow_dvd_pow 2 h) _
  · have hdvd : 2 ^ shift ∣ n * 2 ^ k := Nat.dvd_mul_left_of_dvd (Nat.pow_dvd_pow 2 h) n
    rw [roundHalfEven_of_dvd (Nat.two_pow_pos shift) hdvd, Nat.div_mul_cancel hdvd]
    exact Nat.dvd_mul_left _ _

/-- A whole number above a power of ten is the same number above one. -/
theorem nearestMagnitude_mul_right {k : Nat} (hk : 0 < k) (n : Nat) :
    nearestMagnitude (n * k) k = nearestMagnitude n 1 := by
  simp only [nearestMagnitude, Nat.mul_div_cancel n hk, Nat.div_one, Nat.one_mul]
  congr 1
  rw [Nat.mul_comm n k]
  simp only [roundHalfEven, Nat.mul_div_mul_left _ _ hk, Nat.mul_mod_mul_left,
    Nat.mul_left_comm 2 k, Nat.mul_lt_mul_left hk]

/-- A literal for a whole number is read as a whole double. -/
theorem isWhole_of_literal {cs : List Char} {negative : Bool} {digits places n : Nat} {d : Double}
    (hliteral : readDecimalLiteral? cs = some ⟨negative, digits, -(places : Int)⟩)
    (hvalue : digits = n * 10 ^ places) (h : readDecimal? cs = some d) : d.isWhole = true := by
  have hratio : ∀ m scale, nearestMagnitude (m * unitsPerOne) scale =
      nearestMagnitude (n * unitsPerOne) 1 → Double.ofRatio? negative m scale = some d →
        d.isWhole = true := by
    intro m scale hnearest hd
    rw [Double.ofRatio?] at hd
    split at hd
    · have hdvd : unitsPerOne ∣ nearestMagnitude (m * unitsPerOne) scale := by
        rw [hnearest]
        exact unitsPerOne_dvd_nearestMagnitude n
      cases hd
      exact beq_iff_eq.mpr (Nat.mod_eq_zero_of_dvd hdvd)
    · cases hd
  simp only [readDecimal?, hliteral, Option.bind_eq_bind, Option.bind_some,
    DecimalLiteral.toDouble?] at h
  split at h
  · cases h
    rfl
  · split at h
    · cases h
    · split at h
      · cases h
        rfl
      · split at h
        · refine hratio _ _ ?_ h
          rw [hvalue, Int.natAbs_neg, Int.natAbs_natCast, Nat.pow_eq, Nat.mul_right_comm,
            nearestMagnitude_mul_right (by positivity)]
        · have hplaces : places = 0 := by omega
          refine hratio _ _ ?_ h
          simp [hvalue, hplaces]

/-- Digits alone are read as a whole number. -/
theorem isWhole_of_digits {cs digits : List Char} {negative : Bool} {d : Double}
    (hsplit : splitSign cs = (negative, digits)) (hne : digits ≠ [])
    (hdigits : ∀ c ∈ digits, c.isDigit = true) (h : readDecimal? cs = some d) :
    d.isWhole = true := by
  have hliteral : readDecimalLiteral? cs = some ⟨negative, digitsValue digits, -((0 : Nat) : Int)⟩ :=
    readDecimalLiteral?_digits hsplit hne hdigits
  exact isWhole_of_literal hliteral (Nat.mul_one _).symm h

/-- The text of a whole number is its digits. -/
theorem splitSign_exactChars {d : Double} (h : d.isWhole = true) :
    ∃ digits, splitSign d.exactChars = (d.negative, digits) ∧ digits ≠ [] ∧
      (∀ c ∈ digits, c.isDigit = true) ∧ d.magnitude = digitsValue digits * unitsPerOne := by
  refine ⟨Nat.toDigits 10 (d.magnitude / unitsPerOne), ?_, Nat.toDigits_ne_nil,
    isDigit_toDigits _, ?_⟩
  · obtain ⟨c, cs, hcs⟩ := List.exists_cons_of_ne_nil
      (Nat.toDigits_ne_nil (b := 10) (n := d.magnitude / unitsPerOne))
    have hc : c.isDigit = true := isDigit_toDigits _ c (hcs ▸ List.mem_cons_self)
    rw [Double.exactChars, if_pos h, hcs, splitSign_signed d hc]
  · rw [digitsValue_toDigits]
    exact (Nat.div_mul_cancel (Nat.dvd_of_mod_eq_zero (beq_iff_eq.mp h))).symm

theorem mem_toChars {n : DecimalForm} {c : Char} (h : c ∈ n.toChars) :
    c = '.' ∨ c.isDigit = true := by
  have hkept : ∀ c ∈ ((Nat.toDigits 10 n.digits).reverse.dropWhile (· == '0')).reverse,
      c.isDigit = true := by
    intro c hc
    apply isDigit_toDigits n.digits
    exact List.mem_reverse.mp ((List.dropWhile_sublist _).mem (List.mem_reverse.mp hc))
  simp only [DecimalForm.toChars] at h
  split at h
  · rcases List.mem_append.mp h with h | h
    · exact Or.inr (hkept c h)
    · exact Or.inr (isDigit_zeros _ c h)
  · split at h
    · rcases List.mem_append.mp h with h | h
      · exact Or.inr (hkept c (List.mem_of_mem_take h))
      · rcases List.mem_cons.mp h with h | h
        · exact Or.inl h
        · exact Or.inr (hkept c (List.mem_of_mem_drop h))
    · simp only [List.cons_append, List.mem_cons, List.mem_append] at h
      rcases h with rfl | rfl | h | h
      · exact Or.inr (by decide)
      · exact Or.inl rfl
      · exact Or.inr (isDigit_zeros _ c h)
      · exact Or.inr (hkept c h)

/-- The text of a bound has digits, a point and a sign only. -/
theorem mem_exactChars {d : Double} {c : Char} (h : c ∈ d.exactChars) :
    c = '-' ∨ c = '.' ∨ c.isDigit = true := by
  have hsigned : ∀ {text : List Char}, c ∈ d.signed text → c = '-' ∨ c ∈ text := by
    intro text hmem
    unfold Double.signed at hmem
    split at hmem
    · exact List.mem_cons.mp hmem
    · exact Or.inr hmem
  unfold Double.exactChars at h
  split at h
  · rcases hsigned h with h | h
    · exact Or.inl h
    · exact Or.inr (Or.inr (isDigit_toDigits _ c h))
  · rcases hsigned h with h | h
    · exact Or.inl h
    · split at h
      · exact Or.inr (Or.inr (List.mem_singleton.mp h ▸ by decide))
      · exact Or.inr (mem_toChars h)

/-! Whole numbers. -/

theorem toList_int (n : Int) :
    (toString n).toList = (if n < 0 then ['-'] else []) ++ Nat.toDigits 10 n.natAbs := by
  cases n with
  | ofNat k =>
      have hpos : ¬ ((k : Int) < 0) := by omega
      simp [Nat.repr, Int.repr, hpos]
  | negSucc k =>
      rw [if_pos (Int.negSucc_lt_zero k)]
      simp [Nat.repr, Int.repr, toString]

theorem mem_int {n : Int} {c : Char} (h : c ∈ (toString n).toList) :
    c = '-' ∨ c.isDigit = true := by
  rw [toList_int, List.mem_append] at h
  rcases h with h | h
  · split at h
    · exact Or.inl (List.mem_singleton.mp h)
    · cases h
  · exact Or.inr (isDigit_toDigits _ c h)

theorem splitSign_int (n : Int) :
    splitSign (toString n).toList = (decide (n < 0), Nat.toDigits 10 n.natAbs) := by
  rw [toList_int]
  by_cases hneg : n < 0
  · simp [hneg, splitSign]
  · obtain ⟨c, cs, hcs⟩ := List.exists_cons_of_ne_nil
      (Nat.toDigits_ne_nil (b := 10) (n := n.natAbs))
    have hc : c.isDigit = true := isDigit_toDigits n.natAbs c (hcs ▸ List.mem_cons_self)
    have hsigned : splitSign ((Double.zero false).signed (c :: cs)) = (false, c :: cs) :=
      splitSign_signed _ hc
    simpa [hneg, hcs, Double.signed, Double.zero] using hsigned

theorem readInteger?_int (n : Int64) : readInteger? (toString n.toInt).toList = some n := by
  have hdigits : (Nat.toDigits 10 n.toInt.natAbs).all Char.isDigit = true :=
    List.all_eq_true.mpr (isDigit_toDigits _)
  have hvalue : (if decide (n.toInt < 0) = true then -(n.toInt.natAbs : Int)
      else n.toInt.natAbs) = n.toInt := by
    by_cases hneg : n.toInt < 0
    · rw [if_pos (decide_eq_true hneg)]
      omega
    · rw [if_neg (by simpa using hneg)]
      omega
  have hmax : n.toInt ≤ Int64.maxValue.toInt := Int.le_of_lt_add_one n.toInt_lt
  have hsome : ¬ ((Nat.toDigits 10 n.toInt.natAbs).isEmpty ||
      !(Nat.toDigits 10 n.toInt.natAbs).all Char.isDigit) = true := by
    simp [hdigits]
  simp only [readInteger?, splitSign_int, if_neg hsome, digitsValue_toDigits, hvalue]
  rw [if_pos ⟨n.minValue_le_toInt, hmax⟩, Int64.ofInt_toInt]

end FieldRules
