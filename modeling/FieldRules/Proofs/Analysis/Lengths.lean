/-
What the lint for contradicting bounds finds about lengths.  A length is a natural number and its
bounds are whole numbers, but the lint compares the bounds as doubles and takes every number
between them for a length.  So each report is right, and what is missed is a rejection that only a
negative bound or one of more than 53 bits can make.
-/
import FieldRules.Proofs.Analysis.Intervals
import Mathlib.Data.Set.Finite.Lattice
import Mathlib.Data.Set.Finite.List

namespace FieldRules

/-- The lengths that a value has to reach. -/
def Rule.atLeast : Rule → List Int64
  | length rule => rule.min.toList ++ rule.equal.toList
  | range _ => []

/-- The lengths that a value may not exceed. -/
def Rule.atMost : Rule → List Int64
  | length rule => rule.max.toList ++ rule.equal.toList
  | range _ => []

/-- A length fails a rule when it lies below or above one of the bounds, however these are read as
numbers.  A rule for one length alone bounds it on both sides. -/
theorem Rule.exists_length_condition_iff (rule : Rule) (access : String) (read : Bound → Rat)
    (q : Rat) :
    (∃ c ∈ rule.conditions access, c.operand.isLen = true ∧
        c.comparison.holds (.finite q) (.finite (read c.bound)) = true) ↔
      (∃ l ∈ rule.atLeast, q < read (.int l)) ∨ ∃ u ∈ rule.atMost, read (.int u) < q := by
  cases rule with
  | length rule =>
      have hbound : ∀ (bound : Option Int64) (condition : Int64 → Condition)
          (P : Condition → Prop),
          (∃ c ∈ (bound.map condition).toList, P c) ↔ ∃ n ∈ bound.toList, P (condition n) := by
        intro bound condition P
        cases bound <;> simp
      simp only [conditions, Length.conditions, atLeast, atMost, List.mem_append, or_and_right,
        exists_or, hbound, Operand.isLen, true_and, Comparison.holds_finite, ne_iff_lt_or_gt,
        and_or_left]
      exact or_or_or_comm
  | range rule =>
      constructor
      · rintro ⟨c, hc, hlen, -⟩
        rw [(Range.condition_of_mem hc).1] at hlen
        cases hlen
      · rintro (⟨l, hl, -⟩ | ⟨u, hu, -⟩)
        · cases hl
        · cases hu

namespace Field

def atLeast (f : Field) : List Int64 := f.rules.flatMap Rule.atLeast

def atMost (f : Field) : List Int64 := f.rules.flatMap Rule.atMost

theorem exists_length_check_iff (f : Field) (read : Bound → Rat) (q : Rat) :
    (∃ c ∈ f.checks, c.condition.operand.isLen = true ∧
        c.condition.comparison.holds (.finite q) (.finite (read c.condition.bound)) = true) ↔
      (∃ l ∈ f.atLeast, q < read (.int l)) ∨ ∃ u ∈ f.atMost, read (.int u) < q := by
  rw [f.exists_check_iff fun c => c.operand.isLen = true ∧
    c.comparison.holds (.finite q) (.finite (read c.bound)) = true]
  simp only [Rule.exists_length_condition_iff, atLeast, atMost, List.mem_flatMap]
  constructor
  · rintro ⟨rule, hrule, ⟨l, hl, hlt⟩ | ⟨u, hu, hlt⟩⟩
    · exact .inl ⟨l, ⟨rule, hrule, hl⟩, hlt⟩
    · exact .inr ⟨u, ⟨rule, hrule, hu⟩, hlt⟩
  · rintro (⟨l, ⟨rule, hrule, hl⟩, hlt⟩ | ⟨u, ⟨rule, hrule, hu⟩, hlt⟩)
    · exact ⟨rule, hrule, .inl ⟨l, hl, hlt⟩⟩
    · exact ⟨rule, hrule, .inr ⟨u, hu, hlt⟩⟩

end Field

/-! Numbers between bounds. -/

/-- From a start below all upper bounds on, there is a number between the bounds unless two of
them cross. -/
theorem exists_between_bounds {α : Type} [LinearOrder α] (lowers uppers : List α) (start : α)
    (hstart : ∀ u ∈ uppers, start ≤ u) (hbounds : ∀ l ∈ lowers, ∀ u ∈ uppers, l ≤ u) :
    ∃ x, start ≤ x ∧ (∀ l ∈ lowers, l ≤ x) ∧ ∀ u ∈ uppers, x ≤ u := by
  induction lowers generalizing start with
  | nil => exact ⟨start, le_refl start, by simp, hstart⟩
  | cons l lowers ih =>
      rw [List.forall_mem_cons] at hbounds
      obtain ⟨x, hx, hlowers, huppers⟩ := ih (max start l)
        (fun u hu => max_le (hstart u hu) (hbounds.1 u hu)) hbounds.2
      exact ⟨x, (le_max_left start l).trans hx,
        List.forall_mem_cons.mpr ⟨(le_max_right start l).trans hx, hlowers⟩, huppers⟩

namespace Field

/-- No length that a value can have passes the checks on lengths. -/
def RejectsLengths (f : Field) : Prop := ∀ n : Nat, f.FailsCheck true n

/-- All lengths are rejected when a bound excludes all of them, or two bounds cross. -/
theorem rejectsLengths_iff (f : Field) :
    f.RejectsLengths ↔
      (∃ u ∈ f.atMost, u.toInt < 0) ∨ ∃ l ∈ f.atLeast, ∃ u ∈ f.atMost, u.toInt < l.toInt := by
  have hfails : ∀ n : Nat, f.FailsCheck true n ↔
      (∃ l ∈ f.atLeast, n < l.toInt) ∨ ∃ u ∈ f.atMost, u.toInt < n := by
    intro n
    rw [FailsCheck, f.exists_length_check_iff Bound.value]
    simp only [Bound.value, ← Int.cast_natCast (R := Rat), Int.cast_lt]
  simp only [RejectsLengths, hfails]
  constructor
  · intro hall
    by_contra hnone
    simp only [not_or, not_exists, not_and, not_lt] at hnone
    obtain ⟨n, hstart, hlowers, huppers⟩ := exists_between_bounds (f.atLeast.map Int64.toInt)
      (f.atMost.map Int64.toInt) 0 (List.forall_mem_map.mpr hnone.1)
      (List.forall_mem_map.mpr fun l hl => List.forall_mem_map.mpr (hnone.2 l hl))
    rw [List.forall_mem_map] at hlowers huppers
    obtain ⟨n, rfl⟩ := Int.eq_ofNat_of_zero_le hstart
    rcases hall n with ⟨l, hl, hlt⟩ | ⟨u, hu, hlt⟩
    · exact absurd hlt (not_lt.mpr (hlowers l hl))
    · exact absurd hlt (not_lt.mpr (huppers u hu))
  · rintro (⟨u, hu, hnegative⟩ | ⟨l, hl, u, hu, hcross⟩) n
    · exact .inr ⟨u, hu, by omega⟩
    · rcases lt_or_ge (n : Int) l.toInt with hlt | hle
      · exact .inl ⟨l, hl, hlt⟩
      · exact .inr ⟨u, hu, by omega⟩

instance (f : Field) : Decidable f.RejectsLengths := decidable_of_iff _ f.rejectsLengths_iff.symm

/-- The bounds of lengths do not cross once they are doubles. -/
def RoundedFit (f : Field) : Prop :=
  ∀ l ∈ f.atLeast, ∀ u ∈ f.atMost, (Double.ofInt64 l).toRat ≤ (Double.ofInt64 u).toRat

theorem roundedFit_iff (f : Field) :
    f.RoundedFit ↔ (f.atLeast.all fun l => f.atMost.all fun u =>
      (Double.ofInt64 l).units ≤ (Double.ofInt64 u).units) = true := by
  simp only [RoundedFit, Double.toRat_le_iff, List.all_eq_true, decide_eq_true_eq]

instance (f : Field) : Decidable f.RoundedFit := decidable_of_iff _ f.roundedFit_iff.symm

theorem isEmpty_lengths_iff (f : Field) :
    (admitted true f.checks).isEmpty = true ↔ ¬ f.RoundedFit := by
  have hfails := f.exists_length_check_iff fun b => b.toDouble.toRat
  simp only [isEmpty_admitted_iff, hfails, RoundedFit, not_forall, exists_prop, not_le]
  simp only [Bound.toDouble]
  constructor
  · intro hall
    by_contra hnone
    simp only [not_exists, not_and, not_lt] at hnone
    let value (n : Int64) : Rat := (Double.ofInt64 n).toRat
    obtain ⟨start, hstart⟩ := (List.finite_toSet (f.atMost.map value)).bddBelow
    obtain ⟨q, -, hlowers, huppers⟩ := exists_between_bounds (f.atLeast.map value)
      (f.atMost.map value) start (fun u hu => hstart hu)
      (List.forall_mem_map.mpr fun l hl => List.forall_mem_map.mpr (hnone l hl))
    rw [List.forall_mem_map] at hlowers huppers
    rcases hall q with ⟨l, hl, hlt⟩ | ⟨u, hu, hlt⟩
    · exact absurd hlt (not_lt.mpr (hlowers l hl))
    · exact absurd hlt (not_lt.mpr (huppers u hu))
  · rintro ⟨l, hl, u, hu, hcross⟩ q
    rcases lt_or_ge q (Double.ofInt64 l).toRat with hlt | hle
    · exact .inl ⟨l, hl, hlt⟩
    · exact .inr ⟨u, hu, hcross.trans_le hle⟩

/-- Rounding cannot make bounds cross, so what is reported does reject all lengths. -/
theorem rejectsLengths_of_not_fit {f : Field} (h : ¬ f.RoundedFit) : f.RejectsLengths := by
  simp only [RoundedFit, not_forall, exists_prop, not_le] at h
  obtain ⟨l, hl, u, hu, hcross⟩ := h
  refine f.rejectsLengths_iff.mpr (.inr ⟨l, hl, u, hu, ?_⟩)
  by_contra hle
  exact absurd hcross (not_lt.mpr (Double.toRat_le_iff.mpr
    (Double.units_ofInt64_mono (not_lt.mp hle))))

/-- Bounds that reject all lengths also cross as doubles, unless one is negative or large. -/
theorem bound_of_missed {f : Field} (h : f.RejectsLengths) (hfit : f.RoundedFit) :
    (∃ u ∈ f.atMost, u.toInt < 0) ∨ ∃ n ∈ f.atLeast ++ f.atMost, 2 ^ 53 < n.toInt.natAbs := by
  rcases f.rejectsLengths_iff.mp h with hnegative | ⟨l, hl, u, hu, hcross⟩
  · exact .inl hnegative
  · right
    by_contra hsmall
    simp only [not_exists, not_and, not_lt] at hsmall
    have hrounded := hfit l hl u hu
    rw [Double.toRat_ofInt64 (hsmall l (List.mem_append_left _ hl)),
      Double.toRat_ofInt64 (hsmall u (List.mem_append_right _ hu)), Int.cast_le] at hrounded
    exact absurd hcross (not_lt.mpr hrounded)

end Field

/-- The lint reports the fields that reject all lengths, each once and in order, and leaves out
those whose bounds fit as doubles.  These have a negative bound or one of more than 53 bits. -/
theorem contradictoryBounds_lengths (file : AnnotatedFile) :
    (contradictoryBounds.check file).filter (Diagnostic.reportsNo "length") =
        (file.records.flatMap fun (record, fields) =>
          (fields.filter fun f => f.RejectsLengths ∧ ¬ f.RoundedFit).map
            (contradiction "length" record)) ∧
      ∀ f : Field, f.RejectsLengths → f.RoundedFit →
        (∃ u ∈ f.atMost, u.toInt < 0) ∨
          ∃ n ∈ f.atLeast ++ f.atMost, 2 ^ 53 < n.toInt.natAbs := by
  have hempty : ∀ f : Field, (admitted true f.checks).isEmpty =
      decide (f.RejectsLengths ∧ ¬ f.RoundedFit) := by
    intro f
    rw [Bool.eq_iff_iff, decide_eq_true_iff, f.isEmpty_lengths_iff]
    exact (and_iff_right_of_imp Field.rejectsLengths_of_not_fit).symm
  exact ⟨by simpa only [hempty, measured] using filter_contradictoryBounds true file,
    fun _ => Field.bound_of_missed⟩

/-- A field of strings under one rule of lengths. -/
def boundedText (name : String) (min max : Option Int64) : Field :=
  ⟨name, .direct (.named "string"), [.length ⟨min, max, none, none, none⟩], false⟩

/-- No length is at most -1, and none lies between two bounds that are the same double and cross;
about both the lint says nothing. -/
theorem contradictoryBounds_misses :
    let fields := [boundedText "Negative" none (some (-1)),
      boundedText "Large" (some 9007199254740993) (some 9007199254740992)]
    (∀ f ∈ fields, f.RejectsLengths) ∧
      contradictoryBounds.check ⟨"a.go", "v1", [⟨"A", .record fields⟩]⟩ = [] := by
  decide +kernel

end FieldRules
