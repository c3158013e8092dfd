/-
What the lint for contradicting bounds finds.  Its interval holds exactly the numbers that pass
the checks met so far, whatever their order, and so the report that no value is left is exact.
-/
import FieldRules.Analysis.Lint.Bounds
import FieldRules.Proofs.Code.Checks
import FieldRules.Proofs.Rule.Conditions
import FieldRules.Proofs.Number.Order
import Mathlib.Algebra.Order.Field.Basic

namespace FieldRules

/-! Numbers between two ends. -/

theorem Comparison.holds_finite (c : Comparison) (p q : Rat) :
    c.holds (.finite p) (.finite q) = true ↔
      match c with
      | lt => p < q
      | le => p ≤ q
      | gt => q < p
      | ge => q ≤ p
      | ne => p ≠ q := by
  cases c with
  | lt => simp [holds, GoNumber.below]
  | le => simp [holds, GoNumber.below, GoNumber.same, le_iff_lt_or_eq]
  | gt => simp [holds, GoNumber.below]
  | ge => simp [holds, GoNumber.below, GoNumber.same, le_iff_lt_or_eq, eq_comm (a := q)]
  | ne => simp [holds, GoNumber.same]

namespace Edge

/-- The number is not left out by this end, taken as the lower one. -/
def Under (e : Edge) (q : Rat) : Prop :=
  e.value.toRat < q ∨ (e.strict = false ∧ e.value.toRat = q)

/-- The number is not left out by this end, taken as the upper one. -/
def Over (e : Edge) (q : Rat) : Prop :=
  q < e.value.toRat ∨ (e.strict = false ∧ q = e.value.toRat)

variable {cur e : Edge} {q : Rat}

theorem lowerCovers_iff : Interval.lowerCovers cur e = true ↔
    e.value.toRat < cur.value.toRat ∨
      (cur.value.toRat = e.value.toRat ∧ cur.strict = true) := by
  rw [Double.toRat_lt_iff, Double.toRat_eq_iff]
  simp [Interval.lowerCovers]

theorem upperCovers_iff : Interval.upperCovers cur e = true ↔
    cur.value.toRat < e.value.toRat ∨
      (cur.value.toRat = e.value.toRat ∧ cur.strict = true) := by
  rw [Double.toRat_lt_iff, Double.toRat_eq_iff]
  simp [Interval.upperCovers]

theorem Under.le (h : e.Under q) : e.value.toRat ≤ q :=
  h.elim le_of_lt fun h => le_of_eq h.2

theorem Under.lt (h : e.Under q) (hstrict : e.strict = true) : e.value.toRat < q :=
  h.resolve_right fun h => absurd (h.1.symm.trans hstrict) Bool.false_ne_true

theorem Over.le (h : e.Over q) : q ≤ e.value.toRat :=
  h.elim le_of_lt fun h => le_of_eq h.2

theorem Over.lt (h : e.Over q) (hstrict : e.strict = true) : q < e.value.toRat :=
  h.resolve_right fun h => absurd (h.1.symm.trans hstrict) Bool.false_ne_true

/-- A lower end that stays leaves out all that the other one would. -/
theorem Under.of_covers (h : Interval.lowerCovers cur e = true) (hq : cur.Under q) : e.Under q := by
  rcases lowerCovers_iff.mp h with hlt | ⟨heq, hstrict⟩
  · exact .inl (hlt.trans_le hq.le)
  · exact .inl (heq.symm.trans_lt (hq.lt hstrict))

/-- A lower end that is replaced leaves out nothing that the new one lets through. -/
theorem Under.of_not_covers (h : ¬ Interval.lowerCovers cur e = true) (hq : e.Under q) :
    cur.Under q := by
  rw [lowerCovers_iff, not_or, not_lt, not_and, Bool.not_eq_true] at h
  obtain ⟨hle, hloose⟩ := h
  rcases lt_or_eq_of_le hle with hlt | heq
  · exact .inl (hlt.trans_le hq.le)
  · rcases lt_or_eq_of_le hq.le with hlt | hend
    · exact .inl (heq.trans_lt hlt)
    · exact .inr ⟨hloose heq, heq.trans hend⟩

/-- An upper end that stays leaves out all that the other one would. -/
theorem Over.of_covers (h : Interval.upperCovers cur e = true) (hq : cur.Over q) : e.Over q := by
  rcases upperCovers_iff.mp h with hlt | ⟨heq, hstrict⟩
  · exact .inl (hq.le.trans_lt hlt)
  · exact .inl ((hq.lt hstrict).trans_eq heq)

/-- An upper end that is replaced leaves out nothing that the new one lets through. -/
theorem Over.of_not_covers (h : ¬ Interval.upperCovers cur e = true) (hq : e.Over q) :
    cur.Over q := by
  rw [upperCovers_iff, not_or, not_lt, not_and, Bool.not_eq_true] at h
  obtain ⟨hle, hloose⟩ := h
  rcases lt_or_eq_of_le hle with hlt | heq
  · exact .inl (hq.le.trans_lt hlt)
  · rcases lt_or_eq_of_le hq.le with hlt | hend
    · exact .inl (hlt.trans_eq heq)
    · exact .inr ⟨hloose heq.symm, hend.trans heq⟩

end Edge

namespace Interval

/-- The number lies between the two ends. -/
def Admits (i : Interval) (q : Rat) : Prop :=
  (∀ e ∈ i.lower, e.Under q) ∧ ∀ e ∈ i.upper, e.Over q

variable {i : Interval} {e : Edge} {q : Rat}

theorem admits_full (q : Rat) : full.Admits q := by simp [Admits, full]

theorem admits_raise : (i.raise e).Admits q ↔ i.Admits q ∧ e.Under q := by
  obtain ⟨lower, upper⟩ := i
  cases lower with
  | none => simp [raise, Admits, and_comm]
  | some cur =>
      simp only [raise, Option.any_some]
      split
      · rename_i hcovers
        have hcur : cur.Under q → e.Under q := Edge.Under.of_covers hcovers
        simp only [Admits, Option.mem_def, Option.some.injEq, forall_eq']
        exact ⟨fun h => ⟨h, hcur h.1⟩, And.left⟩
      · rename_i hcovers
        have hnew : e.Under q → cur.Under q := Edge.Under.of_not_covers hcovers
        simp only [Admits, Option.mem_def, Option.some.injEq, forall_eq']
        exact ⟨fun h => ⟨⟨hnew h.1, h.2⟩, h.1⟩, fun h => ⟨h.2, h.1.2⟩⟩

theorem admits_cap : (i.cap e).Admits q ↔ i.Admits q ∧ e.Over q := by
  obtain ⟨lower, upper⟩ := i
  cases upper with
  | none => simp [cap, Admits]
  | some cur =>
      simp only [cap, Option.any_some]
      split
      · rename_i hcovers
        have hcur : cur.Over q → e.Over q := Edge.Over.of_covers hcovers
        simp only [Admits, Option.mem_def, Option.some.injEq, forall_eq']
        exact ⟨fun h => ⟨h, hcur h.2⟩, And.left⟩
      · rename_i hcovers
        have hnew : e.Over q → cur.Over q := Edge.Over.of_not_covers hcovers
        simp only [Admits, Option.mem_def, Option.some.injEq, forall_eq']
        exact ⟨fun h => ⟨⟨h.1, hnew h.2⟩, h.2⟩, fun h => ⟨h.1.1, h.2⟩⟩

theorem under_loose (b : Double) : Edge.Under ⟨b, false⟩ q ↔ b.toRat ≤ q := by
  simp [Edge.Under, le_iff_lt_or_eq]

theorem under_strict (b : Double) : Edge.Under ⟨b, true⟩ q ↔ b.toRat < q := by
  simp [Edge.Under]

theorem over_loose (b : Double) : Edge.Over ⟨b, false⟩ q ↔ q ≤ b.toRat := by
  simp [Edge.Over, le_iff_lt_or_eq]

theorem over_strict (b : Double) : Edge.Over ⟨b, true⟩ q ↔ q < b.toRat := by
  simp [Edge.Over]

/-- One check takes exactly the numbers away that it fails. -/
theorem admits_exclude (c : Comparison) (b : Double) :
    (i.exclude c b).Admits q ↔ i.Admits q ∧ ¬ c.holds (.finite q) (.finite b.toRat) = true := by
  rw [Comparison.holds_finite]
  cases c with
  | lt => rw [exclude, admits_raise, under_loose, not_lt]
  | le => rw [exclude, admits_raise, under_strict, not_le]
  | gt => rw [exclude, admits_cap, over_loose, not_lt]
  | ge => rw [exclude, admits_cap, over_strict, not_le]
  | ne =>
      rw [exclude, admits_cap, admits_raise, under_loose, over_loose, not_not, and_assoc,
        le_antisymm_iff, and_comm (a := b.toRat ≤ q)]

theorem isEmpty_some_iff {lo hi : Edge} : isEmpty ⟨some lo, some hi⟩ = true ↔
    hi.value.toRat < lo.value.toRat ∨
      (lo.value.toRat = hi.value.toRat ∧ (lo.strict = true ∨ hi.strict = true)) := by
  rw [Double.toRat_lt_iff, Double.toRat_eq_iff]
  simp [isEmpty]

/-- Between two ends lies a number, unless they cross or meet where one of them is strict.  For
this the numbers have to be dense. -/
theorem isEmpty_iff : i.isEmpty = true ↔ ∀ q, ¬ i.Admits q := by
  obtain ⟨lower, upper⟩ := i
  cases lower with
  | none =>
      cases upper with
      | none => exact iff_of_false Bool.false_ne_true fun h => h 0 (admits_full 0)
      | some hi =>
          have hbelow : Admits ⟨none, some hi⟩ (hi.value.toRat - 1) := by
            simp [Admits, Edge.Over]
          exact iff_of_false Bool.false_ne_true fun h => h _ hbelow
  | some lo =>
      cases upper with
      | none =>
          have habove : Admits ⟨some lo, none⟩ (lo.value.toRat + 1) := by
            simp [Admits, Edge.Under]
          exact iff_of_false Bool.false_ne_true fun h => h _ habove
      | some hi =>
          have hadmits : ∀ q, Admits ⟨some lo, some hi⟩ q ↔ lo.Under q ∧ hi.Over q := by
            simp [Admits]
          simp only [hadmits, isEmpty_some_iff]
          constructor
          · rintro (hcross | ⟨hmeet, hstrict⟩) q ⟨hlo, hhi⟩
            · exact absurd (hlo.le.trans hhi.le) (not_le.mpr hcross)
            · rcases hstrict with hstrict | hstrict
              · exact absurd (hlo.lt hstrict) (not_lt.mpr (hhi.le.trans hmeet.ge))
              · exact absurd (hhi.lt hstrict) (not_lt.mpr (hmeet.ge.trans hlo.le))
          · intro h
            by_contra hcross
            rw [not_or, not_lt, not_and, not_or, Bool.not_eq_true, Bool.not_eq_true] at hcross
            obtain ⟨hle, hends⟩ := hcross
            rcases lt_or_eq_of_le hle with hlt | heq
            · obtain ⟨q, hlo, hhi⟩ := exists_between hlt
              exact h q ⟨.inl hlo, .inl hhi⟩
            · obtain ⟨hlo, hhi⟩ := hends heq
              exact h lo.value.toRat ⟨.inr ⟨hlo, rfl⟩, .inr ⟨hhi, heq⟩⟩

end Interval

/-! The run over the checks of a field. -/

section Run

variable {q : Rat}

/-- After some checks, what was admitted before and passes all of them. -/
theorem Interval.admits_foldl (checks : List Check) (i : Interval) :
    (checks.foldl (fun i c => i.exclude c.condition.comparison c.condition.bound.toDouble)
        i).Admits q ↔
      i.Admits q ∧ ∀ c ∈ checks,
        ¬ c.condition.comparison.holds (.finite q) (.finite c.condition.bound.toDouble.toRat) =
          true := by
  induction checks generalizing i with
  | nil => simp
  | cons c checks ih => rw [List.foldl_cons, ih, admits_exclude, List.forall_mem_cons, and_assoc]

theorem admits_admitted (lengths : Bool) (checks : List Check) :
    (admitted lengths checks).Admits q ↔
      ∀ c ∈ checks, c.condition.operand.isLen = lengths →
        ¬ c.condition.comparison.holds (.finite q) (.finite c.condition.bound.toDouble.toRat) =
          true := by
  rw [admitted, Interval.admits_foldl, and_iff_right (Interval.admits_full q)]
  simp only [List.mem_filter, beq_iff_eq, and_imp]

/-- The interval of a field is empty when each number fails a check on its bound as a double. -/
theorem isEmpty_admitted_iff (lengths : Bool) (checks : List Check) :
    (admitted lengths checks).isEmpty = true ↔
      ∀ q : Rat, ∃ c ∈ checks, c.condition.operand.isLen = lengths ∧
        c.condition.comparison.holds (.finite q) (.finite c.condition.bound.toDouble.toRat) =
          true := by
  simp only [Interval.isEmpty_iff, admits_admitted, not_forall, not_not, exists_prop]

end Run

/-- The number fails one of the checks of the field, of those on lengths or of those on values. -/
def Field.FailsCheck (f : Field) (lengths : Bool) (q : Rat) : Prop :=
  ∃ c ∈ f.checks, c.condition.operand.isLen = lengths ∧
    c.condition.comparison.holds (.finite q) (.finite c.condition.bound.value) = true

/-- Every number fails a check on values. -/
def Field.RejectsValues (f : Field) : Prop := ∀ q : Rat, f.FailsCheck false q

/-- Bounds of values are doubles as they are. -/
theorem Field.toRat_valueBound {f : Field} {c : Check} (hc : c ∈ f.checks)
    (hvalue : c.condition.operand.isLen = false) :
    c.condition.bound.toDouble.toRat = c.condition.bound.value := by
  obtain ⟨rule, -, hrule⟩ := List.mem_flatMap.mp hc
  have hcondition : c.condition ∈ rule.conditions "v" := by
    rw [← rule.map_condition_checks f.name "v"]
    exact List.mem_map_of_mem hrule
  rcases Rule.condition_cases hcondition with ⟨hlen, -⟩ | ⟨-, d, hbound⟩
  · rw [hlen] at hvalue
    cases hvalue
  · rw [hbound]
    rfl

theorem Field.isEmpty_values_iff (f : Field) :
    (admitted false f.checks).isEmpty = true ↔ f.RejectsValues := by
  rw [isEmpty_admitted_iff]
  refine forall_congr' fun q => exists_congr fun c => and_congr_right fun hc =>
    and_congr_right fun hvalue => ?_
  rw [toRat_valueBound hc hvalue]

instance (f : Field) : Decidable f.RejectsValues := decidable_of_iff _ f.isEmpty_values_iff

/-! The reports. -/

/-- Whether the diagnostic says that no length, or no value, satisfies the rules of a field. -/
def Diagnostic.reportsNo (what : String) (d : Diagnostic) : Bool :=
  (s!"no {what} of '").toList.isPrefixOf d.message.toList

/-- What the checks of one kind are about, as a message says it. -/
def measured : Bool → String
  | true => "length"
  | false => "value"

theorem reportsNo_contradiction (lengths lengths' : Bool) (record : String) (f : Field) :
    (contradiction (measured lengths') record f).reportsNo (measured lengths) =
      (lengths' == lengths) := by
  cases lengths <;> cases lengths' <;>
    simp [Diagnostic.reportsNo, contradiction, Diagnostic.warningAt, measured, toString,
      List.isPrefixOf]

/-- Of the two reports for a field, the one about a kind is there when nothing of it is admitted. -/
theorem filter_contradictions (lengths : Bool) (record : String) (f : Field) :
    (contradictions record f).filter (Diagnostic.reportsNo (measured lengths)) =
      if (admitted lengths f.checks).isEmpty then [contradiction (measured lengths) record f]
      else [] := by
  have hreport : ∀ lengths', (if (admitted lengths' f.checks).isEmpty then
      [contradiction (measured lengths') record f] else []).filter
        (Diagnostic.reportsNo (measured lengths)) =
      if (admitted lengths' f.checks).isEmpty && lengths' == lengths then
        [contradiction (measured lengths') record f] else [] := by
    intro lengths'
    cases (admitted lengths' f.checks).isEmpty with
    | false => rfl
    | true => simp [List.filter_cons, reportsNo_contradiction]
  have hboth : contradictions record f =
      (if (admitted true f.checks).isEmpty then [contradiction (measured true) record f] else []) ++
        if (admitted false f.checks).isEmpty then [contradiction (measured false) record f]
        else [] := rfl
  rw [hboth, List.filter_append, hreport true, hreport false]
  cases lengths <;> simp

theorem filter_contradictoryBounds (lengths : Bool) (file : AnnotatedFile) :
    (contradictoryBounds.check file).filter (Diagnostic.reportsNo (measured lengths)) =
      file.records.flatMap fun (record, fields) =>
        (fields.filter fun f => (admitted lengths f.checks).isEmpty).map
          (contradiction (measured lengths) record) := by
  have hfields : ∀ (record : String) (fields : List Field),
      (fields.flatMap (contradictions record)).filter (Diagnostic.reportsNo (measured lengths)) =
        (fields.filter fun f => (admitted lengths f.checks).isEmpty).map
          (contradiction (measured lengths) record) := by
    intro record fields
    induction fields with
    | nil => rfl
    | cons f fields ih =>
        rw [List.flatMap_cons, List.filter_append, ih, filter_contradictions, List.filter_cons]
        split <;> rfl
  simp only [contradictoryBounds, checkFields, List.filter_flatMap, hfields]

/-- The lint reports exactly the fields no value of which passes the checks, each once and in
order. -/
theorem contradictoryBounds_values (file : AnnotatedFile) :
    (contradictoryBounds.check file).filter (Diagnostic.reportsNo "value") =
      file.records.flatMap fun (record, fields) =>
        (fields.filter fun f => f.RejectsValues).map (contradiction "value" record) := by
  have hempty : ∀ f : Field, (admitted false f.checks).isEmpty = decide f.RejectsValues :=
    fun f => Bool.eq_iff_iff.mpr (f.isEmpty_values_iff.trans decide_eq_true_iff.symm)
  simpa only [hempty, measured] using filter_contradictoryBounds false file

end FieldRules
