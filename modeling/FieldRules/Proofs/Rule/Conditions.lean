/-
The comparisons that rules stand for.  A rule of lengths bounds them by whole numbers, a range
bounds values by doubles, and each bound that is set gives one comparison.
-/
import FieldRules.Model.Declaration

namespace FieldRules

/-- The comparisons of a rule of lengths, in order. -/
def Length.conditions (rule : Length) (access : String) : List Condition :=
  let condition (comparison : Comparison) (n : Int64) : Condition :=
    ⟨.len access, comparison, .int n⟩
  (rule.min.map (condition .lt)).toList ++ (rule.max.map (condition .gt)).toList ++
    (rule.equal.map (condition .ne)).toList

/-- The comparisons of a range, in order. -/
def Range.conditions (rule : Range) (access : String) : List Condition :=
  let condition (comparison : Comparison) (d : Double) : Condition :=
    ⟨.value access, comparison, .float d⟩
  (rule.min.map (condition .lt)).toList ++ (rule.max.map (condition .gt)).toList ++
    (rule.exclusiveMin.map (condition .le)).toList ++
    (rule.exclusiveMax.map (condition .ge)).toList

theorem Length.condition_of_mem {rule : Length} {access : String} {c : Condition}
    (h : c ∈ rule.conditions access) : c.operand = .len access ∧ ∃ n, c.bound = .int n := by
  simp only [conditions, List.mem_append, Option.mem_toList, Option.map_eq_some_iff] at h
  rcases h with (⟨n, -, rfl⟩ | ⟨n, -, rfl⟩) | ⟨n, -, rfl⟩ <;> exact ⟨rfl, n, rfl⟩

theorem Range.condition_of_mem {rule : Range} {access : String} {c : Condition}
    (h : c ∈ rule.conditions access) : c.operand = .value access ∧ ∃ d, c.bound = .float d := by
  simp only [conditions, List.mem_append, Option.mem_toList, Option.map_eq_some_iff] at h
  rcases h with ((⟨d, -, rfl⟩ | ⟨d, -, rfl⟩) | ⟨d, -, rfl⟩) | ⟨d, -, rfl⟩ <;> exact ⟨rfl, d, rfl⟩

namespace Rule

def conditions (rule : Rule) (access : String) : List Condition :=
  match rule with
  | length rule => rule.conditions access
  | range rule => rule.conditions access

theorem map_condition_checks (rule : Rule) (display access : String) :
    (rule.checks display access).map Check.condition = rule.conditions access := by
  have hbound : ∀ {α : Type} (bound : Option α) (check : α → Check),
      (bound.map check).toList.map Check.condition =
        (bound.map fun x => (check x).condition).toList := by
    intro α bound check
    cases bound <;> rfl
  cases rule with
  | length rule => simp [checks, Length.checks, conditions, Length.conditions, hbound]
  | range rule => simp [checks, Range.checks, conditions, Range.conditions, hbound]

/-- What a comparison measures decides of what kind its bound is. -/
theorem condition_cases {rule : Rule} {access : String} {c : Condition}
    (h : c ∈ rule.conditions access) :
    (c.operand = .len access ∧ ∃ n, c.bound = .int n) ∨
      (c.operand = .value access ∧ ∃ d, c.bound = .float d) := by
  cases rule with
  | length rule => exact .inl (Length.condition_of_mem h)
  | range rule => exact .inr (Range.condition_of_mem h)

/-- A property of comparisons that some check of a rule has. -/
theorem exists_check_iff (rule : Rule) (display access : String) (P : Condition → Prop) :
    (∃ c ∈ rule.checks display access, P c.condition) ↔ ∃ c ∈ rule.conditions access, P c := by
  rw [← rule.map_condition_checks display access]
  constructor
  · rintro ⟨c, hc, hP⟩
    exact ⟨c.condition, List.mem_map_of_mem hc, hP⟩
  · rintro ⟨condition, hcondition, hP⟩
    obtain ⟨c, hc, rfl⟩ := List.mem_map.mp hcondition
    exact ⟨c, hc, hP⟩

end Rule

/-- The comparisons of a field are those of its rules. -/
theorem Field.exists_check_iff (f : Field) (P : Condition → Prop) :
    (∃ c ∈ f.checks, P c.condition) ↔ ∃ rule ∈ f.rules, ∃ c ∈ rule.conditions "v", P c := by
  constructor
  · rintro ⟨c, hc, hP⟩
    obtain ⟨rule, hrule, hc⟩ := List.mem_flatMap.mp hc
    exact ⟨rule, hrule, (rule.exists_check_iff f.name "v" P).mp ⟨c, hc, hP⟩⟩
  · rintro ⟨rule, hrule, hexists⟩
    obtain ⟨c, hc, hP⟩ := (rule.exists_check_iff f.name "v" P).mpr hexists
    exact ⟨c, List.mem_flatMap.mpr ⟨rule, hrule, hc⟩, hP⟩

end FieldRules
