/-
What the silence of the lint for rule targets says about generated code: in each comparison the
kinds of both sides fit.  Whether a whole number lies in the range of an integer type is not
asked, so a comparison may still be refused.
-/
import FieldRules.Analysis.Lint.Target
import FieldRules.Proofs.Code.Typing

namespace FieldRules

/-! What the lint asks of a comparison. -/

namespace RuleTarget

/-- Whether the lint takes rules of lengths for the target. -/
def HasLength : RuleTarget → Prop
  | integer | float => False
  | _ => True

/-- Whether the lint takes the bound for the values of the target.  An integer needs a whole one. -/
def Takes (b : Bound) : RuleTarget → Prop
  | text | collection => False
  | integer => ∀ d, b = .float d → d.isWhole = true
  | _ => True

end RuleTarget

/-- Whether the lint has nothing against a comparison with the target. -/
def Condition.Suits (c : Condition) (target : RuleTarget) : Prop :=
  match c.operand with
  | .len _ => target.HasLength
  | .value _ => target.Takes c.bound

theorem Condition.suits_iff (c : Check) (target : RuleTarget) :
    c.condition.Suits target ↔
      c.mismatches target = false ∧ (target = .integer → c.fractional = false) := by
  obtain ⟨⟨operand, comparison, bound⟩, failure⟩ := c
  cases operand <;> cases target <;> cases bound <;>
    simp [Suits, RuleTarget.HasLength, RuleTarget.Takes, Check.mismatches, Check.fractional]

theorem targetComplaint?_eq_none_iff (f : Field) (target : RuleTarget) (rule : Rule) :
    targetComplaint? f target rule = none ↔ ∀ c ∈ rule.conditions "v", c.Suits target := by
  simp only [← rule.map_condition_checks f.name "v", List.forall_mem_map, Condition.suits_iff,
    targetComplaint?, List.any_eq_true, Bool.and_eq_true, decide_eq_true_eq]
  split_ifs with hmismatch hfractional
  · obtain ⟨c, hc, hmismatches⟩ := hmismatch
    refine iff_of_false (by simp) fun h => ?_
    rw [(h c hc).1] at hmismatches
    cases hmismatches
  · obtain ⟨hinteger, c, hc, hfractional⟩ := hfractional
    refine iff_of_false (by simp) fun h => ?_
    rw [(h c hc).2 hinteger] at hfractional
    cases hfractional
  · refine iff_of_true rfl fun c hc => ⟨?_, fun hinteger => ?_⟩
    · exact Bool.eq_false_iff.mpr fun h => hmismatch ⟨c, hc, h⟩
    · exact Bool.eq_false_iff.mpr fun h => hfractional ⟨hinteger, c, hc, h⟩

/-- What is asked of a comparison depends on what it measures, not on how it reads it. -/
theorem Rule.forall_suits_congr (rule : Rule) (target : RuleTarget) (access access' : String) :
    (∀ c ∈ rule.conditions access, c.Suits target) ↔
      ∀ c ∈ rule.conditions access', c.Suits target := by
  cases rule with
  | length rule => simp [conditions, Length.conditions, Condition.Suits, or_imp, forall_and]
  | range rule => simp [conditions, Range.conditions, Condition.Suits, or_imp, forall_and]

theorem targetComplaints_eq_nil {file : AnnotatedFile} {record : String} {f : Field}
    (htarget : f.shape.target file ≠ .unknown) :
    targetComplaints file record f = [] ↔ ∀ c ∈ f.conditions, c.Suits (f.shape.target file) := by
  simp only [targetComplaints, if_neg htarget, List.map_eq_nil_iff, List.filterMap_eq_nil_iff,
    targetComplaint?_eq_none_iff, Field.conditions, List.forall_mem_flatMap]
  exact forall₂_congr fun rule _ => rule.forall_suits_congr _ _ _

/-! What Go asks of it. -/

/-- A collection, or a predeclared type that has constants. -/
def Shape.IsPlain : Shape → Prop
  | sequence _ | mapping _ => True
  | direct (.named name) => (ScalarKind.ofBuiltin? name).isSome = true
  | _ => False

theorem ofBuiltin?_eq_text {name : String} :
    ScalarKind.ofBuiltin? name = some .text ↔ name = "string" := by
  unfold ScalarKind.ofBuiltin?
  split
  · simp [*]
  · rename_i hname
    refine iff_of_false ?_ hname
    split
    · simp
    · split <;> simp

/-- The kinds of types that a plain shape may have, with the target that each of them is. -/
theorem Shape.IsPlain.cases (file : AnnotatedFile) {s : Shape} (h : s.peelOptional.2.IsPlain) :
    (s.target file = .collection ∧
        ((∃ inner, s.peelOptional.2 = .sequence inner) ∨
          ∃ inner, s.peelOptional.2 = .mapping inner)) ∨
      ∃ name kind, s.peelOptional.2 = .direct (.named name) ∧
        ScalarKind.ofBuiltin? name = some kind ∧ s.target file = kind.target := by
  unfold Shape.target
  cases hs : s.peelOptional.2 with
  | sequence inner => exact .inl ⟨rfl, .inl ⟨inner, rfl⟩⟩
  | mapping inner => exact .inl ⟨rfl, .inr ⟨inner, rfl⟩⟩
  | optional inner =>
      rw [hs] at h
      exact h.elim
  | direct type =>
      rw [hs] at h
      cases type with
      | named name =>
          obtain ⟨kind, hkind⟩ := Option.isSome_iff_exists.mp h
          exact .inr ⟨name, kind, rfl, hkind, by simp [scalarOf?, hkind]⟩
      | _ => exact h.elim

/-- Among plain types, texts and collections are those with a length. -/
theorem Shape.IsPlain.lengthType?_eq (file : AnnotatedFile) {s : Shape}
    (h : s.peelOptional.2.IsPlain) :
    ((s.target file).HasLength ∧ s.peelOptional.2.lengthType? = some (.direct (.named "int"))) ∨
      (¬ (s.target file).HasLength ∧ s.peelOptional.2.lengthType? = none) := by
  rcases h.cases file with
    ⟨htarget, ⟨inner, hs⟩ | ⟨inner, hs⟩⟩ | ⟨name, kind, hs, hkind, htarget⟩
  · exact .inl ⟨by rw [htarget]; trivial, by rw [hs]; rfl⟩
  · exact .inl ⟨by rw [htarget]; trivial, by rw [hs]; rfl⟩
  · rw [htarget, hs, lengthType?]
    cases kind with
    | text => exact .inl ⟨trivial, if_pos (ofBuiltin?_eq_text.mp hkind)⟩
    | integer =>
        exact .inr ⟨id, if_neg fun hname => by simp [ofBuiltin?_eq_text.mpr hname] at hkind⟩
    | float => exact .inr ⟨id, if_neg fun hname => by simp [ofBuiltin?_eq_text.mpr hname] at hkind⟩

section Comparisons

variable {fields : String → Option Shape} {access : String} {s : Shape}

/-- A length is an `int`, and all its bounds are of that type. -/
theorem fits_length_iff {file : AnnotatedFile} (hs : s.peelOptional.2.IsPlain)
    (haccess : (Expr.raw access).type? fields = some s.peelOptional.2) (n : Int64) :
    fits fields ofKind ((Operand.len access).expr, .raw (Bound.int n).text) = true ↔
      (s.target file).HasLength := by
  have hlength : (Operand.len access).expr.type? fields = s.peelOptional.2.lengthType? := by
    rw [Operand.expr, Expr.type?, Expr.name?, if_pos rfl, Expr.types, haccess, Expr.types]
  have hbound : ofKind "int" (Bound.int n).text = true := by
    have hinteger : ScalarKind.ofBuiltin? "int" = some .integer := by decide
    simp only [ofKind, hinteger, Bound.text, numberOf?_int, Option.any_some, Rat.den_intCast,
      beq_self_eq_true]
  rcases hs.lengthType?_eq file with ⟨htarget, htype⟩ | ⟨htarget, htype⟩
  · simp only [fits, hlength, htype, htarget, hbound]
  · simp [fits, hlength, htype, htarget]

/-- A bound of values is a number, and a whole one is of all types of numbers. -/
theorem fits_value_iff {file : AnnotatedFile} (hs : s.peelOptional.2.IsPlain)
    (haccess : (Expr.raw access).type? fields = some s.peelOptional.2) (b : Bound) :
    fits fields ofKind ((Operand.value access).expr, .raw b.text) = true ↔
      (s.target file).Takes b := by
  rcases hs.cases file with
    ⟨htarget, ⟨inner, htype⟩ | ⟨inner, htype⟩⟩ | ⟨name, kind, htype, hkind, htarget⟩
  · simp [fits, Operand.expr, haccess, htype, htarget, RuleTarget.Takes]
  · simp [fits, Operand.expr, haccess, htype, htarget, RuleTarget.Takes]
  · obtain ⟨q, hq, hwhole⟩ := b.exists_numberOf?_text
    simp only [fits, Operand.expr, haccess, htype, htarget, ofKind, hkind]
    cases kind with
    | text => simp [b.bytesOf?_text, ScalarKind.target, RuleTarget.Takes]
    | integer => simpa [hq, ScalarKind.target, RuleTarget.Takes] using hwhole
    | float => simp [hq, ScalarKind.target, RuleTarget.Takes]

end Comparisons

/-- For a field of a plain type the lint is silent exactly if in all comparisons that its rules
become, the kinds of both sides fit.  So it is silent wherever all of them compile. -/
theorem targetComplaints_eq_nil_iff {f : Field} {fields : String → Option Shape}
    (hfield : fields f.name = some f.shape) (hplain : f.shape.peelOptional.2.IsPlain)
    (file : AnnotatedFile) (record : String) :
    (targetComplaints file record f = [] ↔
        ∀ sides ∈ f.lowerRules.flatMap Stmt.compared, fits fields ofKind sides = true) ∧
      ((∀ sides ∈ f.lowerRules.flatMap Stmt.compared, fits fields isConstantOf sides = true) →
        targetComplaints file record f = []) := by
  have htarget : f.shape.target file ≠ .unknown := by
    rcases hplain.cases file with ⟨htarget, -⟩ | ⟨-, kind, -, -, htarget⟩
    · simp [htarget]
    · cases kind <;> simp [htarget, ScalarKind.target]
  have hsilent : targetComplaints file record f = [] ↔
      ∀ sides ∈ f.lowerRules.flatMap Stmt.compared, fits fields ofKind sides = true := by
    rw [targetComplaints_eq_nil htarget, Field.fits_iff hfield]
    refine forall₂_congr fun c hc => ?_
    obtain ⟨rule, -, hc⟩ := List.mem_flatMap.mp hc
    have haccess := type?_accessText hfield
    obtain ⟨operand, comparison, bound⟩ := c
    rcases Rule.condition_cases hc with ⟨rfl, n, rfl⟩ | ⟨rfl, d, rfl⟩
    · exact (fits_length_iff hplain haccess n).symm
    · exact (fits_value_iff hplain haccess (.float d)).symm
  refine ⟨hsilent, fun hconstants => hsilent.mpr fun sides hsides => ?_⟩
  exact fits_mono (fun _ _ => ofKind_of_isConstantOf) (hconstants sides hsides)

/-- A number behind a pointer that may not be negative: the guard and the check fit, so the lint
is silent. -/
theorem targetComplaints_natural :
    let f : Field := ⟨"F", .optional (.direct (.named "int")),
      [.range ⟨some (.ofInt64 0), none, none, none, none, none⟩], false⟩
    let fields (name : String) := if name = "F" then some f.shape else none
    fields f.name = some f.shape ∧ f.shape.peelOptional.2.IsPlain ∧
      targetComplaints ⟨"a.go", "v1", []⟩ "A" f = [] := by
  intro f fields
  have hplain : f.shape.peelOptional.2.IsPlain := rfl
  have hfits : ∀ sides ∈ f.lowerRules.flatMap Stmt.compared,
      fits fields ofKind sides = true := by decide +kernel
  exact ⟨rfl, hplain, (targetComplaints_eq_nil_iff rfl hplain _ _).1.mpr hfits⟩

/-- A byte that may be at most 300: no byte is more, and the comparison with 300 is refused. -/
def boundedByte : Field :=
  ⟨"F", .direct (.named "uint8"),
    [.range ⟨none, some (.ofInt64 300), none, none, none, none⟩], false⟩

/-- The lint is silent about a bound that lies beyond the type. -/
theorem targetComplaints_misses_range :
    let fields (name : String) := if name = "F" then some boundedByte.shape else none
    targetComplaints ⟨"a.go", "v1", [⟨"A", .record [boundedByte]⟩]⟩ "A" boundedByte = [] ∧
      ¬ ∀ sides ∈ boundedByte.lowerRules.flatMap Stmt.compared,
        fits fields isConstantOf sides = true := by
  decide +kernel

end FieldRules
