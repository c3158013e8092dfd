/-
Where the parts of a declaration come from: its fields stand on lines of its type, and its
values are counters or literals of constants.
-/
import FieldRules.Analysis.Collection
import FieldRules.Proofs.Analysis.Constants

namespace FieldRules

section Records

variable {input : AnalysisInput} {record : String} {f : Field}

/-- A field has one of the names of its line, and the shape of its type. -/
structure Field.StandsOn (input : AnalysisInput) (line : FieldLine) (f : Field) : Prop where
  name : ∃ name ∈ line.names, f.name = name.name
  shape : f.shape = line.type.shape
  nested : f.nested = f.shape.isNested input.index input.settings.ignorePackages

theorem standsOn_of_mem_fields {line : FieldLine} {fields : List Field}
    (h : line.fields input record = .ok fields) : ∀ f ∈ fields, f.StandsOn input line := by
  unfold FieldLine.fields at h
  dsimp only at h
  split at h
  · cases h
    exact List.forall_mem_nil _
  · cases hrules : FieldLine.rulesOf input.catalogue record line.label
        (line.directives input.settings.fieldMarker) with
    | error e =>
        rw [hrules] at h
        cases h
    | ok rules =>
        rw [hrules] at h
        cases h
        exact List.forall_mem_map.mpr fun name hname => ⟨⟨name, hname, rfl⟩, rfl, rfl⟩

theorem exists_line_of_mem_recordFields {lines : List FieldLine} {fields : List Field}
    (h : recordFields input record lines = .ok fields) :
    ∀ f ∈ fields, ∃ line ∈ lines, f.StandsOn input line := by
  induction lines generalizing fields with
  | nil =>
      cases h
      exact List.forall_mem_nil _
  | cons line rest ih =>
      unfold recordFields at h
      cases hfirst : line.fields input record with
      | error e =>
          rw [hfirst] at h
          cases h
      | ok first =>
          cases hmore : recordFields input record rest with
          | error e =>
              rw [hfirst, hmore] at h
              cases h
          | ok more =>
              rw [hfirst, hmore] at h
              cases h
              refine List.forall_mem_append.mpr ⟨fun f hf => ?_, fun f hf => ?_⟩
              · exact ⟨line, List.mem_cons_self, standsOn_of_mem_fields hfirst f hf⟩
              · obtain ⟨line, hline, hf⟩ := ih hmore f hf
                exact ⟨line, List.mem_cons_of_mem _ hline, hf⟩

end Records

/-! Values of enumerations. -/

/-- What a constant of a spec says is its counter, a literal of the spec, or unknown. -/
def ConstSpec.Says (s : ConstSpec) (l : Literal) : Prop :=
  l = s.counter ∨ ∃ kind span, .literal kind l.spelling span ∈ s.values

theorem ConstSpec.says_of_finding {s : ConstSpec} {name : String} {e : ConstExpr} {l : Literal}
    (he : e ∈ s.values) (h : s.finding name e = .value l) : s.Says l := by
  unfold ConstSpec.finding at h
  split at h
  · cases h
    exact .inl rfl
  · cases h
  · rename_i kind spelling span
    split at h
    · rename_i found hfound
      cases h
      refine .inr ⟨kind, span, ?_⟩
      have hspelling : l.spelling = spelling := by
        cases kind <;> cases hfound <;> rfl
      rwa [hspelling]
    · cases h
  · cases h

theorem ConstSpec.says_of_mem_findings {s : ConstSpec} {l : Literal}
    (h : .value l ∈ s.findings) : s.Says l := by
  obtain ⟨⟨name, e⟩, hmem, hfinding⟩ := List.mem_map.mp h
  exact says_of_finding (List.of_mem_zip hmem).2 hfinding

theorem ConstantRun.says_of_mem_step {name : String} {r : ConstantRun} {s : ConstSpec} {l : Literal}
    (h : .value l ∈ (r.step name s).2) : s.Says l := by
  unfold ConstantRun.step at h
  dsimp only at h
  split at h
  · cases h
  split at h
  · dsimp only at h
    split at h
    · cases List.mem_singleton.mp h
      exact .inl rfl
    · cases h
  · exact s.says_of_mem_findings h

theorem ConstantRun.exists_spec_of_mem_steps {name : String} {r : ConstantRun}
    {specs : List ConstSpec} {l : Literal} (h : .value l ∈ r.steps name specs) :
    ∃ s ∈ specs, s.Says l := by
  induction specs generalizing r with
  | nil => cases h
  | cons s rest ih =>
      unfold ConstantRun.steps at h
      dsimp only at h
      rcases List.mem_append.mp h with h | h
      · exact ⟨s, List.mem_cons_self, says_of_mem_step h⟩
      · obtain ⟨s', hs', hsays⟩ := ih h
        exact ⟨s', List.mem_cons_of_mem _ hs', hsays⟩

theorem exists_spec_of_mem_allowedValues {name : String} {decls : List ConstDecl} {l : Literal}
    (h : l ∈ (allowedValues name decls).1.values) : ∃ d ∈ decls, ∃ s ∈ d.specs, s.Says l := by
  rw [allowedValues_eq_ofList, AllowedValues.ofList, AllowedValues.mem_foldl_push] at h
  obtain ⟨finding, hmem, hvalue⟩ :=
    List.mem_filterMap.mp (h.resolve_left (by simp [AllowedValues.empty]))
  cases finding with
  | unknown constant text => cases hvalue
  | value found =>
      cases hvalue
      obtain ⟨d, hd, hsteps⟩ := List.mem_flatMap.mp hmem
      exact ⟨d, hd, ConstantRun.exists_spec_of_mem_steps hsteps⟩

/-! Declarations. -/

section Declarations

variable {input : AnalysisInput} {constants : List ConstDecl} {s : TypeSpec} {d : Declaration}

/-- What is collected for a type. -/
inductive CollectedFrom (input : AnalysisInput) (constants : List ConstDecl) (s : TypeSpec) :
    DeclarationBody → Prop
  | record {lines : List FieldLine} {span : Span} {fields : List Field}
      (type : s.type = .struct lines span)
      (lines : recordFields input s.name.name lines = .ok fields) :
      CollectedFrom input constants s (.record fields)
  | enumeration (base : ScalarKind) : CollectedFrom input constants s
      (.enumeration ⟨base, s.type.localName?.getD s.name.name,
        (allowedValues s.name.name constants).1⟩)

theorem collectedFrom_of_collectSpec (h : (collectSpec input constants s).result = .ok (some d)) :
    d.name = s.name.name ∧ CollectedFrom input constants s d.body := by
  unfold collectSpec at h
  dsimp only at h
  split at h
  · rename_i lines span hindex htype
    cases hfields : recordFields input s.name.name lines with
    | error e =>
        rw [hfields] at h
        cases h
    | ok fields =>
        rw [hfields] at h
        cases h
        exact ⟨rfl, .record htype hfields⟩
  · cases h
    exact ⟨rfl, .enumeration _⟩
  · cases h

theorem exists_spec_of_mem_collectSpecs {specs : List TypeSpec} {declarations : List Declaration}
    (h : (collectSpecs input constants specs).result = .ok declarations) :
    ∀ d ∈ declarations, ∃ s ∈ specs, d.name = s.name.name ∧
      CollectedFrom input constants s d.body := by
  induction specs generalizing declarations with
  | nil =>
      cases h
      exact List.forall_mem_nil _
  | cons s rest ih =>
      unfold collectSpecs at h
      dsimp only at h
      cases hone : (collectSpec input constants s).result with
      | error e =>
          rw [hone] at h
          cases h
      | ok found =>
          rw [hone] at h
          dsimp only at h
          cases hmore : (collectSpecs input constants rest).result with
          | error e =>
              rw [hmore] at h
              cases h
          | ok more =>
              rw [hmore] at h
              cases h
              refine List.forall_mem_append.mpr ⟨fun d hd => ?_, fun d hd => ?_⟩
              · rw [Option.mem_toList.mp hd] at hone
                exact ⟨s, List.mem_cons_self, collectedFrom_of_collectSpec hone⟩
              · obtain ⟨s', hs', hd⟩ := ih hmore d hd
                exact ⟨s', List.mem_cons_of_mem _ hs', hd⟩

end Declarations

end FieldRules
