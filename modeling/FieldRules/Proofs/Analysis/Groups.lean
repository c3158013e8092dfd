/-
Groups of constants side by side.  What an enumeration takes from two lists of groups is what
it takes from each of them, and within a group every constant that is written with its type
and a value either adds that value or is warned about.  A spec of another type, or with values
and no type, adds nothing and divides its group in two.
-/
import FieldRules.Proofs.Analysis.Constants

namespace FieldRules

/-! Values added to others. -/

namespace AllowedValues

/-- Only the values that are new are added. -/
theorem values_foldl_push (a : AllowedValues) (ls : List Literal) :
    (ls.foldl push a).values = a.values ++ (ofList ls).values.filter (· ∉ a.values) := by
  induction ls using List.reverseRecOn with
  | nil => simp [ofList, empty]
  | append_singleton ls l ih =>
      have hfold : ((ls ++ [l]).foldl push a) = (ls.foldl push a).push l := by simp
      have hlist : ofList (ls ++ [l]) = (ofList ls).push l := by simp [ofList]
      have hmem : l ∈ (ls.foldl push a).values ↔ l ∈ a.values ∨ l ∈ (ofList ls).values := by
        rw [mem_foldl_push, mem_ofList]
      rw [hfold, hlist]
      by_cases hold : l ∈ (ofList ls).values
      · rw [push_of_mem (hmem.mpr (.inr hold)), push_of_mem hold, ih]
      · by_cases ha : l ∈ a.values
        · rw [push_of_mem (hmem.mpr (.inl ha)), push, if_neg hold, ih, List.filter_append]
          simp [ha]
        · have hnew : l ∉ (ls.foldl push a).values := fun h => (hmem.mp h).elim ha hold
          rw [push, if_neg hnew, push, if_neg hold]
          simp [ih, List.filter_append, ha]

theorem values_ofList_append (ls ms : List Literal) :
    (ofList (ls ++ ms)).values =
      (ofList ls).values ++ (ofList ms).values.filter (· ∉ (ofList ls).values) := by
  rw [ofList, List.foldl_append]
  exact values_foldl_push (ofList ls) ms

end AllowedValues

/-! Constants with a value of their own. -/

/-- The constants for whose names a value is written. -/
def ConstSpec.written (s : ConstSpec) : List Constant :=
  (s.names.zip s.values).map fun (name, expr) => ⟨name, expr, s, s⟩

/-- The constants that are written with the type `name` and with a value, in order. -/
def writtenConstants (name : String) (specs : List ConstSpec) : List Constant :=
  (specs.flatMap ConstSpec.written).filter fun k => k.localType? = some name

/-- An expression as a warning shows it. -/
def ConstExpr.text : ConstExpr → String
  | .literal _ spelling _ => spelling
  | .ident name _ => name
  | .verbatim text _ => text

/-- The warning that the value of a constant is not known, with the place it is about. -/
def Constant.warning (name : String) (k : Constant) : Diagnostic :=
  { unknownConstant name k.name.name k.expr.text with
    severity := .warning
    location := some (name ++ "." ++ k.name.name) }

/-- A spec with another type than `name`, or with values and no type. -/
def ConstSpec.Foreign (name : String) (s : ConstSpec) : Prop :=
  match s.type with
  | some type => type.localName? ≠ some name
  | none => s.values ≠ []

/-- The warning among findings about `name`. -/
def ConstantFinding.warning? (name : String) : ConstantFinding → Option Diagnostic
  | .value _ => none
  | .unknown constant text => some (unknownConstant name constant text)

theorem allowedValues_warnings (name : String) (decls : List ConstDecl) :
    (allowedValues name decls).2 =
      (constantFindings name decls).filterMap (ConstantFinding.warning? name) := by
  rw [allowedValues]
  congr 1

section Spec

variable {name : String} {s : ConstSpec}

theorem mem_writtenConstants {specs : List ConstSpec} {k : Constant} :
    k ∈ writtenConstants name specs ↔
      ∃ s ∈ specs, s.localType? = some name ∧ k ∈ s.written := by
  have horigin : ∀ s : ConstSpec, k ∈ s.written → k.localType? = s.localType? := by
    intro s hk
    obtain ⟨pair, -, rfl⟩ := List.mem_map.mp hk
    rfl
  simp only [writtenConstants, List.mem_filter, List.mem_flatMap, decide_eq_true_eq]
  constructor
  · rintro ⟨⟨s, hs, hk⟩, htype⟩
    exact ⟨s, hs, horigin s hk ▸ htype, hk⟩
  · rintro ⟨s, hs, htype, hk⟩
    exact ⟨⟨s, hs, hk⟩, horigin s hk ▸ htype⟩

theorem writtenConstants_cons (specs : List ConstSpec) :
    writtenConstants name (s :: specs) =
      (if s.localType? = some name then s.written else []) ++ writtenConstants name specs := by
  have hone : s.written.filter (fun k => k.localType? = some name) =
      if s.localType? = some name then s.written else [] := by
    split
    · rename_i htype
      refine List.filter_eq_self.mpr fun k hk => ?_
      obtain ⟨pair, -, rfl⟩ := List.mem_map.mp hk
      exact decide_eq_true htype
    · rename_i htype
      refine List.filter_eq_nil_iff.mpr fun k hk => ?_
      obtain ⟨pair, -, rfl⟩ := List.mem_map.mp hk
      exact fun h => htype (of_decide_eq_true h)
  rw [writtenConstants, List.flatMap_cons, List.filter_append, hone, writtenConstants]

/-- Any other expression than a plain one is warned about. -/
theorem ConstSpec.finding_of_not_plain {e : ConstExpr} (he : ¬ e.IsPlain) (constant : String) :
    s.finding constant e = .unknown constant e.text := by
  cases e with
  | ident text span =>
      have htext : text ≠ "iota" := he
      unfold ConstSpec.finding
      split
      · simp_all
      · simp_all [ConstExpr.text]
      · simp_all
      · simp_all
  | literal kind spelling span =>
      cases kind with
      | imag => rfl
      | _ => exact absurd (by simp [ConstExpr.IsPlain]) he
  | verbatim text span => rfl

theorem ConstSpec.warnings_findings :
    s.findings.filterMap (ConstantFinding.warning? name) =
      (s.written.filter fun k => ¬ k.expr.IsPlain).map (Constant.warning name) := by
  rw [findings, written, List.filterMap_map, List.filter_map, List.map_map]
  induction s.names.zip s.values with
  | nil => rfl
  | cons pair pairs ih =>
      by_cases hplain : pair.2.IsPlain
      · obtain ⟨v, hfinding, -⟩ := s.finding_of_plain hplain pair.1.name
        simpa [hfinding, hplain, ConstantFinding.warning?] using ih
      · have hfinding := s.finding_of_not_plain hplain pair.1.name
        have hwarning : ConstantFinding.warning? name (s.finding pair.1.name pair.2) =
            some (Constant.warning name ⟨pair.1, pair.2, s, s⟩) := by
          rw [hfinding]
          rfl
        simpa [hwarning, hplain] using ih

theorem ConstSpec.value_mem_findings {k : Constant} (hk : k ∈ s.written)
    (hplain : k.expr.IsPlain) : ∃ v, k.value? = some v ∧ .value v ∈ s.findings := by
  obtain ⟨pair, hpair, rfl⟩ := List.mem_map.mp hk
  obtain ⟨v, hfinding, hv⟩ := s.finding_of_plain hplain pair.1.name
  exact ⟨v, hv, List.mem_map.mpr ⟨pair, hpair, hfinding⟩⟩

end Spec

/-! Runs over the specs of a group. -/

namespace ConstantRun

variable {name : String} {s : ConstSpec}

theorem steps_cons (r : ConstantRun) (rest : List ConstSpec) :
    r.steps name (s :: rest) = (r.step name s).2 ++ (r.step name s).1.steps name rest := rfl

/-- What one spec adds: what its constants say if it is of the type, and at most a counter if
it repeats another spec. -/
theorem step_findings (r : ConstantRun) (name : String) (s : ConstSpec) :
    (s.localType? = some name ∧ s.values ≠ [] ∧ (r.step name s).2 = s.findings) ∨
      ((s.localType? = some name → s.values = []) ∧
        (r.step name s).2 ⊆ [.value s.counter]) := by
  by_cases hcurrent : r.typeOf s = some name
  · by_cases hvalues : s.values = []
    · refine .inr ⟨fun _ => hvalues, ?_⟩
      simp only [step, hcurrent, hvalues, List.isEmpty_nil]
      cases r.counting <;> simp
    · refine .inl ⟨?_, hvalues, by simp [step, hcurrent, hvalues]⟩
      rw [typeOf] at hcurrent
      rw [ConstSpec.localType?]
      cases htype : s.type with
      | none => simp [htype, hvalues] at hcurrent
      | some type => simpa [htype] using hcurrent
  · refine .inr ⟨fun htype => absurd ?_ hcurrent, by simp [step, hcurrent]⟩
    rw [ConstSpec.localType?] at htype
    rw [typeOf]
    cases hs : s.type with
    | none => simp [hs] at htype
    | some type => simpa [hs] using htype

theorem warnings_step (r : ConstantRun) :
    (r.step name s).2.filterMap (ConstantFinding.warning? name) =
      ((if s.localType? = some name then s.written else []).filter
        fun k => ¬ k.expr.IsPlain).map (Constant.warning name) := by
  rcases r.step_findings name s with ⟨htype, -, hfound⟩ | ⟨hvalues, hfound⟩
  · rw [hfound, if_pos htype, ConstSpec.warnings_findings]
  · have hnone : (if s.localType? = some name then s.written else []) = [] := by
      split
      · rename_i htype
        simp [ConstSpec.written, hvalues htype]
      · rfl
    rw [hnone, List.filter_nil, List.map_nil, List.filterMap_eq_nil_iff]
    intro found hmem
    rw [List.mem_singleton.mp (hfound hmem)]
    rfl

theorem warnings_steps (r : ConstantRun) (specs : List ConstSpec) :
    (r.steps name specs).filterMap (ConstantFinding.warning? name) =
      ((writtenConstants name specs).filter fun k => ¬ k.expr.IsPlain).map
        (Constant.warning name) := by
  induction specs generalizing r with
  | nil => rfl
  | cons s specs ih =>
      rw [steps_cons, List.filterMap_append, warnings_step, ih, writtenConstants_cons,
        List.filter_append, List.map_append]

theorem value_mem_steps (r : ConstantRun) {specs : List ConstSpec} {k : Constant}
    (hk : k ∈ writtenConstants name specs) (hplain : k.expr.IsPlain) :
    ∃ v, k.value? = some v ∧ .value v ∈ r.steps name specs := by
  induction specs generalizing r with
  | nil => cases hk
  | cons s specs ih =>
      rw [writtenConstants_cons, List.mem_append] at hk
      rw [steps_cons]
      rcases hk with hk | hk
      · split at hk
        · rename_i htype
          obtain ⟨v, hv, hmem⟩ := s.value_mem_findings hk hplain
          rcases r.step_findings name s with ⟨-, -, hfound⟩ | ⟨hvalues, -⟩
          · exact ⟨v, hv, List.mem_append_left _ (hfound ▸ hmem)⟩
          · simp [ConstSpec.written, hvalues htype] at hk
        · cases hk
      · obtain ⟨v, hv, hmem⟩ := ih (r.step name s).1 hk
        exact ⟨v, hv, List.mem_append_right _ hmem⟩

/-- A run that stands at another type and does not count. -/
structure Away (name : String) (r : ConstantRun) : Prop where
  current : r.current ≠ some name
  counting : r.counting = false

theorem away_initial : Away name initial := ⟨nofun, rfl⟩

theorem Away.step_eq {r r' : ConstantRun} (h : Away name r) (h' : Away name r') :
    (r.step name s).2 = (r'.step name s).2 ∧
      ((r.step name s).1 = (r'.step name s).1 ∨
        Away name (r.step name s).1 ∧ Away name (r'.step name s).1) := by
  have htypeOf : r.typeOf s = r'.typeOf s ∨
      r.typeOf s = r.current ∧ r'.typeOf s = r'.current := by
    unfold typeOf
    cases s.type with
    | some type => exact .inl rfl
    | none => cases s.values.isEmpty <;> simp
  rcases htypeOf with heq | ⟨hcurrent, hcurrent'⟩
  · have hstep : r.step name s = r'.step name s := by
      simp only [step, heq, h.counting, h'.counting]
    exact ⟨congrArg Prod.snd hstep, .inl (congrArg Prod.fst hstep)⟩
  · have hstep : r.step name s = (⟨r.current, false⟩, []) := by
      simp [step, hcurrent, h.current]
    have hstep' : r'.step name s = (⟨r'.current, false⟩, []) := by
      simp [step, hcurrent', h'.current]
    rw [hstep, hstep']
    exact ⟨rfl, .inr ⟨⟨h.current, rfl⟩, ⟨h'.current, rfl⟩⟩⟩

/-- From another type on, it makes no difference which one that is. -/
theorem Away.steps_eq {r r' : ConstantRun} (h : Away name r) (h' : Away name r')
    (specs : List ConstSpec) : r.steps name specs = r'.steps name specs := by
  induction specs generalizing r r' with
  | nil => rfl
  | cons s specs ih =>
      obtain ⟨hfound, hafter⟩ := h.step_eq h' (s := s)
      rw [steps_cons, steps_cons, hfound]
      rcases hafter with heq | ⟨haway, haway'⟩
      · rw [heq]
      · rw [ih haway haway']

theorem step_of_foreign (r : ConstantRun) (h : s.Foreign name) :
    (r.step name s).2 = [] ∧ Away name (r.step name s).1 := by
  have hcurrent : r.typeOf s ≠ some name := by
    unfold ConstSpec.Foreign at h
    rw [typeOf]
    cases htype : s.type with
    | none => simp_all
    | some type => simpa [htype] using h
  have hstep : r.step name s = (⟨r.typeOf s, false⟩, []) := by simp [step, hcurrent]
  rw [hstep]
  exact ⟨rfl, hcurrent, rfl⟩

theorem exists_steps_append (r : ConstantRun) (name : String) (before : List ConstSpec) :
    ∃ r' : ConstantRun, ∀ rest, r.steps name (before ++ rest) =
      r.steps name before ++ r'.steps name rest := by
  induction before generalizing r with
  | nil => exact ⟨r, fun _ => rfl⟩
  | cons s before ih =>
      obtain ⟨r', hr'⟩ := ih (r.step name s).1
      refine ⟨r', fun rest => ?_⟩
      rw [List.cons_append, steps_cons, hr', steps_cons, List.append_assoc]

/-- After a foreign spec the rest of a group is read as a group of its own. -/
theorem steps_of_foreign (h : s.Foreign name) (before after : List ConstSpec) :
    initial.steps name (before ++ s :: after) =
      initial.steps name before ++ initial.steps name after := by
  obtain ⟨r, hr⟩ := initial.exists_steps_append name before
  obtain ⟨hfound, haway⟩ := r.step_of_foreign h
  rw [hr, steps_cons, hfound, List.nil_append, haway.steps_eq away_initial]

end ConstantRun

/-! Lists of groups. -/

section Groups

variable {name : String}

theorem constantFindings_append (name : String) (ds es : List ConstDecl) :
    constantFindings name (ds ++ es) = constantFindings name ds ++ constantFindings name es :=
  List.flatMap_append

theorem allowedValues_append (name : String) (ds es : List ConstDecl) :
    (allowedValues name (ds ++ es)).1.values = (allowedValues name ds).1.values ++
        (allowedValues name es).1.values.filter (· ∉ (allowedValues name ds).1.values) ∧
      (allowedValues name (ds ++ es)).2 =
        (allowedValues name ds).2 ++ (allowedValues name es).2 := by
  constructor
  · rw [allowedValues_eq_ofList, allowedValues_eq_ofList, allowedValues_eq_ofList,
      constantFindings_append, List.filterMap_append, AllowedValues.values_ofList_append]
  · rw [allowedValues_warnings, allowedValues_warnings, allowedValues_warnings,
      constantFindings_append, List.filterMap_append]

/-- The warnings are those about the constants whose values are not plain. -/
theorem warnings_eq (name : String) (ds : List ConstDecl) :
    (allowedValues name ds).2 =
      ((writtenConstants name (ds.flatMap ConstDecl.specs)).filter
        fun k => ¬ k.expr.IsPlain).map (Constant.warning name) := by
  rw [allowedValues_warnings, constantFindings, writtenConstants, List.filterMap_flatMap,
    List.flatMap_assoc, List.filter_flatMap, List.filter_flatMap, List.map_flatMap]
  refine List.flatMap_congr fun d _ => ?_
  exact ConstantRun.initial.warnings_steps d.specs

theorem written_mem_allowedValues {ds : List ConstDecl} {k : Constant}
    (hk : k ∈ writtenConstants name (ds.flatMap ConstDecl.specs)) (hplain : k.expr.IsPlain) :
    ∃ v, k.value? = some v ∧ v ∈ (allowedValues name ds).1.values := by
  obtain ⟨s, hs, htype, hwritten⟩ := mem_writtenConstants.mp hk
  obtain ⟨d, hd, hs⟩ := List.mem_flatMap.mp hs
  obtain ⟨v, hv, hmem⟩ := ConstantRun.initial.value_mem_steps
    (mem_writtenConstants.mpr ⟨s, hs, htype, hwritten⟩) hplain
  refine ⟨v, hv, ?_⟩
  rw [allowedValues_eq_ofList, AllowedValues.mem_ofList]
  exact List.mem_filterMap.mpr ⟨_, List.mem_flatMap.mpr ⟨d, hd, hmem⟩, rfl⟩

/-- A group with a foreign spec counts as two groups without it. -/
theorem allowedValues_of_foreign {d : ConstDecl} {before after : List ConstSpec} {s : ConstSpec}
    (hspecs : d.specs = before ++ s :: after) (hs : s.Foreign name) (ds es : List ConstDecl) :
    allowedValues name (ds ++ d :: es) =
      allowedValues name
        (ds ++ { d with specs := before } :: { d with specs := after } :: es) := by
  have hgroup := ConstantRun.steps_of_foreign hs before after
  have hfound : constantFindings name (ds ++ d :: es) = constantFindings name
      (ds ++ { d with specs := before } :: { d with specs := after } :: es) := by
    simp only [constantFindings, List.flatMap_append, List.flatMap_cons, hspecs, hgroup,
      List.append_assoc]
  simp only [allowedValues, hfound]

/-- Groups are independent, and every constant with a value of its own is accounted for.  What
two lists of groups give is what each of them gives; the warnings are one for each constant of
the type whose expression is neither a counter nor a literal with a value, in order, and the
values of all others are allowed; and a spec of another type, or with values and no type, gives
nothing, as if its group were two groups without it. -/
theorem groups_accounted (name : String) :
    (∀ ds es : List ConstDecl,
      (allowedValues name (ds ++ es)).1.values = (allowedValues name ds).1.values ++
          (allowedValues name es).1.values.filter (· ∉ (allowedValues name ds).1.values) ∧
        (allowedValues name (ds ++ es)).2 =
          (allowedValues name ds).2 ++ (allowedValues name es).2) ∧
      (∀ ds : List ConstDecl,
        (allowedValues name ds).2 =
            ((writtenConstants name (ds.flatMap ConstDecl.specs)).filter
              fun k => ¬ k.expr.IsPlain).map (Constant.warning name) ∧
          ∀ k ∈ writtenConstants name (ds.flatMap ConstDecl.specs), k.expr.IsPlain →
            ∃ v, k.value? = some v ∧ v ∈ (allowedValues name ds).1.values) ∧
      ∀ (ds es : List ConstDecl) (d : ConstDecl) (before after : List ConstSpec) (s : ConstSpec),
        d.specs = before ++ s :: after → s.Foreign name →
          allowedValues name (ds ++ d :: es) = allowedValues name
            (ds ++ { d with specs := before } :: { d with specs := after } :: es) :=
  ⟨allowedValues_append name,
    fun ds => ⟨warnings_eq name ds, fun _ hk hplain => written_mem_allowedValues hk hplain⟩,
    fun ds es _ _ _ _ hspecs hs => allowedValues_of_foreign hspecs hs ds es⟩

end Groups

/-- A limit without a type, between the counters of an enumeration. -/
def limitSpec : ConstSpec := specAt 1 ["Limit"] none [digitExpr "100"]

/-- What stands before and after the limit. -/
def countedSpecs : List ConstSpec := [specAt 0 ["A"] (some "T") [counterExpr]]

def shiftedSpecs : List ConstSpec :=
  [specAt 2 ["B"] none [], specAt 3 ["C"] (some "T") [.verbatim "1 << iota" ⟨0, 0⟩]]

def limitGroup : ConstDecl := ⟨none, true, countedSpecs ++ limitSpec :: shiftedSpecs⟩

theorem groups_accounted_limit :
    limitSpec.Foreign "T" ∧
      allowedValues "T" [limitGroup] =
        allowedValues "T" [⟨none, true, countedSpecs⟩, ⟨none, true, shiftedSpecs⟩] ∧
      (allowedValues "T" [limitGroup]).2.map Diagnostic.location = [some "T.C"] ∧
      .integer "0" ∈ (allowedValues "T" [limitGroup]).1.values := by
  have hforeign : limitSpec.Foreign "T" := by simp [ConstSpec.Foreign, limitSpec, specAt, digitExpr]
  obtain ⟨-, hall, hcut⟩ := groups_accounted "T"
  obtain ⟨hwarnings, hvalues⟩ := hall [limitGroup]
  have hcounter : ⟨⟨"A", ⟨0, 0⟩⟩, counterExpr, specAt 0 ["A"] (some "T") [counterExpr],
      specAt 0 ["A"] (some "T") [counterExpr]⟩ ∈
        writtenConstants "T" ([limitGroup].flatMap ConstDecl.specs) :=
    mem_writtenConstants.mpr ⟨_, List.mem_cons_self, rfl, List.mem_cons_self⟩
  obtain ⟨v, hv, hmem⟩ := hvalues _ hcounter rfl
  refine ⟨hforeign, hcut [] [] limitGroup countedSpecs shiftedSpecs limitSpec rfl hforeign, ?_, ?_⟩
  · rw [hwarnings]
    rfl
  · cases hv
    exact hmem

end FieldRules
