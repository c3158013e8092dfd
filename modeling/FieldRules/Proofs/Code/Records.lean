/-
Generated methods: the checks of each field stand behind its pointers, and a record is
valid where no rule of its fields is broken and no value inside them is invalid.
-/
import FieldRules.Proofs.Code.Checks
import FieldRules.Proofs.Code.Traversal

namespace FieldRules

/-! Fields and records. -/

theorem Reports.guarded {self : GoValue} {ss : List Stmt} {r : Option (List GoError)}
    {ls : List Leaf} {guard : Expr} (h : Reports self ss r ls)
    (hguard : ∀ m : Machine, m.scope.get? "r" = some self → guard.eval m = .ok (.truth true, m)) :
    Reports self [.branch none guard ss] r ls := by
  intro m hself hm
  have hrun := h m hself hm
  cases r with
  | some es => exact Stmt.execAll_single (exec_branch_true (hguard m hself) hrun)
  | none => simp [Stmt.execAll, Stmt.exec, hguard m hself, hrun]

theorem reports_skipped {self : GoValue} {ss : List Stmt} {guard : Expr}
    (hguard : ∀ m : Machine, m.scope.get? "r" = some self → guard.eval m = .ok (.truth false, m)) :
    Reports self [.branch none guard ss] (some []) [] := by
  intro m hself _
  rw [Stmt.execAll_single (exec_branch_false (hguard m hself))]
  simp

/-- Behind the pointers of a value there is a plain value or a container. -/
theorem Shape.reach_cases {s : Shape} {x : s.Value} {v : GoValue} (h : s.reach x = some v) :
    (∃ l, v = .leaf l) ∨ v.number? = none := by
  induction s with
  | optional s ih =>
      cases x with
      | none => cases h
      | some y => exact ih h
  | sequence s => exact Or.inr (by cases h; rfl)
  | mapping s => exact Or.inr (by cases h; rfl)
  | direct t => exact Or.inl ⟨x, by cases h; rfl⟩

namespace Field

variable {f : Field} {fields : String → GoValue} {x : f.shape.Value}

theorem reports_loweredChecks (hx : fields f.name = f.shape.embed x) {v : GoValue}
    (hv : f.shape.reach x = some v) :
    Reports (.pointer (.record fields)) f.loweredChecks
      (gather (f.rules.map fun rule => rule.violations f.name v)) [] := by
  have hraw : ∀ s : Scope, s.get? "r" = some (.pointer (.record fields)) →
      rawValue s (dereferenced f.shape.peelOptional.1 f.access).text.toList = .ok v := by
    intro s hself
    apply rawValue_dereferenced (rawValue_access hself)
    rw [hx, ← Shape.reach_eq_through, hv]
  have hrules := reports_flatMap f.rules fun rule _ =>
    reports_rule rule f.name hraw (Shape.reach_cases hv)
  have hempty : f.rules.flatMap (fun _ => ([] : List Leaf)) = [] := by simp
  rw [hempty] at hrules
  rw [loweredChecks, List.map_flatMap]
  exact hrules

/-- The condition for the checks of a field holds exactly if its value is reached. -/
theorem exists_presence (hx : fields f.name = f.shape.embed x) {depth : Nat}
    (hdepth : f.shape.peelOptional.1 = depth + 1) :
    ∃ guard, presence? f.access f.shape.peelOptional.1 = some guard ∧
      ∀ m : Machine, m.scope.get? "r" = some (.pointer (.record fields)) →
        guard.eval m = .ok (.truth (f.shape.reach x).isSome, m) := by
  have hpresence : ∀ m : Machine, m.scope.get? "r" = some (.pointer (.record fields)) →
      ∃ guard, presence? f.access f.shape.peelOptional.1 = some guard ∧
        guard.eval m = .ok (.truth (f.shape.reach x).isSome, m) := by
    intro m hself
    have haccess := (reads_access (f := f) hself).eval m.scope (Agrees.refl _ _) m.calls
    have hlayered := f.shape.layered_embed x
    rw [← hx, hdepth] at hlayered
    rw [Shape.reach_eq_through, ← hx, hdepth]
    exact eval_presence haccess hlayered
  obtain ⟨guard, hguard, -⟩ := hpresence ⟨[("r", .pointer (.record fields))], []⟩ rfl
  refine ⟨guard, hguard, fun m hself => ?_⟩
  obtain ⟨guard', hguard', heval⟩ := hpresence m hself
  rw [hguard] at hguard'
  cases hguard'
  exact heval

/-- The statements for the rules of a field report what its value violates. -/
theorem reports_lowerRules (hx : fields f.name = f.shape.embed x) :
    Reports (.pointer (.record fields)) f.lowerRules (f.violations x) [] := by
  have hchecks : ∀ v, f.shape.reach x = some v →
      Reports (.pointer (.record fields)) f.loweredChecks (f.violations x) [] := by
    intro v hv
    rw [violations, hv]
    exact reports_loweredChecks hx hv
  cases hdepth : f.shape.peelOptional.1 with
  | zero =>
      have hreach : f.shape.reach x = some (f.shape.embed x) := by
        rw [Shape.reach_eq_through, hdepth]
        rfl
      have hlower : f.lowerRules = f.loweredChecks := by
        rw [lowerRules, hdepth]
        rfl
      rw [hlower]
      exact hchecks _ hreach
  | succ depth =>
      obtain ⟨guard, hguard, heval⟩ := exists_presence hx hdepth
      rw [lowerRules, hguard]
      cases hreach : f.shape.reach x with
      | none =>
          rw [hreach] at heval
          rw [violations, hreach]
          cases f.loweredChecks with
          | nil => exact reports_nil
          | cons check checks => exact reports_skipped heval
      | some v =>
          rw [hreach] at heval
          have hrun := hchecks v hreach
          cases hlowered : f.loweredChecks with
          | nil =>
              rw [hlowered] at hrun
              exact hrun
          | cons check checks =>
              rw [hlowered] at hrun
              exact hrun.guarded heval

/-- The values inside a nested field, none for any other. -/
def nestedVisits (f : Field) (x : f.shape.Value) : List Visit :=
  if f.nested then f.shape.visits x else []

/-- All errors of a field: those of its rules and those of the values inside it. -/
def errors (f : Field) (x : f.shape.Value) : Option (List GoError) :=
  (f.violations x).map (· ++ (f.nestedVisits x).filterMap (Visit.error? f.name))

theorem reports_lower (hname : isIdentifier f.name) (hx : fields f.name = f.shape.embed x) :
    Reports (.pointer (.record fields)) f.lower (f.errors x)
      ((f.nestedVisits x).map Visit.leaf) := by
  have hnested : Reports (.pointer (.record fields))
      (if f.nested then f.shape.lowerNested f.access ⟨f.name, []⟩ 0 else [])
      (some ((f.nestedVisits x).filterMap (Visit.error? f.name)))
      ((f.nestedVisits x).map Visit.leaf) := by
    by_cases h : f.nested = true
    · rw [nestedVisits, if_pos h, if_pos h]
      intro m hself hm
      have haccess := reads_access (f := f) hself
      rw [hx] at haccess
      exact f.shape.traverses haccess (leads_name hname m.scope) hm
    · rw [nestedVisits, if_neg h, if_neg h]
      exact reports_nil
  have hboth := (reports_lowerRules hx).append hnested
  rw [lower, errors]
  cases hv : f.violations x with
  | none =>
      rw [hv] at hboth
      exact hboth
  | some es =>
      rw [hv] at hboth
      exact hboth

end Field

theorem Field.single_of_errors {f : Field} {x : f.shape.Value} {es : List GoError}
    (h : f.errors x = some es) : ∀ e ∈ es, e.single := by
  obtain ⟨vs, hvs, rfl⟩ := Option.map_eq_some_iff.mp h
  intro e he
  rcases List.mem_append.mp he with he | he
  · exact single_of_violations hvs e he
  · obtain ⟨visit, -, hvisit⟩ := List.mem_filterMap.mp he
    obtain ⟨g, -, rfl⟩ := Option.map_eq_some_iff.mp hvisit
    rfl

section Record

variable {fields : List Field} {values : (f : Field) → f.shape.Value} {record : String → GoValue}

theorem exec_result {m : Machine} (hm : m.Collects) :
    Stmt.execAll [.result (.ident "errs")] m = .ok (.returned m.errors m) := by
  simp [Stmt.execAll, Stmt.exec, Expr.eval, Machine.lookUp, hm.get?_errors]

/-- How a method goes on after its statements. -/
def Flow.outcome : Flow → Except Fault (GoValue × List Leaf)
  | returned v m => .ok (v, m.calls)
  | next _ => .error .mistyped

/-- Without statements for its fields a method returns nil at once, and otherwise the
errors that they find. -/
theorem run_eq (name : String) (fields : List Field) (record : String → GoValue) :
    (lowerRecord name fields).run record =
      if fields.flatMap Field.lower = [] then .ok (.absent, [])
      else Stmt.execAll (fields.flatMap Field.lower ++ [.result (.ident "errs")])
        ⟨[("errs", .absent), ("r", .pointer (.record record))], []⟩ >>= Flow.outcome := by
  rw [lowerRecord]
  cases fields.flatMap Field.lower with
  | nil => rfl
  | cons s ss => rfl

/-- The method of a record returns all errors of its fields, and nil if there are none. -/
theorem run_lowerRecord (name : String) (hnames : ∀ f ∈ fields, isIdentifier f.name)
    (hfits : ∀ f ∈ fields, record f.name = f.shape.embed (values f)) :
    match gather (fields.map fun f => f.errors (values f)) with
    | some es => ∃ v, (lowerRecord name fields).run record =
        .ok (v, fields.flatMap fun f => (f.nestedVisits (values f)).map Visit.leaf) ∧
          v.errorParts = es ∧ (v = .absent ↔ es = [])
    | none => (lowerRecord name fields).run record = .error .mistyped := by
  have hrun := reports_flatMap fields
    (fun f hf => Field.reports_lower (hnames f hf) (hfits f hf))
    ⟨[("errs", .absent), ("r", .pointer (.record record))], []⟩ rfl ⟨.absent, rfl, rfl⟩
  have hstart : Machine.Collects ⟨[("errs", .absent), ("r", .pointer (.record record))], []⟩ :=
    ⟨.absent, rfl, rfl⟩
  rw [run_eq]
  generalize (fields.flatMap fun f => (f.nestedVisits (values f)).map Visit.leaf) = ls at hrun ⊢
  cases hes : gather (fields.map fun f => f.errors (values f)) with
  | none =>
      rw [hes] at hrun
      by_cases hss : fields.flatMap Field.lower = []
      · rw [hss] at hrun
        cases hrun
      · rw [if_neg hss, Stmt.execAll_append_error hrun]
        rfl
  | some es =>
      rw [hes] at hrun
      have hsingle : ∀ e ∈ es, e.single := by
        refine forall_of_gather (P := fun e => e.single) ?_ hes
        intro r hr xs hxs
        obtain ⟨f, -, rfl⟩ := List.mem_map.mp hr
        exact Field.single_of_errors hxs
      have hparts := Machine.errorParts_note hstart hsingle ls
      have habsent := Machine.errors_note_eq_absent_iff hstart es ls
      have hnil : (⟨[("errs", .absent), ("r", .pointer (.record record))], []⟩ : Machine).errors =
          .absent := rfl
      rw [hnil] at hparts habsent
      by_cases hss : fields.flatMap Field.lower = []
      · rw [hss] at hrun
        rw [if_pos hss]
        have hsame := Flow.next.inj (Except.ok.inj hrun)
        have hnone : es = [] := (habsent.mp (congrArg Machine.errors hsame).symm).2
        have hcalls : ls = [] := (congrArg Machine.calls hsame).symm
        exact ⟨.absent, by rw [hcalls], hnone.symm, by simp [hnone]⟩
      · rw [if_neg hss, Stmt.execAll_append hrun, exec_result hstart.note]
        exact ⟨_, rfl, hparts, by simpa using habsent⟩

/-- Lowering keeps the meaning of rules.  The statements for the rules of all fields join
one error for each bound that a value violates, and nothing else; they stop only where a
rule is for values of another type.  The whole method returns nil exactly if no bound is
violated and no value inside a nested field complains. -/
theorem lowerRecord_sound (name : String) (hnames : ∀ f ∈ fields, isIdentifier f.name)
    (hfits : ∀ f ∈ fields, record f.name = f.shape.embed (values f)) :
    match ruleViolations fields values with
    | some es =>
        (∀ m : Machine, m.scope.get? "r" = some (.pointer (.record record)) → m.Collects →
          ∃ m', Stmt.execAll (fields.flatMap Field.lowerRules) m = .ok (.next m') ∧
            m'.errors.errorParts = m.errors.errorParts ++ es ∧ m'.calls = m.calls ∧
            ∀ name, name ≠ "errs" → m'.scope.get? name = m.scope.get? name) ∧
        ∃ v calls, (lowerRecord name fields).run record = .ok (v, calls) ∧
          (v = .absent ↔ es = [] ∧ ∀ f ∈ fields, ∀ visit ∈ f.nestedVisits (values f),
            visit.leaf.complaint = none)
    | none =>
        (∀ m : Machine, m.scope.get? "r" = some (.pointer (.record record)) → m.Collects →
          Stmt.execAll (fields.flatMap Field.lowerRules) m = .error .mistyped) ∧
        (lowerRecord name fields).run record = .error .mistyped := by
  have hrules := reports_flatMap fields fun f hf => Field.reports_lowerRules (hfits f hf)
  have hmethod := run_lowerRecord name hnames hfits
  have heach := gather_append_each fields (fun f => f.violations (values f))
    fun f => (f.nestedVisits (values f)).filterMap (Visit.error? f.name)
  have hempty : fields.flatMap (fun _ => ([] : List Leaf)) = [] := by simp
  rw [hempty] at hrules
  simp only [Field.errors] at hmethod
  cases hes : ruleViolations fields values with
  | none =>
      rw [ruleViolations] at hes
      rw [hes] at hrules heach
      rw [heach] at hmethod
      exact ⟨hrules, hmethod⟩
  | some es =>
      have hsingle := single_of_ruleViolations hes
      rw [ruleViolations] at hes
      rw [hes] at hrules heach
      obtain ⟨es', hes', hiff⟩ := heach
      rw [hes'] at hmethod
      obtain ⟨v, hrun, -, habsent⟩ := hmethod
      constructor
      · intro m hself hm
        exact ⟨_, hrules m hself hm, Machine.errorParts_note hm hsingle [],
          List.append_nil _, fun name hne => Machine.get?_note hne⟩
      · refine ⟨v, _, hrun, ?_⟩
        rw [habsent, hiff]
        simp only [List.filterMap_eq_nil_iff, Visit.error?, Option.map_eq_none_iff]

end Record

/-- A value of a shape with nothing in its containers. -/
def Shape.sparse (l : Leaf) : (s : Shape) → s.Value
  | optional s => (none : Option s.Value)
  | sequence s => ([] : List s.Value)
  | mapping s => ([] : List (Leaf × s.Value))
  | direct _ => l

/-- A title of at least three bytes, and an optional remark that has a rule too. -/
def noteFields : List Field :=
  let least : Rule := .length ⟨some 3, none, none, none, some "E1"⟩
  [⟨"Title", .direct (.named "string"), [least], false⟩,
    ⟨"Remark", .optional (.direct (.named "string")), [least], false⟩]

def noteValues (f : Field) : f.shape.Value := f.shape.sparse ⟨some 2, none, "ab", none⟩

def noteRecord (name : String) : GoValue :=
  if name = "Title" then .leaf ⟨some 2, none, "ab", none⟩ else .absent

theorem lowerRecord_sound_note :
    (∀ f ∈ noteFields, isIdentifier f.name) ∧
      (∀ f ∈ noteFields, noteRecord f.name = f.shape.embed (noteValues f)) ∧
      ruleViolations noteFields noteValues =
        some [.text "[E1] Title length must be at least 3, got 2"] ∧
      ∃ v calls, (lowerRecord "Note" noteFields).run noteRecord = .ok (v, calls) ∧ v ≠ .absent := by
  have hnames : ∀ f ∈ noteFields, isIdentifier f.name := by decide
  have hfits : ∀ f ∈ noteFields, noteRecord f.name = f.shape.embed (noteValues f) := by
    intro f hf
    rcases List.mem_pair.mp hf with rfl | rfl <;> rfl
  have hes : ruleViolations noteFields noteValues =
      some [.text "[E1] Title length must be at least 3, got 2"] := by
    rfl
  have hsound := lowerRecord_sound "Note" hnames hfits
  rw [hes] at hsound
  obtain ⟨-, v, calls, hrun, habsent⟩ := hsound
  exact ⟨hnames, hfits, hes, v, calls, hrun, fun h => by simpa using (habsent.mp h).1⟩

end FieldRules
