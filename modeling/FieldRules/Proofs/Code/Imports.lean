/-
The imports of generated files.  A file imports a package exactly if the body of one of its
methods selects a member of it, so no import is missing and none is unused.
-/
import FieldRules.Proofs.Code.Access
import FieldRules.Proofs.Code.Generated

namespace FieldRules

/-! The names from which code selects members. -/

namespace Expr

/-- The name in front of the first selector in a piece of code, behind dereferences. -/
def pathHead? (text : String) : Option String :=
  let path := text.toList.dropWhile (· == '*')
  let name := String.ofList (path.takeWhile continuesIdent)
  if isIdentifier name && (path.dropWhile continuesIdent).head? == some '.' then some name
  else none

/-- The name that an expression consists of. -/
def name? : Expr → Option String
  | ident name => some name
  | _ => none

mutual
/-- The names from which an expression selects members.  The keys of a set are constants. -/
def selected : Expr → List String
  | ident _ | str _ | set _ _ => []
  | raw text => (pathHead? text).toList
  | selector base _ => base.name?.toList ++ base.selected
  | deref inner | not inner => inner.selected
  | call function args => function.selected ++ selectedAll args
  | index base key => base.selected ++ key.selected
  | binary left _ right => left.selected ++ right.selected

def selectedAll : List Expr → List String
  | [] => []
  | e :: es => e.selected ++ selectedAll es
end

@[simp] theorem selectedAll_eq_flatMap (es : List Expr) : selectedAll es = es.flatMap selected := by
  induction es with
  | nil => rfl
  | cons e es ih => rw [selectedAll, List.flatMap_cons, ih]

end Expr

def SimpleStmt.selected : SimpleStmt → List String
  | define _ value => value.selected
  | assign target value => target.selected ++ value.selected

namespace Stmt

mutual
/-- The names from which the expressions of a statement select members. -/
def selected : Stmt → List String
  | simple s => s.selected
  | declare _ _ => []
  | branch first condition body =>
      (first.map SimpleStmt.selected).getD [] ++ condition.selected ++ selectedAll body
  | loop _ _ whole body => whole.selected ++ selectedAll body
  | result value => value.selected

def selectedAll : List Stmt → List String
  | [] => []
  | s :: ss => s.selected ++ selectedAll ss
end

@[simp] theorem selectedAll_eq_flatMap (ss : List Stmt) : selectedAll ss = ss.flatMap selected := by
  induction ss with
  | nil => rfl
  | cons s ss ih => rw [selectedAll, List.flatMap_cons, ih]

end Stmt

/-- Whether some method of a file selects a member of a name. -/
def GoFile.Selects (f : GoFile) (name : String) : Prop :=
  ∃ m ∈ f.methods, ∃ s ∈ m.body, name ∈ s.selected

theorem GoFile.selects_iff (f : GoFile) (name : String) :
    f.Selects name ↔ name ∈ (f.methods.flatMap Method.body).flatMap Stmt.selected := by
  simp only [Selects, List.flatMap_assoc, List.mem_flatMap]

/-- The packages that methods may use. -/
def packages : List String := ["errors", "fmt"]

/-! Pieces of code. -/

section Pieces

attribute [local simp] Expr.selected Stmt.selected

@[simp] theorem selected_notNil (e : Expr) : e.notNil.selected = e.selected := by
  have hnil : Expr.pathHead? "nil" = none := by decide
  simp [Expr.notNil, Expr.nil, hnil]

@[simp] theorem selected_function (package name : String) (args : List Expr) :
    (Expr.method (.ident package) name args).selected = package :: args.flatMap Expr.selected := by
  simp [Expr.method, Expr.name?]

@[simp] theorem selected_formattedError (args : List Expr) :
    (formattedError args).selected = "fmt" :: args.flatMap Expr.selected :=
  selected_function "fmt" "Errorf" args

@[simp] theorem selected_fixedError (text : String) : (fixedError text).selected = ["errors"] := by
  simp [fixedError]

@[simp] theorem selected_joinError (e : Expr) :
    (joinError e).selected = "errors" :: e.selected := by
  simp [joinError, Stmt.assign, SimpleStmt.selected]

@[simp] theorem selected_dereferenced (depth : Nat) (e : Expr) :
    (dereferenced depth e).selected = e.selected := by
  induction depth with
  | zero => rfl
  | succ depth ih => rwa [dereferenced, Expr.selected]

/-- A condition on the layers of a value selects from what the value selects from. -/
theorem selected_presence {e guard : Expr} {depth : Nat} (h : presence? e depth = some guard) :
    guard.selected ⊆ e.selected := by
  induction depth generalizing guard with
  | zero => cases h
  | succ depth ih =>
      rw [presence?] at h
      cases hfirst : presence? e depth with
      | none =>
          rw [hfirst] at h
          cases h
          simp
      | some first =>
          rw [hfirst] at h
          cases h
          simpa using ih hfirst

/-- A field is selected from the receiver. -/
theorem selected_access (f : Field) : f.access.selected = ["r"] := rfl

end Pieces

/-- Dereferences stand in front of a path. -/
theorem pathHead?_dereferenced (depth : Nat) (e : Expr) :
    Expr.pathHead? (dereferenced depth e).text = Expr.pathHead? e.text := by
  induction depth with
  | zero => rfl
  | succ depth ih =>
      rw [← ih]
      simp [Expr.pathHead?, toList_dereferenced]

theorem pathHead?_access (f : Field) : Expr.pathHead? f.access.text = some "r" := by
  have hr : continuesIdent 'r' = true := by decide
  have hdot : continuesIdent '.' = false := by decide
  have hname : isIdentifier (String.ofList ['r']) = true := by decide
  simp [Expr.pathHead?, f.toList_access, hr, hdot, hname]

/-- A number is no path. -/
theorem pathHead?_bound (b : Bound) : Expr.pathHead? b.text = none := by
  have hname : ∀ cs : List Char, cs ⊆ b.text.toList → isIdentifier (String.ofList cs) = false := by
    intro cs hcs
    by_contra hident
    obtain ⟨c, rest, heq, hstart, -⟩ := exists_of_isIdentifier (Bool.eq_true_of_not_eq_false hident)
    rw [String.toList_ofList] at heq
    have hmem : c ∈ b.text.toList := hcs (heq ▸ List.mem_cons_self)
    have hfalse : startsIdent c = false := by
      rcases mem_text hmem with rfl | rfl | hdigit
      · decide
      · decide
      · exact of_isDigit (p := fun c => startsIdent c = false) (by decide) hdigit
    rw [hstart] at hfalse
    cases hfalse
  have hpath := hname _ (List.Subset.trans (List.takeWhile_prefix continuesIdent).subset
    (List.dropWhile_suffix (· == '*')).subset)
  simp only [Expr.pathHead?, hpath, Bool.false_and]
  rfl

/-! What statements use. -/

/-- Whether statements use the packages, each on its own condition. -/
structure Uses (ss : List Stmt) (errors fmt : Prop) : Prop where
  errors : "errors" ∈ ss.flatMap Stmt.selected ↔ errors
  fmt : "fmt" ∈ ss.flatMap Stmt.selected ↔ fmt

section

variable {ss ts : List Stmt} {p q p' q' : Prop}

theorem uses_nil : Uses [] False False := ⟨by simp, by simp⟩

theorem Uses.append (h : Uses ss p q) (h' : Uses ts p' q') :
    Uses (ss ++ ts) (p ∨ p') (q ∨ q') := by
  constructor
  · rw [List.flatMap_append, List.mem_append, h.errors, h'.errors]
  · rw [List.flatMap_append, List.mem_append, h.fmt, h'.fmt]

theorem uses_flatMap {α : Type} (xs : List α) {f : α → List Stmt} {p q : α → Prop}
    (h : ∀ x ∈ xs, Uses (f x) (p x) (q x)) :
    Uses (xs.flatMap f) (∃ x ∈ xs, p x) (∃ x ∈ xs, q x) := by
  induction xs with
  | nil => simpa using uses_nil
  | cons x xs ih =>
      rw [List.forall_mem_cons] at h
      simpa using h.1.append (ih h.2)

/-- A condition that selects from the receiver only changes nothing. -/
theorem Uses.guarded {guard : Expr} (h : Uses ss p q) (hguard : guard.selected ⊆ ["r"]) :
    Uses [.branch none guard ss] p q := by
  have hmem : ∀ name, name ≠ "r" →
      (name ∈ [Stmt.branch none guard ss].flatMap Stmt.selected ↔
        name ∈ ss.flatMap Stmt.selected) := by
    intro name hname
    have hnot : name ∉ guard.selected := fun h => hname (List.mem_singleton.mp (hguard h))
    simp [Stmt.selected, hnot]
  exact ⟨(hmem _ (by decide)).trans h.errors, (hmem _ (by decide)).trans h.fmt⟩

end

/-! Checks. -/

theorem map_failure_toList {α : Type} (bound : Option α) (check : α → Check) :
    (bound.map check).toList.map Check.failure =
      (bound.map fun x => (check x).failure).toList := by
  cases bound <;> rfl

/-- How a check fails does not depend on the access to the value. -/
theorem Rule.failure_checks (rule : Rule) (display access access' : String) :
    (rule.checks display access).map Check.failure =
      (rule.checks display access').map Check.failure := by
  cases rule with
  | length rule => simp [Rule.checks, Length.checks, map_failure_toList]
  | range rule => simp [Rule.checks, Range.checks, map_failure_toList]

theorem uses_check {c : Check} (h : Expr.pathHead? c.condition.operand.access = some "r") :
    Uses [c.lower] True (c.failure.reportActual = true) := by
  have hoperand : c.condition.operand.expr.selected = ["r"] := by
    cases hc : c.condition.operand <;>
      simpa [hc, Operand.expr, Operand.access, Expr.selected] using h
  have hcondition : (Expr.binary c.condition.operand.expr c.condition.comparison.symbol
      (.raw c.condition.bound.text)).selected = ["r"] := by
    rw [Expr.selected, hoperand, Expr.selected, pathHead?_bound]
    rfl
  have herror : c.error.selected =
      if c.failure.reportActual then ["fmt", "r"] else ["errors"] := by
    unfold Check.error
    split <;> simp [hoperand, Expr.selected]
  have hjoin : Uses [joinError c.error] True (c.failure.reportActual = true) := by
    refine ⟨by simp, ?_⟩
    rw [List.flatMap_singleton, selected_joinError, herror]
    cases c.failure.reportActual <;> decide
  exact hjoin.guarded (by rw [hcondition]; exact List.Subset.refl _)

/-- The statements for the checks use what the checks say, whatever they read. -/
theorem uses_loweredChecks (f : Field) :
    Uses f.loweredChecks (∃ c ∈ f.checks, True) (∃ c ∈ f.checks, c.failure.reportActual = true) := by
  set access := (dereferenced f.shape.peelOptional.1 f.access).text with haccess
  set checks := f.rules.flatMap fun rule => rule.checks f.name access with hchecks
  have hread : ∀ c ∈ checks, Uses [c.lower] True (c.failure.reportActual = true) := by
    intro c hc
    obtain ⟨rule, -, hc⟩ := List.mem_flatMap.mp hc
    refine uses_check ?_
    rw [Rule.access_checks hc, haccess, pathHead?_dereferenced]
    exact pathHead?_access f
  have hfailures : checks.map Check.failure = f.checks.map Check.failure := by
    simp only [hchecks, Field.checks, List.map_flatMap, Rule.failure_checks _ f.name access "v"]
  have hexists : ∀ P : CheckFailure → Prop,
      (∃ c ∈ checks, P c.failure) ↔ ∃ c ∈ f.checks, P c.failure := by
    intro P
    have hmap : ∀ cs : List Check, (∃ c ∈ cs, P c.failure) ↔ ∃ g ∈ cs.map Check.failure, P g := by
      simp
    rw [hmap, hfailures, ← hmap]
  have hlowered : f.loweredChecks = checks.flatMap fun c => [c.lower] := by
    rw [Field.loweredChecks, List.map_eq_flatMap]
  rw [hlowered, ← hexists fun _ => True, ← hexists fun g => g.reportActual = true]
  exact uses_flatMap checks hread

theorem uses_lowerRules (f : Field) :
    Uses f.lowerRules (∃ c ∈ f.checks, True) (∃ c ∈ f.checks, c.failure.reportActual = true) := by
  have hchecks := uses_loweredChecks f
  unfold Field.lowerRules
  split
  · rename_i guard check checks hguard heq
    rw [heq] at hchecks
    have hreceiver := selected_presence hguard
    rw [selected_access] at hreceiver
    exact hchecks.guarded hreceiver
  · exact hchecks

/-! Contained values. -/

theorem uses_validateValue (value : Expr) (path : ValuePath) :
    Uses [validateValue value path] True True :=
  ⟨by simp [validateValue, Stmt.selected], by simp [validateValue, Stmt.selected]⟩

/-- Statements that use both packages do so inside others too. -/
theorem Uses.inside {ss ts : List Stmt} (h : Uses ss True True)
    (hsubset : ss.flatMap Stmt.selected ⊆ ts.flatMap Stmt.selected) : Uses ts True True :=
  ⟨iff_true_intro (hsubset (of_iff_true h.errors)), iff_true_intro (hsubset (of_iff_true h.fmt))⟩

theorem uses_lowerNested (shape : Shape) (value : Expr) (path : ValuePath) (depth : Nat) :
    Uses (shape.lowerNested value path depth) True True := by
  induction shape generalizing value path depth with
  | direct type => exact uses_validateValue value path
  | optional inner ih =>
      by_cases hdirect : ∃ type, inner = .direct type
      · obtain ⟨type, rfl⟩ := hdirect
        exact (uses_validateValue value path).inside (by simp [Shape.lowerNested, Stmt.selected])
      · rw [Shape.lowerNested_optional fun type htype => hdirect ⟨type, htype⟩]
        exact (ih value.deref path depth).inside (by simp [Stmt.selected])
  | sequence inner ih =>
      let item := Expr.ident (loopVariable "item" depth)
      exact (ih item (path.element "%d" (loopVariable "i" depth)) (depth + 1)).inside
        (by simp [item, Shape.lowerNested, Stmt.selected])
  | mapping inner ih =>
      let item := Expr.ident (loopVariable "value" depth)
      exact (ih item (path.element "%v" (loopVariable "k" depth)) (depth + 1)).inside
        (by simp [item, Shape.lowerNested, Stmt.selected])

/-! Methods. -/

theorem uses_field (f : Field) :
    Uses f.lower (f.findsErrors = true) (f.formatsErrors = true) := by
  have hrules := uses_lowerRules f
  have hfinds : (∃ c ∈ f.checks, True) ↔ (!f.checks.isEmpty) = true := by
    simp [List.eq_nil_iff_forall_not_mem]
  rw [hfinds] at hrules
  cases hnested : f.nested with
  | true =>
      have hall := hrules.append (uses_lowerNested f.shape f.access ⟨f.name, []⟩ 0)
      simpa [Field.lower, Field.findsErrors, Field.formatsErrors, hnested] using hall
  | false =>
      simpa [Field.lower, Field.findsErrors, Field.formatsErrors, hnested] using hrules

/-- A method without statements for its fields uses no package. -/
theorem uses_lowerRecord (name : String) (fields : List Field) :
    Uses (lowerRecord name fields).body (∃ f ∈ fields, f.findsErrors = true)
      (∃ f ∈ fields, f.formatsErrors = true) := by
  have hbody : (lowerRecord name fields).body.flatMap Stmt.selected =
      (fields.flatMap Field.lower).flatMap Stmt.selected := by
    unfold lowerRecord validation
    split
    · rename_i heq
      rw [heq]
      rfl
    · rename_i s ss heq
      rw [heq]
      simp [Stmt.selected, Expr.selected]
  have hfields := uses_flatMap fields fun f _ => uses_field f
  exact ⟨hbody ▸ hfields.errors, hbody ▸ hfields.fmt⟩

theorem uses_lowerEnumeration (name : String) (e : Enumeration) :
    Uses (e.lower name).body False True := by
  have hbody : (e.lower name).body.flatMap Stmt.selected = ["fmt"] := by
    simp [Enumeration.lower, validation, Stmt.define, Stmt.selected, SimpleStmt.selected,
      Expr.selected, receiver]
    rfl
  exact ⟨by rw [hbody]; decide, by rw [hbody]; decide⟩

/-! Files. -/

namespace AnnotatedFile

variable (f : AnnotatedFile) (header : String)

/-- All methods of a file together. -/
theorem uses_lower : Uses ((f.lower header).methods.flatMap Method.body)
    (f.importsErrors = true) (f.importsFmt = true) := by
  have henumerations := uses_flatMap f.enumerations fun e _ => uses_lowerEnumeration e.1 e.2
  have hrecords := uses_flatMap f.records fun r _ => uses_lowerRecord r.1 r.2
  have hall := henumerations.append hrecords
  have hmethods : (f.lower header).methods.flatMap Method.body =
      (f.enumerations.flatMap fun e => (e.2.lower e.1).body) ++
        f.records.flatMap fun r => (lowerRecord r.1 r.2).body := by
    simp [lower, List.flatMap_map]
  have herrors : f.importsErrors = true ↔
      (∃ e ∈ f.enumerations, False) ∨ ∃ r ∈ f.records, ∃ field ∈ r.2, field.findsErrors = true := by
    simp [importsErrors]
  have hfmt : f.importsFmt = true ↔
      (∃ e ∈ f.enumerations, True) ∨ ∃ r ∈ f.records, ∃ field ∈ r.2, field.formatsErrors = true := by
    simp [importsFmt, List.eq_nil_iff_forall_not_mem]
  rwa [hmethods, herrors, hfmt]

/-- A file imports the packages that its methods select members of, no other, each once and in
order. -/
theorem imports_lower :
    (∀ path, path ∈ (f.lower header).imports ↔
      path ∈ packages ∧ (f.lower header).Selects path) ∧
    (f.lower header).imports.Pairwise (· < ·) := by
  have hmem : ∀ path, path ∈ (f.lower header).imports ↔
      path = "errors" ∧ f.importsErrors = true ∨ path = "fmt" ∧ f.importsFmt = true := by
    intro path
    simp only [lower, List.mem_append]
    cases f.importsErrors <;> cases f.importsFmt <;> simp
  constructor
  · intro path
    rw [hmem, GoFile.selects_iff, ← (uses_lower f header).errors, ← (uses_lower f header).fmt]
    constructor
    · rintro (⟨rfl, h⟩ | ⟨rfl, h⟩)
      · exact ⟨by decide, h⟩
      · exact ⟨by decide, h⟩
    · rintro ⟨hpath, h⟩
      simp only [packages, List.mem_cons, List.not_mem_nil, or_false] at hpath
      rcases hpath with rfl | rfl
      · exact .inl ⟨rfl, h⟩
      · exact .inr ⟨rfl, h⟩
  · simp only [lower]
    cases f.importsErrors <;> cases f.importsFmt <;> decide

/-- A rule without bounds needs no import. -/
example (shape : Shape) : (lower ⟨"types.go", "v1",
    [⟨"A", .record [⟨"N", shape, [.range .unset], false⟩]⟩]⟩ "// header").imports = [] := by
  rfl

end AnnotatedFile

end FieldRules
