/-
The checks of generated code.  The statements for one rule report exactly the bounds of
the rule that the value breaks.
-/
import FieldRules.Proofs.Code.Access
import Mathlib.Data.List.Forall2

namespace FieldRules

/-! Statements that report errors. -/

/-- Statements in a method report errors and call Validate methods, or are mistyped. -/
def Reports (self : GoValue) (ss : List Stmt) (r : Option (List GoError)) (ls : List Leaf) : Prop :=
  ∀ m : Machine, m.scope.get? "r" = some self → m.Collects →
    Stmt.execAll ss m =
      match r with
      | some es => .ok (.next (m.note es ls))
      | none => .error .mistyped

section Reporting

variable {self : GoValue} {ss ss' : List Stmt} {r r' : Option (List GoError)} {ls ls' : List Leaf}

theorem reports_nil : Reports self [] (some []) [] := by
  intro m _ _
  simp [Stmt.execAll]

theorem Reports.append (h : Reports self ss r ls) (h' : Reports self ss' r' ls') :
    Reports self (ss ++ ss') (r.bind fun es => r'.map (es ++ ·)) (ls ++ ls') := by
  intro m hself hm
  have hrun := h m hself hm
  cases r with
  | none => exact Stmt.execAll_append_error hrun
  | some es =>
      have hrest := h' (m.note es ls) (by rw [Machine.get?_note (by decide), hself]) hm.note
      rw [Stmt.execAll_append hrun, hrest]
      cases r' with
      | none => rfl
      | some es' => simp

/-- Statements for the members of a list one after the other. -/
theorem reports_flatMap {α : Type} (xs : List α) {f : α → List Stmt}
    {r : α → Option (List GoError)} {ls : α → List Leaf}
    (h : ∀ x ∈ xs, Reports self (f x) (r x) (ls x)) :
    Reports self (xs.flatMap f) (gather (xs.map r)) (xs.flatMap ls) := by
  induction xs with
  | nil => exact reports_nil
  | cons x xs ih =>
      exact (h x List.mem_cons_self).append (ih fun y hy => h y (List.mem_cons_of_mem x hy))

end Reporting

/-! Single checks. -/

theorem expand_escapeFormat (s : String) {cs : List Char} {args : List GoValue} :
    expand ((escapeFormat s).toList ++ cs) args =
      (expand cs args).map fun (text, inner) => (s.toList ++ text, inner) := by
  rw [escapeFormat, String.toList_ofList]
  induction s.toList with
  | nil => simp
  | cons x xs ih =>
      by_cases hx : x = '%'
      · subst hx
        rw [List.flatMap_cons, if_pos rfl, List.append_assoc, List.cons_append, List.cons_append,
          List.nil_append, expand_percent, ih]
        simp [Function.comp_def]
      · rw [List.flatMap_cons, if_neg hx, List.append_assoc, List.cons_append, List.nil_append,
          expand_cons hx, ih]
        simp [Function.comp_def]

/-- A comparison as a property of its left side. -/
def Comparison.holds : Comparison → GoNumber → GoNumber → Bool
  | lt, x, y => x.below y
  | le, x, y => x.below y || x.same y
  | gt, x, y => y.below x
  | ge, x, y => y.below x || x.same y
  | ne, x, y => !x.same y

theorem compared?_symbol (c : Comparison) (x y : GoNumber) :
    GoNumber.compared? c.symbol x y = some (c.holds x y) := by
  cases c <;> rfl

/-- What an operand gives in a method: a number with its text under the verb of the
operand, or nothing that a number can be compared with. -/
def Measures (self : GoValue) (o : Operand) : Option (GoNumber × String) → Prop
  | some (x, printed) => ∀ m : Machine, m.scope.get? "r" = some self →
      ∃ v letter, o.expr.eval m = .ok (v, m) ∧ v.number? = some x ∧ v.wrappedErrors = [] ∧
        o.verb.toList = ['%', letter] ∧ letter ≠ '%' ∧ v.printed? letter = some printed
  | none => ∀ m : Machine, m.scope.get? "r" = some self →
      o.expr.eval m = .error .mistyped ∨ ∃ v, o.expr.eval m = .ok (v, m) ∧ v.number? = none

/-- What a failing check reports, if the value has the text `printed`. -/
def CheckFailure.report (f : CheckFailure) (printed : String) : GoError :=
  .text (f.headline ++ if f.reportActual then ", got " ++ printed else "")

theorem eval_checkError {self : GoValue} {c : Check} {x : GoNumber} {printed : String}
    (ho : Measures self c.condition.operand (some (x, printed))) {m : Machine}
    (hself : m.scope.get? "r" = some self) :
    c.error.eval m = .ok (.failure (c.failure.report printed), m) := by
  obtain ⟨v, letter, hv, -, hplain, hverb, hletter, hprinted⟩ := ho m hself
  by_cases hactual : c.failure.reportActual = true
  · have hargs : Expr.evalAll [c.condition.operand.expr] m = .ok ([v], m) := by
      simp [Expr.evalAll, hv]
    have hformat : formatError
        (escapeFormat c.failure.headline ++ ", got " ++ c.condition.operand.verb) [v] =
          c.failure.report printed := by
      have hend : expand (", got ".toList ++ c.condition.operand.verb.toList) [v] =
          some (", got ".toList ++ printed.toList, []) := by
        rw [hverb, expand_append (by decide), expand_verb hletter hprinted]
        simp [expand, hplain]
      simp only [formatError, String.toList_append, List.append_assoc, expand_escapeFormat, hend,
        Option.map_some, CheckFailure.report, hactual, if_true]
      rw [← String.toList_append, ← String.toList_append, String.ofList_toList]
    rw [Check.error, if_pos hactual, eval_formattedError hargs, hformat]
  · simp [Check.error, hactual, fixedError, Expr.method, Expr.eval, package?, Expr.evalAll,
      libraryCall, CheckFailure.report]

theorem eval_condition {c : Condition} {m : Machine} {v : GoValue}
    (h : c.operand.expr.eval m = .ok (v, m)) :
    (Expr.binary c.operand.expr c.comparison.symbol (.raw c.bound.text)).eval m =
      match v.number? with
      | some x => .ok (.truth (c.comparison.holds x (.finite c.bound.value)), m)
      | none => .error .mistyped := by
  have hop : c.comparison.symbol ≠ "&&" := by
    cases c.comparison <;> decide
  have hbound : (GoValue.number (.finite c.bound.value)).number? =
      some (.finite c.bound.value) := rfl
  cases hv : v.number? with
  | none => simp [Expr.eval, h, hop, rawValue_text, GoValue.compared, hv]
  | some x =>
      simp [Expr.eval, h, hop, rawValue_text, GoValue.compared, hv, hbound, compared?_symbol]

/-- A check reports its failure exactly if its comparison holds. -/
theorem reports_check {self : GoValue} {c : Check} {measure : Option (GoNumber × String)}
    (ho : Measures self c.condition.operand measure) :
    Reports self [c.lower]
      (measure.map fun (x, printed) =>
        if c.condition.comparison.holds x (.finite c.condition.bound.value) then
          [c.failure.report printed]
        else []) [] := by
  intro m hself hm
  cases measure with
  | none =>
      have hcondition : (Expr.binary c.condition.operand.expr c.condition.comparison.symbol
          (.raw c.condition.bound.text)).eval m = .error .mistyped := by
        rcases ho m hself with h | ⟨v, h, hv⟩
        · rw [Expr.eval, h]
          rfl
        · rw [eval_condition h, hv]
      simp [Stmt.execAll, Check.lower, Stmt.exec, hcondition]
  | some measured =>
      obtain ⟨x, printed⟩ := measured
      obtain ⟨v, -, hv, hx, -⟩ := ho m hself
      have hcondition := eval_condition hv
      simp only [hx] at hcondition
      apply Stmt.execAll_single
      change _ = Except.ok (Flow.next (m.note (if _ then _ else _) []))
      by_cases hholds : c.condition.comparison.holds x (.finite c.condition.bound.value) = true
      · rw [hholds] at hcondition
        rw [if_pos hholds]
        exact exec_branch_true hcondition
          (Stmt.execAll_single (exec_joinError (eval_checkError ho hself) hm))
      · rw [Bool.not_eq_true] at hholds
        rw [hholds] at hcondition
        rw [hholds, if_neg Bool.false_ne_true, Machine.note_nil]
        exact exec_branch_false hcondition

/-! The checks of rules. -/

theorem measures_len {self v : GoValue} {access : String}
    (h : ∀ s : Scope, s.get? "r" = some self → rawValue s access.toList = .ok v) :
    Measures self (.len access) (v.length?.map fun n => (.finite n, toString n)) := by
  cases hn : v.length? with
  | none =>
      intro m hself
      exact Or.inl (by simp [Operand.expr, Expr.eval, Expr.evalAll, h _ hself, builtinCall, hn])
  | some n =>
      intro m hself
      refine ⟨.int n, 'd', ?_, ?_, rfl, by simp [Operand.verb], by decide, rfl⟩
      · simp [Operand.expr, Expr.eval, Expr.evalAll, h _ hself, builtinCall, hn]
      · simp [GoValue.number?]

theorem measures_value {self v : GoValue} {access : String} (rule : Range)
    (h : ∀ s : Scope, s.get? "r" = some self → rawValue s access.toList = .ok v)
    (hv : (∃ l, v = .leaf l) ∨ v.number? = none) :
    Measures self (.value access) ((Rule.range rule).measure v) := by
  have heval : ∀ m : Machine, m.scope.get? "r" = some self →
      (Operand.value access).expr.eval m = .ok (v, m) := by
    intro m hself
    simp [Operand.expr, Expr.eval, h _ hself]
  rcases hv with ⟨l, rfl⟩ | hnone
  · rw [Rule.measure]
    cases hn : l.number with
    | none => exact fun m hself => Or.inr ⟨.leaf l, heval m hself, hn⟩
    | some x =>
        exact fun m hself => ⟨.leaf l, 'v', heval m hself, hn, rfl, by simp [Operand.verb],
          by decide, rfl⟩
  · have hmeasure : (Rule.range rule).measure v = none := by
      cases v with
      | leaf l => simpa [Rule.measure, GoValue.number?] using hnone
      | _ => rfl
    rw [hmeasure]
    exact fun m hself => Or.inr ⟨v, heval m hself, hnone⟩

/-- A check tests a limit and reports it as its rule does. -/
structure Check.Tests (rule : Rule) (display : String) (o : Operand) (c : Check) (l : Limit) :
    Prop where
  operand : c.condition.operand = o
  breaks : ∀ x, c.condition.comparison.holds x (.finite c.condition.bound.value) = l.breaks x
  report : ∀ printed, c.failure.report printed = rule.report display l printed

theorem reports_checks {self v : GoValue} {rule : Rule} {display : String} {o : Operand}
    {cs : List Check} {ls : List Limit} (ho : Measures self o (rule.measure v))
    (h : List.Forall₂ (Check.Tests rule display o) cs ls) :
    Reports self (cs.map Check.lower)
      (gather (ls.map fun l => (rule.measure v).map fun (x, actual) =>
        if l.breaks x then [rule.report display l actual] else [])) [] := by
  induction h with
  | nil => exact reports_nil
  | cons hc _ ih =>
      have hone := reports_check (hc.operand ▸ ho)
      simp only [hc.breaks, hc.report] at hone
      exact hone.append ih

/-- Checks and limits for the same bound, if it is set. -/
theorem tests_toList {β : Type} {rule : Rule} {display : String} {o : Operand} {check : β → Check}
    {limit : β → Limit} (h : ∀ b, Check.Tests rule display o (check b) (limit b)) (b? : Option β) :
    List.Forall₂ (Check.Tests rule display o) (b?.map check).toList (b?.map limit).toList := by
  cases b? with
  | none => exact .nil
  | some b => exact .cons (h b) .nil

theorem report_of (rule : Rule) (display printed : String) (l : Limit) :
    (CheckFailure.of rule.message (rule.subject display ++ " must be " ++ l.phrase ++ " " ++ l.bound)
      rule.code).report printed = rule.report display l printed := by
  cases hmessage : rule.message <;> cases hcode : rule.code <;>
    simp [CheckFailure.report, CheckFailure.headline, CheckFailure.of, Rule.report, hmessage, hcode,
      String.append_assoc]

theorem tests_length (rule : Length) (display access : String) :
    List.Forall₂ (Check.Tests (.length rule) display (.len access)) (rule.checks display access)
      rule.limits := by
  have hreport : ∀ (phrase printed : String) (b : Int64) (breaks : GoNumber → Bool),
      (CheckFailure.of rule.message s!"{display} length must be {phrase} {(Bound.int b).text}"
        rule.code).report printed =
          (Rule.length rule).report display ⟨phrase, toString b.toInt, breaks⟩ printed := by
    intro phrase printed b breaks
    rw [← report_of]
    change (CheckFailure.of rule.message (display ++ " length must be " ++ phrase ++ " " ++
      toString b.toInt) rule.code).report printed = _
    simp [Rule.message, Rule.code, Rule.subject, String.append_assoc]
  have htests : ∀ (comparison : Comparison) (phrase : String)
      (breaks : GoNumber → GoNumber → Bool), (∀ x b, comparison.holds x b = breaks x b) →
      ∀ b : Int64, Check.Tests (.length rule) display (.len access)
        ⟨⟨.len access, comparison, .int b⟩,
          .of rule.message s!"{display} length must be {phrase} {(Bound.int b).text}" rule.code⟩
        ⟨phrase, toString b.toInt, fun x => breaks x (.finite b.toInt)⟩ :=
    fun comparison phrase breaks hbreaks b =>
      ⟨rfl, fun x => hbreaks x _, fun printed => hreport phrase printed b _⟩
  apply List.rel_append (List.rel_append (tests_toList ?_ rule.min) (tests_toList ?_ rule.max))
    (tests_toList ?_ rule.equal)
  · exact htests .lt "at least" (fun x b => x.below b) fun _ _ => rfl
  · exact htests .gt "at most" (fun x b => b.below x) fun _ _ => rfl
  · exact htests .ne "exactly" (fun x b => !x.same b) fun _ _ => rfl

theorem tests_range (rule : Range) (display access : String) :
    List.Forall₂ (Check.Tests (.range rule) display (.value access)) (rule.checks display access)
      rule.limits := by
  have hreport : ∀ (phrase printed : String) (b : Double) (breaks : GoNumber → Bool),
      (CheckFailure.of rule.message s!"{display} must be {phrase} {(Bound.float b).text}"
        rule.code).report printed =
          (Rule.range rule).report display ⟨phrase, String.ofList b.exactChars, breaks⟩ printed :=
    fun phrase printed b breaks => report_of (.range rule) display printed
      ⟨phrase, String.ofList b.exactChars, breaks⟩
  have htests : ∀ (comparison : Comparison) (phrase : String)
      (breaks : GoNumber → GoNumber → Bool), (∀ x b, comparison.holds x b = breaks x b) →
      ∀ b : Double, Check.Tests (.range rule) display (.value access)
        ⟨⟨.value access, comparison, .float b⟩,
          .of rule.message s!"{display} must be {phrase} {(Bound.float b).text}" rule.code⟩
        ⟨phrase, String.ofList b.exactChars, fun x => breaks x (.finite b.toRat)⟩ :=
    fun comparison phrase breaks hbreaks b =>
      ⟨rfl, fun x => hbreaks x _, fun printed => hreport phrase printed b _⟩
  apply List.rel_append (List.rel_append (List.rel_append (tests_toList ?_ rule.min)
    (tests_toList ?_ rule.max)) (tests_toList ?_ rule.exclusiveMin))
    (tests_toList ?_ rule.exclusiveMax)
  · exact htests .lt "at least" (fun x b => x.below b) fun _ _ => rfl
  · exact htests .gt "at most" (fun x b => b.below x) fun _ _ => rfl
  · exact htests .le "greater than" (fun x b => x.below b || x.same b) fun _ _ => rfl
  · exact htests .ge "less than" (fun x b => b.below x || x.same b) fun _ _ => rfl

/-- The checks of a rule report the bounds that a value breaks. -/
theorem reports_rule {self v : GoValue} {access : String} (rule : Rule) (display : String)
    (h : ∀ s : Scope, s.get? "r" = some self → rawValue s access.toList = .ok v)
    (hv : (∃ l, v = .leaf l) ∨ v.number? = none) :
    Reports self ((rule.checks display access).map Check.lower) (rule.violations display v) [] := by
  cases rule with
  | length rule =>
      have ho : Measures self (.len access) ((Rule.length rule).measure v) := measures_len h
      exact reports_checks ho (tests_length rule display access)
  | range rule => exact reports_checks (measures_value rule h hv) (tests_range rule display access)

end FieldRules
