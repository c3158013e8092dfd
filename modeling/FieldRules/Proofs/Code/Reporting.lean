/-
Reporting: how a run joins errors to those found before and calls Validate methods, and
that it changes nothing else.
-/
import FieldRules.Proofs.Code.Meaning
import Mathlib.Data.List.Induction

namespace FieldRules

namespace Scope

theorem get?_set_self {s : Scope} {name : String} {v : GoValue} (h : s.get? name = some v)
    (x : GoValue) : (s.set name x).get? name = some x := by
  induction s with
  | nil => cases h
  | cons entry rest ih =>
      obtain ⟨n, w⟩ := entry
      by_cases hn : n = name
      · simp [set, get?, hn]
      · rw [get?, if_neg hn] at h
        simp [set, get?, hn, ih h]

theorem get?_set_of_ne {name other : String} (h : other ≠ name) (s : Scope) (x : GoValue) :
    (s.set name x).get? other = s.get? other := by
  induction s with
  | nil => rfl
  | cons entry rest ih =>
      obtain ⟨n, w⟩ := entry
      by_cases hn : n = name
      · simp [set, get?, hn, h.symm]
      · simp [set, get?, hn, ih]

theorem length_set (s : Scope) (name : String) (x : GoValue) :
    (s.set name x).length = s.length := by
  induction s with
  | nil => rfl
  | cons entry rest ih =>
      obtain ⟨n, w⟩ := entry
      by_cases hn : n = name <;> simp [set, hn, ih]

end Scope

namespace GoError

/-- Whether an error is no list of others. -/
def single : GoError → Bool
  | joined _ => false
  | _ => true

theorem parts_of_single {e : GoError} (h : e.single) : e.parts = [e] := by
  cases e with
  | joined es => cases h
  | _ => rfl

theorem partsOf_eq_flatMap (es : List GoError) : partsOf es = es.flatMap parts := by
  induction es with
  | nil => rfl
  | cons e es ih => rw [partsOf, ih, List.flatMap_cons]

end GoError

namespace GoValue

/-- Whether a value is nil or an error. -/
def isError : GoValue → Bool
  | absent | failure _ => true
  | _ => false

/-- The errors behind a value, joined ones one by one. -/
def errorParts : GoValue → List GoError
  | failure e => e.parts
  | _ => []

/-- What joining an error to a value gives. -/
def joinedWith (v : GoValue) (e : GoError) : GoValue := failure (.joined (v.wrappedErrors ++ [e]))

theorem joinErrors_pair {v : GoValue} (h : v.isError) (e : GoError) :
    joinErrors [v, failure e] = .ok (v.joinedWith e) := by
  cases v with
  | absent => rfl
  | failure f => rfl
  | _ => cases h

theorem errorParts_joinedWith {v : GoValue} (h : v.isError) {e : GoError} (he : e.single) :
    (v.joinedWith e).errorParts = v.errorParts ++ [e] := by
  cases v with
  | absent => simp [joinedWith, errorParts, wrappedErrors, GoError.parts, GoError.partsOf,
      GoError.parts_of_single he]
  | failure f => simp [joinedWith, errorParts, wrappedErrors, GoError.parts, GoError.partsOf,
      GoError.parts_of_single he]
  | _ => cases h

end GoValue

namespace Machine

/-- The errors found so far. -/
def errors (m : Machine) : GoValue := (m.scope.get? "errs").getD .absent

/-- Whether there is a variable for errors that holds nil or an error. -/
def Collects (m : Machine) : Prop := ∃ v, m.scope.get? "errs" = some v ∧ v.isError

def addError (m : Machine) (e : GoError) : Machine :=
  { m with scope := m.scope.set "errs" (m.errors.joinedWith e) }

/-- A machine after errors were joined and Validate methods called. -/
def note (m : Machine) (es : List GoError) (ls : List Leaf) : Machine :=
  { scope := (es.foldl addError m).scope, calls := m.calls ++ ls }

variable {m : Machine} {name : String} {v : GoValue} {e : GoError} {es es' : List GoError}
  {ls ls' : List Leaf}

theorem Collects.get?_errors (h : m.Collects) : m.scope.get? "errs" = some m.errors := by
  obtain ⟨v, hv, -⟩ := h
  simp [errors, hv]

theorem Collects.isError (h : m.Collects) : m.errors.isError := by
  obtain ⟨v, hv, hv'⟩ := h
  simpa [errors, hv] using hv'

theorem foldl_addError_congr {m m' : Machine} (h : m.scope = m'.scope) (es : List GoError) :
    (es.foldl addError m).scope = (es.foldl addError m').scope := by
  induction es generalizing m m' with
  | nil => exact h
  | cons e es ih =>
      apply ih
      simp only [addError, errors, h]

@[simp] theorem calls_note : (m.note es ls).calls = m.calls ++ ls := rfl

@[simp] theorem note_nil : m.note [] [] = m := by
  simp [note]

@[simp] theorem note_note : (m.note es ls).note es' ls' = m.note (es ++ es') (ls ++ ls') := by
  have hfirst : (m.note es ls).scope = (es.foldl addError m).scope := rfl
  have hscope := foldl_addError_congr hfirst es'
  simp only [note] at hscope ⊢
  rw [hscope, List.foldl_append, List.append_assoc]

theorem addError_put (h : name ≠ "errs") :
    (m.put name v).addError e = (m.addError e).put name v := by
  simp [addError, put, errors, Scope.set, Scope.get?, h]

/-- A variable of another name is in nobody's way. -/
theorem note_put (h : name ≠ "errs") :
    (m.put name v).note es ls = (m.note es ls).put name v := by
  have hscope : (es.foldl addError (m.put name v)).scope =
      ((es.foldl addError m).put name v).scope := by
    induction es generalizing m with
    | nil => rfl
    | cons e es ih => rw [List.foldl_cons, addError_put h, ih, List.foldl_cons]
  rw [note, hscope]
  rfl

theorem length_scope_note : (m.note es ls).scope.length = m.scope.length := by
  suffices h : (es.foldl addError m).scope.length = m.scope.length from h
  induction es generalizing m with
  | nil => rfl
  | cons e es ih =>
      rw [List.foldl_cons, ih]
      exact Scope.length_set _ _ _

theorem get?_note (h : name ≠ "errs") : (m.note es ls).scope.get? name = m.scope.get? name := by
  suffices hs : (es.foldl addError m).scope.get? name = m.scope.get? name from hs
  induction es generalizing m with
  | nil => rfl
  | cons e es ih =>
      rw [List.foldl_cons, ih]
      exact Scope.get?_set_of_ne h _ _

theorem Collects.addError (h : m.Collects) (e : GoError) : (m.addError e).Collects :=
  ⟨_, Scope.get?_set_self h.get?_errors _, rfl⟩

theorem Collects.foldl_addError (h : m.Collects) (es : List GoError) :
    (es.foldl Machine.addError m).Collects := by
  induction es generalizing m with
  | nil => exact h
  | cons e es ih => exact ih (h.addError e)

theorem Collects.note (h : m.Collects) : (m.note es ls).Collects := h.foldl_addError es

theorem Collects.put (h : m.Collects) (hn : name ≠ "errs") : (m.put name v).Collects := by
  obtain ⟨w, hw, hw'⟩ := h
  exact ⟨w, by simp [Machine.put, Scope.get?, hn, hw], hw'⟩

theorem errorParts_addError (h : m.Collects) (he : e.single) :
    (m.addError e).errors.errorParts = m.errors.errorParts ++ [e] := by
  have hget : (m.addError e).errors = m.errors.joinedWith e := by
    simp [errors, Machine.addError, Scope.get?_set_self h.get?_errors]
  rw [hget, GoValue.errorParts_joinedWith h.isError he]

/-- The errors after a run are those before and the joined ones, in their order. -/
theorem errorParts_note (h : m.Collects) (hs : ∀ e ∈ es, e.single) (ls : List Leaf) :
    (m.note es ls).errors.errorParts = m.errors.errorParts ++ es := by
  suffices hs : (es.foldl addError m).errors.errorParts = m.errors.errorParts ++ es from hs
  induction es generalizing m with
  | nil => simp
  | cons e es ih =>
      have hrest : ∀ e' ∈ es, e'.single := fun e' he' => hs e' (List.mem_cons_of_mem _ he')
      rw [List.foldl_cons, ih (h.addError e) hrest,
        errorParts_addError h (hs e List.mem_cons_self), List.append_assoc]
      rfl

theorem errors_note_nil : (m.note [] ls).errors = m.errors := rfl

/-- The errors found are nil only if none was joined. -/
theorem errors_note_eq_absent_iff (h : m.Collects) (es : List GoError) (ls : List Leaf) :
    (m.note es ls).errors = .absent ↔ m.errors = .absent ∧ es = [] := by
  cases es using List.reverseRecOn with
  | nil => simp [errors_note_nil]
  | append_singleton es e =>
      have hlast : (m.note (es ++ [e]) ls).errors = (es.foldl addError m).errors.joinedWith e := by
        have hc := (h.foldl_addError es).get?_errors
        simp [errors, note, Machine.addError, Scope.get?_set_self hc]
      rw [hlast]
      simp [GoValue.joinedWith]

theorem leave_put : (m.put name v).leave m.depth = m := by
  simp [leave, put, depth]

theorem depth_note (m : Machine) (es : List GoError) (ls : List Leaf) :
    (m.note es ls).depth = m.depth := length_scope_note

/-- A block without variables of its own. -/
theorem leave_note : (m.note es ls).leave m.depth = m.note es ls := by
  rw [← depth_note m es ls]
  simp only [leave, depth, Nat.sub_self, List.drop_zero]

/-- A block with one variable of its own. -/
theorem leave_put_note : ((m.note es ls).put name v).leave m.depth = m.note es ls := by
  rw [← depth_note m es ls, leave_put]

/-- A block with two variables of its own. -/
theorem leave_put_note₂ {name' : String} {v' : GoValue} :
    (((m.note es ls).put name v).put name' v').leave m.depth = m.note es ls := by
  have htwo : m.depth + 1 + 1 - m.depth = 2 := by omega
  rw [← depth_note m es ls] at htwo ⊢
  simp only [depth] at htwo
  simp only [leave, put, depth, List.length_cons, htwo, List.drop_succ_cons, List.drop_zero]

end Machine

open Machine

variable {m : Machine}

attribute [local simp] Expr.eval SimpleStmt.exec Stmt.exec

/-- The statement that adds an error joins the value of its expression. -/
theorem exec_joinError {e : Expr} {g : GoError} (h : e.eval m = .ok (.failure g, m))
    (hm : m.Collects) : (joinError e).exec m = .ok (.next (m.note [g] [])) := by
  have hvar : m.lookUp "errs" = .ok m.errors := by
    simp [lookUp, hm.get?_errors]
  have hargs : Expr.evalAll [.ident "errs", e] m = .ok ([m.errors, .failure g], m) := by
    simp [Expr.evalAll, hvar, h]
  have hjoin : libraryCall "errors" "Join" [m.errors, .failure g] = .ok (m.errors.joinedWith g) :=
    GoValue.joinErrors_pair hm.isError g
  simp [joinError, Stmt.assign, Expr.method, package?, hargs, hjoin, hvar, note, addError]

section Formats

variable {cs : List Char} {args : List GoValue}

theorem expand_cons {c : Char} (h : c ≠ '%') :
    expand (c :: cs) args = (expand cs args).map fun (text, inner) => (c :: text, inner) := by
  rw [expand.eq_def]
  simp only [h, if_false]

theorem expand_percent :
    expand ('%' :: '%' :: cs) args =
      (expand cs args).map fun (text, inner) => ('%' :: text, inner) := by
  simp [expand]

theorem expand_verb {verb : Char} {arg : GoValue} {piece : String} (hverb : verb ≠ '%')
    (h : arg.printed? verb = some piece) :
    expand ('%' :: verb :: cs) (arg :: args) =
      (expand cs args).map fun (text, inner) =>
        (piece.toList ++ text, arg.wrappedErrors ++ inner) := by
  simp only [expand, hverb, h]
  cases expand cs args <;> rfl

theorem expand_append {xs : List Char} (h : '%' ∉ xs) :
    expand (xs ++ cs) args = (expand cs args).map fun (text, inner) => (xs ++ text, inner) := by
  induction xs with
  | nil => simp
  | cons x xs ih =>
      have hx : x ≠ '%' := fun heq => h (heq ▸ List.mem_cons_self)
      rw [List.cons_append, expand_cons hx, ih fun hmem => h (List.mem_cons_of_mem x hmem)]
      simp [Function.comp_def]

end Formats

theorem eval_formattedError {args : List Expr} {vs : List GoValue}
    (h : Expr.evalAll args m = .ok (vs, m)) (format : String) :
    (formattedError (.str format :: args)).eval m = .ok (.failure (formatError format vs), m) := by
  have hargs : Expr.evalAll (.str format :: args) m = .ok (.text format :: vs, m) := by
    simp [Expr.evalAll, h]
  simp [formattedError, Expr.method, package?, hargs, libraryCall]

/-- Whether a pointer or an error is there. -/
theorem eval_notNil {e : Expr} {m' : Machine} {v : GoValue} {b : Bool}
    (he : e.eval m = .ok (v, m')) (hv : v.isAbsent? = some b) :
    e.notNil.eval m = .ok (.truth !b, m') := by
  have hnil : rawValue m'.scope ['n', 'i', 'l'] = .ok .absent := rfl
  simp [Expr.notNil, Expr.nil, he, hnil, GoValue.compared, hv]

theorem exec_branch_true {condition : Expr} {body : List Stmt} {es : List GoError} {ls : List Leaf}
    (hcondition : condition.eval m = .ok (.truth true, m))
    (hbody : Stmt.execAll body m = .ok (.next (m.note es ls))) :
    (Stmt.branch none condition body).exec m = .ok (.next (m.note es ls)) := by
  simp [hcondition, hbody, Flow.leave, leave_note]

theorem exec_branch_false {condition : Expr} {body : List Stmt}
    (hcondition : condition.eval m = .ok (.truth false, m)) :
    (Stmt.branch none condition body).exec m = .ok (.next m) := by
  have hleave : m.leave m.depth = m := by simp [leave, depth]
  simp [hcondition, hleave]

section Defining

variable {name : String} {value condition : Expr} {body : List Stmt} {x : GoValue} {m₁ : Machine}

theorem exec_define_branch_true {m₂ : Machine} (hvalue : value.eval m = .ok (x, m₁))
    (hcondition : condition.eval (m₁.put name x) = .ok (.truth true, m₁.put name x))
    (hbody : Stmt.execAll body (m₁.put name x) = .ok (.next m₂)) :
    (Stmt.branch (some (.define [name] value)) condition body).exec m =
      .ok (.next (m₂.leave m.depth)) := by
  simp [hvalue, hcondition, hbody, Flow.leave]

theorem exec_define_branch_false (hvalue : value.eval m = .ok (x, m₁))
    (hcondition : condition.eval (m₁.put name x) = .ok (.truth false, m₁.put name x)) :
    (Stmt.branch (some (.define [name] value)) condition body).exec m =
      .ok (.next ((m₁.put name x).leave m.depth)) := by
  simp [hvalue, hcondition]

end Defining

theorem Stmt.execAll_single {s : Stmt} {m' : Machine} (h : s.exec m = .ok (.next m')) :
    execAll [s] m = .ok (.next m') := by
  simp [execAll, h]

/-- Statements of one block run one after the other. -/
theorem Stmt.execAll_append {ss ts : List Stmt} {m m' : Machine}
    (h : execAll ss m = .ok (.next m')) : execAll (ss ++ ts) m = execAll ts m' := by
  induction ss generalizing m with
  | nil =>
      cases h
      rfl
  | cons s ss ih =>
      rw [List.cons_append, execAll]
      rw [execAll] at h
      cases hs : s.exec m with
      | error f => simp [hs] at h
      | ok flow =>
          cases flow with
          | returned v m₁ => simp [hs] at h
          | next m₁ =>
              simp only [hs] at h ⊢
              exact ih h

theorem Stmt.execAll_append_error {ss ts : List Stmt} {m : Machine} {f : Fault}
    (h : execAll ss m = .error f) : execAll (ss ++ ts) m = .error f := by
  induction ss generalizing m with
  | nil => cases h
  | cons s ss ih =>
      rw [List.cons_append, execAll]
      rw [execAll] at h
      cases hs : s.exec m with
      | error f' => simpa [hs] using h
      | ok flow =>
          cases flow with
          | returned v m₁ => simp [hs] at h
          | next m₁ =>
              simp only [hs, ok_bind] at h ⊢
              exact ih h

theorem iterate_map {α β : Type} (f : α → β) (step : β → Machine → Except Fault Flow) (xs : List α)
    (m : Machine) : iterate step (xs.map f) m = iterate (fun x => step (f x)) xs m := by
  induction xs generalizing m with
  | nil => rfl
  | cons x xs ih =>
      simp only [List.map_cons, iterate]
      congr 1
      funext flow
      cases flow with
      | next m => exact ih m
      | returned v m => rfl

/-- A loop whose turns report something each reports all of it. -/
theorem iterate_note {α : Type} {step : α → Machine → Except Fault Flow} {P : Machine → Prop}
    {es : α → List GoError} {ls : α → List Leaf} {xs : List α}
    (hP : ∀ m es ls, P m → P (m.note es ls))
    (h : ∀ x ∈ xs, ∀ m, P m → step x m = .ok (.next (m.note (es x) (ls x))))
    {m : Machine} (hm : P m) :
    iterate step xs m = .ok (.next (m.note (xs.flatMap es) (xs.flatMap ls))) := by
  induction xs generalizing m with
  | nil => simp [iterate]
  | cons x xs ih =>
      have hx := h x List.mem_cons_self m hm
      have hrest := ih (fun y hy => h y (List.mem_cons_of_mem x hy)) (hP m (es x) (ls x) hm)
      simp [iterate, hx, hrest]

end FieldRules
