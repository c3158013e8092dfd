/-
The traversal of contained values.  The statements for a shape call Validate on every
value inside it once, in the order of the containers, never through a nil pointer, and
join one error for each value that complains, under its path.
-/
import FieldRules.Proofs.Code.Visits
import FieldRules.Proofs.Code.Reporting
import FieldRules.Proofs.Source.Spelling
import Mathlib.Data.List.TakeWhile

namespace FieldRules

/-- The names of loop variables without their numbers. -/
def loopNames : List String := ["i", "item", "k", "value"]

/-- The number of a loop variable. -/
def loopNumber (d : Nat) : List Char := if d = 0 then [] else Nat.toDigits 10 d

theorem loopNumber_injective {d d' : Nat} (h : loopNumber d = loopNumber d') : d = d' := by
  have hread : ∀ n, Nat.ofDigitChars 10 (loopNumber n) 0 = n := by
    intro n
    by_cases hn : n = 0
    · simp [loopNumber, hn]
    · simp [loopNumber, hn]
  rw [← hread d, h, hread d']

theorem toList_loopVariable (base : String) (d : Nat) :
    (loopVariable base d).toList = base.toList ++ loopNumber d := by
  by_cases hd : d = 0
  · simp [loopVariable, loopNumber, hd]
  · simp [loopVariable, loopNumber, hd, Nat.repr]

/-- The letters at the front of a loop variable are its name. -/
theorem takeWhile_loopVariable {base : String} (h : base ∈ loopNames) (d : Nat) :
    (loopVariable base d).toList.takeWhile Char.isAlpha = base.toList := by
  have hletters : ∀ c ∈ base.toList, Char.isAlpha c := by
    rw [← List.all_eq_true]
    revert base
    decide
  have hnumber : (loopNumber d).takeWhile Char.isAlpha = [] := by
    apply List.takeWhile_eq_nil_iff.mpr
    intro hpos
    have hmem := List.get_mem (loopNumber d) ⟨0, hpos⟩
    generalize (loopNumber d).get ⟨0, hpos⟩ = c at hmem ⊢
    by_cases hd : d = 0
    · simp [loopNumber, hd] at hmem
    · rw [loopNumber, if_neg hd] at hmem
      have hdigit := Nat.isDigit_of_mem_toDigits (by omega) (by omega) hmem
      exact of_isDigit (p := fun c => ¬ c.isAlpha = true) (by decide) hdigit
  rw [toList_loopVariable, List.takeWhile_append_of_pos hletters, hnumber, List.append_nil]

theorem loopVariable_injective {base base' : String} (h : base ∈ loopNames)
    (h' : base' ∈ loopNames) {d d' : Nat} (heq : loopVariable base d = loopVariable base' d') :
    base = base' ∧ d = d' := by
  have hbase : base = base' := by
    rw [← String.toList_inj, ← takeWhile_loopVariable h d, heq, takeWhile_loopVariable h' d']
  subst hbase
  have hnumber : base.toList ++ loopNumber d = base.toList ++ loopNumber d' := by
    rw [← toList_loopVariable, heq, toList_loopVariable]
  exact ⟨rfl, loopNumber_injective (List.append_cancel_left hnumber)⟩

/-- A name of letters is no loop variable unless it is the name of one. -/
theorem loopVariable_ne {base : String} (h : base ∈ loopNames) (d : Nat) {name : String}
    (hletters : name.toList.all Char.isAlpha) (hname : name ∉ loopNames) :
    loopVariable base d ≠ name := by
  intro heq
  have hbase : base = name := by
    rw [← String.toList_inj, ← takeWhile_loopVariable h d, heq]
    exact List.takeWhile_eq_self_iff.mpr (List.all_eq_true.mp hletters)
  exact hname (hbase ▸ h)

/-- Whether statements at a depth of loops may change a variable: the ones for errors
and the loop variables from that depth on. -/
def Fleeting (depth : Nat) (name : String) : Prop :=
  name = "errs" ∨ name = "err" ∨ ∃ base ∈ loopNames, ∃ d ≥ depth, name = loopVariable base d

/-- Two scopes with the same variables, apart from those that may change. -/
def Agrees (depth : Nat) (s s' : Scope) : Prop :=
  ∀ name, ¬ Fleeting depth name → s'.get? name = s.get? name

theorem Agrees.refl (depth : Nat) (s : Scope) : Agrees depth s s := fun _ _ => rfl

theorem Agrees.trans {depth : Nat} {s s' s'' : Scope} (h : Agrees depth s s')
    (h' : Agrees depth s' s'') : Agrees depth s s'' :=
  fun name hname => (h' name hname).trans (h name hname)

theorem agrees_note (depth : Nat) (m : Machine) (es : List GoError) (ls : List Leaf) :
    Agrees depth m.scope (m.note es ls).scope :=
  fun _ hname => Machine.get?_note fun heq => hname (Or.inl heq)

theorem agrees_put {depth : Nat} {name : String} (h : Fleeting depth name) (m : Machine)
    (v : GoValue) : Agrees depth m.scope (m.put name v).scope := by
  intro other hother
  have hne : name ≠ other := fun heq => hother (heq ▸ h)
  simp [Machine.put, Scope.get?, hne]

theorem fleeting_loopVariable {base : String} (h : base ∈ loopNames) (depth : Nat) :
    Fleeting depth (loopVariable base depth) :=
  Or.inr (Or.inr ⟨base, h, depth, Nat.le_refl depth, rfl⟩)

theorem Fleeting.of_succ {depth : Nat} {name : String} (h : Fleeting (depth + 1) name) :
    Fleeting depth name := by
  rcases h with h | h | ⟨base, hbase, d, hd, h⟩
  · exact Or.inl h
  · exact Or.inr (Or.inl h)
  · exact Or.inr (Or.inr ⟨base, hbase, d, Nat.le_of_succ_le hd, h⟩)

theorem loopVariable_ne_errs {base : String} (h : base ∈ loopNames) (d : Nat) :
    loopVariable base d ≠ "errs" :=
  loopVariable_ne h d (by decide) (by decide)

/-- Inside a loop its variables stay. -/
theorem not_fleeting_loopVariable {base : String} (h : base ∈ loopNames) (depth : Nat) :
    ¬ Fleeting (depth + 1) (loopVariable base depth) := by
  rintro (heq | heq | ⟨base', hbase', d, hd, heq⟩)
  · exact loopVariable_ne_errs h depth heq
  · exact loopVariable_ne h depth (by decide) (by decide) heq
  · have hdepth := (loopVariable_injective h hbase' heq).2
    omega

/-- An expression gives a value, whatever the statements at a depth do. -/
structure Reads (depth : Nat) (s : Scope) (e : Expr) (v : GoValue) : Prop where
  plain : package? e = none
  eval : ∀ s', Agrees depth s s' → ∀ calls, e.eval ⟨s', calls⟩ = .ok (v, ⟨s', calls⟩)

/-- A path is printed as a text, whatever the statements at a depth do. -/
def Leads (depth : Nat) (s : Scope) (p : ValuePath) (text : String) : Prop :=
  ∀ s', Agrees depth s s' → ∃ args,
    (∀ calls, Expr.evalAll (p.indices.map .ident) ⟨s', calls⟩ = .ok (args, ⟨s', calls⟩)) ∧
    ∀ cs rest, expand (p.format.toList ++ cs) (args ++ rest) =
      (expand cs rest).map fun (more, inner) => (text.toList ++ more, inner)

section

variable {depth : Nat} {s s' : Scope} {e : Expr} {v : GoValue} {p : ValuePath} {text : String}

theorem Reads.of_agrees (h : Reads depth s e v) (hs : Agrees depth s s') : Reads depth s' e v :=
  ⟨h.plain, fun s'' hs'' => h.eval s'' (hs.trans hs'')⟩

theorem Leads.of_agrees (h : Leads depth s p text) (hs : Agrees depth s s') :
    Leads depth s' p text :=
  fun s'' hs'' => h s'' (hs.trans hs'')

theorem Agrees.of_succ (h : Agrees (depth + 1) s s') : Agrees depth s s' :=
  fun name hname => h name fun hfleeting => hname hfleeting.of_succ

theorem Reads.succ (h : Reads depth s e v) : Reads (depth + 1) s e v :=
  ⟨h.plain, fun s' hs' => h.eval s' hs'.of_succ⟩

theorem Leads.succ (h : Leads depth s p text) : Leads (depth + 1) s p text :=
  fun s' hs' => h s' hs'.of_succ

theorem Reads.deref (h : Reads depth s e (.pointer v)) : Reads depth s e.deref v := by
  refine ⟨rfl, fun s' hs' calls => ?_⟩
  rw [Expr.eval, h.eval s' hs' calls]
  rfl

/-- A variable that stays gives its value. -/
theorem reads_ident {name : String} (hplain : package? (.ident name) = none)
    (hname : ¬ Fleeting depth name) (h : s.get? name = some v) :
    Reads depth s (.ident name) v := by
  refine ⟨hplain, fun s' hs' calls => ?_⟩
  have hget : s'.get? name = some v := (hs' name hname).trans h
  simp [Expr.eval, Machine.lookUp, hget]

end

theorem evalAll_append {es es' : List Expr} {m m₁ m₂ : Machine} {vs vs' : List GoValue}
    (h : Expr.evalAll es m = .ok (vs, m₁)) (h' : Expr.evalAll es' m₁ = .ok (vs', m₂)) :
    Expr.evalAll (es ++ es') m = .ok (vs ++ vs', m₂) := by
  induction es generalizing m vs with
  | nil =>
      cases h
      exact h'
  | cons e es ih =>
      rw [Expr.evalAll] at h
      cases he : e.eval m with
      | error f => simp [he] at h
      | ok r =>
          obtain ⟨v, m₀⟩ := r
          cases hes : Expr.evalAll es m₀ with
          | error f => simp [he, hes] at h
          | ok q =>
              obtain ⟨ws, m₃⟩ := q
              simp only [he, hes, ok_bind, pure_eq_ok, Except.ok.injEq, Prod.mk.injEq] at h
              obtain ⟨rfl, rfl⟩ := h
              rw [List.cons_append, Expr.evalAll, he, ok_bind]
              simp [ih hes]

section

variable {depth : Nat} {s : Scope} {e : Expr} {p : ValuePath} {text : String}

/-- A variable that stays is one more step of a path. -/
theorem Leads.element (h : Leads depth s p text) {name verb piece : String} {letter : Char}
    {v : GoValue} (hverb : verb.toList = ['%', letter]) (hletter : letter ≠ '%')
    (hname : ¬ Fleeting depth name) (hget : s.get? name = some v)
    (hpiece : v.printed? letter = some piece) (hplain : v.wrappedErrors = []) :
    Leads depth s (p.element verb name) (text ++ ("[" ++ piece ++ "]")) := by
  intro s' hs'
  obtain ⟨args, hargs, hexpand⟩ := h s' hs'
  refine ⟨args ++ [v], fun calls => ?_, fun cs rest => ?_⟩
  · have hv : Expr.evalAll [.ident name] ⟨s', calls⟩ = .ok ([v], ⟨s', calls⟩) := by
      have hlook : s'.get? name = some v := (hs' name hname).trans hget
      simp [Expr.evalAll, Expr.eval, Machine.lookUp, hlook]
    rw [ValuePath.element, List.map_append]
    exact evalAll_append (hargs calls) hv
  · have hformat : (p.element verb name).format.toList ++ cs =
        p.format.toList ++ ('[' :: '%' :: letter :: ']' :: cs) := by
      simp [ValuePath.element, hverb]
    rw [hformat, List.append_assoc, hexpand, expand_cons (by decide), List.singleton_append,
      expand_verb hletter hpiece, expand_cons (by decide), hplain]
    simp [Function.comp_def]

/-- The format of a path with its error gives the text of the path and the error. -/
theorem Leads.formatError (h : Leads depth s p text) (g : GoError) (calls : List Leaf) :
    ∃ args, Expr.evalAll (p.indices.map .ident ++ [.ident "err"])
        ⟨("err", .failure g) :: s, calls⟩ = .ok (args, ⟨("err", .failure g) :: s, calls⟩) ∧
      formatError (p.format ++ ": %w") args = .wrapped (text ++ ": " ++ g.message) g := by
  have hs : Agrees depth s (("err", .failure g) :: s) :=
    agrees_put (m := ⟨s, calls⟩) (Or.inr (Or.inl rfl)) _
  obtain ⟨args, hargs, hexpand⟩ := h _ hs
  refine ⟨args ++ [.failure g], evalAll_append (hargs calls) rfl, ?_⟩
  have hend : expand ": %w".toList [.failure g] = some (": ".toList ++ g.message.toList, [g]) := by
    rw [show ": %w".toList = [':', ' '] ++ ['%', 'w'] from rfl, expand_append (by decide),
      expand_verb (by decide) rfl]
    simp [expand, GoValue.wrappedErrors]
  simp only [FieldRules.formatError, String.toList_append, hexpand, hend, Option.map_some]
  rw [← List.append_assoc, ← String.toList_append, ← String.toList_append, String.ofList_toList]

/-- Calling Validate on a value and reporting what it returns. -/
theorem exec_validateValue {v : GoValue} {l : Leaf} {m : Machine} (he : Reads depth m.scope e v)
    (hv : v.validated = .ok l) (hp : Leads depth m.scope p text) (hm : m.Collects) :
    (validateValue e p).exec m =
      .ok (.next (m.note (Visit.error? text ⟨[], l⟩).toList [l])) := by
  have hcall : (Expr.method e "Validate" []).eval m =
      .ok (.ofError l.complaint, m.note [] [l]) := by
    simp [Expr.method, Expr.eval, he.plain, he.eval m.scope (Agrees.refl _ _), Machine.validate, hv,
      Machine.note]
  have herr : ∀ x, (Expr.ident "err").eval ((m.note [] [l]).put "err" x) =
      .ok (x, (m.note [] [l]).put "err" x) := by
    intro x
    simp [Expr.eval, Machine.lookUp, Machine.put, Scope.get?]
  cases hc : l.complaint with
  | none =>
      rw [hc] at hcall
      have hcondition := eval_notNil (b := true) (herr .absent) rfl
      refine (exec_define_branch_false hcall hcondition).trans ?_
      rw [Machine.leave_put_note]
      simp [Visit.error?, hc]
  | some g =>
      rw [hc] at hcall
      obtain ⟨args, hargs, hformat⟩ := hp.formatError g (m.calls ++ [l])
      have herror := eval_formattedError hargs (p.format ++ ": %w")
      rw [hformat] at herror
      have hcollects : ((m.note [] [l]).put "err" (.failure g)).Collects :=
        hm.note.put (by decide)
      have hcondition := eval_notNil (b := false) (herr (.failure g)) rfl
      have hbody := Stmt.execAll_single (exec_joinError herror hcollects)
      refine (exec_define_branch_true hcall hcondition hbody).trans ?_
      have hnote : ((m.note [] [l]).put "err" (.failure g)).note
          [.wrapped (text ++ ": " ++ g.message) g] [] =
            (m.note [.wrapped (text ++ ": " ++ g.message) g] [l]).put "err" (.failure g) := by
        rw [Machine.note_put (by decide), Machine.note_note]
        simp
      have hleave : m.note (Visit.error? text ⟨[], l⟩).toList [l] =
          ((m.note (Visit.error? text ⟨[], l⟩).toList [l]).put "err" (.failure g)).leave m.depth :=
        Machine.leave_put_note.symm
      rw [hleave, Visit.error?, hc]
      exact congrArg (fun m' : Machine => Except.ok (Flow.next (m'.leave m.depth))) hnote

end

namespace Shape

/-- The statements for a shape report the complaints of all values inside it and call
nothing else, wherever a value of the shape is read from. -/
def Traverses (s : Shape) : Prop :=
  ∀ {depth : Nat} {e : Expr} {p : ValuePath} {text : String} {x : s.Value} {m : Machine},
    Reads depth m.scope e (s.embed x) → Leads depth m.scope p text → m.Collects →
    Stmt.execAll (s.lowerNested e p depth) m =
      .ok (.next (m.note ((s.visits x).filterMap (Visit.error? text))
        ((s.visits x).map Visit.leaf)))

theorem traverses_direct (t : TypeRef) : (direct t).Traverses := by
  intro depth e p text l m he hp hm
  rw [lowerNested, Stmt.execAll_single (exec_validateValue he rfl hp hm)]
  cases hc : Visit.error? text ⟨[], l⟩ <;> simp [visits, hc]

/-- A nil pointer is left alone. -/
theorem exec_absent {depth : Nat} {e : Expr} {m : Machine} (he : Reads depth m.scope e .absent)
    (body : List Stmt) : (Stmt.branch none e.notNil body).exec m = .ok (.next m) :=
  exec_branch_false (eval_notNil (b := true) (he.eval m.scope (Agrees.refl _ _) m.calls) rfl)

theorem exec_pointer {depth : Nat} {e : Expr} {m : Machine} {v : GoValue} {body : List Stmt}
    {es : List GoError} {ls : List Leaf} (he : Reads depth m.scope e (.pointer v))
    (hbody : Stmt.execAll body m = .ok (.next (m.note es ls))) :
    (Stmt.branch none e.notNil body).exec m = .ok (.next (m.note es ls)) :=
  exec_branch_true (eval_notNil (b := false) (he.eval m.scope (Agrees.refl _ _) m.calls) rfl) hbody

theorem traverses_optional_direct (t : TypeRef) : (optional (direct t)).Traverses := by
  intro depth e p text x m he hp hm
  rw [lowerNested]
  cases x with
  | none => simpa [visits] using Stmt.execAll_single (exec_absent he _)
  | some l =>
      have hbody := Stmt.execAll_single (exec_validateValue he rfl hp hm)
      rw [Stmt.execAll_single (exec_pointer he hbody)]
      cases hc : Visit.error? text ⟨[], l⟩ <;> simp [visits, hc]

theorem lowerNested_optional {inner : Shape} (h : ∀ t, inner ≠ direct t) (e : Expr) (p : ValuePath)
    (depth : Nat) : (optional inner).lowerNested e p depth =
      [.branch none e.notNil (inner.lowerNested e.deref p depth)] := by
  cases inner with
  | direct t => exact absurd rfl (h t)
  | _ => rfl

theorem traverses_optional {inner : Shape} (ih : inner.Traverses) : inner.optional.Traverses := by
  intro depth e p text x m he hp hm
  by_cases hdirect : ∃ t, inner = direct t
  · obtain ⟨t, rfl⟩ := hdirect
    exact traverses_optional_direct t he hp hm
  · rw [lowerNested_optional fun t ht => hdirect ⟨t, ht⟩]
    cases x with
    | none => simpa [visits] using Stmt.execAll_single (exec_absent he _)
    | some y => exact Stmt.execAll_single (exec_pointer he (ih he.deref hp hm))

/-- One turn of a loop over a container, at a key and an element. -/
theorem exec_turn {inner : Shape} (ih : inner.Traverses) {index item verb : String} {letter : Char}
    (hindex : index ∈ loopNames) (hitem : item ∈ loopNames) (hne : index ≠ item)
    (hverb : verb.toList = ['%', letter]) (hletter : letter ≠ '%') {depth : Nat} {p : ValuePath}
    {text piece : String} {k : GoValue} {y : inner.Value} {m : Machine}
    (hpiece : k.printed? letter = some piece) (hplain : k.wrappedErrors = [])
    (hp : Leads depth m.scope p text) (hm : m.Collects) :
    Stmt.execAll
        (inner.lowerNested (.ident (loopVariable item depth))
          (p.element verb (loopVariable index depth)) (depth + 1))
        ((m.put (loopVariable index depth) k).put (loopVariable item depth) (inner.embed y)) =
      .ok (.next (((m.note ((inner.visits y).filterMap (Visit.error? (text ++ ("[" ++ piece ++ "]"))))
        ((inner.visits y).map Visit.leaf)).put (loopVariable index depth) k).put
          (loopVariable item depth) (inner.embed y))) := by
  have hagrees := (agrees_put (fleeting_loopVariable hindex depth) m k).trans
    (agrees_put (fleeting_loopVariable hitem depth) _ (inner.embed y))
  have hnames : loopVariable item depth ≠ loopVariable index depth :=
    fun heq => hne (loopVariable_injective hindex hitem heq.symm).1
  have he : Reads (depth + 1) ((m.put (loopVariable index depth) k).put
      (loopVariable item depth) (inner.embed y)).scope (.ident (loopVariable item depth))
      (inner.embed y) := by
    apply reads_ident
    · have herrors : loopVariable item depth ≠ "errors" :=
        loopVariable_ne hitem depth (by decide) (by decide)
      have hfmt : loopVariable item depth ≠ "fmt" :=
        loopVariable_ne hitem depth (by decide) (by decide)
      simp [package?, herrors, hfmt]
    · exact not_fleeting_loopVariable hitem depth
    · simp [Machine.put, Scope.get?]
  have hpath := (hp.of_agrees hagrees).succ.element hverb hletter
    (not_fleeting_loopVariable hindex depth) (v := k)
    (by simp [Machine.put, Scope.get?, hnames]) hpiece hplain
  have hcollects := (hm.put (v := k) (loopVariable_ne_errs hindex depth)).put
    (v := inner.embed y) (loopVariable_ne_errs hitem depth)
  rw [ih he hpath hcollects, Machine.note_put (loopVariable_ne_errs hitem depth),
    Machine.note_put (loopVariable_ne_errs hindex depth)]

/-- A loop over a container reports what its elements report, each under its own key. -/
theorem exec_loop {inner : Shape} (ih : inner.Traverses) {index item verb : String} {letter : Char}
    (hindex : index ∈ loopNames) (hitem : item ∈ loopNames) (hne : index ≠ item)
    (hverb : verb.toList = ['%', letter]) (hletter : letter ≠ '%') {depth : Nat} {e : Expr}
    {p : ValuePath} {text : String} {v : GoValue} {m : Machine} {α : Type} {xs : List α}
    (key : α → GoValue) (value : α → inner.Value) (step : α → PathStep)
    (hpairs : v.pairs = .ok (xs.map fun x => (key x, inner.embed (value x))))
    (hkey : ∀ x, ∃ piece, (key x).printed? letter = some piece ∧ (key x).wrappedErrors = [] ∧
      (step x).text = "[" ++ piece ++ "]")
    (he : Reads depth m.scope e v) (hp : Leads depth m.scope p text) (hm : m.Collects) :
    Stmt.execAll [.loop (loopVariable index depth) (loopVariable item depth) e
        (inner.lowerNested (.ident (loopVariable item depth))
          (p.element verb (loopVariable index depth)) (depth + 1))] m =
      .ok (.next (m.note
        ((xs.flatMap fun x => (inner.visits (value x)).map (Visit.within (step x))).filterMap
          (Visit.error? text))
        ((xs.flatMap fun x => (inner.visits (value x)).map (Visit.within (step x))).map
          Visit.leaf))) := by
  let Good (m' : Machine) : Prop := Agrees depth m.scope m'.scope ∧ m'.Collects
  have hgood : ∀ m' es ls, Good m' → Good (m'.note es ls) := fun m' es ls h =>
    ⟨h.1.trans (agrees_note depth m' es ls), h.2.note⟩
  have hturn : ∀ x ∈ xs, ∀ m', Good m' →
      (do return (← Stmt.execAll
          (inner.lowerNested (.ident (loopVariable item depth))
            (p.element verb (loopVariable index depth)) (depth + 1))
          ((m'.put (loopVariable index depth) (key x)).put (loopVariable item depth)
            (inner.embed (value x)))).leave m'.depth) =
        (.ok (.next (m'.note
          (((inner.visits (value x)).map (Visit.within (step x))).filterMap (Visit.error? text))
          (((inner.visits (value x)).map (Visit.within (step x))).map Visit.leaf))) :
          Except Fault Flow) := by
    intro x _ m' hm'
    obtain ⟨piece, hpiece, hplain, hstep⟩ := hkey x
    rw [exec_turn ih hindex hitem hne hverb hletter hpiece hplain (hp.of_agrees hm'.1) hm'.2,
      ok_bind, Flow.leave, Machine.leave_put_note₂, pure_eq_ok]
    simp only [List.filterMap_map, List.map_map, Function.comp_def, Visit.error?_within, hstep]
    rfl
  rw [List.filterMap_flatMap, List.map_flatMap]
  apply Stmt.execAll_single
  rw [← iterate_note hgood hturn ⟨Agrees.refl _ _, hm⟩, Stmt.exec,
    he.eval m.scope (Agrees.refl _ _), ok_bind]
  simp only [hpairs, ok_bind, iterate_map]

theorem traverses_sequence {inner : Shape} (ih : inner.Traverses) : inner.sequence.Traverses := by
  intro depth e p text (xs : List inner.Value) m he hp hm
  have hpairs : (GoValue.sequence (xs.map inner.embed)).pairs =
      .ok (xs.zipIdx.map fun y => (.int y.2, inner.embed y.1)) := by
    rw [GoValue.pairs, List.zipIdx_map, List.map_map]
    rfl
  have hkey : ∀ y : inner.Value × Nat, ∃ piece, (GoValue.int y.2).printed? 'd' = some piece ∧
      (GoValue.int y.2).wrappedErrors = [] ∧ (PathStep.index y.2).text = "[" ++ piece ++ "]" :=
    fun y => ⟨toString y.2, rfl, rfl, rfl⟩
  exact exec_loop ih (by decide) (by decide) (by decide) rfl (by decide)
    (fun y => .int y.2) Prod.fst (fun y => .index y.2) hpairs hkey he hp hm

theorem traverses_mapping {inner : Shape} (ih : inner.Traverses) : inner.mapping.Traverses := by
  intro depth e p text (xs : List (Leaf × inner.Value)) m he hp hm
  have hembed : inner.mapping.embed xs =
      .mapping (xs.map fun y => (y.1, inner.embed y.2)) := rfl
  have hpairs : (inner.mapping.embed xs).pairs =
      .ok (xs.map fun y => (.leaf y.1, inner.embed y.2)) := by
    rw [hembed, GoValue.pairs, List.map_map]
    rfl
  have hkey : ∀ y : Leaf × inner.Value, ∃ piece, (GoValue.leaf y.1).printed? 'v' = some piece ∧
      (GoValue.leaf y.1).wrappedErrors = [] ∧ (PathStep.key y.1).text = "[" ++ piece ++ "]" :=
    fun y => ⟨y.1.printed, by simp [GoValue.printed?], rfl, rfl⟩
  exact exec_loop ih (by decide) (by decide) (by decide) rfl (by decide)
    (fun y => .leaf y.1) Prod.snd (fun y => .key y.1) hpairs hkey he hp hm

/-- Whatever the nesting, all values inside a shape are validated and nothing else. -/
theorem traverses (s : Shape) : s.Traverses := by
  induction s with
  | optional inner ih => exact traverses_optional ih
  | sequence inner ih => exact traverses_sequence ih
  | mapping inner ih => exact traverses_mapping ih
  | direct t => exact traverses_direct t

end Shape

namespace Field

variable {f : Field} {m : Machine} {fields : String → GoValue}

theorem reads_access (hself : m.scope.get? "r" = some (.pointer (.record fields))) :
    Reads 0 m.scope f.access (fields f.name) := by
  have hr : ¬ Fleeting 0 "r" := by
    rintro (h | h | ⟨base, hbase, d, -, h⟩)
    · exact absurd h (by decide)
    · exact absurd h (by decide)
    · exact loopVariable_ne hbase d (by decide) (by decide) h.symm
  refine ⟨rfl, fun s' hs' calls => ?_⟩
  have hget : s'.get? "r" = some (.pointer (.record fields)) := (hs' _ hr).trans hself
  simp [access, receiver, Expr.eval, Machine.lookUp, hget, GoValue.field]

theorem leads_name (hname : isIdentifier f.name) (s : Scope) : Leads 0 s ⟨f.name, []⟩ f.name := by
  have hpercent : '%' ∉ f.name.toList := by
    intro hmem
    exact absurd (continuesIdent_of_mem hname hmem) (by decide)
  exact fun s' _ => ⟨[], fun calls => rfl, fun cs rest => expand_append hpercent⟩

/-- The statements for a nested field validate exactly the values inside it, in order,
and report their errors under their paths; all variables but the errors stay. -/
theorem exec_lowerNested (hname : isIdentifier f.name) (x : f.shape.Value)
    (hself : m.scope.get? "r" = some (.pointer (.record fields)))
    (hx : fields f.name = f.shape.embed x) (hm : m.Collects) :
    ∃ m', Stmt.execAll (f.shape.lowerNested f.access ⟨f.name, []⟩ 0) m = .ok (.next m') ∧
      m'.calls = m.calls ++ (f.shape.visits x).map Visit.leaf ∧
      m'.errors.errorParts =
        m.errors.errorParts ++ (f.shape.visits x).filterMap (Visit.error? f.name) ∧
      ∀ name, name ≠ "errs" → m'.scope.get? name = m.scope.get? name := by
  have haccess := reads_access (f := f) hself
  rw [hx] at haccess
  refine ⟨_, f.shape.traverses haccess (leads_name hname m.scope) hm, rfl, ?_, ?_⟩
  · refine Machine.errorParts_note hm ?_ _
    intro e he
    obtain ⟨v, -, hv⟩ := List.mem_filterMap.mp he
    obtain ⟨g, -, rfl⟩ := Option.map_eq_some_iff.mp hv
    rfl
  · exact fun name hne => Machine.get?_note hne

/-- Lists of pointers by keys. -/
def groups : Field := ⟨"Groups", .mapping (.sequence (.optional (.direct (.named "Item")))), [], true⟩

def groupItem (complaint : Option GoError) : Leaf := ⟨none, none, "", complaint⟩

def groupItems : groups.shape.Value :=
  [(⟨some 1, none, "a", none⟩, [some (groupItem (some (.text "empty"))), none, some (groupItem none)])]

def groupMachine : Machine :=
  ⟨[("errs", .absent), ("r", .pointer (.record fun _ => groups.shape.embed groupItems))], []⟩

theorem exec_lowerNested_groups :
    isIdentifier groups.name = true ∧ ∃ m',
      Stmt.execAll (groups.shape.lowerNested groups.access ⟨groups.name, []⟩ 0) groupMachine =
        .ok (.next m') ∧
      m'.calls = [groupItem (some (.text "empty")), groupItem none] ∧
      m'.errors.errorParts = [.wrapped "Groups[a][0]: empty" (.text "empty")] := by
  have hname : isIdentifier groups.name = true := by decide
  obtain ⟨m', hrun, hcalls, herrors, -⟩ := exec_lowerNested (f := groups) hname groupItems
    (m := groupMachine) rfl rfl ⟨.absent, rfl, rfl⟩
  exact ⟨hname, m', hrun, hcalls, herrors⟩

end Field

end FieldRules
