/-
What rules say about values, without any code: which bounds a value breaks, and what is
reported about each.
-/
import FieldRules.Proofs.Code.Visits
import FieldRules.Proofs.Code.Reporting

namespace FieldRules

/-- One bound of a rule: how a message states it, its text, and which numbers break it. -/
structure Limit where
  phrase : String
  bound : String
  breaks : GoNumber → Bool

/-- The bounds of a length: less than the smallest, more than the largest, or another
than the only one. -/
def Length.limits (rule : Length) : List Limit :=
  let limit (phrase : String) (breaks : GoNumber → GoNumber → Bool) (bound : Int64) : Limit :=
    ⟨phrase, toString bound.toInt, fun x => breaks x (.finite bound.toInt)⟩
  (rule.min.map (limit "at least" fun x b => x.below b)).toList ++
    (rule.max.map (limit "at most" fun x b => b.below x)).toList ++
    (rule.equal.map (limit "exactly" fun x b => !x.same b)).toList

/-- The bounds of a number; an exclusive bound is broken by itself. -/
def Range.limits (rule : Range) : List Limit :=
  let limit (phrase : String) (breaks : GoNumber → GoNumber → Bool) (bound : Double) : Limit :=
    ⟨phrase, String.ofList bound.exactChars, fun x => breaks x (.finite bound.toRat)⟩
  (rule.min.map (limit "at least" fun x b => x.below b)).toList ++
    (rule.max.map (limit "at most" fun x b => b.below x)).toList ++
    (rule.exclusiveMin.map (limit "greater than" fun x b => x.below b || x.same b)).toList ++
    (rule.exclusiveMax.map (limit "less than" fun x b => b.below x || x.same b)).toList

namespace Rule

def limits : Rule → List Limit
  | length rule => rule.limits
  | range rule => rule.limits

def message : Rule → Option String
  | length rule => rule.message
  | range rule => rule.message

def code : Rule → Option String
  | length rule => rule.code
  | range rule => rule.code

/-- What a message says has a bound. -/
def subject (display : String) : Rule → String
  | length _ => display ++ " length"
  | range _ => display

/-- What a rule measures of a value, with its text; none if the value has no such thing. -/
def measure : Rule → GoValue → Option (GoNumber × String)
  | length _, v => v.length?.map fun n => (.finite n, toString n)
  | range _, .leaf l => l.number.map fun x => (x, l.printed)
  | range _, _ => none

/-- The error for a broken bound: a message of the rule's own, or what is wanted and
what is there. -/
def report (rule : Rule) (display : String) (l : Limit) (actual : String) : GoError :=
  let usual := rule.subject display ++ " must be " ++ l.phrase ++ " " ++ l.bound ++ ", got " ++ actual
  let text := rule.message.getD usual
  .text (match rule.code with
    | some code => "[" ++ code ++ "] " ++ text
    | none => text)

end Rule

/-- All lists together; none if one of them is not there. -/
def gather {α : Type} : List (Option (List α)) → Option (List α)
  | [] => some []
  | r :: rs => r.bind fun xs => (gather rs).map (xs ++ ·)

theorem gather_append {α : Type} (rs rs' : List (Option (List α))) :
    gather (rs ++ rs') = (gather rs).bind fun xs => (gather rs').map (xs ++ ·) := by
  induction rs with
  | nil => simp [gather]
  | cons r rs ih =>
      rw [List.cons_append, gather, gather, ih]
      cases r <;> cases gather rs <;> cases gather rs' <;> simp

theorem forall_of_gather {α : Type} {P : α → Prop} {rs : List (Option (List α))} {ys : List α}
    (h : ∀ r ∈ rs, ∀ xs, r = some xs → ∀ x ∈ xs, P x) (hys : gather rs = some ys) :
    ∀ y ∈ ys, P y := by
  induction rs generalizing ys with
  | nil =>
      cases hys
      simp
  | cons r rs ih =>
      obtain ⟨xs, rfl, hrest⟩ := Option.bind_eq_some_iff.mp hys
      obtain ⟨zs, hzs, rfl⟩ := Option.map_eq_some_iff.mp hrest
      intro y hy
      rcases List.mem_append.mp hy with hy | hy
      · exact h _ List.mem_cons_self xs rfl y hy
      · exact ih (fun r hr => h r (List.mem_cons_of_mem _ hr)) hzs y hy

/-- More errors beside those of each member: whether there are any at all. -/
theorem gather_append_each {α β : Type} (xs : List α) (r : α → Option (List β)) (n : α → List β) :
    match gather (xs.map r) with
    | none => gather (xs.map fun x => (r x).map (· ++ n x)) = none
    | some es => ∃ es', gather (xs.map fun x => (r x).map (· ++ n x)) = some es' ∧
        (es' = [] ↔ es = [] ∧ ∀ x ∈ xs, n x = []) := by
  induction xs with
  | nil => exact ⟨[], rfl, by simp⟩
  | cons x xs ih =>
      rw [List.map_cons, List.map_cons, gather, gather]
      cases hx : r x with
      | none => rfl
      | some es =>
          cases hxs : gather (xs.map r) with
          | none =>
              rw [hxs] at ih
              simp [ih]
          | some fs =>
              rw [hxs] at ih
              obtain ⟨fs', hfs', hiff⟩ := ih
              refine ⟨es ++ n x ++ fs', by simp [hfs'], ?_⟩
              simp only [List.append_eq_nil_iff, hiff, List.mem_cons, forall_eq_or_imp]
              constructor
              · rintro ⟨⟨h₁, h₂⟩, h₃, h₄⟩
                exact ⟨⟨h₁, h₃⟩, h₂, h₄⟩
              · rintro ⟨⟨h₁, h₃⟩, h₂, h₄⟩
                exact ⟨⟨h₁, h₂⟩, h₃, h₄⟩

/-- The errors of one rule for a value, in the order of its bounds; none if the value
is of a type that the rule is not for. -/
def Rule.violations (rule : Rule) (display : String) (v : GoValue) : Option (List GoError) :=
  gather (rule.limits.map fun l => (rule.measure v).map fun (x, actual) =>
    if l.breaks x then [rule.report display l actual] else [])

/-- What stands behind the pointers in front of a value; none if one of them is nil. -/
def Shape.reach : (s : Shape) → s.Value → Option GoValue
  | optional s, x =>
      match (x : Option s.Value) with
      | none => none
      | some y => s.reach y
  | sequence s, x => some ((sequence s).embed x)
  | mapping s, x => some ((mapping s).embed x)
  | direct t, x => some ((direct t).embed x)

/-- The errors of all rules of a field; none are found behind a nil pointer. -/
def Field.violations (f : Field) (x : f.shape.Value) : Option (List GoError) :=
  match f.shape.reach x with
  | none => some []
  | some v => gather (f.rules.map fun rule => rule.violations f.name v)

/-- The errors of all rules of all fields. -/
def ruleViolations (fields : List Field) (values : (f : Field) → f.shape.Value) :
    Option (List GoError) :=
  gather (fields.map fun f => f.violations (values f))

/-! Each violation is reported by itself. -/

theorem Rule.single_of_violations {rule : Rule} {display : String} {v : GoValue}
    {es : List GoError} (h : rule.violations display v = some es) : ∀ e ∈ es, e.single := by
  refine forall_of_gather (P := fun e => e.single) ?_ h
  intro r hr xs hxs x hx
  obtain ⟨l, -, rfl⟩ := List.mem_map.mp hr
  obtain ⟨⟨y, actual⟩, -, rfl⟩ := Option.map_eq_some_iff.mp hxs
  change x ∈ if l.breaks y then [rule.report display l actual] else [] at hx
  by_cases hbreaks : l.breaks y = true
  · rw [if_pos hbreaks] at hx
    cases List.mem_singleton.mp hx
    rfl
  · rw [if_neg hbreaks] at hx
    cases hx

theorem Field.single_of_violations {f : Field} {x : f.shape.Value} {es : List GoError}
    (h : f.violations x = some es) : ∀ e ∈ es, e.single := by
  unfold violations at h
  split at h
  · cases h
    simp
  · refine forall_of_gather (P := fun e => e.single) ?_ h
    intro r hr xs hxs
    obtain ⟨rule, -, rfl⟩ := List.mem_map.mp hr
    exact Rule.single_of_violations hxs

theorem single_of_ruleViolations {fields : List Field} {values : (f : Field) → f.shape.Value}
    {es : List GoError} (h : ruleViolations fields values = some es) : ∀ e ∈ es, e.single := by
  refine forall_of_gather (P := fun e => e.single) ?_ h
  intro r hr xs hxs
  obtain ⟨f, -, rfl⟩ := List.mem_map.mp hr
  exact Field.single_of_violations hxs

end FieldRules
