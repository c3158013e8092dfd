/-
The order of a run.  Phases and hooks are called in one fixed sequence.  A run makes its calls
from the first on, each on what the calls before have left, and ends with the first that fails.
-/
import FieldRules.Analysis.Pipeline

namespace FieldRules

/-! Calls. -/

/-- One of the calls that make up a run. -/
inductive Call where
  | before (o : Observer) (phase : Phase)
  | execute (phase : Phase)
  | after (o : Observer) (phase : Phase)

namespace Call

def outcome : Call → Session → Outcome
  | before o phase, s => o.before phase.name s
  | execute phase, s => phase.run s
  | after o phase, s => o.after phase.name s

def event : Call → Session → Event
  | before o phase, s => .before o.name phase.name s.diagnostics.length
  | execute phase, _ => .ran phase.name
  | after o phase, s => .after o.name phase.name s.diagnostics.length

/-- The session after calls that were made one after the other. -/
def sessionAfter (s : Session) (calls : List Call) : Session :=
  calls.foldl (fun s call => (call.outcome s).1) s

def events (s : Session) : List Call → List Event
  | [] => []
  | call :: calls => call.event s :: events (call.outcome s).1 calls

/-- No call fails, if they are made one after the other. -/
def AllSucceed (s : Session) : List Call → Prop
  | [] => True
  | call :: calls => (call.outcome s).2 = none ∧ AllSucceed (call.outcome s).1 calls

/-- How the calls may go: all are made and succeed, or they are made up to the first that
fails. -/
inductive Ends (s : Session) (calls : List Call) : Progress → Prop
  | all (succeed : AllSucceed s calls) : Ends s calls ⟨sessionAfter s calls, events s calls, none⟩
  | failed (made : List Call) {rest : List Call} {call : Call} {e : AnalysisError}
      (split : calls = made ++ call :: rest) (succeed : AllSucceed s made)
      (fails : (call.outcome (sessionAfter s made)).2 = some e) :
      Ends s calls ⟨sessionAfter s (made ++ [call]), events s (made ++ [call]), some e⟩

theorem allSucceed_append {s : Session} {calls more : List Call} :
    AllSucceed s (calls ++ more) ↔
      AllSucceed s calls ∧ AllSucceed (sessionAfter s calls) more := by
  induction calls generalizing s with
  | nil => simp [AllSucceed, sessionAfter]
  | cons call calls ih =>
      rw [List.cons_append, AllSucceed, AllSucceed, ih, and_assoc]
      rfl

/-- A run ends well exactly if no call fails. -/
theorem Ends.failure_eq_none_iff {s : Session} {calls : List Call} {p : Progress}
    (h : Ends s calls p) : p.failure = none ↔ AllSucceed s calls := by
  cases h with
  | all succeed => exact ⟨fun _ => succeed, fun _ => rfl⟩
  | failed made split succeed fails =>
      subst split
      constructor
      · intro hnone
        cases hnone
      · intro hall
        have hcall := (allSucceed_append.mp hall).2.1
        rw [fails] at hcall
        cases hcall

/-- One call in front. -/
theorem Ends.cons {s : Session} {call : Call} {calls : List Call} {p : Progress}
    (hcall : (call.outcome s).2 = none) (h : Ends (call.outcome s).1 calls p) :
    Ends s (call :: calls) ⟨p.session, call.event s :: p.events, p.failure⟩ := by
  cases h with
  | all succeed => exact .all ⟨hcall, succeed⟩
  | @failed made rest last e split succeed fails =>
      subst split
      exact .failed (call :: made) rfl ⟨hcall, succeed⟩ fails

/-- Make calls up to the first that fails. -/
def runAll (s : Session) : List Call → Progress
  | [] => ⟨s, [], none⟩
  | call :: calls => (Progress.step (call.event s) (call.outcome s)).andThen (runAll · calls)

theorem ends_runAll (s : Session) (calls : List Call) : Ends s calls (runAll s calls) := by
  induction calls generalizing s with
  | nil => exact .all trivial
  | cons call calls ih =>
      rw [runAll, Progress.andThen]
      split
      · rename_i e hfails
        have hfails : (call.outcome s).2 = some e := hfails
        rw [Progress.step, hfails]
        exact .failed [] rfl trivial hfails
      · rename_i hcall
        exact (ih (call.outcome s).1).cons hcall

end Call

theorem Progress.andThen_assoc (p : Progress) (f g : Session → Progress) :
    (p.andThen f).andThen g = p.andThen fun s => (f s).andThen g := by
  unfold andThen
  cases hp : p.failure with
  | some e => simp [hp]
  | none => cases hf : (f p.session).failure <;> simp [hf, List.append_assoc]

theorem Progress.andThen_done (s : Session) (f : Session → Progress) :
    Progress.andThen ⟨s, [], none⟩ f = f s := rfl

namespace Call

theorem runAll_append (s : Session) (calls more : List Call) :
    runAll s (calls ++ more) = (runAll s calls).andThen (runAll · more) := by
  induction calls generalizing s with
  | nil => rw [List.nil_append, runAll, Progress.andThen_done]
  | cons call calls ih =>
      rw [List.cons_append, runAll, runAll, Progress.andThen_assoc]
      simp only [ih]

end Call

/-! The sequence. -/

/-- A phase with the hooks around it. -/
def Phase.calls (observers : List Observer) (phase : Phase) : List Call :=
  observers.map (.before · phase) ++ .execute phase :: observers.map (.after · phase)

theorem runBefore_eq (phase : Phase) (s : Session) (observers : List Observer) :
    runBefore phase.name s observers = Call.runAll s (observers.map (.before · phase)) := by
  induction observers generalizing s with
  | nil => rfl
  | cons o observers ih =>
      rw [runBefore, List.map_cons, Call.runAll]
      simp only [ih]
      rfl

theorem runAfter_eq (phase : Phase) (s : Session) (observers : List Observer) :
    runAfter phase.name s observers = Call.runAll s (observers.map (.after · phase)) := by
  induction observers generalizing s with
  | nil => rfl
  | cons o observers ih =>
      rw [runAfter, List.map_cons, Call.runAll]
      simp only [ih]
      rfl

namespace Pipeline

theorem runPhase_eq (p : Pipeline) (phase : Phase) (s : Session) :
    p.runPhase phase s = Call.runAll s (phase.calls p.observers) := by
  rw [runPhase, Phase.calls, Call.runAll_append, runBefore_eq, Progress.andThen_assoc]
  simp only [Call.runAll, runAfter_eq]
  rfl

theorem runPhases_eq (p : Pipeline) (phases : List Phase) (s : Session) :
    p.runPhases s phases = Call.runAll s (phases.flatMap (Phase.calls p.observers)) := by
  induction phases generalizing s with
  | nil => rfl
  | cons phase phases ih =>
      rw [runPhases, List.flatMap_cons, Call.runAll_append, runPhase_eq]
      simp only [ih]

/-! What is added to the standard pipeline. -/

inductive Addition where
  | phase (phase : Phase)
  | observer (o : Observer)

def Addition.phase? : Addition → Option Phase
  | .phase added => some added
  | .observer _ => none

def Addition.observer? : Addition → Option Observer
  | .phase _ => none
  | .observer o => some o

def add (p : Pipeline) : Addition → Pipeline
  | .phase phase => p.withPhase phase
  | .observer o => p.withObserver o

theorem phases_foldl_add (p : Pipeline) (additions : List Addition) :
    (additions.foldl add p).phases = p.phases ++ additions.filterMap Addition.phase? := by
  induction additions generalizing p with
  | nil => simp
  | cons a additions ih =>
      rw [List.foldl_cons, ih]
      cases a with
      | phase phase => simp [add, phases, withPhase, Addition.phase?]
      | observer o => rfl

theorem observers_foldl_add (p : Pipeline) (additions : List Addition) :
    (additions.foldl add p).observers =
      p.observers ++ additions.filterMap Addition.observer? := by
  induction additions generalizing p with
  | nil => simp
  | cons a additions ih =>
      rw [List.foldl_cons, ih]
      cases a with
      | phase phase => rfl
      | observer o => simp [add, withObserver, Addition.observer?]

/-- Whatever is added, each phase in turn, the standard ones first, has all hooks before it, in
the order of the observers, and all hooks after it.  A run makes these calls up to the first that
fails, and fails for its reason. -/
theorem run_inSequence (additions : List Addition) (s : Session) :
    let phases := [parsePhase, indexPhase, collectPhase, lintPhase builtinLints] ++
      additions.filterMap Addition.phase?
    let observers := additions.filterMap Addition.observer?
    let calls := phases.flatMap (Phase.calls observers)
    let run := (additions.foldl add standard).run s
    Call.Ends s calls run ∧ (run.failure = none ↔ Call.AllSucceed s calls) := by
  intro phases observers calls run
  have hphases : (additions.foldl add standard).phases = phases :=
    phases_foldl_add standard additions
  have hobservers : (additions.foldl add standard).observers = observers :=
    observers_foldl_add standard additions
  have hrun : run = Call.runAll s calls := by
    change Pipeline.run _ s = _
    rw [Pipeline.run, runPhases_eq, hphases, hobservers]
  have hends : Call.Ends s calls run := hrun ▸ Call.ends_runAll s calls
  exact ⟨hends, hends.failure_eq_none_iff⟩

end Pipeline

end FieldRules
