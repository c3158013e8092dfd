/-
Running phases over a session, with observers that look on before and after each
phase and may end the run.
-/
import FieldRules.Analysis.Session

namespace FieldRules

/-- What an observer does when a phase, given by its name, is about to run or has
run. -/
abbrev Hook := String → Session → Outcome

structure Observer where
  name : String
  before : Hook
  after : Hook

/-- An observer that only looks on. -/
def Observer.silent (name : String) : Observer :=
  ⟨name, fun _ s => (s, none), fun _ s => (s, none)⟩

/-- What happened in a run.  `seen` counts the diagnostics at that moment. -/
inductive Event where
  | before (observer phase : String) (seen : Nat)
  | ran (phase : String)
  | after (observer phase : String) (seen : Nat)
deriving DecidableEq, Repr

/-- A run so far: where it stands, what happened, and why it stopped. -/
structure Progress where
  session : Session
  events : List Event
  failure : Option AnalysisError

namespace Progress

/-- One step that is recorded as `event`. -/
def step (event : Event) (outcome : Outcome) : Progress :=
  ⟨outcome.1, [event], outcome.2⟩

/-- Go on unless the run has stopped. -/
def andThen (p : Progress) (next : Session → Progress) : Progress :=
  match p.failure with
  | some _ => p
  | none =>
      let q := next p.session
      ⟨q.session, p.events ++ q.events, q.failure⟩

end Progress

def runBefore (phase : String) (s : Session) : List Observer → Progress
  | [] => ⟨s, [], none⟩
  | o :: rest =>
      (Progress.step (.before o.name phase s.diagnostics.length) (o.before phase s)).andThen
        fun s => runBefore phase s rest

def runAfter (phase : String) (s : Session) : List Observer → Progress
  | [] => ⟨s, [], none⟩
  | o :: rest =>
      (Progress.step (.after o.name phase s.diagnostics.length) (o.after phase s)).andThen
        fun s => runAfter phase s rest

/-- Built-in phases, then those added by the user, with observers around each. -/
structure Pipeline where
  builtin : List Phase
  added : List Phase
  observers : List Observer

namespace Pipeline

def standard : Pipeline := ⟨builtinPhases, [], []⟩

def withPhase (p : Pipeline) (phase : Phase) : Pipeline := { p with added := p.added ++ [phase] }

def withObserver (p : Pipeline) (o : Observer) : Pipeline :=
  { p with observers := p.observers ++ [o] }

/-- All phases in the order in which they run. -/
def phases (p : Pipeline) : List Phase := p.builtin ++ p.added

def runPhase (p : Pipeline) (phase : Phase) (s : Session) : Progress :=
  ((runBefore phase.name s p.observers).andThen fun s =>
      .step (.ran phase.name) (phase.run s)).andThen fun s =>
    runAfter phase.name s p.observers

def runPhases (p : Pipeline) (s : Session) : List Phase → Progress
  | [] => ⟨s, [], none⟩
  | phase :: rest => (p.runPhase phase s).andThen fun s => p.runPhases s rest

/-- Run every phase on one file, up to the first failure. -/
def run (p : Pipeline) (s : Session) : Progress := p.runPhases s p.phases

end Pipeline

/-- A file after its analysis. -/
structure AnalyzedFile where
  file : AnnotatedFile
  diagnostics : List Diagnostic
deriving Repr

/-- Run the built-in phases on a text. -/
def analyze (path text : String) (settings : Settings) (catalogue : Catalogue) :
    Except AnalysisError AnalyzedFile :=
  let p := Pipeline.standard.run (.start path text settings catalogue)
  match p.failure, p.session.collected with
  | some e, _ => .error e
  | none, some file => .ok ⟨file, p.session.diagnostics⟩
  | none, none => .error .notCollected

end FieldRules
