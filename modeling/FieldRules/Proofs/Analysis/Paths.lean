/-
The analysis of the same text under another path.  No phase looks at the path of a file but to
file what it has collected, so the declarations and the diagnostics are the same.
-/
import FieldRules.Proofs.Analysis.Phases
import FieldRules.Proofs.Outcome
import FieldRules.Workspace.Reading

namespace FieldRules

def AnnotatedFile.refile (path : String) (f : AnnotatedFile) : AnnotatedFile :=
  { f with path := path }

/-- A session with another path, and with what is collected filed under it. -/
def Session.refile (path : String) (s : Session) : Session :=
  { s with path := path, collected := s.collected.map (AnnotatedFile.refile path) }

def Progress.refile (path : String) (p : Progress) : Progress :=
  { p with session := p.session.refile path }

/-- A step that treats a session under another path as it treats the session. -/
def Refiles (path : String) (step : Session → Outcome) : Prop :=
  ∀ s, step (s.refile path) = ((step s).1.refile path, (step s).2)

/-- Phases and hooks that treat sessions under another path as they treat the sessions. -/
structure Pipeline.Refiles (p : Pipeline) (path : String) : Prop where
  phase : ∀ phase ∈ p.phases, FieldRules.Refiles path phase.run
  before : ∀ o ∈ p.observers, ∀ phase, FieldRules.Refiles path (o.before phase)
  after : ∀ o ∈ p.observers, ∀ phase, FieldRules.Refiles path (o.after phase)

section Refile

variable {path : String} {s : Session} {p : Pipeline}

theorem Progress.refile_step {step : Session → Outcome} (h : Refiles path step) (event : Event) :
    Progress.step event (step (s.refile path)) = (Progress.step event (step s)).refile path := by
  rw [h s]
  rfl

theorem Progress.refile_andThen {q : Progress} {next : Session → Progress}
    (hnext : ∀ s, next (s.refile path) = (next s).refile path) :
    (q.refile path).andThen next = (q.andThen next).refile path := by
  obtain ⟨session, events, failure⟩ := q
  cases failure with
  | some e => rfl
  | none =>
      simp only [andThen, refile, hnext]

theorem runBefore_refile {phase : String} {os : List Observer}
    (hos : ∀ o ∈ os, Refiles path (o.before phase)) :
    runBefore phase (s.refile path) os = (runBefore phase s os).refile path := by
  induction os generalizing s with
  | nil => rfl
  | cons o rest ih =>
      rw [runBefore, runBefore, Progress.refile_step (hos o List.mem_cons_self)]
      exact Progress.refile_andThen fun s => ih fun o' ho' => hos o' (List.mem_cons_of_mem o ho')

theorem runAfter_refile {phase : String} {os : List Observer}
    (hos : ∀ o ∈ os, Refiles path (o.after phase)) :
    runAfter phase (s.refile path) os = (runAfter phase s os).refile path := by
  induction os generalizing s with
  | nil => rfl
  | cons o rest ih =>
      rw [runAfter, runAfter, Progress.refile_step (hos o List.mem_cons_self)]
      exact Progress.refile_andThen fun s => ih fun o' ho' => hos o' (List.mem_cons_of_mem o ho')

namespace Pipeline

theorem runPhase_refile (h : p.Refiles path) {phase : Phase} (hphase : phase ∈ p.phases) :
    p.runPhase phase (s.refile path) = (p.runPhase phase s).refile path := by
  rw [runPhase, runBefore_refile fun o ho => h.before o ho phase.name,
    Progress.refile_andThen fun s => Progress.refile_step (h.phase phase hphase) _]
  exact Progress.refile_andThen fun s => runAfter_refile fun o ho => h.after o ho phase.name

theorem runPhases_refile (h : p.Refiles path) {phases : List Phase}
    (hphases : ∀ phase ∈ phases, phase ∈ p.phases) :
    p.runPhases (s.refile path) phases = (p.runPhases s phases).refile path := by
  induction phases generalizing s with
  | nil => rfl
  | cons phase rest ih =>
      rw [runPhases, runPhases, runPhase_refile h (hphases phase List.mem_cons_self)]
      exact Progress.refile_andThen fun s =>
        ih fun phase' hphase' => hphases phase' (List.mem_cons_of_mem phase hphase')

theorem run_refile (h : p.Refiles path) : p.run (s.refile path) = (p.run s).refile path :=
  runPhases_refile h fun _ hphase => hphase

end Pipeline

end Refile

/-! The built-in phases. -/

section Builtin

variable (path : String)

theorem refiles_runParse : Refiles path runParse := by
  intro s
  rw [runParse, runParse]
  cases hparse : parseSource s.text with
  | error e => simp [Session.refile, hparse]
  | ok file => simp [Session.refile, hparse]

theorem refiles_runIndex : Refiles path runIndex := by
  intro s
  rw [runIndex, runIndex]
  cases hparsed : s.parsed with
  | none => simp [Session.refile, hparsed]
  | some file => simp [Session.refile, Session.report, hparsed]

theorem refiles_runCollect : Refiles path runCollect := by
  intro s
  rw [runCollect, runCollect]
  cases hparsed : s.parsed with
  | none => simp [Session.refile, hparsed]
  | some file =>
      cases hindex : s.index with
      | none => simp [Session.refile, hparsed, hindex]
      | some index =>
          simp only [Session.refile, Session.report, hparsed, hindex]
          cases (collect ⟨s.settings, s.catalogue, index⟩ file).result with
          | error e => rfl
          | ok declarations => rfl

/-- The lints ask about declarations only. -/
theorem checks_refile (file : AnnotatedFile) :
    (builtinLints.flatMap fun l => l.check (file.refile path)) =
      builtinLints.flatMap fun l => l.check file := rfl

theorem refiles_runLints : Refiles path (runLints builtinLints) := by
  intro s
  cases hcollected : s.collected with
  | none => simp [runLints, Session.refile, hcollected]
  | some file =>
      have hfile : (s.refile path).collected = some (file.refile path) := by
        simp [Session.refile, hcollected]
      rw [runLints, runLints, hfile, hcollected]
      dsimp only
      rw [checks_refile]
      have hreport : ∀ found, (s.refile path).report found = (s.report found).refile path :=
        fun _ => rfl
      have herrors : ∀ after : Session, (after.refile path).errors = after.errors := fun _ => rfl
      rw [hreport, herrors]
      split <;> rfl

theorem refiles_standard : Pipeline.standard.Refiles path where
  phase phase hphase := by
    have hcases : phase = parsePhase ∨ phase = indexPhase ∨ phase = collectPhase ∨
        phase = lintPhase builtinLints := by
      simpa [Pipeline.phases, Pipeline.standard, builtinPhases] using hphase
    rcases hcases with rfl | rfl | rfl | rfl
    · exact refiles_runParse path
    · exact refiles_runIndex path
    · exact refiles_runCollect path
    · exact refiles_runLints path
  before o ho := by cases ho
  after o ho := by cases ho

end Builtin

/-- The same text under another path has the same declarations and diagnostics. -/
theorem analyze_refile (path other text : String) (settings : Settings) (catalogue : Catalogue) :
    analyze other text settings catalogue =
      (analyze path text settings catalogue).map fun a => ⟨a.file.refile other, a.diagnostics⟩ := by
  have hstart : Session.start other text settings catalogue =
      (Session.start path text settings catalogue).refile other := rfl
  rw [analyze, analyze, hstart, Pipeline.run_refile (refiles_standard other)]
  obtain ⟨session, events, failure⟩ :=
    Pipeline.standard.run (Session.start path text settings catalogue)
  cases failure with
  | some e => rfl
  | none =>
      simp only [Progress.refile, Session.refile]
      cases session.collected <;> rfl

/-- A computed analysis that has declarations. -/
theorem exists_analyze_of_any {path text : String} {settings : Settings} {catalogue : Catalogue}
    (h : (analyze path text settings catalogue).toOption.any (fun a => !a.file.isEmpty) = true) :
    ∃ a, analyze path text settings catalogue = .ok a ∧ a.file.isEmpty = false := by
  obtain ⟨a, ha, hempty⟩ := exists_ok_of_any h
  exact ⟨a, ha, by simpa using hempty⟩

/-! Files. -/

namespace Workspace

variable {s : Settings} {f g : FileSystem} {path other : String} {a : AnalyzedFile}

theorem analyzeFile_eq_ok_iff :
    analyzeFile s f path = .ok a ↔
      ∃ text, f.readText path = .ok text ∧ analyze path text s .builtin = .ok a := by
  rw [analyzeFile]
  cases f.readText path <;> simp

/-- Paths to the same text have the same declarations. -/
theorem analyzeFile_refile (hread : g.readText other = f.readText path)
    (h : analyzeFile s f path = .ok a) :
    analyzeFile s g other = .ok ⟨a.file.refile other, a.diagnostics⟩ := by
  obtain ⟨text, htext, hanalyze⟩ := analyzeFile_eq_ok_iff.mp h
  refine analyzeFile_eq_ok_iff.mpr ⟨text, hread.trans htext, ?_⟩
  rw [analyze_refile path other, hanalyze]
  rfl

end Workspace

end FieldRules
