/-
Sources that are processed step by step.  Each is read, analyzed, rendered and written, and the
steps of different sources can be mixed in any way.  The ways in which the program mixes them
are two of these.
-/
import FieldRules.Proofs.Analysis.Phases
import FieldRules.Proofs.Workspace.Writing

namespace FieldRules.Workspace

/-- How far a source is. -/
inductive Stage where
  | waiting
  | read (text : Except AccessError String)
  | analyzed (analysis : Except String AnalyzedFile)
  /-- It has declarations, and this is the text of its companion. -/
  | rendered (analysis : AnalyzedFile) (text : String)
  | finished (report : FileReport)

structure Job where
  path : String
  stage : Stage

def Job.start (path : String) : Job := ⟨path, .waiting⟩

/-- The report on a source that is finished. -/
def Job.report? (j : Job) : Option FileReport :=
  match j.stage with
  | .finished report => some report
  | _ => none

/-- Some sources and the file system that they share. -/
structure Batch where
  files : FileSystem
  jobs : List Job

def Batch.start (f : FileSystem) (paths : List String) : Batch := ⟨f, paths.map Job.start⟩

def Batch.reports (b : Batch) : List FileReport := b.jobs.filterMap Job.report?

/-- The analysis of a source that was read or could not be. -/
def analyzeText (s : Settings) (path : String) : Except AccessError String →
    Except String AnalyzedFile
  | .error e => .error (unreadable path ++ ": " ++ e.message)
  | .ok text => (analyze path text s .builtin).mapError AnalysisError.text

/-- The warnings of a report. -/
def warningTexts (a : AnalyzedFile) : List String :=
  (a.diagnostics.filter fun d => d.severity = .warning).map Diagnostic.text

section

variable (dryRun : Bool) (s : Settings) (root : String)

/-- The next step for a source. -/
def Job.step (f : FileSystem) (j : Job) : FileSystem × Job :=
  let display := displayPath f root j.path
  match j.stage with
  | .waiting => (f, ⟨j.path, .read (f.readText j.path)⟩)
  | .read text => (f, ⟨j.path, .analyzed (analyzeText s j.path text)⟩)
  | .analyzed (.error message) => (f, ⟨j.path, .finished ⟨display, .failed message, []⟩⟩)
  | .analyzed (.ok a) =>
      if a.file.isEmpty then (f, ⟨j.path, .finished ⟨display, .noAnnotations, warningTexts a⟩⟩)
      else (f, ⟨j.path, .rendered a (companionText s a.file)⟩)
  | .rendered a text =>
      let (g, status) := deliver dryRun s root f a.file text
      (g, ⟨j.path, .finished ⟨display, status, warningTexts a⟩⟩)
  | .finished _ => (f, j)

/-- Some steps for one source. -/
def Job.steps : Nat → FileSystem → Job → FileSystem × Job
  | 0, f, j => (f, j)
  | k + 1, f, j => Job.steps k (j.step dryRun s root f).1 (j.step dryRun s root f).2

/-- The next step for the source with a number. -/
def Batch.turn (b : Batch) (i : Nat) : Batch :=
  match b.jobs[i]? with
  | none => b
  | some j => ⟨(j.step dryRun s root b.files).1, b.jobs.set i (j.step dryRun s root b.files).2⟩

/-- One step after the other, each for the source with the next number of an order. -/
def Batch.run (b : Batch) (order : List Nat) : Batch := order.foldl (Batch.turn dryRun s root) b

/-- Some steps for one source after the other. -/
def sweep (k : Nat) (f : FileSystem) : List Job → Batch
  | [] => ⟨f, []⟩
  | j :: rest =>
      let (g, j') := j.steps dryRun s root k f
      let b := sweep k g rest
      ⟨b.files, j' :: b.jobs⟩

end

/-- The order that gives every source some steps before the next has any. -/
def rounds (k n : Nat) : List Nat := (List.range n).flatMap (List.replicate k)

section Steps

variable {dryRun : Bool} {s : Settings} {root path : String} {f : FileSystem}

theorem analyzeText_readText : analyzeText s path (f.readText path) = analyzeFile s f path := by
  rw [analyzeFile]
  cases f.readText path <;> rfl

/-- The analysis of a source is filed under its path. -/
theorem path_of_analyzeText {text : Except AccessError String} {a : AnalyzedFile}
    (h : analyzeText s path text = .ok a) : a.file.path = path := by
  cases text with
  | error e => cases h
  | ok text => exact path_of_analyze (mapError_eq_ok.mp h)

theorem path_of_analyzeFile {a : AnalyzedFile} (h : analyzeFile s f path = .ok a) :
    a.file.path = path :=
  path_of_analyzeText (analyzeText_readText.trans h)

theorem step_rendered (a : AnalyzedFile) (text : String) :
    Job.step dryRun s root f ⟨path, .rendered a text⟩ =
      ((deliver dryRun s root f a.file text).1,
        ⟨path, .finished
          ⟨displayPath f root path, (deliver dryRun s root f a.file text).2, warningTexts a⟩⟩) :=
  rfl

/-- A source keeps its path. -/
theorem path_step (f : FileSystem) (j : Job) : (j.step dryRun s root f).2.path = j.path := by
  obtain ⟨path, stage⟩ := j
  cases stage with
  | waiting => rfl
  | read text => rfl
  | analyzed analysis =>
      cases analysis with
      | error message => rfl
      | ok a => cases hempty : a.file.isEmpty <;> simp [Job.step, hempty]
  | rendered a text => rfl
  | finished report => rfl

/-- Only a source with a text to deliver changes files. -/
theorem files_step_eq_or (f : FileSystem) (j : Job) :
    (j.step dryRun s root f).1 = f ∨ ∃ a text, j.stage = .rendered a text ∧
      (j.step dryRun s root f).1 = (deliver dryRun s root f a.file text).1 := by
  obtain ⟨path, stage⟩ := j
  cases stage with
  | waiting => exact Or.inl rfl
  | read text => exact Or.inl rfl
  | analyzed analysis =>
      cases analysis with
      | error message => exact Or.inl rfl
      | ok a => cases hempty : a.file.isEmpty <;> simp [Job.step, hempty]
  | rendered a text => exact Or.inr ⟨a, text, rfl, rfl⟩
  | finished report => exact Or.inl rfl

theorem paths_start (f : FileSystem) (paths : List String) :
    (Batch.start f paths).jobs.map Job.path = paths := by
  rw [Batch.start, List.map_map]
  exact List.map_id _

theorem paths_turn (b : Batch) (i : Nat) :
    (b.turn dryRun s root i).jobs.map Job.path = b.jobs.map Job.path := by
  rw [Batch.turn]
  cases hi : b.jobs[i]? with
  | none => rfl
  | some j =>
      obtain ⟨hlt, rfl⟩ := List.getElem?_eq_some_iff.mp hi
      dsimp only
      rw [List.map_set, path_step, ← List.getElem_map Job.path, List.set_getElem_self]
      simpa using hlt

/-- A run has its sources in the order they were in. -/
theorem paths_run (b : Batch) (order : List Nat) :
    (b.run dryRun s root order).jobs.map Job.path = b.jobs.map Job.path := by
  induction order generalizing b with
  | nil => rfl
  | cons i order ih => exact (ih _).trans (paths_turn b i)

/-- After its analysis a source is finished in two steps. -/
theorem steps_analyzed (analysis : Except String AnalyzedFile) :
    Job.steps dryRun s root 2 f ⟨path, .analyzed analysis⟩ =
      ((finish dryRun s root f path analysis).1,
        ⟨path, .finished (finish dryRun s root f path analysis).2⟩) := by
  cases analysis with
  | error message => rfl
  | ok a =>
      cases hempty : a.file.isEmpty <;>
        simp [Job.steps, Job.step, finish, emit_eq, hempty, warningTexts]

theorem steps_start :
    Job.steps dryRun s root 2 f (Job.start path) =
      (f, ⟨path, .analyzed (analyzeFile s f path)⟩) := by
  rw [← analyzeText_readText]
  rfl

theorem steps_add (k m : Nat) (j : Job) :
    Job.steps dryRun s root (k + m) f j =
      Job.steps dryRun s root m (Job.steps dryRun s root k f j).1
        (Job.steps dryRun s root k f j).2 := by
  induction k generalizing f j with
  | zero => rw [Nat.zero_add]; rfl
  | succ k ih => rw [Nat.succ_add]; exact ih _

/-- Four steps process a source. -/
theorem steps_four :
    Job.steps dryRun s root 4 f (Job.start path) =
      ((generateFile dryRun s root f path).1,
        ⟨path, .finished (generateFile dryRun s root f path).2⟩) := by
  rw [steps_add 2 2, steps_start]
  exact steps_analyzed _

end Steps

/-! Orders that go through the sources one after the other. -/

section Rounds

variable (dryRun : Bool) (s : Settings) (root : String) (f : FileSystem)

theorem run_append (b : Batch) (order order' : List Nat) :
    b.run dryRun s root (order ++ order') = (b.run dryRun s root order).run dryRun s root order' :=
  List.foldl_append

theorem turn_append (done rest : List Job) (j : Job) :
    Batch.turn dryRun s root ⟨f, done ++ j :: rest⟩ done.length =
      ⟨(j.step dryRun s root f).1, done ++ (j.step dryRun s root f).2 :: rest⟩ := by
  simp [Batch.turn]

theorem run_replicate (k : Nat) (done rest : List Job) (j : Job) :
    Batch.run dryRun s root ⟨f, done ++ j :: rest⟩ (List.replicate k done.length) =
      ⟨(j.steps dryRun s root k f).1, done ++ (j.steps dryRun s root k f).2 :: rest⟩ := by
  induction k generalizing f j with
  | zero => rfl
  | succ k ih =>
      rw [List.replicate_succ, Batch.run, List.foldl_cons, turn_append]
      exact ih _ _

theorem run_range' (k : Nat) (done rest : List Job) :
    Batch.run dryRun s root ⟨f, done ++ rest⟩
        ((List.range' done.length rest.length).flatMap (List.replicate k)) =
      ⟨(sweep dryRun s root k f rest).files, done ++ (sweep dryRun s root k f rest).jobs⟩ := by
  induction rest generalizing f done with
  | nil => rfl
  | cons j rest ih =>
      have hnext := ih (j.steps dryRun s root k f).1 (done ++ [(j.steps dryRun s root k f).2])
      rw [List.length_cons, List.range'_succ, List.flatMap_cons, run_append, run_replicate]
      simpa [sweep] using hnext

/-- Going through the sources. -/
theorem run_rounds (k : Nat) (jobs : List Job) :
    Batch.run dryRun s root ⟨f, jobs⟩ (rounds k jobs.length) = sweep dryRun s root k f jobs := by
  have h := run_range' dryRun s root f k [] jobs
  simpa [rounds, List.range_eq_range'] using h

theorem sweep_start (paths : List String) :
    sweep dryRun s root 2 f (paths.map Job.start) =
      ⟨f, paths.map fun path => ⟨path, .analyzed (analyzeFile s f path)⟩⟩ := by
  induction paths with
  | nil => rfl
  | cons path paths ih => simp only [List.map_cons, sweep, steps_start, ih]

/-- Finishing analyzed sources one after the other. -/
theorem sweep_analyzed (analyses : List (String × Except String AnalyzedFile)) :
    let b := sweep dryRun s root 2 f (analyses.map fun x => ⟨x.1, .analyzed x.2⟩)
    (b.files, b.reports) = finishFiles dryRun s root f analyses := by
  induction analyses generalizing f with
  | nil => rfl
  | cons x rest ih =>
      have hrest := ih (finish dryRun s root f x.1 x.2).1
      simp only [List.map_cons, sweep, steps_analyzed, finishFiles, ← hrest, Batch.reports]
      rfl

/-- Processing sources one after the other. -/
theorem sweep_four (paths : List String) :
    let b := sweep dryRun s root 4 f (paths.map Job.start)
    (b.files, b.reports) = generateInTurn dryRun s root f paths := by
  induction paths generalizing f with
  | nil => rfl
  | cons path paths ih =>
      have hrest := ih (generateFile dryRun s root f path).1
      simp only [List.map_cons, sweep, steps_four, generateInTurn, ← hrest, Batch.reports]
      rfl

/-- The order in which the program processes sources, in turn or side by side. -/
def programOrder (inTurn : Bool) (n : Nat) : List Nat :=
  if inTurn then rounds 4 n else rounds 2 n ++ rounds 2 n

theorem le_count_rounds {i n : Nat} (k : Nat) (h : i < n) : k ≤ (rounds k n).count i := by
  induction n with
  | zero => exact absurd h (Nat.not_lt_zero i)
  | succ n ih =>
      rw [rounds, List.range_succ, List.flatMap_append, List.count_append]
      rcases Nat.lt_succ_iff_lt_or_eq.mp h with hlt | rfl
      · exact Nat.le_add_right_of_le (ih hlt)
      · simp

/-- The program gives every source its four steps. -/
theorem four_le_count_programOrder {i n : Nat} (inTurn : Bool) (h : i < n) :
    4 ≤ (programOrder inTurn n).count i := by
  cases inTurn with
  | true => exact le_count_rounds 4 h
  | false =>
      have htwo := le_count_rounds 2 h
      rw [programOrder, if_neg Bool.false_ne_true, List.count_append]
      omega

theorem run_programOrder (inTurn : Bool) (paths : List String) :
    let b := (Batch.start f paths).run dryRun s root (programOrder inTurn paths.length)
    (b.files, b.reports) =
      if inTurn then generateInTurn dryRun s root f paths
      else generateTogether dryRun s root f paths := by
  have hlength : paths.length = (paths.map Job.start).length := by simp
  cases inTurn with
  | true =>
      rw [programOrder, if_pos rfl, if_pos rfl, hlength, Batch.start, run_rounds]
      exact sweep_four dryRun s root f paths
  | false =>
      have hfirst : (Batch.start f paths).run dryRun s root (rounds 2 paths.length) =
          ⟨f, paths.map fun path => ⟨path, .analyzed (analyzeFile s f path)⟩⟩ := by
        rw [hlength, Batch.start, run_rounds, sweep_start]
      have hsecond := sweep_analyzed dryRun s root f
        (paths.map fun path => (path, analyzeFile s f path))
      rw [← run_rounds, List.length_map, List.length_map, List.map_map] at hsecond
      rw [programOrder, if_neg Bool.false_ne_true, if_neg Bool.false_ne_true, run_append, hfirst]
      exact hsecond

end Rounds

/-- The reports of a run, in the order of the paths. -/
def Batch.report (dryRun : Bool) (b : Batch) : GenerateReport :=
  ⟨dryRun, b.reports.mergeSort fun x y => Path.le x.path y.path⟩

/-- The program mixes the steps in one of these orders. -/
theorem generate_eq_run {dryRun inTurn : Bool} {s : Settings} {root : String} {f : FileSystem}
    {found : List Found} (h : sources s f root = .ok found) :
    generate dryRun inTurn s f root =
      let b := (Batch.start f (found.map Found.path)).run dryRun s root
        (programOrder inTurn (found.map Found.path).length)
      .ok (b.files, b.report dryRun) := by
  rw [generate, h, ok_bind]
  dsimp only
  rw [← run_programOrder]
  rfl

end FieldRules.Workspace
