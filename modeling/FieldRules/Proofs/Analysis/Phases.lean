/-
What stays true of a session while phases run over it.  What phases and observers preserve holds
at the end of a run, however it ends.
-/
import FieldRules.Analysis.Pipeline

namespace FieldRules

section Invariant

variable {P : Session → Prop} {s : Session} {p : Pipeline}

theorem Progress.andThen_preserves {q : Progress} {next : Session → Progress}
    (hq : P q.session) (hnext : ∀ s, P s → P (next s).session) : P (q.andThen next).session := by
  rw [andThen]
  split
  · exact hq
  · exact hnext q.session hq

theorem runBefore_preserves {phase : String} {os : List Observer}
    (hos : ∀ o ∈ os, ∀ s, P s → P (o.before phase s).1) (hs : P s) :
    P (runBefore phase s os).session := by
  induction os generalizing s with
  | nil => exact hs
  | cons o rest ih =>
      have ho := hos o List.mem_cons_self s hs
      exact Progress.andThen_preserves ho fun s =>
        ih fun o' ho' => hos o' (List.mem_cons_of_mem o ho')

theorem runAfter_preserves {phase : String} {os : List Observer}
    (hos : ∀ o ∈ os, ∀ s, P s → P (o.after phase s).1) (hs : P s) :
    P (runAfter phase s os).session := by
  induction os generalizing s with
  | nil => exact hs
  | cons o rest ih =>
      have ho := hos o List.mem_cons_self s hs
      exact Progress.andThen_preserves ho fun s =>
        ih fun o' ho' => hos o' (List.mem_cons_of_mem o ho')

/-- What every phase and every hook preserves. -/
structure Pipeline.Preserves (p : Pipeline) (P : Session → Prop) : Prop where
  phase : ∀ phase ∈ p.phases, ∀ s, P s → P (phase.run s).1
  before : ∀ o ∈ p.observers, ∀ phase s, P s → P (o.before phase s).1
  after : ∀ o ∈ p.observers, ∀ phase s, P s → P (o.after phase s).1

namespace Pipeline

theorem runPhase_preserves (h : p.Preserves P) {phase : Phase} (hphase : phase ∈ p.phases)
    (hs : P s) : P (p.runPhase phase s).session := by
  refine Progress.andThen_preserves (Progress.andThen_preserves ?_ fun s => ?_) fun s => ?_
  · exact runBefore_preserves (fun o ho => h.before o ho phase.name) hs
  · exact h.phase phase hphase s
  · exact runAfter_preserves fun o ho => h.after o ho phase.name

theorem runPhases_preserves (h : p.Preserves P) {phases : List Phase}
    (hphases : ∀ phase ∈ phases, phase ∈ p.phases) (hs : P s) :
    P (p.runPhases s phases).session := by
  induction phases generalizing s with
  | nil => exact hs
  | cons phase rest ih =>
      rw [runPhases]
      exact Progress.andThen_preserves
        (runPhase_preserves h (hphases phase List.mem_cons_self) hs) fun s =>
          ih fun phase' hphase' => hphases phase' (List.mem_cons_of_mem phase hphase')

theorem run_preserves (h : p.Preserves P) (hs : P s) : P (p.run s).session :=
  runPhases_preserves h (fun _ hphase => hphase) hs

end Pipeline

end Invariant

/-! The path of a file. -/

/-- A session for the file at a path. -/
def Session.IsFor (path : String) (s : Session) : Prop :=
  s.path = path ∧ ∀ file, s.collected = some file → file.path = path

theorem preserves_isFor (path : String) : Pipeline.standard.Preserves (Session.IsFor path) where
  phase phase hphase s hs := by
    have hcases : phase = parsePhase ∨ phase = indexPhase ∨ phase = collectPhase ∨
        phase = lintPhase builtinLints := by
      simpa [Pipeline.phases, Pipeline.standard, builtinPhases] using hphase
    rcases hcases with rfl | rfl | rfl | rfl
    · change Session.IsFor path (runParse s).1
      rw [runParse]
      split
      · exact hs
      · exact hs
    · change Session.IsFor path (runIndex s).1
      rw [runIndex]
      split
      · exact hs
      · exact hs
    · change Session.IsFor path (runCollect s).1
      rw [runCollect]
      split
      · exact hs
      · exact hs
      · dsimp only
        split
        · exact hs
        · refine ⟨hs.1, fun file hfile => ?_⟩
          rw [← Option.some.inj hfile]
          exact hs.1
    · change Session.IsFor path (runLints builtinLints s).1
      rw [runLints]
      split
      · exact hs
      · dsimp only
        split
        · exact hs
        · exact hs
  before o ho := by cases ho
  after o ho := by cases ho

/-- What is collected from a file is filed under its path. -/
theorem path_of_analyze {path text : String} {settings : Settings} {catalogue : Catalogue}
    {a : AnalyzedFile} (h : analyze path text settings catalogue = .ok a) : a.file.path = path := by
  have hstart : (Session.start path text settings catalogue).IsFor path :=
    ⟨rfl, fun file hfile => by cases hfile⟩
  have hend := Pipeline.run_preserves (preserves_isFor path) hstart
  rw [analyze] at h
  split at h
  · cases h
  · rename_i file _ hcollected
    obtain rfl := Except.ok.inj h
    exact hend.2 file hcollected
  · cases h

/-! The whole analysis. -/

/-- With nobody looking on, a run that ends well goes from phase to phase. -/
theorem Pipeline.runPhases_cons_of_ok {p : Pipeline} {phase : Phase} {rest : List Phase}
    {s : Session} (hsilent : p.observers = [])
    (h : (p.runPhases s (phase :: rest)).failure = none) :
    (phase.run s).2 = none ∧
      (p.runPhases s (phase :: rest)).session = (p.runPhases (phase.run s).1 rest).session ∧
      (p.runPhases (phase.run s).1 rest).failure = none := by
  have hphase : p.runPhase phase s = .step (.ran phase.name) (phase.run s) := by
    unfold runPhase
    rw [hsilent]
    unfold runBefore runAfter Progress.andThen Progress.step
    cases hrun : (phase.run s).2 <;> simp [hrun]
  rw [runPhases, hphase] at h ⊢
  unfold Progress.andThen Progress.step at h ⊢
  cases hrun : (phase.run s).2 with
  | some e => simp [hrun] at h
  | none =>
      simp only [hrun] at h ⊢
      exact ⟨trivial, trivial, h⟩

/-- The standard run that ends well has gone through the four phases. -/
theorem standard_run_of_ok {s : Session} (h : (Pipeline.standard.run s).failure = none) :
    (runParse s).2 = none ∧ (runCollect (runIndex (runParse s).1).1).2 = none ∧
      (Pipeline.standard.run s).session =
        (runLints builtinLints (runCollect (runIndex (runParse s).1).1).1).1 := by
  obtain ⟨hparse, hafterParse, h⟩ := Pipeline.runPhases_cons_of_ok rfl h
  obtain ⟨-, hafterIndex, h⟩ := Pipeline.runPhases_cons_of_ok rfl h
  obtain ⟨hcollect, hafterCollect, h⟩ := Pipeline.runPhases_cons_of_ok rfl h
  obtain ⟨-, hafterLints, -⟩ := Pipeline.runPhases_cons_of_ok rfl h
  exact ⟨hparse, hcollect,
    hafterParse.trans (hafterIndex.trans (hafterCollect.trans hafterLints))⟩

theorem runLints_of_collected {lints : List Lint} {s : Session} {file : AnnotatedFile}
    (h : s.collected = some file) :
    (runLints lints s).1 = s.report (lints.flatMap fun l => l.check file) := by
  unfold runLints
  rw [h]
  dsimp only
  split <;> rfl

/-- An analysis that ends well has read a file, and has collected and reported what the phases
find in it. -/
theorem exists_of_analyze {path text : String} {settings : Settings} {catalogue : Catalogue}
    {a : AnalyzedFile} (h : analyze path text settings catalogue = .ok a) :
    ∃ tree declarations, parseSource text = .ok tree ∧
      let index := DeclIndex.ofFile settings.typeMarker tree
      let all := collect ⟨settings, catalogue, index.1⟩ tree
      all.result = .ok declarations ∧
        a.file = ⟨path, tree.package.name, declarations⟩ ∧
        a.diagnostics =
          index.2 ++ all.diagnostics ++ builtinLints.flatMap fun l => l.check a.file := by
  unfold analyze at h
  dsimp only at h
  split at h
  · cases h
  · rename_i file hfailure hfile
    cases h
    obtain ⟨hparse, hcollect, hsession⟩ := standard_run_of_ok hfailure
    rw [hsession] at hfile ⊢
    unfold runParse at hparse hcollect hfile ⊢
    split at hparse
    · rename_i tree htree
      have htree : parseSource text = .ok tree := htree
      simp only [Session.start, htree, runIndex, runCollect, Session.report] at hcollect hfile ⊢
      cases hresult : (collect ⟨settings, catalogue,
          (DeclIndex.ofFile settings.typeMarker tree).1⟩ tree).result with
      | error e => simp [hresult] at hcollect
      | ok declarations =>
          rw [hresult] at hfile
          dsimp only at hfile ⊢
          rw [runLints_of_collected rfl] at hfile
          obtain rfl := Option.some.inj hfile
          exact ⟨tree, declarations, rfl, hresult, rfl, by rw [runLints_of_collected rfl]; rfl⟩
    · cases hparse
  · cases h

/-- With nobody looking on, a run goes on behind a phase that ends well. -/
theorem Pipeline.runPhases_cons_of_next {p : Pipeline} {s next : Session} (phase : Phase)
    (rest : List Phase) (hsilent : p.observers = []) (hphase : phase.run s = (next, none)) :
    (p.runPhases s (phase :: rest)).session = (p.runPhases next rest).session ∧
      (p.runPhases s (phase :: rest)).failure = (p.runPhases next rest).failure := by
  have hrun : p.runPhase phase s = ⟨next, [.ran phase.name], none⟩ := by
    unfold runPhase
    rw [hsilent]
    simp [runBefore, runAfter, Progress.andThen, Progress.step, hphase]
  rw [runPhases, hrun]
  exact ⟨rfl, rfl⟩

/-- Four phases that end well make a standard run that ends well. -/
theorem standard_run_of_phases {s parsed indexed collected linted : Session}
    (hparse : runParse s = (parsed, none)) (hindex : runIndex parsed = (indexed, none))
    (hcollect : runCollect indexed = (collected, none))
    (hlints : runLints builtinLints collected = (linted, none)) :
    (Pipeline.standard.run s).session = linted ∧ (Pipeline.standard.run s).failure = none := by
  obtain ⟨hsession, hfailure⟩ := @Pipeline.runPhases_cons_of_next .standard s parsed parsePhase
    [indexPhase, collectPhase, lintPhase builtinLints] rfl hparse
  obtain ⟨hsession', hfailure'⟩ := @Pipeline.runPhases_cons_of_next .standard parsed indexed
    indexPhase [collectPhase, lintPhase builtinLints] rfl hindex
  obtain ⟨hsession'', hfailure''⟩ := @Pipeline.runPhases_cons_of_next .standard indexed collected
    collectPhase [lintPhase builtinLints] rfl hcollect
  obtain ⟨hlast, hend⟩ := @Pipeline.runPhases_cons_of_next .standard collected linted
    (lintPhase builtinLints) [] rfl hlints
  exact ⟨hsession.trans (hsession'.trans (hsession''.trans hlast)),
    hfailure.trans (hfailure'.trans (hfailure''.trans hend))⟩

/-- What the phases after the parser find in a tree from which these declarations are
collected. -/
def reported (path : String) (settings : Settings) (catalogue : Catalogue) (tree : SourceFile)
    (declarations : List Declaration) : List Diagnostic :=
  let index := DeclIndex.ofFile settings.typeMarker tree
  index.2 ++ (collect ⟨settings, catalogue, index.1⟩ tree).diagnostics ++
    builtinLints.flatMap fun l => l.check ⟨path, tree.package.name, declarations⟩

/-- A file that is read and collected without any error passes the whole analysis. -/
theorem exists_analyze_of_collected {path text : String} {settings : Settings}
    {catalogue : Catalogue} {tree : SourceFile} {declarations : List Declaration}
    (htree : parseSource text = .ok tree)
    (hresult : (collect ⟨settings, catalogue, (DeclIndex.ofFile settings.typeMarker tree).1⟩
      tree).result = .ok declarations)
    (herrors : ∀ d ∈ reported path settings catalogue tree declarations, d.severity ≠ .error) :
    ∃ a, analyze path text settings catalogue = .ok a := by
  have hparse : runParse (.start path text settings catalogue) =
      ({ Session.start path text settings catalogue with parsed := some tree }, none) := by
    simp [runParse, Session.start, htree]
  obtain ⟨collected, hcollect, hcollected, hreported⟩ : ∃ s,
      runCollect (runIndex { Session.start path text settings catalogue with
        parsed := some tree }).1 = (s, none) ∧
      s.collected = some ⟨path, tree.package.name, declarations⟩ ∧
      s.diagnostics ++ builtinLints.flatMap
          (fun l => l.check ⟨path, tree.package.name, declarations⟩) =
        reported path settings catalogue tree declarations := by
    simp only [runCollect, runIndex, Session.start, Session.report, hresult]
    exact ⟨_, rfl, rfl, rfl⟩
  generalize (⟨path, tree.package.name, declarations⟩ : AnnotatedFile) = file at *
  have hlints : runLints builtinLints collected =
      (collected.report (builtinLints.flatMap fun l => l.check file), none) := by
    have hnone : (collected.report (builtinLints.flatMap fun l => l.check file)).errors = [] := by
      unfold Session.errors Session.ofSeverity Session.report
      rw [hreported, List.filter_eq_nil_iff]
      simpa using herrors
    unfold runLints
    rw [hcollected]
    dsimp only
    rw [if_pos (List.isEmpty_iff.mpr hnone)]
  obtain ⟨hsession, hfailure⟩ := standard_run_of_phases hparse rfl hcollect hlints
  have hfound : (Pipeline.standard.run (.start path text settings catalogue)).session.collected =
      some file := by rw [hsession]; exact hcollected
  unfold analyze
  dsimp only
  rw [hfailure, hfound]
  exact ⟨_, rfl⟩

/-- Whether a file that is read passes is computed from its tree. -/
theorem exists_analyze_of_check {path text : String} {settings : Settings} {catalogue : Catalogue}
    {tree : SourceFile} (htree : parseSource text = .ok tree)
    (hcheck : ((collect ⟨settings, catalogue, (DeclIndex.ofFile settings.typeMarker tree).1⟩
      tree).result.toOption.any fun declarations =>
        (reported path settings catalogue tree declarations).all
          fun d => d.severity ≠ .error) = true) :
    ∃ a, analyze path text settings catalogue = .ok a := by
  rw [Option.any_eq_true] at hcheck
  obtain ⟨declarations, hsome, hall⟩ := hcheck
  have herrors : ∀ d ∈ reported path settings catalogue tree declarations, d.severity ≠ .error := by
    simpa using hall
  cases hresult : (collect ⟨settings, catalogue,
      (DeclIndex.ofFile settings.typeMarker tree).1⟩ tree).result with
  | error e =>
      rw [hresult] at hsome
      cases hsome
  | ok found =>
      rw [hresult] at hsome
      cases hsome
      exact exists_analyze_of_collected htree hresult herrors

end FieldRules
