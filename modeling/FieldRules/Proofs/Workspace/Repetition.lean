/-
Generation once more.  What a run has written bears the header and is no source afterwards.  A
source that is left was never touched, and its companion has the text that the source calls for.
So a second run has nothing to write, whatever the orders of the two.
-/
import FieldRules.Proofs.Analysis.Paths
import FieldRules.Proofs.Workspace.Header
import FieldRules.Proofs.Workspace.Marking
import FieldRules.Proofs.Workspace.Order

namespace FieldRules.Workspace

open FileSystem (isPathTooLong)

/-- Sources that can be read, unless their paths are too long, and whose companions have different
places and are recognised as such. -/
structure Listed (s : Settings) (f : FileSystem) (paths : List String) : Prop where
  wellFormed : f.root.WellFormed
  header : s.HeaderIsLine
  plain : '/' ∉ s.outputSuffix.toList
  isSource : ∀ path ∈ paths, s.isSource path = true
  readable : ∀ path ∈ paths,
    isPathTooLong path = true ∨ ∃ content, f.node path = .ok (.file content)
  distinct : (paths.map fun path => f.destination (s.outputPath path)).Nodup

/-- The companion that a source has in one file system stands where it belongs in another, if it
can stand there. -/
def UpToDate (s : Settings) (f g : FileSystem) (path : String) : Prop :=
  ∀ pair, companion? s f path = some pair → f.Writable pair.1 →
    g.root.at? (f.destination pair.1) = some (.file (.text pair.2))

/-- A stage that only a source with a short path can be at, with a text that has the header. -/
def Stage.Legal (s : Settings) (path : String) : Stage → Prop
  | read text => ∀ t, text = .ok t → isPathTooLong path = false
  | analyzed analysis => ∀ a, analysis = .ok a → isPathTooLong path = false ∧ a.file.path = path
  | rendered a text =>
      isPathTooLong path = false ∧ a.file.path = path ∧ s.hasHeader text = true
  | _ => True

/-- A stage that a source reaches on its own; once it is finished its companion is up to date. -/
def Stage.Reached (s : Settings) (root : String) (f g : FileSystem) (path : String) :
    Stage → Prop
  | finished _ => UpToDate s f g path
  | stage => stage.Fits false s root f path

theorem listed_of_sources {s : Settings} {f : FileSystem} {root : String} {found : List Found}
    (hf : f.root.WellFormed) (hheader : s.HeaderIsLine) (hplain : '/' ∉ s.outputSuffix.toList)
    (hfound : sources s f root = .ok found) : Listed s f (found.map Found.path) := by
  have hd := discovered_of_sources hf hfound
  refine ⟨hf, hheader, hplain, ?_, ?_, ?_⟩
  · intro path hpath
    obtain ⟨c, hc, rfl⟩ := List.mem_map.mp hpath
    exact hd.isSource c hc
  · intro path hpath
    obtain ⟨c, hc, rfl⟩ := List.mem_map.mp hpath
    exact (hd.node c hc).imp_right fun hnode => ⟨c.content, hnode⟩
  · simpa only [List.Nodup, List.map_map, List.pairwise_map, Function.comp_apply] using
      hd.destination_outputPath_ne hplain

/-! Texts and companions of untouched sources. -/

section Untouched

variable {s : Settings} {f g : FileSystem} {path text : String}

theorem notTooLong_of_readText (hread : f.readText path = .ok text) :
    isPathTooLong path = false := by
  obtain ⟨n, hnode, -⟩ := bind_eq_ok.mp hread
  exact FileSystem.notTooLong_of_node hnode

/-- A companion depends on the text of its source only. -/
theorem companion?_congr (hread : g.readText path = f.readText path) :
    companion? s g path = companion? s f path := by
  rw [companion?, companion?, ← analyzeText_readText, hread, analyzeText_readText]

end Untouched

/-! One step of one source. -/

section Step

variable {s : Settings} {root path : String} {f g h : FileSystem} {paths : List String} {j : Job}

theorem makeFoldersTo_outputPath (hsource : s.isSource path = true)
    (hplain : '/' ∉ s.outputSuffix.toList) {content : Content}
    (hnode : f.node path = .ok (.file content)) :
    f.makeFoldersTo (Path.directory (s.outputPath path)) = (f, none) := by
  obtain ⟨dir, name, hopens, -⟩ := FileSystem.opens_of_node hnode
  have hdir : Path.directory (s.outputPath path) = Path.directory path :=
    Path.directory_withFileName (Settings.fileName?_of_isSource hsource).1
      (Settings.isName_companion hsource hplain)
  rw [hdir]
  exact hopens.makeFoldersTo_directory

theorem legal_step (root : String) (g : FileSystem) (hheader : s.HeaderIsLine)
    (hlegal : j.stage.Legal s j.path) : (j.step false s root g).2.stage.Legal s j.path := by
  obtain ⟨path, stage⟩ := j
  cases stage with
  | waiting => exact fun text hread => notTooLong_of_readText hread
  | read text =>
      refine fun a hanalyze => ⟨?_, path_of_analyzeText hanalyze⟩
      cases text with
      | error e => cases hanalyze
      | ok text => exact hlegal text rfl
  | analyzed analysis =>
      cases analysis with
      | error message => trivial
      | ok a =>
          obtain ⟨hlong, hpath⟩ := hlegal a rfl
          cases hempty : a.file.isEmpty with
          | true => simp [Job.step, hempty, Stage.Legal]
          | false =>
              simpa [Job.step, hempty, Stage.Legal] using
                ⟨hlong, hpath, (hasHeader_companionText s a.file).mpr hheader⟩
  | rendered a text => trivial
  | finished report => trivial

/-- A step writes a text with the header to the place of the companion, or nothing. -/
theorem files_step (root : String) (hlist : Listed s f paths) (hfg : Marks s f g)
    (hj : j.path ∈ paths) (hlegal : j.stage.Legal s j.path) :
    (j.step false s root g).1 = g ∨ ∃ text, s.hasHeader text = true ∧
      g.Writable (s.outputPath j.path) ∧
      (j.step false s root g).1 =
        g.withFile (g.destination (s.outputPath j.path)) (.text text) := by
  rcases files_step_eq_or g j with hsame | ⟨a, text, hstage, hdeliver⟩
  · exact Or.inl hsame
  rw [hstage] at hlegal
  obtain ⟨hlong, hpath, htext⟩ : isPathTooLong j.path = false ∧ a.file.path = j.path ∧
    s.hasHeader text = true := hlegal
  rw [hdeliver, ← hpath]
  by_cases hw : g.Writable (s.outputPath a.file.path)
  · rw [deliver_of_writable hw]
    split
    · exact Or.inl rfl
    · exact Or.inr ⟨text, htext, hw, rfl⟩
  · obtain ⟨content, hnode⟩ := (hlist.readable _ hj).resolve_left (by simp [hlong])
    obtain ⟨content', hnode'⟩ := hfg.node hnode
    have hmake := makeFoldersTo_outputPath (hlist.isSource _ hj) hlist.plain hnode'
    rw [← hpath] at hmake
    obtain ⟨message, hfailed⟩ := deliver_of_not_writable root text hmake hw
    exact Or.inl (by rw [hfailed])

theorem marks_step (root : String) (hlist : Listed s f paths) (hfg : Marks s f g)
    (hj : j.path ∈ paths) (hlegal : j.stage.Legal s j.path) :
    Marks s g (j.step false s root g).1 := by
  rcases files_step root hlist hfg hj hlegal with hsame | ⟨text, htext, hw, hwrite⟩
  · rw [hsame]
    exact Marks.refl hfg.wellFormed
  · rw [hwrite]
    exact hw.marks hfg.wellFormed htext

/-- A step of one source leaves the companions of the others alone. -/
theorem upToDate_step (hlist : Listed s f paths) (hfg : Marks s f g) (hj : j.path ∈ paths)
    (hlegal : j.stage.Legal s j.path) {other : String}
    (hne : f.destination (s.outputPath other) ≠ f.destination (s.outputPath j.path))
    (hdate : UpToDate s f g other) : UpToDate s f (j.step false s root g).1 other := by
  intro pair hpair hwritable
  have hat := hdate pair hpair hwritable
  rcases files_step root hlist hfg hj hlegal with hsame | ⟨text, -, hw, hwrite⟩
  · rwa [hsame]
  · rw [← eq_outputPath_of_companion? hpair,
      ← hfg.keeps.destination_eq (s.outputPath j.path)] at hne
    rw [hwrite, ← Forest.entryAt_eq_file_iff, hw.free.entryAt_of_ne hne,
      Forest.entryAt_eq_file_iff, hat]

/-- A source that is not overwritten gets on as it would alone. -/
theorem reached_step (hlist : Listed s f paths) (hfg : Marks s f g) (hj : j.path ∈ paths)
    (hover : ¬Overwritten s g j.path) (hreached : j.stage.Reached s root f g j.path) :
    (j.step false s root g).2.stage.Reached s root f (j.step false s root g).1 j.path := by
  obtain ⟨path, stage⟩ := j
  cases stage with
  | waiting => exact hfg.readText_eq (hlist.readable path hj) hover
  | read text =>
      obtain rfl : text = f.readText path := hreached
      exact analyzeText_readText
  | analyzed analysis =>
      obtain rfl : analysis = analyzeFile s f path := hreached
      cases ha : analyzeFile s f path with
      | error message =>
          intro pair hpair
          simp [companion?, ha] at hpair
      | ok a =>
          cases hempty : a.file.isEmpty with
          | true =>
              have hnone : companion? s f path = none := by simp [companion?, ha, hempty]
              simp [Job.step, hempty, Stage.Reached, UpToDate, hnone]
          | false => simp [Job.step, hempty, Stage.Reached, Stage.Fits, ha]
  | rendered a text =>
      rw [step_rendered]
      obtain ⟨ha, hempty, rfl⟩ : analyzeFile s f path = .ok a ∧ a.file.isEmpty = false ∧
        text = companionText s a.file := hreached
      intro pair hpair hwritable
      obtain rfl := Option.some.inj ((companion?_of_ok ha hempty).symm.trans hpair)
      have hw : g.Writable (s.outputPath a.file.path) := hwritable.of_sameFolders hfg.toSameFolders
      rw [deliver_of_writable hw, ← hfg.keeps.destination_eq]
      split
      · assumption
      · exact hw.free.at?_self
  | finished report => exact hreached

end Step

/-! The first run. -/

/-- Sources of which each is overwritten or as far as it would be alone, in a file system that
differs from the first by files with the header only. -/
structure Batch.Tended (s : Settings) (root : String) (f : FileSystem) (paths : List String)
    (b : Batch) : Prop where
  paths : b.jobs.map Job.path = paths
  marks : Marks s f b.files
  legal : ∀ j ∈ b.jobs, j.stage.Legal s j.path
  reached : ∀ j ∈ b.jobs, Overwritten s b.files j.path ∨ j.stage.Reached s root f b.files j.path

section Run

variable {s : Settings} {root : String} {f g : FileSystem} {paths : List String} {b : Batch}

theorem tended_start (hlist : Listed s f paths) :
    (Batch.start f paths).Tended s root f paths where
  paths := paths_start f paths
  marks := Marks.refl hlist.wellFormed
  legal j hj := by
    obtain ⟨path, -, rfl⟩ := List.mem_map.mp hj
    trivial
  reached j hj := by
    obtain ⟨path, -, rfl⟩ := List.mem_map.mp hj
    exact Or.inr trivial

/-- A finished source stays up to date, and a waiting one does not depend on the files. -/
theorem Stage.Reached.of_files {path : String} {stage : Stage}
    (h : stage.Reached s root f b.files path) (hdate : UpToDate s f b.files path →
      UpToDate s f g path) : stage.Reached s root f g path := by
  cases stage with
  | finished report => exact hdate h
  | waiting => exact h
  | read text => exact h
  | analyzed analysis => exact h
  | rendered a text => exact h

/-- A step keeps sources tended. -/
theorem Batch.Tended.turn (hlist : Listed s f paths) (hb : b.Tended s root f paths) (i : Nat) :
    (b.turn false s root i).Tended s root f paths := by
  rw [Batch.turn]
  cases hi : b.jobs[i]? with
  | none => exact hb
  | some j =>
      obtain ⟨before, after, hjobs, hset⟩ := exists_split hi
      have hpaths := hb.paths
      have hlegal := hb.legal
      have hreached := hb.reached
      have hdistinct : (b.jobs.map fun k => f.destination (s.outputPath k.path)).Nodup := by
        simpa [← hpaths, Function.comp_def] using hlist.distinct
      rw [hjobs] at hpaths hlegal hreached hdistinct
      rw [forall_mem_middle] at hlegal hreached
      rw [List.map_append, List.map_cons, List.nodup_middle, List.nodup_cons, ← List.map_append,
        List.mem_map] at hdistinct
      have hj : j.path ∈ paths := by simp [← hpaths]
      have hstep := marks_step root hlist hb.marks hj hlegal.1
      dsimp only
      rw [hset]
      refine ⟨by simpa [path_step] using hpaths, hb.marks.trans hstep, ?_, ?_⟩
      · rw [forall_mem_middle, path_step]
        exact ⟨legal_step root b.files hlist.header hlegal.1, hlegal.2⟩
      · rw [forall_mem_middle, path_step]
        constructor
        · by_cases hover : Overwritten s b.files j.path
          · exact Or.inl (hover.marks hstep)
          · exact Or.inr (reached_step hlist hb.marks hj hover (hreached.1.resolve_left hover))
        · -- The others keep what they have reached, since their companions stand elsewhere.
          intro k hk
          refine (hreached.2 k hk).imp (Overwritten.marks hstep) fun hk' => ?_
          refine hk'.of_files (upToDate_step hlist hb.marks hj hlegal.1 ?_)
          exact fun heq => hdistinct.1 ⟨k, hk, heq⟩

theorem Batch.Tended.run (hlist : Listed s f paths) (hb : b.Tended s root f paths)
    (order : List Nat) : (b.run false s root order).Tended s root f paths := by
  induction order generalizing b with
  | nil => exact hb
  | cons i order ih => exact ih (hb.turn hlist i)

/-- In the end every source is overwritten or its companion is up to date. -/
theorem upToDate_run (hlist : Listed s f paths) {order : List Nat}
    (horder : ∀ i < paths.length, 4 ≤ order.count i) :
    Marks s f ((Batch.start f paths).run false s root order).files ∧
      ∀ path ∈ paths, ¬Overwritten s ((Batch.start f paths).run false s root order).files path →
        UpToDate s f ((Batch.start f paths).run false s root order).files path := by
  have hb : ((Batch.start f paths).run false s root order).Tended s root f paths :=
    (tended_start hlist).run hlist order
  refine ⟨hb.marks, fun path hpath hover => ?_⟩
  obtain ⟨j, hj, rfl⟩ := List.mem_map.mp (hb.paths ▸ hpath)
  obtain ⟨report, hreport⟩ := finished_run hb.paths horder j hj
  have hreached := (hb.reached j hj).resolve_left hover
  rwa [hreport] at hreached

end Run

/-! The second run. -/

section Again

variable {s : Settings} {root path : String} {f : FileSystem} {paths : List String} {j : Job}

/-- A companion that is up to date is not written again. -/
theorem deliver_of_upToDate (root : String) (hlist : Listed s f paths) (hpath : path ∈ paths)
    (hdate : UpToDate s f f path) {a : AnalyzedFile} (ha : analyzeFile s f path = .ok a)
    (hempty : a.file.isEmpty = false) :
    (f.Writable (s.outputPath path) ∧
        deliver false s root f a.file (companionText s a.file) = (f, .unchanged)) ∨
      (¬f.Writable (s.outputPath path) ∧
        ∃ message, deliver false s root f a.file (companionText s a.file) =
          (f, .failed message)) := by
  obtain rfl := path_of_analyzeFile ha
  by_cases hw : f.Writable (s.outputPath a.file.path)
  · have hat := hdate _ (companion?_of_ok ha hempty) hw
    exact Or.inl ⟨hw, by rw [deliver_of_writable hw, if_pos hat]⟩
  · obtain ⟨text, htext, -⟩ := analyzeFile_eq_ok_iff.mp ha
    have hlong := notTooLong_of_readText htext
    obtain ⟨content, hnode⟩ := (hlist.readable _ hpath).resolve_left (by simp [hlong])
    have hmake := makeFoldersTo_outputPath (hlist.isSource _ hpath) hlist.plain hnode
    exact Or.inr ⟨hw, deliver_of_not_writable _ _ hmake hw⟩

theorem step_of_upToDate (root : String) (hlist : Listed s f paths) (hj : j.path ∈ paths)
    (hdate : UpToDate s f f j.path) (hfits : j.stage.Fits false s root f j.path) :
    ∃ stage, stage.Fits false s root f j.path ∧ j.step false s root f = (f, ⟨j.path, stage⟩) := by
  obtain ⟨path, stage⟩ := j
  cases stage with
  | waiting => exact ⟨.read (f.readText path), rfl, rfl⟩
  | read text =>
      obtain rfl : text = f.readText path := hfits
      exact ⟨.analyzed (analyzeFile s f path), rfl, by simp [Job.step, analyzeText_readText]⟩
  | analyzed analysis =>
      obtain rfl : analysis = analyzeFile s f path := hfits
      cases ha : analyzeFile s f path with
      | error message =>
          refine ⟨.finished ⟨displayPath f root path, .failed message, []⟩, ?_, rfl⟩
          simp [Stage.Fits, generateFile, finish, ha]
      | ok a =>
          cases hempty : a.file.isEmpty with
          | true =>
              refine ⟨.finished ⟨displayPath f root path, .noAnnotations, warningTexts a⟩, ?_, ?_⟩
              · simp [Stage.Fits, generateFile, finish, ha, emit_eq, hempty, warningTexts]
              · simp [Job.step, hempty]
          | false =>
              refine ⟨.rendered a (companionText s a.file), ⟨ha, hempty, rfl⟩, ?_⟩
              simp [Job.step, hempty]
  | rendered a text =>
      rw [step_rendered]
      obtain ⟨ha, hempty, rfl⟩ : analyzeFile s f path = .ok a ∧ a.file.isEmpty = false ∧
        text = companionText s a.file := hfits
      refine ⟨.finished (generateFile false s root f path).2, rfl, ?_⟩
      rw [report_of_rendered ha hempty]
      rcases deliver_of_upToDate root hlist hj hdate ha hempty with
        ⟨-, hdeliver⟩ | ⟨-, message, hdeliver⟩ <;> rw [hdeliver]
  | finished report => exact ⟨.finished report, hfits, rfl⟩

/-- The report on a source whose companion is up to date. -/
theorem status_of_upToDate (hlist : Listed s f paths) (hpath : path ∈ paths)
    (hdate : UpToDate s f f path) :
    (∀ output, (generateFile false s root f path).2.status ≠ .written output) ∧
      ∀ a, analyzeFile s f path = .ok a → a.file.isEmpty = false →
        f.Writable (s.outputPath path) →
          (generateFile false s root f path).2.status = .unchanged := by
  cases ha : analyzeFile s f path with
  | error message => simp [generateFile, finish, ha]
  | ok a =>
      cases hempty : a.file.isEmpty with
      | true =>
          refine ⟨by simp [generateFile, finish, ha, emit_eq, hempty], ?_⟩
          intro a' ha' hfull
          obtain rfl := Except.ok.inj ha'
          rw [hempty] at hfull
          cases hfull
      | false =>
          rw [report_of_rendered ha hempty]
          rcases deliver_of_upToDate root hlist hpath hdate ha hempty with
            ⟨-, hdeliver⟩ | ⟨hnot, message, hdeliver⟩
          · simp [hdeliver]
          · simp [hdeliver, hnot]

/-- Sources that are as far as they would be alone, in a file system that is as it was. -/
structure Batch.Idle (s : Settings) (root : String) (f : FileSystem) (paths : List String)
    (b : Batch) : Prop where
  paths : b.jobs.map Job.path = paths
  fits : ∀ j ∈ b.jobs, j.stage.Fits false s root f j.path
  files : b.files = f

theorem idle_start : (Batch.start f paths).Idle s root f paths where
  paths := paths_start f paths
  fits j hj := by
    obtain ⟨path, -, rfl⟩ := List.mem_map.mp hj
    trivial
  files := rfl

variable {b : Batch}

theorem Batch.Idle.turn (hlist : Listed s f paths) (hdate : ∀ path ∈ paths, UpToDate s f f path)
    (hb : b.Idle s root f paths) (i : Nat) : (b.turn false s root i).Idle s root f paths := by
  rw [Batch.turn]
  cases hi : b.jobs[i]? with
  | none => exact hb
  | some j =>
      have hmem := List.mem_of_getElem? hi
      have hj : j.path ∈ paths := hb.paths ▸ List.mem_map.mpr ⟨j, hmem, rfl⟩
      obtain ⟨stage, hstage, hstep⟩ :=
        step_of_upToDate root hlist hj (hdate _ hj) (hb.fits j hmem)
      obtain ⟨before, after, hjobs, hset⟩ := exists_split hi
      have hpaths := hb.paths
      rw [hjobs] at hpaths
      dsimp only
      rw [hb.files, hstep, hset]
      refine ⟨by simpa using hpaths, fun k hk => ?_, rfl⟩
      rw [← hset] at hk
      rcases List.mem_or_eq_of_mem_set hk with hk | rfl
      · exact hb.fits k hk
      · exact hstage

theorem Batch.Idle.run (hlist : Listed s f paths) (hdate : ∀ path ∈ paths, UpToDate s f f path)
    (hb : b.Idle s root f paths) (order : List Nat) :
    (b.run false s root order).Idle s root f paths := by
  induction order generalizing b with
  | nil => exact hb
  | cons i order ih => exact ih (hb.turn hlist hdate i)

end Again

/-- What a run comes to that has nothing to write. -/
structure Repeated (s : Settings) (root : String) (f : FileSystem) (paths : List String)
    (b : Batch) : Prop where
  files : b.files = f
  /-- Every source has the report that it would have alone. -/
  reports : b.reports = paths.map fun path => (generateFile false s root f path).2
  notWritten : ∀ report ∈ (b.report false).files, ∀ output, report.status ≠ .written output
  /-- A source with declarations is unchanged if its companion can be written at all. -/
  unchanged : ∀ path ∈ paths, ∀ a, analyzeFile s f path = .ok a → a.file.isEmpty = false →
    (∃ g, f.writeFile (s.outputPath path) (.text (companionText s a.file)) = .ok g) →
      (generateFile false s root f path).2.status = .unchanged

theorem repeated_of_upToDate {s : Settings} {root : String} {f : FileSystem} {paths : List String}
    {order : List Nat} (hlist : Listed s f paths) (hdate : ∀ path ∈ paths, UpToDate s f f path)
    (horder : ∀ i < paths.length, 4 ≤ order.count i) :
    Repeated s root f paths ((Batch.start f paths).run false s root order) := by
  have hb : ((Batch.start f paths).run false s root order).Idle s root f paths :=
    idle_start.run hlist hdate order
  have hreports := reports_run_of_fits hb.paths hb.fits horder
  refine ⟨hb.files, hreports, ?_, ?_⟩
  · intro report hreport
    rw [Batch.report, List.mem_mergeSort, hreports] at hreport
    obtain ⟨path, hpath, rfl⟩ := List.mem_map.mp hreport
    exact (status_of_upToDate hlist hpath (hdate path hpath)).1
  · intro path hpath a ha hempty hwrite
    apply (status_of_upToDate hlist hpath (hdate path hpath)).2 a ha hempty
    exact (FileSystem.writable_iff _).mpr hwrite

section Runs

variable {s : Settings} {root : String} {f : FileSystem} {found : List Found}

/-- The sources that are left after a run have companions that are up to date. -/
theorem sources_run {order : List Nat} (hf : f.root.WellFormed) (hheader : s.HeaderIsLine)
    (hplain : '/' ∉ s.outputSuffix.toList) (hfound : sources s f root = .ok found)
    (horder : ∀ i < found.length, 4 ≤ order.count i) :
    let g := ((Batch.start f (found.map Found.path)).run false s root order).files
    ∃ found', sources s g root = .ok found' ∧ Listed s g (found'.map Found.path) ∧
      ∀ path ∈ found'.map Found.path, UpToDate s g g path := by
  intro g
  have hlist := listed_of_sources hf hheader hplain hfound
  obtain ⟨hmarks, hdate⟩ : Marks s f g ∧ ∀ path ∈ found.map Found.path,
      ¬Overwritten s g path → UpToDate s f g path := upToDate_run hlist (by simpa using horder)
  obtain ⟨found', hfound', hleft⟩ := sources_of_marks hf hmarks hfound
  refine ⟨found', hfound', listed_of_sources hmarks.wellFormed hheader hplain hfound', ?_⟩
  intro path hpath pair hpair hwritable
  obtain ⟨c, hc, rfl⟩ := List.mem_map.mp hpath
  rcases hleft c hc with hlong | ⟨hmem, hover⟩
  · -- A source with a path that is too long cannot be read, and has no companion.
    rw [companion?] at hpair
    split at hpair
    · cases hpair
    · rename_i a ha
      obtain ⟨text, hread, -⟩ := analyzeFile_eq_ok_iff.mp ha
      rw [notTooLong_of_readText hread] at hlong
      cases hlong
  · have hbefore : c.path ∈ found.map Found.path := List.mem_map.mpr ⟨c, hmem, rfl⟩
    rw [companion?_congr (hmarks.readText_eq (hlist.readable _ hbefore) hover)] at hpair
    have hwritable' : f.Writable pair.1 := hwritable.of_sameFolders hmarks.toSameFolders.symm
    rw [hmarks.keeps.destination_eq]
    exact hdate c.path hbefore hover pair hpair hwritable'

theorem repeated_of_order {order : List Nat} (hf : f.root.WellFormed) (hheader : s.HeaderIsLine)
    (hplain : '/' ∉ s.outputSuffix.toList) (hfound : sources s f root = .ok found)
    (horder : ∀ i < found.length, 4 ≤ order.count i) :
    let g := ((Batch.start f (found.map Found.path)).run false s root order).files
    ∃ found', sources s g root = .ok found' ∧
      ∀ order', (∀ i < found'.length, 4 ≤ order'.count i) →
        Repeated s root g (found'.map Found.path)
          ((Batch.start g (found'.map Found.path)).run false s root order') := by
  intro g
  obtain ⟨found', hfound', hlist, hdate⟩ := sources_run hf hheader hplain hfound horder
  refine ⟨found', hfound', fun order' horder' => ?_⟩
  exact repeated_of_upToDate hlist hdate (by simpa using horder')

end Runs

/-- Generation once more writes nothing: whatever the orders of two runs, the second leaves every
file as it is, and a source with declarations has an unchanged companion. -/
theorem repeated_run {s : Settings} {root : String} {f : FileSystem} {found : List Found}
    (hf : f.root.WellFormed) (hheader : s.HeaderIsLine) (hplain : '/' ∉ s.outputSuffix.toList)
    (hfound : sources s f root = .ok found) :
    (∀ order, (∀ i < found.length, 4 ≤ order.count i) →
      let g := ((Batch.start f (found.map Found.path)).run false s root order).files
      ∃ found', sources s g root = .ok found' ∧
        ∀ order', (∀ i < found'.length, 4 ≤ order'.count i) →
          Repeated s root g (found'.map Found.path)
            ((Batch.start g (found'.map Found.path)).run false s root order')) ∧
    ∀ inTurn inTurn', ∃ g report found' b,
      generate false inTurn s f root = .ok (g, report) ∧
        generate false inTurn' s g root = .ok (g, b.report false) ∧
        sources s g root = .ok found' ∧ Repeated s root g (found'.map Found.path) b := by
  refine ⟨fun order horder => repeated_of_order hf hheader hplain hfound horder, ?_⟩
  intro inTurn inTurn'
  have hprogram : ∀ (inTurn : Bool) (found : List Found), ∀ i < found.length,
      4 ≤ (programOrder inTurn (found.map Found.path).length).count i := by
    intro inTurn found i hi
    exact four_le_count_programOrder inTurn (by simpa using hi)
  obtain ⟨found', hfound', hagain⟩ :=
    repeated_of_order hf hheader hplain hfound (hprogram inTurn found)
  have hrepeated := hagain _ (hprogram inTurn' found')
  refine ⟨_, _, found', _, generate_eq_run hfound, ?_, hfound', hrepeated⟩
  rw [generate_eq_run hfound']
  dsimp only
  rw [hrepeated.files]

/-- A companion is written once. -/
theorem repeated_run_mixedFiles :
    companion? .standard mixedFiles "./a.go" ≠ none ∧
      ∃ g report, ∃ found' : List Found, ∃ b,
        generate false true .standard mixedFiles "." = .ok (g, report) ∧
        generate false false .standard g "." = .ok (g, b.report false) ∧
        Repeated .standard "." g (found'.map Found.path) b := by
  have hread : mixedFiles.readText "./a.go" = .ok annotatedText := by decide +kernel
  obtain ⟨a, hanalyze, hempty⟩ := exists_analyzeFile_annotatedText hread
  refine ⟨by simp [companion?_of_ok hanalyze hempty], ?_⟩
  obtain ⟨g, report, found', b, hfirst, hsecond, -, hrepeated⟩ :=
    (repeated_run wellFormed_mixedFiles (by decide) (by decide) sources_mixedFiles).2 true false
  exact ⟨g, report, found', b, hfirst, hsecond, hrepeated⟩

end FieldRules.Workspace
