/-
Which sources a root has, and in which order.  The walk finds every one of them once, in the order of
the paths, and since reports show paths without what they have in common, sorting the reports by
their paths leaves them as they come.
-/
import FieldRules.Proofs.Workspace.Batch
import FieldRules.Proofs.Workspace.Walk
import FieldRules.Workspace.Check

namespace FieldRules

open FileSystem (Keeps isPathTooLong)
open Forest (walkPath)

/-- What stands at a place below a node, or at the node itself. -/
def Node.at? : Node → List String → Option Node
  | folder inside, place => inside.at? place
  | file content, [] => some (.file content)
  | file _, _ :: _ => none

/-- A directory that is entered is neither hidden nor listed. -/
def Settings.Enters (s : Settings) (name : String) : Prop :=
  name.toList.head? ≠ some '.' ∧ name ∉ s.skipDirs

/-- A file that counts as a source of a root: it has the extension and, as far as it can be read,
not the header, and all directories between the root and the file are entered.  The root itself
need not be one that is. -/
structure SourceAt (s : Settings) (n : Node) (root : String) (place : List String) (c : Found) :
    Prop where
  file : n.at? place = some (.file c.content)
  path : c.path = walkPath root place
  extension : Path.extension? c.path = some s.extension
  entered : ∀ name ∈ place.dropLast, s.Enters name
  unmarked : ∀ text, c.text? = some text → s.hasHeader text = false

/-- Every directory that is entered has a path that the system takes. -/
def Passable (s : Settings) (n : Node) (root : String) : Prop :=
  ∀ place inside, place ≠ [] → n.at? place = some (.folder inside) →
    (∀ name ∈ place, s.Enters name) → isPathTooLong (walkPath root place) = false

namespace Settings

variable {s : Settings} {name : String} {c : Found}

theorem skips_eq_false_iff : s.skips name = false ↔ s.Enters name := by
  simp [skips, Enters]

theorem marksGenerated_eq_false_iff :
    s.marksGenerated c = false ↔ ∀ text, c.text? = some text → s.hasHeader text = false := by
  rw [marksGenerated]
  cases c.text? <;> simp

theorem isSource_iff {path : String} :
    s.isSource path = true ↔ Path.extension? path = some s.extension := by
  simp [isSource]

end Settings

namespace SourceAt

variable {s : Settings} {inside : Forest} {content : Content} {root : String}
  {place : List String} {c : Found}

theorem path_of_file (h : SourceAt s (.file content) root place c) : c.path = root := by
  have hfile := h.file
  cases place with
  | nil => exact h.path
  | cons name names => cases hfile

theorem parts_path (h : SourceAt s (.folder inside) root place c) (hinside : inside.WellFormed)
    (hroot : root ≠ "") : Path.parts c.path = Path.parts root ++ place.map .name := by
  rw [h.path]
  exact Forest.parts_walkPath hroot fun name hname =>
    (hinside.entryName_of_at? h.file name hname).isName

end SourceAt

namespace Workspace

/-! What is found at a root. -/

section Candidates

variable {s : Settings} {f : FileSystem} {root : String} {n : Node} {found all : List Found}
  {c d : Found}

/-- A root has candidates if it is there and all directories can be entered. -/
theorem exists_candidates_iff (hf : f.root.WellFormed) :
    (∃ all, candidates s f root = .ok all) ↔ ∃ n, f.node root = .ok n ∧ Passable s n root := by
  cases hnode : f.node root with
  | error e => simp [candidates, hnode]
  | ok n =>
      cases n with
      | file content =>
          have hpassable : Passable s (.file content) root := by
            intro place inside hplace hat
            cases place with
            | nil => exact absurd rfl hplace
            | cons name names => cases hat
          simp [candidates, hnode, hpassable]
      | folder inside =>
          have hinside := hf.of_at? (FileSystem.at?_destination_of_node hnode)
          have hpassable : inside.barred? s root = none ↔ Passable s (.folder inside) root := by
            rw [Forest.barred?_eq_none_iff hinside]
            simp only [Settings.skips_eq_false_iff]
            rfl
          simp only [candidates, hnode, Except.ok.injEq, exists_eq_left', ← hpassable]
          cases inside.barred? s root <;> simp

/-- The candidates, given what the root is. -/
theorem mem_candidates (hf : f.root.WellFormed) (hnode : f.node root = .ok n)
    (hall : candidates s f root = .ok all) :
    c ∈ all ↔ ∃ place, n.at? place = some (.file c.content) ∧ c.path = walkPath root place ∧
      Path.extension? c.path = some s.extension ∧ ∀ name ∈ place.dropLast, s.Enters name := by
  rw [candidates, hnode] at hall
  cases n with
  | file content =>
      obtain rfl := Except.ok.inj hall
      constructor
      · intro hc
        obtain ⟨hsource, rfl⟩ : s.isSource root = true ∧ c = ⟨root, content⟩ := by simpa using hc
        exact ⟨[], rfl, rfl, Settings.isSource_iff.mp hsource, by simp⟩
      · rintro ⟨place, hat, hpath, hextension, -⟩
        cases place with
        | cons name names => cases hat
        | nil =>
            obtain ⟨path, content'⟩ := c
            obtain rfl : path = root := hpath
            obtain rfl : content = content' := by simpa [Node.at?] using hat
            simp [Settings.isSource_iff.mpr hextension]
  | folder inside =>
      have hinside := hf.of_at? (FileSystem.at?_destination_of_node hnode)
      dsimp only at hall
      split at hall
      · cases hall
      · obtain rfl := Except.ok.inj hall
        rw [Forest.mem_candidates_iff hinside]
        simp only [Settings.skips_eq_false_iff, Settings.isSource_iff, Node.at?]
        constructor
        · rintro ⟨place, hat, hentered, hpath, hextension⟩
          exact ⟨place, hat, hpath, hextension, hentered⟩
        · rintro ⟨place, hat, hpath, hextension, hentered⟩
          exact ⟨place, hat, hentered, hpath, hextension⟩

/-- The sources of a root are the files that count as one. -/
theorem mem_sources (hf : f.root.WellFormed) (hnode : f.node root = .ok n)
    (hfound : sources s f root = .ok found) :
    c ∈ found ↔ ∃ place, SourceAt s n root place c := by
  obtain ⟨all, hall, rfl⟩ := sources_eq_ok_iff.mp hfound
  rw [List.mem_filter, mem_candidates hf hnode hall, Bool.not_eq_true',
    Settings.marksGenerated_eq_false_iff]
  constructor
  · rintro ⟨⟨place, hat, hpath, hextension, hentered⟩, hunmarked⟩
    exact ⟨place, hat, hpath, hextension, hentered, hunmarked⟩
  · rintro ⟨place, h⟩
    exact ⟨⟨place, h.file, h.path, h.extension, h.entered⟩, h.unmarked⟩

theorem pairwise_sources (hf : f.root.WellFormed) (hfound : sources s f root = .ok found) :
    found.Pairwise fun c d => Path.Before c.path d.path := by
  obtain ⟨all, hall, rfl⟩ := sources_eq_ok_iff.mp hfound
  apply List.Pairwise.filter
  rw [candidates] at hall
  split at hall
  · obtain rfl := Except.ok.inj hall
    split <;> simp
  · rename_i inside hnode
    split at hall
    · cases hall
    · obtain rfl := Except.ok.inj hall
      exact Forest.pairwise_candidates (hf.of_at? (FileSystem.at?_destination_of_node hnode))
        (FileSystem.ne_empty_of_node hnode)
  · cases hall

end Candidates

/-! Sources as reports show them. -/

section Shown

variable {s : Settings} {f : FileSystem} {root path : String} {inside : Forest}
  {found : List Found}

/-- Below a directory, reports show what comes after it in a path. -/
theorem parts_displayPath (hroot : f.node root = .ok (.folder inside)) {rest : List PathPart}
    (h : Path.parts path = Path.parts root ++ rest) :
    Path.parts (displayPath f root path) = rest := by
  have hbase := Path.parts_ne_nil (FileSystem.ne_empty_of_node hroot)
  obtain ⟨shown, hshown, hparts⟩ := Path.exists_relativeTo? hbase h
  have hfile : f.isFile root = false := by rw [FileSystem.isFile, hroot]
  rw [displayPath, hfile, if_neg Bool.false_ne_true, hshown]
  exact hparts

/-- Different sources are below a directory, and reports show them in the same order. -/
theorem pairwise_displayPath (hf : f.root.WellFormed) (hfound : sources s f root = .ok found) :
    found.Pairwise fun c d => (∃ inside, f.node root = .ok (.folder inside)) ∧
      Path.le (displayPath f root c.path) (displayPath f root d.path) = true := by
  obtain ⟨all, hall, -⟩ := sources_eq_ok_iff.mp hfound
  obtain ⟨n, hnode, -⟩ := (exists_candidates_iff hf).mp ⟨all, hall⟩
  refine (pairwise_sources hf hfound).imp_of_mem fun {c d} hc hd hbefore => ?_
  obtain ⟨place, hplace⟩ := (mem_sources hf hnode hfound).mp hc
  obtain ⟨place', hplace'⟩ := (mem_sources hf hnode hfound).mp hd
  cases n with
  | file content =>
      have hsame : c.path = d.path := hplace.path_of_file.trans hplace'.path_of_file.symm
      exact absurd (congrArg Path.parts hsame) hbefore.parts_ne
  | folder inside =>
      have hinside := hf.of_at? (FileSystem.at?_destination_of_node hnode)
      have hroot := FileSystem.ne_empty_of_node hnode
      have hparts := hplace.parts_path hinside hroot
      have hparts' := hplace'.parts_path hinside hroot
      rw [← parts_displayPath hnode hparts] at hparts
      rw [← parts_displayPath hnode hparts'] at hparts'
      exact ⟨⟨inside, hnode⟩, Path.le_of_parts_append hbefore.1 hparts hparts'⟩

end Shown

/-! Reports. -/

/-- A batch below a directory: that is still there, and reports show sources as they are seen from
it. -/
structure Batch.Shown (f : FileSystem) (root : String) (b : Batch) : Prop where
  keeps : Keeps f b.files
  shown : ∀ j ∈ b.jobs, ∀ report, j.report? = some report → report.path = displayPath f root j.path

section Reports

variable {dryRun : Bool} {s : Settings} {f : FileSystem} {root : String} {inside : Forest}
  {paths : List String} {found : List Found} {b : Batch}

theorem keeps_step (g : FileSystem) (j : Job) : Keeps g (j.step dryRun s root g).1 := by
  rcases files_step_eq_or g j with hsame | ⟨a, text, -, hdeliver⟩
  · rw [hsame]
    exact Keeps.refl g
  · rw [hdeliver]
    exact (grows_deliver a.file text).toKeeps

/-- A report is there before a step, or it shows the path of its source. -/
theorem report?_step {g : FileSystem} {j : Job} {report : FileReport}
    (h : (j.step dryRun s root g).2.report? = some report) :
    j.report? = some report ∨ report.path = displayPath g root j.path := by
  obtain ⟨path, stage⟩ := j
  cases stage with
  | waiting => cases h
  | read text => cases h
  | analyzed analysis =>
      cases analysis with
      | error message =>
          obtain rfl := Option.some.inj h
          right
          dsimp only
      | ok a =>
          cases hempty : a.file.isEmpty with
          | true =>
              simp only [Job.step, hempty, ↓reduceIte, Job.report?, Option.some.injEq] at h
              right
              simp only [← h]
          | false => simp [Job.step, hempty, Job.report?] at h
  | rendered a text =>
      obtain rfl := Option.some.inj h
      right
      dsimp only
  | finished report' => exact Or.inl h

theorem Batch.Shown.turn (hroot : f.node root = .ok (.folder inside)) (hb : b.Shown f root)
    (i : Nat) : (b.turn dryRun s root i).Shown f root := by
  rw [Batch.turn]
  cases hi : b.jobs[i]? with
  | none => exact hb
  | some j =>
      refine ⟨hb.keeps.trans (keeps_step b.files j), fun j' hj' report hreport => ?_⟩
      rcases List.mem_or_eq_of_mem_set hj' with hmem | rfl
      · exact hb.shown j' hmem report hreport
      · rw [path_step]
        rcases report?_step hreport with hbefore | hshown
        · exact hb.shown j (List.mem_of_getElem? hi) report hbefore
        · rw [hshown, displayPath_of_keeps hb.keeps hroot]

theorem shown_start (f : FileSystem) (root : String) (paths : List String) :
    (Batch.start f paths).Shown f root where
  keeps := Keeps.refl f
  shown j hj report hreport := by
    obtain ⟨path, -, rfl⟩ := List.mem_map.mp hj
    cases hreport

theorem Batch.Shown.run (hroot : f.node root = .ok (.folder inside)) (hb : b.Shown f root)
    (order : List Nat) : (b.run dryRun s root order).Shown f root := by
  induction order generalizing b with
  | nil => exact hb
  | cons i order ih => exact ih (hb.turn hroot i)

/-- Reports that show the paths of the sources are in their order. -/
theorem Batch.report_eq (hf : f.root.WellFormed) (hfound : sources s f root = .ok found)
    (hpaths : b.jobs.map Job.path = found.map Found.path)
    (hshown : ∀ inside, f.node root = .ok (.folder inside) → b.Shown f root) :
    b.report dryRun = ⟨dryRun, b.reports⟩ := by
  have hjobs : (b.jobs.map Job.path).Pairwise fun p q =>
      (∃ inside, f.node root = .ok (.folder inside)) ∧
        Path.le (displayPath f root p) (displayPath f root q) = true := by
    rw [hpaths, List.pairwise_map]
    exact pairwise_displayPath hf hfound
  rw [List.pairwise_map] at hjobs
  rw [report, List.mergeSort_of_pairwise]
  rw [reports, List.pairwise_filterMap]
  refine hjobs.imp_of_mem fun {i j} hi hj hij report hreport report' hreport' => ?_
  obtain ⟨⟨inside, hroot⟩, hle⟩ := hij
  have hb := hshown inside hroot
  rw [hb.shown i hi report hreport, hb.shown j hj report' hreport']
  exact hle

/-- Whatever the order of its steps, a run over the sources has its reports in the order of the
paths that they show. -/
theorem report_run (hf : f.root.WellFormed) (hfound : sources s f root = .ok found)
    (order : List Nat) :
    let b := (Batch.start f (found.map Found.path)).run dryRun s root order
    b.report dryRun = ⟨dryRun, b.reports⟩ := by
  refine Batch.report_eq hf hfound ?_ fun inside hroot => ?_
  · rw [paths_run, paths_start]
  · exact (shown_start f root _).run hroot order

theorem check_eq (hf : f.root.WellFormed) (hfound : sources s f root = .ok found) :
    check s f root = .ok ⟨found.map fun c => checkFile s f root c.path⟩ := by
  rw [check, hfound, ok_bind]
  dsimp only
  rw [List.mergeSort_of_pairwise]
  · rfl
  · simp only [List.pairwise_map, checkFile]
    exact (pairwise_displayPath hf hfound).imp fun h => h.2

end Reports

/-- What is known of the sources that are found at a root. -/
structure Survey (s : Settings) (f : FileSystem) (root : String) (n : Node) (found : List Found) :
    Prop where
  /-- They are all files that count as a source of the root. -/
  mem : ∀ c, c ∈ found ↔ ∃ place, SourceAt s n root place c
  /-- They are in the order of their paths, and none is found twice. -/
  sorted : found.Pairwise fun c d => Path.Before c.path d.path
  /-- A check has its results in the order of the sources. -/
  checked : check s f root = .ok ⟨found.map fun c => checkFile s f root c.path⟩
  /-- A generation has its reports in the order in which the sources are processed. -/
  generated : ∀ dryRun inTurn,
    let run := if inTurn then generateInTurn dryRun s root f (found.map Found.path)
      else generateTogether dryRun s root f (found.map Found.path)
    generate dryRun inTurn s f root = .ok (run.1, ⟨dryRun, run.2⟩)
  /-- So has one whose steps are mixed in any other way. -/
  reported : ∀ dryRun order,
    let b := (Batch.start f (found.map Found.path)).run dryRun s root order
    b.report dryRun = ⟨dryRun, b.reports⟩

/-- Sources are found if the root is there and no directory on the way is barred.  They are found
in their order, exactly and once each, and sorting the reports by their paths changes nothing. -/
theorem survey_sources {s : Settings} {f : FileSystem} {root : String} (hf : f.root.WellFormed) :
    ((∃ found, sources s f root = .ok found) ↔ ∃ n, f.node root = .ok n ∧ Passable s n root) ∧
      ∀ found n, sources s f root = .ok found → f.node root = .ok n →
        Survey s f root n found := by
  constructor
  · rw [← exists_candidates_iff hf]
    constructor
    · rintro ⟨found, hfound⟩
      obtain ⟨all, hall, -⟩ := sources_eq_ok_iff.mp hfound
      exact ⟨all, hall⟩
    · rintro ⟨all, hall⟩
      exact ⟨_, sources_eq_ok_iff.mpr ⟨all, hall, rfl⟩⟩
  · intro found n hfound hnode
    refine ⟨fun c => mem_sources hf hnode hfound, pairwise_sources hf hfound, check_eq hf hfound,
      fun dryRun inTurn => ?_, fun dryRun order => report_run hf hfound order⟩
    rw [generate_eq_run hfound, ← run_programOrder]
    dsimp only
    rw [report_run hf hfound]

/-- A root with a name that is skipped below it.  Its directories and files have names in common or
begin with the same letters, and one of its files has the header. -/
def dependencyFiles : Forest :=
  .folder ".git" (.file "x.go" (.text "package x\n") .empty) <|
  .file ".h.go" (.text "package v1\n") <|
  .folder "a" (.file "b.go" (.text "package a\n") .empty) <|
  .file "a.go" (.text "package v1\n") <|
  .folder "testdata" (.file "t.go" (.text "package t\n") .empty) <|
  .file "z.go" (.text "// Code generated by valgen. DO NOT EDIT.\n\npackage v1\n") .empty

def vendored : FileSystem where
  root := .folder "vendor" dependencyFiles .empty
  here := []

theorem wellFormed_vendored : vendored.root.WellFormed := by
  decide

theorem survey_sources_vendored :
    Survey .standard vendored "vendor" (.folder dependencyFiles)
      [⟨"vendor/.h.go", .text "package v1\n"⟩, ⟨"vendor/a/b.go", .text "package a\n"⟩,
        ⟨"vendor/a.go", .text "package v1\n"⟩] :=
  (survey_sources wellFormed_vendored).2 _ _ (by decide +kernel) (by decide +kernel)

end Workspace

end FieldRules
