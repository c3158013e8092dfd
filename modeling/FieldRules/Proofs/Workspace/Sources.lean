/-
What a run does to its sources.  It writes to the places of companions only, so a source keeps
its content unless it stands at such a place.  A source can stand there: what is a source is
decided by how it begins, and where companions go by their names alone.
-/
import FieldRules.Proofs.Workspace.Order

namespace FieldRules.Workspace

open FileSystem (Grows Keeps isPathTooLong)

/-- The place of the companion of a source. -/
def IsOutput (s : Settings) (f : FileSystem) (paths : List String) (place : List String) : Prop :=
  ∃ path ∈ paths, place = f.destination (s.outputPath path)

/-- A stage whose analysis is that of the file at a path. -/
def Stage.FiledUnder (path : String) : Stage → Prop
  | analyzed (.ok a) => a.file.path = path
  | rendered a _ => a.file.path = path
  | _ => True

section Step

variable (dryRun : Bool) {s : Settings} (root : String) (f : FileSystem) {j : Job}

/-- A step keeps the path of an analysis. -/
theorem filedUnder_step (h : j.stage.FiledUnder j.path) :
    (j.step dryRun s root f).2.stage.FiledUnder j.path := by
  obtain ⟨path, stage⟩ := j
  cases stage with
  | waiting => trivial
  | read text =>
      cases hanalyze : analyzeText s path text with
      | error message => simp [Job.step, hanalyze, Stage.FiledUnder]
      | ok a => simpa [Job.step, hanalyze, Stage.FiledUnder] using path_of_analyzeText hanalyze
  | analyzed analysis =>
      cases analysis with
      | error message => trivial
      | ok a =>
          cases hempty : a.file.isEmpty with
          | true => simp [Job.step, hempty, Stage.FiledUnder]
          | false => simpa [Job.step, hempty, Stage.FiledUnder] using h
  | rendered a text => trivial
  | finished report => trivial

/-- A step writes to the place of the companion only. -/
theorem grows_step (h : j.stage.FiledUnder j.path) :
    Grows f (j.step dryRun s root f).1 (· = f.destination (s.outputPath j.path)) := by
  rcases files_step_eq_or f j with hsame | ⟨a, text, hstage, hdeliver⟩
  · rw [hsame]
    exact Grows.refl f _
  · rw [hstage] at h
    have hpath : a.file.path = j.path := h
    have hgrows : Grows f (deliver dryRun s root f a.file text).1
        (· = f.destination (s.outputPath a.file.path)) := grows_deliver a.file text
    rwa [hdeliver, ← hpath]

end Step

section Run

variable {dryRun : Bool} {s : Settings} {root : String} {f : FileSystem} {paths : List String}
  {b : Batch}

/-- Sources that have changed no other places than those of their companions. -/
structure Batch.Sparing (s : Settings) (f : FileSystem) (paths : List String) (b : Batch) :
    Prop where
  filed : ∀ j ∈ b.jobs, j.path ∈ paths ∧ j.stage.FiledUnder j.path
  grows : Grows f b.files (IsOutput s f paths)

theorem sparing_start : (Batch.start f paths).Sparing s f paths where
  filed j hj := by
    obtain ⟨path, hpath, rfl⟩ := List.mem_map.mp hj
    exact ⟨hpath, trivial⟩
  grows := Grows.refl f _

theorem Batch.Sparing.turn (h : b.Sparing s f paths) (i : Nat) :
    (b.turn dryRun s root i).Sparing s f paths := by
  rw [Batch.turn]
  cases hi : b.jobs[i]? with
  | none => exact h
  | some j =>
      obtain ⟨hpath, hfiled⟩ := h.filed j (List.mem_of_getElem? hi)
      have hfiled' : (j.step dryRun s root b.files).2.stage.FiledUnder j.path :=
        filedUnder_step dryRun root b.files hfiled
      constructor
      · intro j' hj'
        rcases List.mem_or_eq_of_mem_set hj' with hmem | rfl
        · exact h.filed j' hmem
        · rw [path_step]
          exact ⟨hpath, hfiled'⟩
      · refine h.grows.trans ((grows_step dryRun root b.files hfiled).weaken ?_)
        intro place hplace
        exact ⟨j.path, hpath, hplace.trans (h.grows.toKeeps.destination_eq _)⟩

/-- A run changes no other places than those of companions, whatever its order. -/
theorem Batch.Sparing.run (h : b.Sparing s f paths) (order : List Nat) :
    (b.run dryRun s root order).Sparing s f paths := by
  induction order generalizing b with
  | nil => exact h
  | cons i order ih => exact ih (h.turn i)

end Run

/-- A source that is not at the place of a companion keeps its content, in every run over the
sources and so in every run of the program. -/
theorem node_run_of_not_output {dryRun : Bool} {s : Settings} {root : String} {f : FileSystem}
    {found : List Found} {c : Found} (hf : f.root.WellFormed)
    (hfound : sources s f root = .ok found) (hc : c ∈ found)
    (hplace : ∀ d ∈ found, f.destination c.path ≠ f.destination (s.outputPath d.path)) :
    (∀ order, ((Batch.start f (found.map Found.path)).run dryRun s root order).files.node c.path =
      f.node c.path) ∧
    ∀ inTurn, ∃ g report, generate dryRun inTurn s f root = .ok (g, report) ∧
      g.node c.path = f.node c.path := by
  have hkept : ∀ order,
      ((Batch.start f (found.map Found.path)).run dryRun s root order).files.node c.path =
        f.node c.path := by
    intro order
    have hsparing : ((Batch.start f (found.map Found.path)).run dryRun s root order).Sparing s f
        (found.map Found.path) := sparing_start.run order
    rcases (discovered_of_sources hf hfound).node c hc with hlong | hnode
    · exact FileSystem.node_of_isPathTooLong _ _ hlong
    · rw [hnode]
      refine hsparing.grows.node hnode ?_
      rintro ⟨path, hpath, hsame⟩
      obtain ⟨d, hd, rfl⟩ := List.mem_map.mp hpath
      exact hplace d hd hsame
  exact ⟨hkept, fun inTurn => ⟨_, _, generate_eq_run hfound, hkept _⟩⟩

/-- A source without declarations is kept beside one that has a companion. -/
theorem node_run_mixedFiles :
    ∃ g report, generate false true .standard mixedFiles "." = .ok (g, report) ∧
      g.node "./b.go" = mixedFiles.node "./b.go" := by
  have hmem : (⟨"./b.go", .text "package v1\n"⟩ : Found) ∈
      [(⟨"./a.go", .text annotatedText⟩ : Found), ⟨"./b.go", .text "package v1\n"⟩] := by decide
  exact (node_run_of_not_output wellFormed_mixedFiles sources_mixedFiles hmem (by decide +kernel)).2 true

section Single

variable {dryRun : Bool} {s : Settings} {root path : String} {f : FileSystem}

/-- Processing one source changes no other place than that of its companion. -/
theorem grows_generateFile :
    Grows f (generateFile dryRun s root f path).1 (· = f.destination (s.outputPath path)) := by
  cases ha : analyzeFile s f path with
  | error message => simpa [generateFile, finish, ha] using Grows.refl f _
  | ok a =>
      have hdeliver : Grows f (deliver dryRun s root f a.file (companionText s a.file)).1
          (· = f.destination (s.outputPath a.file.path)) := grows_deliver a.file _
      rw [path_of_analyzeFile ha] at hdeliver
      cases hempty : a.file.isEmpty with
      | true => simpa [generateFile, finish, ha, emit_eq, hempty] using Grows.refl f _
      | false => simpa [generateFile, finish, ha, emit_eq, hempty] using hdeliver

theorem files_generateFile {output text : String}
    (h : companion? s f path = some (output, text)) :
    (generateFile false s root f path).1 = (update f output text).1 := by
  cases ha : analyzeFile s f path with
  | error message => simp [companion?, ha] at h
  | ok a =>
      cases hempty : a.file.isEmpty with
      | true => simp [companion?, ha, hempty] at h
      | false =>
          obtain ⟨rfl, rfl⟩ : s.outputPath a.file.path = output ∧ companionText s a.file = text := by
            simpa [companion?_of_ok ha hempty] using h
          simp only [generateFile, finish, ha, emit_eq, hempty, deliver, Bool.false_eq_true,
            ↓reduceIte]
          split <;> rename_i hupdate <;> rw [hupdate]

/-- Whatever stood at the place of a companion, the companion stands there afterwards. -/
theorem node_generateFile {output text : String}
    (h : companion? s f path = some (output, text)) (hw : f.Writable output) :
    (generateFile false s root f path).1.node output = .ok (.file (.text text)) := by
  rw [files_generateFile h, update_of_writable hw]
  split
  · rename_i hat
    rw [hw.node_eq, hat]
  · have hk := (hw.free.grows (.text text)).toKeeps
    have hat : (f.withFile (f.destination output) (.text text)).root.at?
        (f.destination output) = some (.file (.text text)) := hw.free.at?_self
    exact hw.node_of_keeps hk hat

end Single

/-- A file written by hand, without the header of companions. -/
def handWrittenText : String := "package v1\n\nfunc Double(n int) int { return n + n }\n"

/-- A file written by hand that is named like the companion of another source. -/
def handWrittenFiles : FileSystem where
  root :=
    .file "a.go" (.text annotatedText) (.file "a_validate.go" (.text handWrittenText) .empty)
  here := []

theorem sources_handWrittenFiles :
    sources .standard handWrittenFiles "." =
      .ok [⟨"./a.go", .text annotatedText⟩, ⟨"./a_validate.go", .text handWrittenText⟩] := by
  decide +kernel

/-- That file is a source, and its content is lost. -/
theorem node_generate_handWrittenFiles :
    sources .standard handWrittenFiles "." =
        .ok [⟨"./a.go", .text annotatedText⟩, ⟨"./a_validate.go", .text handWrittenText⟩] ∧
      handWrittenFiles.node "./a_validate.go" = .ok (.file (.text handWrittenText)) ∧
      ∃ g report, generate false true .standard handWrittenFiles "." = .ok (g, report) ∧
        g.node "./a_validate.go" ≠ .ok (.file (.text handWrittenText)) := by
  have hread : handWrittenFiles.readText "./a.go" = .ok annotatedText := by decide +kernel
  have hnode : handWrittenFiles.node "./a_validate.go" = .ok (.file (.text handWrittenText)) := by
    decide +kernel
  have houtput : Settings.standard.outputPath "./a.go" = "./a_validate.go" := by decide +kernel
  have hplace : handWrittenFiles.destination "./a_validate.go" ≠
      handWrittenFiles.destination (Settings.standard.outputPath "./a_validate.go") := by
    decide +kernel
  obtain ⟨a, hanalyze, hempty⟩ := exists_analyzeFile_annotatedText hread
  have hpair := companion?_of_ok hanalyze hempty
  rw [path_of_analyzeFile hanalyze, houtput] at hpair
  have htext : companionText .standard a.file ≠ handWrittenText := by
    obtain ⟨rest, hrest⟩ := companionText_eq .standard a.file
    intro heq
    have hhead := congrArg (fun text => text.toList.head?) (hrest.symm.trans heq)
    simp [Settings.standard, handWrittenText] at hhead
  obtain ⟨first, hfirst⟩ :
      ∃ g, (generateFile false .standard "." handWrittenFiles "./a.go").1 = g := ⟨_, rfl⟩
  obtain ⟨second, hsecond⟩ :
      ∃ g, (generateFile false .standard "." first "./a_validate.go").1 = g := ⟨_, rfl⟩
  have hgenerate : ∃ report,
      generate false true .standard handWrittenFiles "." = .ok (second, report) := by
    simp only [generate, sources_handWrittenFiles, ok_bind, List.map_cons, List.map_nil, ↓reduceIte,
      generateInTurn, hfirst, hsecond]
    exact ⟨_, rfl⟩
  -- The companion replaces the file, and nothing replaces the companion.
  have hwritten : first.node "./a_validate.go" =
      .ok (.file (.text (companionText .standard a.file))) :=
    hfirst ▸ node_generateFile hpair (FileSystem.writable_of_node hnode)
  have hkept : second.node "./a_validate.go" =
      .ok (.file (.text (companionText .standard a.file))) := by
    have hkeeps : Keeps handWrittenFiles first := hfirst ▸ grows_generateFile.toKeeps
    have hgrows : Grows first second
        (· = first.destination (Settings.standard.outputPath "./a_validate.go")) :=
      hsecond ▸ grows_generateFile
    exact hgrows.node hwritten (by rwa [hkeeps.destination_eq, hkeeps.destination_eq])
  obtain ⟨report, hgenerate⟩ := hgenerate
  refine ⟨sources_handWrittenFiles, hnode, second, report, hgenerate, ?_⟩
  rw [hkept]
  simpa using htext

end FieldRules.Workspace
