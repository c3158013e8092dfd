/-
Generation in any order.  When no source is the companion of another, the steps of different
sources do not meet: what is read was never written, and every companion is written once.  So a
run ends with the same files and the same reports whichever order its steps have.
-/
import FieldRules.Proofs.Analysis.Paths
import FieldRules.Proofs.Workspace.Batch
import FieldRules.Proofs.Workspace.Discovery
import Mathlib

namespace FieldRules.Workspace

open FileSystem (Keeps Free isPathTooLong)

section

variable (s : Settings) (f : FileSystem)

/-- The companion of a source and its text; none if the source cannot be analyzed or has no
annotated declarations. -/
def companion? (path : String) : Option (String × String) :=
  match analyzeFile s f path with
  | .error _ => none
  | .ok a => if a.file.isEmpty then none else some (s.outputPath path, companionText s a.file)

/-- The companions of some sources. -/
def companionsOf (paths : List String) : List (String × String) := paths.filterMap (companion? s f)

/-- A file system with the texts of some companions. -/
def overlaid (pairs : List (String × String)) : FileSystem :=
  f.withFiles (pairs.map fun pair => (f.destination pair.1, .text pair.2))

/-- Sources whose companions can be written, are different files, and are no sources. -/
structure Separate (root : String) (paths : List String) : Prop where
  sorted : f.root.Sorted
  readable : ∀ path ∈ paths,
    isPathTooLong path = true ∨ ∃ content, f.node path = .ok (.file content)
  root : ∀ path ∈ paths, path = root ∨ ∃ inside, f.node root = .ok (.folder inside)
  writable : ∀ pair ∈ companionsOf s f paths, f.Writable pair.1
  distinct : ((companionsOf s f paths).map fun pair => f.destination pair.1).Nodup
  apart : ∀ pair ∈ companionsOf s f paths, ∀ path ∈ paths,
    f.destination path ≠ f.destination pair.1

end

section Companion

variable {s : Settings} {f : FileSystem} {path : String}

theorem companion?_of_ok {a : AnalyzedFile} (h : analyzeFile s f path = .ok a)
    (hempty : a.file.isEmpty = false) :
    companion? s f path = some (s.outputPath a.file.path, companionText s a.file) := by
  simp [companion?, h, hempty, path_of_analyzeFile h]

theorem eq_outputPath_of_companion? {pair : String × String}
    (h : companion? s f path = some pair) : pair.1 = s.outputPath path := by
  rw [companion?] at h
  split at h
  · cases h
  · split at h
    · cases h
    · rw [← Option.some.inj h]

end Companion

/-! Some companions written. -/

namespace Separate

variable {s : Settings} {f : FileSystem} {root : String} {paths : List String}
  {written before after : List (String × String)} {pair : String × String}

theorem free (h : Separate s f root paths) (hw : written.Sublist (companionsOf s f paths)) :
    ∀ file ∈ written.map fun pair => (f.destination pair.1, Content.text pair.2),
      Free f file.1 := by
  intro file hfile
  obtain ⟨pair, hpair, rfl⟩ := List.mem_map.mp hfile
  exact (h.writable pair (hw.subset hpair)).free

theorem keeps (h : Separate s f root paths) (hw : written.Sublist (companionsOf s f paths)) :
    Keeps f (overlaid f written) :=
  FileSystem.keeps_withFiles (h.free hw)

/-- A place of no written companion is as it was. -/
theorem entryAt_overlaid (h : Separate s f root paths)
    (hw : written.Sublist (companionsOf s f paths)) {place : List String}
    (hne : ∀ pair ∈ written, place ≠ f.destination pair.1) :
    (overlaid f written).root.entryAt place = f.root.entryAt place := by
  refine FileSystem.entryAt_withFiles_of_ne (h.free hw) fun file hfile => ?_
  obtain ⟨pair, hpair, rfl⟩ := List.mem_map.mp hfile
  exact hne pair hpair

theorem nodup (h : Separate s f root paths) (hw : written.Sublist (companionsOf s f paths)) :
    ((written.map fun pair => (f.destination pair.1, Content.text pair.2)).map
      Prod.fst).Nodup := by
  rw [List.map_map]
  exact h.distinct.sublist (hw.map _)

/-- Sources are found as they were. -/
theorem node_eq (h : Separate s f root paths) (hw : written.Sublist (companionsOf s f paths))
    {path : String} (hpath : path ∈ paths) : (overlaid f written).node path = f.node path := by
  rcases h.readable path hpath with hlong | ⟨content, hnode⟩
  · exact FileSystem.node_of_isPathTooLong _ _ hlong
  · have hsame := h.entryAt_overlaid hw fun pair hpair =>
      h.apart pair (hw.subset hpair) path hpath
    rw [Forest.entryAt_eq_file_iff.mpr (FileSystem.at?_destination_of_node hnode),
      Forest.entryAt_eq_file_iff] at hsame
    rw [hnode]
    exact (h.keeps hw).node hnode hsame

theorem readText_eq (h : Separate s f root paths) (hw : written.Sublist (companionsOf s f paths))
    {path : String} (hpath : path ∈ paths) :
    (overlaid f written).readText path = f.readText path := by
  rw [FileSystem.readText, FileSystem.readText, h.node_eq hw hpath]

/-- Reports show paths as they did. -/
theorem displayPath_eq (h : Separate s f root paths)
    (hw : written.Sublist (companionsOf s f paths)) {path : String} (hpath : path ∈ paths)
    (shown : String) : displayPath (overlaid f written) root shown = displayPath f root shown := by
  rcases h.root path hpath with rfl | ⟨inside, hinside⟩
  · rw [displayPath, displayPath, FileSystem.isFile, FileSystem.isFile, h.node_eq hw hpath]
  · exact displayPath_of_keeps (h.keeps hw) hinside shown

/-- Of different companions, any can be the last that is written. -/
theorem overlaid_middle (h : Separate s f root paths)
    (hw : (before ++ pair :: after).Sublist (companionsOf s f paths)) :
    overlaid f (before ++ pair :: after) =
      (overlaid f (before ++ after)).withFile (f.destination pair.1) (.text pair.2) := by
  have hperm : (before ++ pair :: after).Perm (before ++ after ++ [pair]) :=
    List.perm_middle.trans (List.perm_append_singleton pair (before ++ after)).symm
  rw [overlaid, FileSystem.withFiles_perm (hperm.map _) (h.nodup hw), List.map_append,
    List.map_singleton, FileSystem.withFiles_concat, ← overlaid]

/-- A companion that is up to date makes no difference. -/
theorem overlaid_of_at? (h : Separate s f root paths)
    (hw : (before ++ pair :: after).Sublist (companionsOf s f paths))
    (hat : f.root.at? (f.destination pair.1) = some (.file (.text pair.2))) :
    overlaid f (before ++ pair :: after) = overlaid f (before ++ after) := by
  have hperm : (before ++ pair :: after).Perm (pair :: (before ++ after)) := List.perm_middle
  rw [overlaid, FileSystem.withFiles_perm (hperm.map _) (h.nodup hw), List.map_cons,
    FileSystem.withFiles_cons, FileSystem.withFile_of_at? h.sorted hat, ← overlaid]

/-- What one more companion finds at its place. -/
theorem entryAt_middle (h : Separate s f root paths)
    (hw : (before ++ pair :: after).Sublist (companionsOf s f paths)) :
    (overlaid f (before ++ after)).root.entryAt (f.destination pair.1) =
      f.root.entryAt (f.destination pair.1) := by
  have hrest : (before ++ after).Sublist (before ++ pair :: after) :=
    (List.Sublist.refl before).append (List.sublist_cons_self pair after)
  have hdistinct : (pair :: (before ++ after)).map (fun pair => f.destination pair.1) |>.Nodup :=
    ((List.perm_middle.map _).nodup_iff).mp (h.distinct.sublist (hw.map _))
  rw [List.map_cons, List.nodup_cons] at hdistinct
  refine h.entryAt_overlaid (hrest.trans hw) fun other hother heq => ?_
  exact hdistinct.1 (List.mem_map.mpr ⟨other, hother, heq.symm⟩)

/-- Writing one more companion. -/
theorem update_eq (h : Separate s f root paths)
    (hw : (before ++ pair :: after).Sublist (companionsOf s f paths)) :
    update (overlaid f (before ++ after)) pair.1 pair.2 =
      (overlaid f (before ++ pair :: after), (update f pair.1 pair.2).2) := by
  have hrest : (before ++ after).Sublist (before ++ pair :: after) :=
    (List.Sublist.refl before).append (List.sublist_cons_self pair after)
  have hk := h.keeps (hrest.trans hw)
  have hentry := h.entryAt_middle hw
  have hwritable := h.writable pair (hw.subset (by simp))
  have hwritable' : (overlaid f (before ++ after)).Writable pair.1 := by
    obtain ⟨dir, name, hplace, -, hfree⟩ := hwritable.free
    exact hwritable.of_keeps hk (hentry ▸ hfree)
  have hsame : (overlaid f (before ++ after)).root.at? (f.destination pair.1) =
      some (.file (.text pair.2)) ↔
      f.root.at? (f.destination pair.1) = some (.file (.text pair.2)) := by
    rw [← Forest.entryAt_eq_file_iff, hentry, Forest.entryAt_eq_file_iff]
  rw [update_of_writable hwritable', update_of_writable hwritable, hk.destination_eq]
  by_cases hat : f.root.at? (f.destination pair.1) = some (.file (.text pair.2))
  · rw [if_pos (hsame.mpr hat), if_pos hat, h.overlaid_of_at? hw hat]
  · rw [if_neg (mt hsame.mp hat), if_neg hat, h.overlaid_middle hw]

/-- Delivering one more companion. -/
theorem deliver_eq {dryRun : Bool} {file : AnnotatedFile} {text path : String}
    (h : Separate s f root paths)
    (hw : (before ++ (s.outputPath file.path, text) :: after).Sublist (companionsOf s f paths))
    (hpath : path ∈ paths) :
    deliver dryRun s root (overlaid f (before ++ after)) file text =
      (if dryRun then overlaid f (before ++ after)
        else overlaid f (before ++ (s.outputPath file.path, text) :: after),
        (deliver dryRun s root f file text).2) := by
  have hrest : (before ++ after).Sublist (before ++ (s.outputPath file.path, text) :: after) :=
    (List.Sublist.refl before).append (List.sublist_cons_self _ after)
  have hdisplay := h.displayPath_eq (hrest.trans hw) hpath
  have hupdate := h.update_eq hw
  simp only [deliver, hdisplay, hupdate]
  cases dryRun with
  | true => rfl
  | false =>
      obtain ⟨g, outcome⟩ := update f (s.outputPath file.path) text
      cases outcome <;> rfl

end Separate

/-! One step of one source. -/

section Step

variable (dryRun : Bool) (s : Settings) (root : String) (f : FileSystem)

/-- A stage that a source reaches on its own, in the file system as it was. -/
def Stage.Fits (path : String) : Stage → Prop
  | waiting => True
  | read text => text = f.readText path
  | analyzed analysis => analysis = analyzeFile s f path
  | rendered a text =>
      analyzeFile s f path = .ok a ∧ a.file.isEmpty = false ∧ text = companionText s a.file
  | finished report => report = (generateFile dryRun s root f path).2

/-- The companion that a source has written. -/
def Job.written? (j : Job) : Option (String × String) :=
  match j.stage with
  | .finished _ => if dryRun then none else companion? s f j.path
  | _ => none

end Step

section Step

variable {dryRun : Bool} {s : Settings} {root : String} {f : FileSystem} {paths : List String}
  {before after : List (String × String)} {j : Job}

theorem report_of_rendered {path : String} {a : AnalyzedFile}
    (h : analyzeFile s f path = .ok a) (hempty : a.file.isEmpty = false) :
    (generateFile dryRun s root f path).2 =
      ⟨displayPath f root path,
        (deliver dryRun s root f a.file (companionText s a.file)).2, warningTexts a⟩ := by
  simp [generateFile, finish, h, emit_eq, hempty, warningTexts]

/-- A step of one source, whatever the others have done. -/
theorem step_eq (h : Separate s f root paths) (hj : j.path ∈ paths)
    (hfits : j.stage.Fits dryRun s root f j.path)
    (hw : (before ++ (companion? s f j.path).toList ++ after).Sublist (companionsOf s f paths)) :
    ∃ stage, stage.Fits dryRun s root f j.path ∧
      j.step dryRun s root (overlaid f (before ++ (j.written? dryRun s f).toList ++ after)) =
        (overlaid f (before ++ (Job.written? dryRun s f ⟨j.path, stage⟩).toList ++ after),
          ⟨j.path, stage⟩) := by
  obtain ⟨path, stage⟩ := j
  have hbare : (before ++ after).Sublist (companionsOf s f paths) :=
    ((List.sublist_append_left before _).append (List.Sublist.refl after)).trans hw
  cases stage with
  | waiting =>
      refine ⟨.read (f.readText path), rfl, ?_⟩
      simp only [Job.step, Job.written?, Option.toList_none, List.append_nil,
        h.readText_eq hbare hj]
  | read text =>
      refine ⟨.analyzed (analyzeFile s f path), rfl, ?_⟩
      obtain rfl : text = f.readText path := hfits
      simp only [Job.step, Job.written?, analyzeText_readText]
  | analyzed analysis =>
      obtain rfl : analysis = analyzeFile s f path := hfits
      have hdisplay := h.displayPath_eq hbare hj path
      cases ha : analyzeFile s f path with
      | error message =>
          refine ⟨.finished ⟨displayPath f root path, .failed message, []⟩, ?_, ?_⟩
          · simp [Stage.Fits, generateFile, finish, ha]
          · have hnone : companion? s f path = none := by simp [companion?, ha]
            simp only [Job.step, Job.written?, Option.toList_none, List.append_nil, hnone, ite_self,
              hdisplay]
      | ok a =>
          cases hempty : a.file.isEmpty with
          | true =>
              refine ⟨.finished ⟨displayPath f root path, .noAnnotations, warningTexts a⟩, ?_, ?_⟩
              · simp [Stage.Fits, generateFile, finish, ha, emit_eq, hempty, warningTexts]
              · have hnone : companion? s f path = none := by simp [companion?, ha, hempty]
                simp only [Job.step, Job.written?, Option.toList_none, List.append_nil, hnone,
                  ite_self, hdisplay, hempty, ↓reduceIte]
          | false =>
              refine ⟨.rendered a (companionText s a.file), ⟨ha, hempty, rfl⟩, ?_⟩
              simp only [Job.step, Job.written?, hempty, Bool.false_eq_true, ↓reduceIte]
  | rendered a text =>
      obtain ⟨ha, hempty, rfl⟩ : analyzeFile s f path = .ok a ∧ a.file.isEmpty = false ∧
        text = companionText s a.file := hfits
      refine ⟨.finished (generateFile dryRun s root f path).2, rfl, ?_⟩
      have hpair := companion?_of_ok ha hempty
      rw [hpair, Option.toList_some, List.append_assoc, List.singleton_append] at hw
      rw [report_of_rendered ha hempty]
      simp only [Job.step, Job.written?, Option.toList_none, List.append_nil,
        h.displayPath_eq hbare hj, h.deliver_eq hw hj, hpair]
      cases dryRun <;> simp
  | finished report => exact ⟨.finished report, hfits, rfl⟩

theorem written?_eq_or (dryRun : Bool) (s : Settings) (f : FileSystem) (j : Job) :
    j.written? dryRun s f = none ∨ j.written? dryRun s f = companion? s f j.path := by
  rw [Job.written?]
  split
  · cases dryRun
    · exact Or.inr rfl
    · exact Or.inl rfl
  · exact Or.inl rfl

/-- What some sources have written is among their companions. -/
theorem sublist_companionsOf (jobs : List Job) :
    (jobs.filterMap (Job.written? dryRun s f)).Sublist (companionsOf s f (jobs.map Job.path)) := by
  induction jobs with
  | nil => exact List.Sublist.refl _
  | cons j rest ih =>
      rw [List.map_cons, companionsOf, List.filterMap_cons, List.filterMap_cons]
      rcases written?_eq_or dryRun s f j with hnone | hsame
      · rw [hnone]
        cases companion? s f j.path with
        | none => exact ih
        | some pair => exact ih.cons pair
      · rw [hsame]
        cases companion? s f j.path with
        | none => exact ih
        | some pair => exact ih.cons_cons pair

end Step

/-! A whole run. -/

/-- Sources that are as far as they would be alone, in the file system with the companions that
they have written. -/
structure Batch.Consistent (dryRun : Bool) (s : Settings) (root : String) (f : FileSystem)
    (paths : List String) (b : Batch) : Prop where
  paths : b.jobs.map Job.path = paths
  fits : ∀ j ∈ b.jobs, j.stage.Fits dryRun s root f j.path
  files : b.files = overlaid f (b.jobs.filterMap (Job.written? dryRun s f))

section Run

variable {dryRun : Bool} {s : Settings} {root : String} {f : FileSystem} {paths : List String}
  {b : Batch}

theorem consistent_start : (Batch.start f paths).Consistent dryRun s root f paths where
  paths := paths_start f paths
  fits j hj := by
    obtain ⟨path, -, rfl⟩ := List.mem_map.mp hj
    trivial
  files := by
    have hnone : (paths.map Job.start).filterMap (Job.written? dryRun s f) = [] := by
      simp [Job.written?, Job.start]
    rw [Batch.start, hnone]
    rfl

theorem filterMap_middle {α β : Type} (p : α → Option β) (before after : List α) (a : α) :
    (before ++ a :: after).filterMap p =
      before.filterMap p ++ (p a).toList ++ after.filterMap p := by
  rw [List.filterMap_append, List.filterMap_cons, List.append_assoc]
  cases p a <;> rfl

theorem forall_mem_middle {α : Type} {p : α → Prop} {before after : List α} {a : α} :
    (∀ x ∈ before ++ a :: after, p x) ↔ p a ∧ ∀ x ∈ before ++ after, p x := by
  simp only [List.forall_mem_append, List.forall_mem_cons, and_left_comm]

theorem exists_split {jobs : List Job} {i : Nat} {j : Job} (h : jobs[i]? = some j) :
    ∃ before after, jobs = before ++ j :: after ∧
      ∀ j', jobs.set i j' = before ++ j' :: after := by
  induction jobs generalizing i with
  | nil => cases h
  | cons first rest ih =>
      cases i with
      | zero =>
          obtain rfl := Option.some.inj h
          exact ⟨[], rest, rfl, fun _ => rfl⟩
      | succ i =>
          obtain ⟨before, after, rfl, hset⟩ := ih h
          exact ⟨first :: before, after, rfl, fun j' => by rw [List.set_cons_succ, hset]; rfl⟩

/-- A step keeps sources consistent. -/
theorem Batch.Consistent.turn (h : Separate s f root paths)
    (hb : b.Consistent dryRun s root f paths) (i : Nat) :
    (b.turn dryRun s root i).Consistent dryRun s root f paths := by
  rw [Batch.turn]
  cases hi : b.jobs[i]? with
  | none => exact hb
  | some j =>
      obtain ⟨before, after, hjobs, hset⟩ := exists_split hi
      have hpaths := hb.paths
      have hfits := hb.fits
      have hfiles := hb.files
      rw [hjobs] at hpaths hfits hfiles
      rw [forall_mem_middle] at hfits
      rw [List.map_append, List.map_cons] at hpaths
      have hcompanions : companionsOf s f paths = companionsOf s f (before.map Job.path) ++
          (companion? s f j.path).toList ++ companionsOf s f (after.map Job.path) := by
        rw [← hpaths, companionsOf, filterMap_middle, companionsOf, companionsOf]
      have hw : (before.filterMap (Job.written? dryRun s f) ++ (companion? s f j.path).toList ++
          after.filterMap (Job.written? dryRun s f)).Sublist (companionsOf s f paths) := by
        rw [hcompanions]
        exact ((sublist_companionsOf before).append (List.Sublist.refl _)).append
          (sublist_companionsOf after)
      have hj : j.path ∈ paths := by simp [← hpaths]
      obtain ⟨stage, hstage, hstep⟩ := step_eq h hj hfits.1 hw
      rw [filterMap_middle] at hfiles
      dsimp only
      rw [hfiles, hstep, hset]
      exact ⟨by simpa using hpaths, forall_mem_middle.mpr ⟨hstage, hfits.2⟩,
        by rw [filterMap_middle]⟩

/-- A run keeps sources consistent, whatever its order. -/
theorem Batch.Consistent.run (h : Separate s f root paths)
    (hb : b.Consistent dryRun s root f paths) (order : List Nat) :
    (b.run dryRun s root order).Consistent dryRun s root f paths := by
  induction order generalizing b with
  | nil => exact hb
  | cons i order ih => exact ih (hb.turn h i)

/-- The number of steps that have led to a stage, or could have. -/
def Stage.rank : Stage → Nat
  | waiting => 0
  | read _ => 1
  | analyzed _ => 2
  | rendered _ _ => 3
  | finished _ => 4

theorem rank_step (g : FileSystem) (j : Job) :
    min 4 (j.stage.rank + 1) ≤ (j.step dryRun s root g).2.stage.rank := by
  obtain ⟨path, stage⟩ := j
  cases stage with
  | waiting => simp [Job.step, Stage.rank]
  | read text => simp [Job.step, Stage.rank]
  | analyzed analysis =>
      cases analysis with
      | error message => simp [Job.step, Stage.rank]
      | ok a => cases hempty : a.file.isEmpty <;> simp [Job.step, Stage.rank, hempty]
  | rendered a text => simp [Job.step, Stage.rank]
  | finished report => simp [Job.step, Stage.rank]

theorem Stage.exists_finished {stage : Stage} (h : 4 ≤ stage.rank) :
    ∃ report, stage = .finished report := by
  cases stage with
  | finished report => exact ⟨report, rfl⟩
  | waiting => exact absurd h (by simp [rank])
  | read text => exact absurd h (by simp [rank])
  | analyzed analysis => exact absurd h (by simp [rank])
  | rendered a text => exact absurd h (by simp [rank])

/-- A turn for a source, or for another. -/
theorem rank_turn {k : Nat} {j : Job} (h : b.jobs[k]? = some j) (i : Nat) :
    ∃ j', (b.turn dryRun s root i).jobs[k]? = some j' ∧
      min 4 (j.stage.rank + if i = k then 1 else 0) ≤ j'.stage.rank := by
  rw [Batch.turn]
  by_cases hik : i = k
  · subst hik
    refine ⟨(j.step dryRun s root b.files).2, ?_, ?_⟩
    · rw [h]
      exact List.getElem?_set_self (List.getElem?_eq_some_iff.mp h).1
    · simpa using rank_step b.files j
  · refine ⟨j, ?_, by rw [if_neg hik]; exact Nat.min_le_right _ _⟩
    cases b.jobs[i]? with
    | none => exact h
    | some j' => simpa [hik] using h

/-- A source that had enough turns is finished. -/
theorem rank_run {k : Nat} {j : Job} (h : b.jobs[k]? = some j) (order : List Nat) :
    ∃ j', (b.run dryRun s root order).jobs[k]? = some j' ∧
      min 4 (j.stage.rank + order.count k) ≤ j'.stage.rank := by
  induction order generalizing b j with
  | nil => exact ⟨j, h, Nat.min_le_right _ _⟩
  | cons i order ih =>
      obtain ⟨j₁, h₁, hrank₁⟩ := rank_turn (b := b) h i
      obtain ⟨j₂, h₂, hrank₂⟩ := ih h₁
      refine ⟨j₂, h₂, ?_⟩
      rw [List.count_cons]
      simp only [beq_iff_eq]
      omega

/-- Sources that had their turns are finished. -/
theorem finished_run {order : List Nat}
    (hpaths : ((Batch.start f paths).run dryRun s root order).jobs.map Job.path = paths)
    (horder : ∀ i < paths.length, 4 ≤ order.count i) :
    ∀ j ∈ ((Batch.start f paths).run dryRun s root order).jobs,
      ∃ report, j.stage = .finished report := by
  intro j hj
  have hlength : ((Batch.start f paths).run dryRun s root order).jobs.length = paths.length := by
    rw [← List.length_map Job.path, hpaths]
  obtain ⟨k, hk⟩ := List.mem_iff_getElem?.mp hj
  have hlt : k < paths.length := hlength ▸ (List.getElem?_eq_some_iff.mp hk).1
  have hstart : (Batch.start f paths).jobs[k]? = some (Job.start paths[k]) := by
    simp [Batch.start, hlt]
  have hrun : ∃ j', ((Batch.start f paths).run dryRun s root order).jobs[k]? = some j' ∧
      min 4 (0 + order.count k) ≤ j'.stage.rank := rank_run hstart order
  obtain ⟨j', hj', hrank⟩ := hrun
  obtain rfl : j' = j := Option.some.inj (hj'.symm.trans hk)
  have hcount := horder k hlt
  exact Stage.exists_finished (by omega)

/-- Sources that are as far as they would be alone have the reports that they would have alone
once they had their turns. -/
theorem jobs_run_of_fits {order : List Nat}
    (hpaths : ((Batch.start f paths).run dryRun s root order).jobs.map Job.path = paths)
    (hfits : ∀ j ∈ ((Batch.start f paths).run dryRun s root order).jobs,
      j.stage.Fits dryRun s root f j.path)
    (horder : ∀ i < paths.length, 4 ≤ order.count i) :
    ((Batch.start f paths).run dryRun s root order).jobs =
      paths.map fun path => ⟨path, .finished (generateFile dryRun s root f path).2⟩ := by
  have hfinished : ∀ j ∈ ((Batch.start f paths).run dryRun s root order).jobs,
      (⟨j.path, .finished (generateFile dryRun s root f j.path).2⟩ : Job) = j := by
    intro j hj
    obtain ⟨report, hreport⟩ := finished_run hpaths horder j hj
    have hj' := hfits j hj
    obtain ⟨path, stage⟩ := j
    obtain rfl : stage = .finished report := hreport
    rw [show report = _ from hj']
  calc ((Batch.start f paths).run dryRun s root order).jobs
      = ((Batch.start f paths).run dryRun s root order).jobs.map fun j =>
          ⟨j.path, .finished (generateFile dryRun s root f j.path).2⟩ := by
        rw [List.map_congr_left hfinished, List.map_id']
    _ = (((Batch.start f paths).run dryRun s root order).jobs.map Job.path).map fun path =>
          ⟨path, .finished (generateFile dryRun s root f path).2⟩ := by
        rw [List.map_map]
        rfl
    _ = paths.map fun path => ⟨path, .finished (generateFile dryRun s root f path).2⟩ := by
        rw [hpaths]

/-- Every source is finished in the end, with the report that it would have alone. -/
theorem jobs_run (h : Separate s f root paths) {order : List Nat}
    (horder : ∀ i < paths.length, 4 ≤ order.count i) :
    ((Batch.start f paths).run dryRun s root order).jobs =
      paths.map fun path => ⟨path, .finished (generateFile dryRun s root f path).2⟩ := by
  have hb : ((Batch.start f paths).run dryRun s root order).Consistent dryRun s root f paths :=
    consistent_start.run h order
  exact jobs_run_of_fits hb.paths hb.fits horder

/-- The files in the end. -/
theorem files_run (h : Separate s f root paths) {order : List Nat}
    (horder : ∀ i < paths.length, 4 ≤ order.count i) :
    ((Batch.start f paths).run dryRun s root order).files =
      if dryRun then f else overlaid f (companionsOf s f paths) := by
  have hb : ((Batch.start f paths).run dryRun s root order).Consistent dryRun s root f paths :=
    consistent_start.run h order
  rw [hb.files, jobs_run h horder, List.filterMap_map]
  cases dryRun with
  | true =>
      have hnone : paths.filterMap (Job.written? true s f ∘ fun path =>
          ⟨path, .finished (generateFile true s root f path).2⟩) = [] := by
        simp [Job.written?]
      rw [hnone]
      rfl
  | false => rfl

theorem reports_run_of_fits {order : List Nat}
    (hpaths : ((Batch.start f paths).run dryRun s root order).jobs.map Job.path = paths)
    (hfits : ∀ j ∈ ((Batch.start f paths).run dryRun s root order).jobs,
      j.stage.Fits dryRun s root f j.path)
    (horder : ∀ i < paths.length, 4 ≤ order.count i) :
    ((Batch.start f paths).run dryRun s root order).reports =
      paths.map fun path => (generateFile dryRun s root f path).2 := by
  rw [Batch.reports, jobs_run_of_fits hpaths hfits horder, List.filterMap_map,
    ← List.filterMap_eq_map]
  rfl

theorem reports_run (h : Separate s f root paths) {order : List Nat}
    (horder : ∀ i < paths.length, 4 ≤ order.count i) :
    ((Batch.start f paths).run dryRun s root order).reports =
      paths.map fun path => (generateFile dryRun s root f path).2 := by
  have hb : ((Batch.start f paths).run dryRun s root order).Consistent dryRun s root f paths :=
    consistent_start.run h order
  exact reports_run_of_fits hb.paths hb.fits horder

/-- A source without a companion leaves all files alone, whenever it has its turns. -/
theorem files_turn (hb : b.Consistent dryRun s root f paths) {i : Nat} {path : String}
    (hpath : paths[i]? = some path) (hnone : companion? s f path = none) :
    (b.turn dryRun s root i).files = b.files := by
  rw [Batch.turn]
  cases hi : b.jobs[i]? with
  | none => rfl
  | some j =>
      have hfits := hb.fits j (List.mem_of_getElem? hi)
      have hsame : j.path = path := by
        rw [← hb.paths, List.getElem?_map, hi] at hpath
        exact Option.some.inj hpath
      rcases files_step_eq_or b.files j with hfiles | ⟨a, text, hstage, -⟩
      · exact hfiles
      · rw [hstage, hsame] at hfits
        rw [companion?_of_ok hfits.1 hfits.2.1] at hnone
        cases hnone

end Run

/-! The sources of a root. -/

section Sources

variable {s : Settings} {f : FileSystem} {root : String} {found : List Found}

/-- Sources that are not companions of each other are separate from their companions. -/
theorem separate_of_sources (hf : f.root.WellFormed) (hsuffix : '/' ∉ s.outputSuffix.toList)
    (hfound : sources s f root = .ok found)
    (hapart : ∀ c ∈ found, ∀ d ∈ found, Path.parts (s.outputPath c.path) ≠ Path.parts d.path)
    (hwrite : ∀ pair ∈ companionsOf s f (found.map Found.path),
      ∃ g, f.writeFile pair.1 (.text pair.2) = .ok g) :
    Separate s f root (found.map Found.path) := by
  have hd := discovered_of_sources hf hfound
  obtain ⟨base, hbase⟩ := hd.below
  have houtput : ∀ c ∈ found, Below base (s.outputPath c.path) := fun c hc =>
    (hbase c hc).outputPath (hd.isSource c hc) hsuffix
  refine ⟨hf.sorted, ?_, ?_, ?_, ?_, ?_⟩
  · intro path hpath
    obtain ⟨c, hc, rfl⟩ := List.mem_map.mp hpath
    exact (hd.node c hc).imp_right fun hnode => ⟨c.content, hnode⟩
  · intro path hpath
    obtain ⟨c, hc, rfl⟩ := List.mem_map.mp hpath
    exact hd.root c hc
  · exact fun pair hpair => (FileSystem.writable_iff _).mpr (hwrite pair hpair)
  · rw [companionsOf, List.filterMap_map, List.Nodup, List.pairwise_map, List.pairwise_filterMap]
    refine (hd.destination_outputPath_ne hsuffix).imp fun {c d} hne pair hpair pair' hpair' heq =>
      hne ?_
    rwa [eq_outputPath_of_companion? hpair, eq_outputPath_of_companion? hpair'] at heq
  · intro pair hpair path hpath heq
    obtain ⟨path', hpath', hcompanion⟩ := List.mem_filterMap.mp hpair
    obtain ⟨c, hc, rfl⟩ := List.mem_map.mp hpath'
    obtain ⟨d, hd', rfl⟩ := List.mem_map.mp hpath
    rw [eq_outputPath_of_companion? hcompanion] at heq
    exact hapart c hc d hd' (parts_eq_of_destination f (hbase d hd') (houtput c hc) heq).symm

/-- Where a source without a companion would have it, no other source has one. -/
theorem destination_ne_of_none (hf : f.root.WellFormed) (hsuffix : '/' ∉ s.outputSuffix.toList)
    (hfound : sources s f root = .ok found) {path : String} (hpath : path ∈ found.map Found.path)
    (hnone : companion? s f path = none) {pair : String × String}
    (hpair : pair ∈ companionsOf s f (found.map Found.path)) :
    f.destination (s.outputPath path) ≠ f.destination pair.1 := by
  have hd := discovered_of_sources hf hfound
  obtain ⟨c, hc, rfl⟩ := List.mem_map.mp hpath
  obtain ⟨path', hpath', hcompanion⟩ := List.mem_filterMap.mp hpair
  obtain ⟨d, hd', rfl⟩ := List.mem_map.mp hpath'
  intro heq
  rw [eq_outputPath_of_companion? hcompanion] at heq
  have : Std.Symm fun c d : Found =>
      f.destination (s.outputPath c.path) ≠ f.destination (s.outputPath d.path) :=
    ⟨fun _ _ hne => hne.symm⟩
  have hsame : c = d := Decidable.byContradiction fun hne =>
    (hd.destination_outputPath_ne hsuffix).forall hc hd' hne heq
  rw [hsame, hcompanion] at hnone
  cases hnone

end Sources

section Texts

variable {dryRun : Bool} {s : Settings} {f : FileSystem} {root path : String}
  {paths : List String}

/-- Every companion that is written can be read. -/
theorem Separate.readText_companion (h : Separate s f root paths) {pair : String × String}
    (hpair : pair ∈ companionsOf s f paths) :
    (overlaid f (companionsOf s f paths)).readText pair.1 = .ok pair.2 := by
  have hall := List.Sublist.refl (companionsOf s f paths)
  have hmem : (f.destination pair.1, Content.text pair.2) ∈
      (companionsOf s f paths).map fun pair => (f.destination pair.1, Content.text pair.2) :=
    List.mem_map.mpr ⟨pair, hpair, rfl⟩
  have hk := h.keeps hall
  have hat := FileSystem.at?_withFiles_of_mem (h.free hall) (h.nodup hall) hmem
  rw [← overlaid] at hat
  rw [FileSystem.readText, (h.writable pair hpair).node_of_keeps hk hat]
  rfl

/-- A dry run shows the companion of a source. -/
theorem preview?_generateFile :
    (generateFile true s root f path).2.preview? =
      (companion? s f path).map fun pair => (displayPath f root pair.1, pair.2) := by
  cases ha : analyzeFile s f path with
  | error message => simp [generateFile, finish, ha, companion?, FileReport.preview?]
  | ok a =>
      cases hempty : a.file.isEmpty with
      | true => simp [generateFile, finish, ha, companion?, FileReport.preview?, emit_eq, hempty]
      | false =>
          simp [report_of_rendered ha hempty, companion?_of_ok ha hempty, deliver,
            FileReport.preview?]

theorem previews_eq (paths : List String) :
    (paths.map fun path => (generateFile true s root f path).2).filterMap FileReport.preview? =
      (companionsOf s f paths).map fun pair => (displayPath f root pair.1, pair.2) := by
  rw [List.filterMap_map, companionsOf, List.map_filterMap]
  exact List.filterMap_congr fun path _ => preview?_generateFile

end Texts

/-- What a run over the sources of a root comes to. -/
structure Settled (dryRun : Bool) (s : Settings) (root : String) (f : FileSystem)
    (paths : List String) (b : Batch) : Prop where
  /-- The companions lie over the files as they were; a dry run changes nothing. -/
  files : b.files = if dryRun then f else overlaid f (companionsOf s f paths)
  /-- Every companion has its text. -/
  written : dryRun = false → ∀ pair ∈ companionsOf s f paths, b.files.readText pair.1 = .ok pair.2
  /-- Every other place is as it was. -/
  others : ∀ place, (∀ pair ∈ companionsOf s f paths, place ≠ f.destination pair.1) →
    b.files.root.entryAt place = f.root.entryAt place
  /-- A source without a companion leaves the place of one as it was. -/
  idle : ∀ path ∈ paths, companion? s f path = none →
    b.files.root.entryAt (f.destination (s.outputPath path)) =
      f.root.entryAt (f.destination (s.outputPath path))
  /-- Every source has the report that it would have alone. -/
  reports : b.reports = paths.map fun path => (generateFile dryRun s root f path).2
  /-- A dry run shows the companions. -/
  previews : dryRun = true → b.reports.filterMap FileReport.preview? =
    (companionsOf s f paths).map fun pair => (displayPath f root pair.1, pair.2)

/-- Sources that are not companions of each other can be processed in any order: the run ends as
the program does, a source without a companion never changes a file, and the result is that of
processing every source alone. -/
theorem settled_run {dryRun : Bool} {s : Settings} {root : String} {f : FileSystem}
    {found : List Found} {order : List Nat} (hf : f.root.WellFormed)
    (hsuffix : '/' ∉ s.outputSuffix.toList) (hfound : sources s f root = .ok found)
    (hapart : ∀ c ∈ found, ∀ d ∈ found, Path.parts (s.outputPath c.path) ≠ Path.parts d.path)
    (hwrite : ∀ pair ∈ companionsOf s f (found.map Found.path),
      ∃ g, f.writeFile pair.1 (.text pair.2) = .ok g)
    (horder : ∀ i < found.length, 4 ≤ order.count i) :
    let paths := found.map Found.path
    let b := (Batch.start f paths).run dryRun s root order
    Settled dryRun s root f paths b ∧
      (∀ inTurn, generate dryRun inTurn s f root = .ok (b.files, b.report dryRun)) ∧
      ∀ earlier i path, paths[i]? = some path → companion? s f path = none →
        (((Batch.start f paths).run dryRun s root earlier).turn dryRun s root i).files =
          ((Batch.start f paths).run dryRun s root earlier).files := by
  intro paths b
  have h := separate_of_sources hf hsuffix hfound hapart hwrite
  have horder' : ∀ i < paths.length, 4 ≤ order.count i := by
    intro i hi
    exact horder i (by simpa [paths] using hi)
  have hfiles : b.files = if dryRun then f else overlaid f (companionsOf s f paths) :=
    files_run h horder'
  have hreports : b.reports = paths.map fun path => (generateFile dryRun s root f path).2 :=
    reports_run h horder'
  have hothers : ∀ place, (∀ pair ∈ companionsOf s f paths, place ≠ f.destination pair.1) →
      b.files.root.entryAt place = f.root.entryAt place := by
    intro place hne
    rw [hfiles]
    cases dryRun with
    | true => rfl
    | false => exact h.entryAt_overlaid (List.Sublist.refl _) hne
  refine ⟨⟨hfiles, ?_, hothers, ?_, hreports, ?_⟩, ?_, ?_⟩
  · rintro rfl pair hpair
    rw [hfiles]
    exact h.readText_companion hpair
  · exact fun path hpath hnone => hothers _ fun pair hpair =>
      destination_ne_of_none hf hsuffix hfound hpath hnone hpair
  · rintro rfl
    rw [hreports]
    exact previews_eq paths
  · intro inTurn
    have hprogram : ∀ i < paths.length, 4 ≤ (programOrder inTurn paths.length).count i :=
      fun i hi => four_le_count_programOrder inTurn hi
    rw [generate_eq_run hfound]
    simp only [Batch.report]
    rw [files_run h hprogram, reports_run h hprogram, hfiles, hreports]
  · intro earlier i path hpath hnone
    exact files_turn (consistent_start.run h earlier) hpath hnone

/-- A source with an annotated declaration. -/
def annotatedText : String := "package v1\n\n// +generate:validate\ntype A struct{}\n"

theorem exists_analyze_annotatedText :
    ∃ a, analyze "./a.go" annotatedText .standard .builtin = .ok a ∧ a.file.isEmpty = false :=
  exists_analyze_of_any (by cbv)

theorem exists_analyzeFile_annotatedText {f : FileSystem}
    (h : f.readText "./a.go" = .ok annotatedText) :
    ∃ a, analyzeFile .standard f "./a.go" = .ok a ∧ a.file.isEmpty = false := by
  obtain ⟨a, ha, hempty⟩ := exists_analyze_annotatedText
  refine ⟨a, ?_, hempty⟩
  rw [← analyzeText_readText, h, analyzeText, ha]
  rfl

/-- A source that has a companion and one that has none. -/
def mixedFiles : FileSystem where
  root := .file "a.go" (.text annotatedText) (.file "b.go" (.text "package v1\n") .empty)
  here := []

theorem wellFormed_mixedFiles : mixedFiles.root.WellFormed :=
  ⟨by decide, by decide, by decide, by decide, trivial⟩

theorem sources_mixedFiles :
    sources .standard mixedFiles "." =
      .ok [⟨"./a.go", .text annotatedText⟩, ⟨"./b.go", .text "package v1\n"⟩] := by
  decide +kernel

theorem settled_run_mixedFiles :
    companion? .standard mixedFiles "./a.go" ≠ none ∧
      Settled false .standard "." mixedFiles ["./a.go", "./b.go"]
        ((Batch.start mixedFiles ["./a.go", "./b.go"]).run false .standard "."
          [1, 0, 0, 1, 0, 1, 1, 0]) := by
  have hwritable : ∀ path ∈ ["./a_validate.go", "./b_validate.go"],
      (mixedFiles.writeFile path (.text "")).toOption.isSome = true := by decide +kernel
  have houtputs : ∀ path ∈ ["./a.go", "./b.go"],
      Settings.standard.outputPath path ∈ ["./a_validate.go", "./b_validate.go"] := by
    decide +kernel
  refine ⟨?_, (settled_run wellFormed_mixedFiles (by decide) sources_mixedFiles (by decide +kernel) ?_
    (by decide)).1⟩
  · have hread : mixedFiles.readText "./a.go" = .ok annotatedText := by decide +kernel
    obtain ⟨a, hanalyze, hempty⟩ := exists_analyzeFile_annotatedText hread
    rw [companion?_of_ok hanalyze hempty]
    simp
  · intro pair hpair
    obtain ⟨path, hpath, hcompanion⟩ := List.mem_filterMap.mp hpair
    have hwrite := hwritable pair.1 (eq_outputPath_of_companion? hcompanion ▸ houtputs path hpath)
    rw [← FileSystem.writable_iff, FileSystem.writable_iff (.text "")]
    cases hg : mixedFiles.writeFile pair.1 (.text "") with
    | error e => simp [hg, Except.toOption] at hwrite
    | ok g => exact ⟨g, rfl⟩

end FieldRules.Workspace
