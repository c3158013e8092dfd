/-
What cleaning removes.  Companions are looked at one after the other, and each is judged by the
files that are left at that moment.  One is removed only if its source is gone or has no annotated
declarations, so the companion of a source that has some, or cannot be analyzed, stays.
-/
import FieldRules.Proofs.Analysis.Paths
import FieldRules.Proofs.Tree.Removal
import FieldRules.Proofs.Tree.Siblings
import FieldRules.Proofs.Workspace.Walk
import FieldRules.Workspace.Clean

namespace FieldRules

open FileSystem (Loses Opens isPathTooLong)

/-! The source of a companion. -/

namespace Settings

variable {s : Settings} {f : FileSystem} {path companion stem : String}

/-- A path to the companion of a source. -/
structure CompanionOf (s : Settings) (path companion : String) : Prop where
  isSource : s.isSource path = true
  fileName : Path.fileName? companion = some (Path.stem path ++ s.companionEnd)
  directory : Path.parts (Path.directory companion) = Path.parts (Path.directory path)

theorem companionOf_of_destination {base : List PathPart} (hsource : s.isSource path = true)
    (hgenerated : s.isGeneratedName companion = true) (hbelow : Below base path)
    (hbelow' : Below base companion)
    (hplace : f.destination companion = f.destination (s.outputPath path)) :
    s.CompanionOf path companion := by
  have hplain := plain_of_isGeneratedName hgenerated
  have hparts := parts_eq_of_destination f hbelow' (hbelow.outputPath hsource hplain) hplace
  obtain ⟨name, hname, -⟩ := (Option.any_eq_true _ _).mp hgenerated
  rw [Path.parts_of_fileName? hname, parts_outputPath hsource hplain] at hparts
  obtain ⟨hdir, hlast⟩ := List.append_inj' hparts (by simp)
  have hsame : name = Path.stem path ++ s.companionEnd := by simpa using hlast
  exact ⟨hsource, hsame ▸ hname, hdir⟩

namespace CompanionOf

/-- The source of a companion as its name tells it. -/
theorem sourcePath? (h : s.CompanionOf path companion) :
    s.sourcePath? companion =
      some (Path.withFileName companion (Path.stem path ++ "." ++ s.extension)) :=
  sourcePath?_eq h.fileName (fileName?_of_isSource h.isSource).2

theorem parts_source (h : s.CompanionOf path companion) :
    Path.parts (Path.withFileName companion (Path.stem path ++ "." ++ s.extension)) =
      Path.parts path := by
  obtain ⟨hfile, -⟩ := fileName?_of_isSource h.isSource
  obtain ⟨hname, -⟩ := Path.fileName?_cases hfile
  rw [Path.parts_withFileName h.fileName hname, h.directory, Path.parts_of_fileName? hfile]

theorem destination_source (h : s.CompanionOf path companion) (f : FileSystem) :
    f.destination (Path.withFileName companion (Path.stem path ++ "." ++ s.extension)) =
      f.destination path := by
  rw [FileSystem.destination, FileSystem.destination, h.parts_source]

theorem utf8ByteSize_le (s : Settings) (stem : String) :
    (stem ++ "." ++ s.extension).utf8ByteSize ≤ (stem ++ s.companionEnd).utf8ByteSize := by
  simp only [companionEnd, String.utf8ByteSize_append]
  omega

/-- If both are files, the source is found by the path that the companion tells. -/
theorem node_source (h : s.CompanionOf path companion) {content content' : Content}
    (hnode : f.node path = .ok (.file content))
    (hnode' : f.node companion = .ok (.file content')) :
    f.node (Path.withFileName companion (Path.stem path ++ "." ++ s.extension)) =
      .ok (.file content) := by
  obtain ⟨hfile, -⟩ := fileName?_of_isSource h.isSource
  obtain ⟨dir, name, hopens, -⟩ := FileSystem.opens_of_node hnode
  obtain rfl : name = Path.stem path ++ "." ++ s.extension :=
    Option.some.inj (hopens.fileName?_eq.symm.trans hfile)
  obtain ⟨hname, hnul, hshort⟩ := hopens.entryName
  obtain ⟨dir', name', hopens', -⟩ := FileSystem.opens_of_node hnode'
  have hlong : isPathTooLong (Path.withFileName companion
      (Path.stem path ++ "." ++ s.extension)) = false := by
    have hsize := Path.utf8ByteSize_withFileName_le h.fileName hname.1
      (utf8ByteSize_le s (Path.stem path))
    have hcompanion := FileSystem.notTooLong_of_node hnode'
    simp only [isPathTooLong, decide_eq_false_iff_not] at hcompanion ⊢
    omega
  have hsibling := hopens'.sibling hname hnul hshort hlong
  rw [hsibling.node_eq, ← hsibling.destination_eq, h.destination_source,
    FileSystem.at?_destination_of_node hnode]

end CompanionOf

end Settings

namespace Workspace

/-- Files that cleaning looks at: they are named and marked as companions, and each is there
once. -/
structure Companions (s : Settings) (f : FileSystem) (paths : List String) : Prop where
  wellFormed : f.root.WellFormed
  named : ∀ path ∈ paths, s.isGeneratedName path = true
  headed : ∀ path ∈ paths,
    ∃ text, f.node path = .ok (.file (.text text)) ∧ s.hasHeader text = true
  distinct : (paths.map f.destination).Nodup

section Found

variable {s : Settings} {f : FileSystem} {root : String} {all : List Found} {c : Found}

theorem exists_text_of_marksGenerated (h : s.marksGenerated c = true) :
    isPathTooLong c.path = false ∧
      ∃ text, c.content = .text text ∧ s.hasHeader text = true := by
  rw [Settings.marksGenerated, Found.text?] at h
  cases hlong : isPathTooLong c.path with
  | true => simp [hlong] at h
  | false =>
      rw [hlong, if_neg Bool.false_ne_true] at h
      obtain ⟨text, htext, hheader⟩ := (Option.any_eq_true _ _).mp h
      refine ⟨rfl, text, ?_, hheader⟩
      cases hcontent : c.content with
      | bytes bs => simp [hcontent, Content.text?] at htext
      | text t => simpa [hcontent, Content.text?] using htext

theorem companions_of_candidates (hf : f.root.WellFormed) (hall : candidates s f root = .ok all) :
    Companions s f ((all.filter fun c =>
      s.isGeneratedName c.path && s.marksGenerated c).map Found.path) := by
  have hd := (discovered_of_candidates hf hall).filter fun c =>
    s.isGeneratedName c.path && s.marksGenerated c
  refine ⟨hf, ?_, ?_, ?_⟩
  · intro path hpath
    obtain ⟨c, hc, rfl⟩ := List.mem_map.mp hpath
    exact (Bool.and_eq_true _ _ ▸ (List.mem_filter.mp hc).2).1
  · intro path hpath
    obtain ⟨c, hc, rfl⟩ := List.mem_map.mp hpath
    obtain ⟨hlong, text, htext, hheader⟩ :=
      exists_text_of_marksGenerated (Bool.and_eq_true _ _ ▸ (List.mem_filter.mp hc).2).2
    have hnode := (hd.node c hc).resolve_left (by simp [hlong])
    exact ⟨text, htext ▸ hnode, hheader⟩
  · simpa only [List.Nodup, List.map_map, List.pairwise_map, Function.comp_apply] using
      hd.destination_ne

end Found

/-! One decision. -/

section Decision

variable {s : Settings} {root : String} {f g h : FileSystem} {path : String}

theorem decideCompanion_eq_delete_iff :
    decideCompanion s f path = .delete ↔
      ∃ source, s.sourcePath? path = some source ∧
        (f.isFile source = false ∨
          ∃ a, analyzeFile s f source = .ok a ∧ a.file.isEmpty = true) := by
  rw [decideCompanion]
  cases s.sourcePath? path with
  | none => simp
  | some source =>
      cases hfile : f.isFile source with
      | false => simp [hfile]
      | true =>
          cases hanalyze : analyzeFile s f source with
          | error message => simp [hfile, hanalyze]
          | ok a => cases hempty : a.file.isEmpty <;> simp [hfile, hanalyze, hempty]

/-- Cleaning one file more. -/
theorem cleanFiles_concat {before : List String} {report : CleanReport} {content : Content}
    (hrun : cleanFiles false s root f before = .ok (h, report))
    (hnode : h.node path = .ok (.file content)) :
    ∃ report', cleanFiles false s root f (before ++ [path]) =
      .ok (if decideCompanion s h path = .delete then h.without (h.destination path) else h,
        report') := by
  induction before generalizing f report with
  | nil =>
      obtain ⟨rfl, rfl⟩ := Prod.mk.inj (Except.ok.inj hrun)
      rw [List.nil_append, cleanFiles]
      cases hdecide : decideCompanion s f path with
      | leave => exact ⟨_, rfl⟩
      | keep reason => exact ⟨_, rfl⟩
      | delete =>
          have hremove := FileSystem.removeFile_eq hnode
          simp [delete, hremove, cleanFiles]
  | cons first rest ih =>
      rw [cleanFiles] at hrun
      rw [List.cons_append, cleanFiles]
      cases hdecide : decideCompanion s f first with
      | leave =>
          simp only [hdecide] at hrun
          exact ih hrun
      | keep reason =>
          simp only [hdecide] at hrun
          obtain ⟨⟨k, report'⟩, hrest, hreport⟩ := bind_eq_ok.mp hrun
          obtain ⟨rfl, -⟩ := Prod.mk.inj (Except.ok.inj hreport)
          obtain ⟨report'', hconcat⟩ := ih hrest
          simp [hconcat]
      | delete =>
          simp only [hdecide] at hrun
          obtain ⟨g, hdelete, hrun⟩ := bind_eq_ok.mp hrun
          obtain ⟨⟨k, report'⟩, hrest, hreport⟩ := bind_eq_ok.mp hrun
          obtain ⟨rfl, -⟩ := Prod.mk.inj (Except.ok.inj hreport)
          obtain ⟨report'', hconcat⟩ := ih hrest
          simp [hdelete, hconcat]

end Decision

/-- The removal of the file at a place: when it was looked at by a path, these files were left. -/
structure Removal (s : Settings) (root : String) (f : FileSystem) (paths : List String)
    (place : List String) (path : String) (left : FileSystem) : Prop where
  moment : ∃ before after report,
    paths = before ++ path :: after ∧ cleanFiles false s root f before = .ok (left, report)
  place : f.destination path = place
  named : s.isGeneratedName path = true
  headed : ∃ text, left.node path = .ok (.file (.text text)) ∧ s.hasHeader text = true ∧
    f.node path = .ok (.file (.text text))
  /-- Its source is no file, or has no annotated declarations. -/
  orphan : ∃ source, s.sourcePath? path = some source ∧
    (left.isFile source = false ∨
      ∃ a, analyzeFile s left source = .ok a ∧ a.file.isEmpty = true)

section Run

variable {s : Settings} {root : String} {f : FileSystem} {paths before : List String}

theorem Removal.concat {place : List String} {path : String} {left : FileSystem}
    (h : Removal s root f before place path left) (last : String) :
    Removal s root f (before ++ [last]) place path left := by
  obtain ⟨front, after, report, rfl, hrun⟩ := h.moment
  refine ⟨⟨front, after ++ [last], report, by simp, hrun⟩, h.place, h.named, h.headed, h.orphan⟩

/-- What is removed had the header from the start. -/
theorem Removal.hasHeader {place : List String} {path : String} {left : FileSystem}
    (h : Removal s root f paths place path left) {content : Content}
    (hat : f.root.entryAt place = some (.file content)) :
    content.text?.any s.hasHeader = true := by
  obtain ⟨text, -, hheader, hnode⟩ := h.headed
  have hat' := Forest.entryAt_eq_file_iff.mpr (FileSystem.at?_destination_of_node hnode)
  rw [h.place, hat] at hat'
  obtain rfl : content = .text text := Entry.file.inj (Option.some.inj hat')
  exact hheader

/-- Cleaning removes files one after the other and nothing else. -/
theorem exists_loses (root : String) (hc : Companions s f paths) (hbefore : before <+: paths) :
    ∃ g report gone, cleanFiles false s root f before = .ok (g, report) ∧ Loses f g gone ∧
      ∀ place ∈ gone, ∃ path ∈ before, ∃ left, Removal s root f before place path left := by
  induction before using List.reverseRecOn with
  | nil => exact ⟨f, _, [], rfl, FileSystem.loses_refl hc.wellFormed, by simp⟩
  | append_singleton front path ih =>
      obtain ⟨g, report, gone, hrun, hloses, hremoved⟩ :=
        ih ((List.prefix_append front [path]).trans hbefore)
      have hpath : path ∈ paths := hbefore.subset (by simp)
      obtain ⟨text, hnode, hheader⟩ := hc.headed path hpath
      have hdistinct : ((front ++ [path]).map f.destination).Nodup :=
        hc.distinct.sublist (hbefore.sublist.map _)
      have hkept : f.destination path ∉ gone := by
        intro hgone
        obtain ⟨other, hother, left, hremoval⟩ := hremoved _ hgone
        rw [List.map_append, List.nodup_append] at hdistinct
        exact hdistinct.2.2 _ (List.mem_map.mpr ⟨other, hother, rfl⟩) _
          (List.mem_map.mpr ⟨path, by simp, rfl⟩) hremoval.place
      have hnode' : g.node path = .ok (.file (.text text)) :=
        (hloses.sameFolders.node_file_iff (hloses.kept _ hkept)).mpr hnode
      obtain ⟨report', hconcat⟩ := cleanFiles_concat hrun hnode'
      have hremoved' : ∀ place ∈ gone, ∃ path' ∈ front ++ [path], ∃ left,
          Removal s root f (front ++ [path]) place path' left := by
        intro place hgone
        obtain ⟨other, hother, left, hremoval⟩ := hremoved place hgone
        exact ⟨other, List.mem_append_left _ hother, left, hremoval.concat path⟩
      by_cases hdelete : decideCompanion s g path = .delete
      · rw [if_pos hdelete, hloses.sameFolders.keeps.destination_eq] at hconcat
        refine ⟨_, report', f.destination path :: gone, hconcat, hloses.without hnode', ?_⟩
        refine List.forall_mem_cons.mpr ⟨⟨path, by simp, g, ?_⟩, hremoved'⟩
        exact ⟨⟨front, [], report, rfl, hrun⟩, rfl, hc.named path hpath,
          ⟨text, hnode', hheader, hnode⟩, decideCompanion_eq_delete_iff.mp hdelete⟩
      · rw [if_neg hdelete] at hconcat
        exact ⟨g, report', gone, hconcat, hloses, hremoved'⟩

end Run

section Live

variable {s : Settings} {root : String} {f : FileSystem} {paths : List String} {all : List Found}
  {c d : Found}

/-- The path of a source is not too long if that of its companion is not. -/
theorem notTooLong_of_companionOf (hf : f.root.WellFormed) (hall : candidates s f root = .ok all)
    (hc : c ∈ all) (hd : d ∈ all) (hcompanion : s.CompanionOf c.path d.path)
    (hlong : isPathTooLong d.path = false) : isPathTooLong c.path = false := by
  rw [candidates] at hall
  split at hall
  · rename_i content hnode
    obtain rfl := Except.ok.inj hall
    split at hc
    · obtain rfl := List.mem_singleton.mp hc
      exact FileSystem.notTooLong_of_node hnode
    · cases hc
  · rename_i inside hnode
    split at hall
    · cases hall
    · obtain rfl := Except.ok.inj hall
      have hinside := hf.of_at? (FileSystem.at?_destination_of_node hnode)
      have hroot := FileSystem.ne_empty_of_node hnode
      have hparts := Path.parts_of_fileName? hcompanion.fileName
      rw [hcompanion.directory] at hparts
      have hsize := Forest.utf8ByteSize_le_of_mem_candidates hinside hroot hc hd
        (Path.parts_of_fileName? (Settings.fileName?_of_isSource hcompanion.isSource).1) hparts
        (Settings.CompanionOf.utf8ByteSize_le s (Path.stem c.path))
      simp only [isPathTooLong, decide_eq_false_iff_not] at hlong ⊢
      omega
  · cases hall

/-- A companion is removed only if its source, where it is one, has no declarations. -/
theorem Removal.isEmpty (hgenerated : Companions s f paths) {place : List String}
    {companion : String} {left : FileSystem}
    (h : Removal s root f paths place companion left) (hcompanion : s.CompanionOf c.path companion)
    (hnode : f.node c.path = .ok (.file c.content))
    (hplain : c.content.text?.any s.hasHeader = false) :
    ∃ a, analyzeFile s f c.path = .ok a ∧ a.file.isEmpty = true := by
  -- The source is still there, since it has no header.
  obtain ⟨before, after, report, hpaths, hrun⟩ := h.moment
  obtain ⟨g, report', gone, hrun', hloses, hremoved⟩ := exists_loses root hgenerated
    (hpaths ▸ List.prefix_append before (companion :: after))
  obtain ⟨rfl, -⟩ := Prod.mk.inj (Except.ok.inj (hrun'.symm.trans hrun))
  have hkept : f.destination c.path ∉ gone := by
    intro hgone
    obtain ⟨other, -, left, hremoval⟩ := hremoved _ hgone
    have hheader := hremoval.hasHeader
      (Forest.entryAt_eq_file_iff.mpr (FileSystem.at?_destination_of_node hnode))
    rw [hplain] at hheader
    cases hheader
  have hleft : g.node c.path = .ok (.file c.content) :=
    (hloses.sameFolders.node_file_iff (hloses.kept _ hkept)).mpr hnode
  -- So it is found by the path that the companion tells, and has been analyzed.
  obtain ⟨text, hheaded, -⟩ := h.headed
  have hsource := hcompanion.node_source hleft hheaded
  obtain ⟨source, hpath, horphan⟩ := h.orphan
  obtain rfl := Option.some.inj (hcompanion.sourcePath?.symm.trans hpath)
  obtain ⟨a, hanalyze, hempty⟩ := horphan.resolve_left (by simp [FileSystem.isFile, hsource])
  have hread : f.readText c.path = g.readText
      (Path.withFileName companion (Path.stem c.path ++ "." ++ s.extension)) := by
    rw [FileSystem.readText, FileSystem.readText, hnode, hsource]
  exact ⟨_, analyzeFile_refile hread hanalyze, hempty⟩

end Live

/-- The companion of a source is removed only if the source has no declarations. -/
theorem Removal.isEmpty_of_candidates (hf : f.root.WellFormed)
    (hall : candidates s f root = .ok all)
    (hpaths : ∀ path ∈ paths, ∃ d ∈ all, d.path = path) (hgenerated : Companions s f paths)
    (hc : c ∈ all) (hunmarked : s.marksGenerated c = false) {companion : String}
    {left : FileSystem} (hcompanion : companion ∈ paths)
    (h : Removal s root f paths (f.destination (s.outputPath c.path)) companion left) :
    ∃ a, analyzeFile s f c.path = .ok a ∧ a.file.isEmpty = true := by
  obtain ⟨d, hd, rfl⟩ := hpaths companion hcompanion
  have hdiscovered := discovered_of_candidates hf hall
  obtain ⟨base, hbase⟩ := hdiscovered.below
  have hof := Settings.companionOf_of_destination (hdiscovered.isSource c hc) h.named
    (hbase c hc) (hbase d hd) h.place
  obtain ⟨text, -, -, hnode⟩ := h.headed
  have hlong := notTooLong_of_companionOf hf hall hc hd hof (FileSystem.notTooLong_of_node hnode)
  have hnode' := (hdiscovered.node c hc).resolve_left (by simp [hlong])
  refine h.isEmpty hgenerated hof hnode' ?_
  simpa [Settings.marksGenerated, Found.text?, hlong] using hunmarked

/-- What cleaning leaves of some files, given the paths of their companions and their sources. -/
structure Cleaned (s : Settings) (root : String) (f : FileSystem) (generated : List String)
    (found : List Found) (g : FileSystem) : Prop where
  /-- What is not as it was is a file that was removed as an orphan. -/
  removed : ∀ place, g.root.entryAt place ≠ f.root.entryAt place →
    g.root.entryAt place = none ∧ ∃ path left, Removal s root f generated place path left
  /-- A file without the header stays. -/
  plain : ∀ place content, f.root.entryAt place = some (.file content) →
    content.text?.any s.hasHeader = false → g.root.entryAt place = some (.file content)
  /-- The companion of a source that has declarations, or cannot be analyzed, stays. -/
  live : ∀ c ∈ found, (∀ a, analyzeFile s f c.path = .ok a → a.file.isEmpty = false) →
    g.root.entryAt (f.destination (s.outputPath c.path)) =
      f.root.entryAt (f.destination (s.outputPath c.path))

/-- Cleaning removes only orphans. -/
theorem cleaned_clean {s : Settings} {root : String} {f : FileSystem} {found : List Found}
    (hf : f.root.WellFormed) (hfound : sources s f root = .ok found) :
    ∃ generated g report, companions s f root = .ok generated ∧
      clean false s f root = .ok (g, report) ∧
        Cleaned s root f (generated.map Found.path) found g := by
  obtain ⟨all, hall, rfl⟩ := sources_eq_ok_iff.mp hfound
  have hgenerated := companions_of_candidates hf hall
  obtain ⟨g, report, gone, hrun, hloses, hremoved⟩ :=
    exists_loses root hgenerated (List.prefix_refl _)
  have hcompanions := companions_eq_ok_iff.mpr ⟨all, hall, rfl⟩
  have hclean : clean false s f root = .ok (g, report) := by
    rw [clean, hcompanions, ok_bind]
    exact hrun
  have hgone : ∀ place, g.root.entryAt place ≠ f.root.entryAt place → place ∈ gone := fun place =>
    Decidable.not_imp_comm.mp (hloses.kept place)
  refine ⟨_, g, report, hcompanions, hclean, ?_, ?_, ?_⟩
  · intro place hne
    obtain ⟨path, -, left, hremoval⟩ := hremoved place (hgone place hne)
    exact ⟨hloses.lost place (hgone place hne), path, left, hremoval⟩
  · intro place content hat hplain
    refine (hloses.kept place fun hmem => ?_).trans hat
    obtain ⟨path, -, left, hremoval⟩ := hremoved place hmem
    rw [hremoval.hasHeader hat] at hplain
    cases hplain
  · intro c hc hlive
    refine hloses.kept _ fun hmem => ?_
    obtain ⟨companion, hpath, left, hremoval⟩ := hremoved _ hmem
    obtain ⟨hc, hunmarked⟩ := List.mem_filter.mp hc
    have hamong : ∀ path ∈ (all.filter fun d =>
        s.isGeneratedName d.path && s.marksGenerated d).map Found.path,
        ∃ d ∈ all, d.path = path := by
      intro path hpath
      obtain ⟨d, hd, rfl⟩ := List.mem_map.mp hpath
      exact ⟨d, (List.mem_filter.mp hd).1, rfl⟩
    obtain ⟨a, hanalyze, hempty⟩ := hremoval.isEmpty_of_candidates hf hall hamong hgenerated hc
      (by simpa using hunmarked) hpath
    rw [hlive a hanalyze] at hempty
    cases hempty

/-- A companion without a source, beside a source without a companion. -/
def leftoverFiles : FileSystem where
  root :=
    .file "a_validate.go" (.text "// Code generated by valgen. DO NOT EDIT.\n\npackage v1\n")
      (.file "b.go" (.text "package v1\n") .empty)
  here := []

theorem cleaned_clean_leftoverFiles :
    ∃ generated g report, companions .standard leftoverFiles "." = .ok generated ∧
      clean false .standard leftoverFiles "." = .ok (g, report) ∧
        Cleaned .standard "." leftoverFiles (generated.map Found.path)
          [⟨"./b.go", .text "package v1\n"⟩] g :=
  cleaned_clean ⟨by decide, by decide, by decide, by decide, trivial⟩ (by decide +kernel)

end Workspace

end FieldRules
