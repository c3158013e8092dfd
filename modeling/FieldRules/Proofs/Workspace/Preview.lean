/-
The preview of cleaning.  A dry run judges every companion by the files as they are, a real one by
those that are left.  The two differ where a companion that is removed is the source of a later
one, and only there.
-/
import Mathlib
import FieldRules.Proofs.Workspace.Orphans

namespace FieldRules.Workspace

open FileSystem (Loses)

section

variable (s : Settings) (f : FileSystem)

/-- The source of a companion stood at one of some places. -/
def SourceAmong (gone : List (List String)) (path : String) : Prop :=
  ∃ source, s.sourcePath? path = some source ∧ f.destination source ∈ gone

/-- A companion that is removed although another stays, of which it is the source. -/
def Strands (path other : String) : Prop :=
  decideCompanion s f path = .delete ∧ decideCompanion s f other ≠ .delete ∧
    ∃ source, s.sourcePath? other = some source ∧ f.destination source = f.destination path

/-- Companions of which none loses its source, except those that are removed anyway. -/
def Steady (gone : List (List String)) (paths : List String) : Prop :=
  (∀ path ∈ paths, SourceAmong s f gone path → decideCompanion s f path = .delete) ∧
    paths.Pairwise fun path other => ¬Strands s f path other

end

section Steady

variable {s : Settings} {f : FileSystem} {gone : List (List String)} {place : List String}
  {path : String} {paths : List String}

theorem sourceAmong_cons :
    SourceAmong s f (place :: gone) path ↔
      (∃ source, s.sourcePath? path = some source ∧ f.destination source = place) ∨
        SourceAmong s f gone path := by
  simp only [SourceAmong, List.mem_cons, and_or_left, exists_or]

theorem steady_nil : Steady s f gone [] := ⟨by simp, List.Pairwise.nil⟩

/-- A companion that is removed takes its place away from the later ones. -/
theorem steady_cons_delete (hdelete : decideCompanion s f path = .delete) :
    Steady s f gone (path :: paths) ↔ Steady s f (f.destination path :: gone) paths := by
  simp only [Steady, List.forall_mem_cons, List.pairwise_cons, sourceAmong_cons, Strands, hdelete,
    true_and]
  constructor
  · rintro ⟨⟨-, hlater⟩, hstrands, hpairwise⟩
    refine ⟨fun other hother hamong => ?_, hpairwise⟩
    rcases hamong with hfirst | hgone
    · exact Decidable.byContradiction fun hstays => hstrands other hother ⟨hstays, hfirst⟩
    · exact hlater other hother hgone
  · rintro ⟨hlater, hpairwise⟩
    refine ⟨⟨fun _ => trivial, fun other hother hgone => hlater other hother (Or.inr hgone)⟩, ?_,
      hpairwise⟩
    rintro other hother ⟨hstays, hfirst⟩
    exact hstays (hlater other hother (Or.inl hfirst))

theorem steady_cons_stays (hstays : decideCompanion s f path ≠ .delete)
    (hsource : ¬SourceAmong s f gone path) :
    Steady s f gone (path :: paths) ↔ Steady s f gone paths := by
  simp [Steady, Strands, hstays, hsource]

theorem not_steady_cons (hstays : decideCompanion s f path ≠ .delete)
    (hsource : SourceAmong s f gone path) : ¬Steady s f gone (path :: paths) :=
  fun h => hstays (h.1 path List.mem_cons_self hsource)

end Steady

/-! Two runs side by side. -/

section Compare

variable {s : Settings} {f g : FileSystem} {root path : String} {gone : List (List String)}
  {paths : List String}

/-- A companion is removed if its source was, and is judged as before if not. -/
theorem decideCompanion_of_loses (s : Settings) (path : String) (h : Loses f g gone) :
    (SourceAmong s f gone path → decideCompanion s g path = .delete) ∧
      (¬SourceAmong s f gone path → decideCompanion s g path = decideCompanion s f path) := by
  rw [decideCompanion, decideCompanion]
  cases hpath : s.sourcePath? path with
  | none => simp [SourceAmong, hpath]
  | some source =>
      dsimp only
      have hamong : SourceAmong s f gone path ↔ f.destination source ∈ gone := by
        simp [SourceAmong, hpath]
      rw [hamong]
      constructor
      · intro hgone
        have hfile : g.isFile source = false := by
          rw [← Bool.not_eq_true, h.isFile_iff]
          exact fun hfile => hfile.2 hgone
        simp [hfile]
      · intro hkept
        have hsame : g.isFile source = f.isFile source := by
          rw [Bool.eq_iff_iff, h.isFile_iff]
          simp [hkept]
        cases hfile : g.isFile source with
        | false => simp [← hsame, hfile]
        | true => rw [← hsame, hfile, analyzeFile, analyzeFile, h.readText_eq hfile]

/-- Companions that are still there, in files of which some were removed. -/
structure Pending (s : Settings) (root : String) (f g : FileSystem) (gone : List (List String))
    (paths : List String) : Prop where
  loses : Loses f g gone
  file : ∀ path ∈ paths, ∃ content, f.node path = .ok (.file content)
  apart : ∀ path ∈ paths, f.destination path ∉ gone
  distinct : (paths.map f.destination).Nodup
  root : ∀ path ∈ paths, path = root ∨ ∃ inside, f.node root = .ok (.folder inside)

namespace Pending

theorem node (h : Pending s root f g gone (path :: paths)) :
    ∃ content, f.node path = .ok (.file content) ∧ g.node path = .ok (.file content) := by
  obtain ⟨content, hnode⟩ := h.file path List.mem_cons_self
  have hkept := h.loses.kept _ (h.apart path List.mem_cons_self)
  exact ⟨content, hnode, (h.loses.sameFolders.node_file_iff hkept).mpr hnode⟩

/-- Both runs show paths in the same way. -/
theorem displayPath_eq (h : Pending s root f g gone (path :: paths)) (shown : String) :
    displayPath g root shown = displayPath f root shown := by
  rcases h.root path List.mem_cons_self with rfl | ⟨inside, hinside⟩
  · obtain ⟨content, hnode, hnode'⟩ := h.node
    rw [displayPath, displayPath, FileSystem.isFile, FileSystem.isFile, hnode, hnode']
  · exact displayPath_of_keeps h.loses.sameFolders.keeps hinside shown

theorem tail (h : Pending s root f g gone (path :: paths)) : Pending s root f g gone paths where
  loses := h.loses
  file other hother := h.file other (List.mem_cons_of_mem path hother)
  apart other hother := h.apart other (List.mem_cons_of_mem path hother)
  distinct := (List.nodup_cons.mp h.distinct).2
  root other hother := h.root other (List.mem_cons_of_mem path hother)

theorem without (h : Pending s root f g gone (path :: paths)) :
    Pending s root f (g.without (f.destination path)) (f.destination path :: gone) paths where
  loses := by
    obtain ⟨content, -, hnode⟩ := h.node
    exact h.loses.without hnode
  file := h.tail.file
  apart other hother := by
    have hne := (List.nodup_cons.mp h.distinct).1
    rw [List.mem_cons, not_or]
    refine ⟨fun heq => hne ?_, h.tail.apart other hother⟩
    exact heq ▸ List.mem_map.mpr ⟨other, hother, rfl⟩
  distinct := h.tail.distinct
  root := h.tail.root

/-- A real run goes on without a companion that it removes. -/
theorem cleanFiles_delete (h : Pending s root f g gone (path :: paths))
    (hdelete : decideCompanion s g path = .delete) {left : FileSystem} {report : CleanReport}
    (hrest : cleanFiles false s root (g.without (f.destination path)) paths = .ok (left, report)) :
    cleanFiles false s root g (path :: paths) =
      .ok (left, { report with deleted := displayPath f root path :: report.deleted }) := by
  obtain ⟨content, -, hnode⟩ := h.node
  have hremove := FileSystem.removeFile_eq hnode
  rw [h.loses.sameFolders.keeps.destination_eq] at hremove
  simp [cleanFiles, hdelete, delete, hremove, hrest, h.displayPath_eq]

end Pending

/-- A dry run goes on with all files after a companion that it leaves. -/
theorem cleanFiles_dry_stays (hstays : decideCompanion s f path ≠ .delete) {dry : CleanReport}
    (hrest : cleanFiles true s root f paths = .ok (f, dry)) :
    ∃ dry', cleanFiles true s root f (path :: paths) = .ok (f, dry') ∧
      dry'.deleted = dry.deleted ∧ dry.kept.Sublist dry'.kept := by
  cases hdecide : decideCompanion s f path with
  | delete => exact absurd hdecide hstays
  | leave => simp [cleanFiles, hdecide, hrest]
  | keep reason => simp [cleanFiles, hdecide, hrest]

/-- What a dry run shows is among what a real one does, and is all of it under a condition only. -/
structure Foretells (dry real : CleanReport) (steady : Prop) : Prop where
  deleted : dry.deleted.Sublist real.deleted
  kept : real.kept.Sublist dry.kept
  same : (dry.deleted = real.deleted ∧ dry.kept = real.kept) ↔ steady

namespace Foretells

variable {dry dry' real : CleanReport} {steady : Prop}

theorem delete (h : Foretells dry real steady) (shown : String) :
    Foretells { dry with deleted := shown :: dry.deleted }
      { real with deleted := shown :: real.deleted } steady where
  deleted := h.deleted.cons_cons shown
  kept := h.kept
  same := by simpa using h.same

theorem keep (h : Foretells dry real steady) (entry : String × String) :
    Foretells { dry with kept := entry :: dry.kept }
      { real with kept := entry :: real.kept } steady where
  deleted := h.deleted
  kept := h.kept.cons_cons entry
  same := by simpa using h.same

/-- A companion that only the real run removes makes the reports differ, whatever comes later. -/
theorem strand (h : Foretells dry real steady) (hdeleted : dry'.deleted = dry.deleted)
    (hkept : dry.kept.Sublist dry'.kept) (shown : String) :
    Foretells dry' { real with deleted := shown :: real.deleted } False := by
  refine ⟨hdeleted ▸ h.deleted.cons shown, h.kept.trans hkept, iff_of_false ?_ id⟩
  rintro ⟨hsame, -⟩
  have hlength := h.deleted.length_le
  rw [← hdeleted, hsame, List.length_cons] at hlength
  omega

end Foretells

/-- A dry run and a real one over the same companions.  What the dry run shows as removed is
removed, and the reports agree exactly if no companion loses its source to another. -/
theorem cleanFiles_compare (h : Pending s root f g gone paths) :
    ∃ dry left real, cleanFiles true s root f paths = .ok (f, dry) ∧
      cleanFiles false s root g paths = .ok (left, real) ∧
        Foretells dry real (Steady s f gone paths) := by
  induction paths generalizing g gone with
  | nil =>
      refine ⟨_, g, _, rfl, rfl, List.Sublist.refl _, List.Sublist.refl _, ?_⟩
      simp [steady_nil]
  | cons path rest ih =>
      obtain ⟨hgone, hsame⟩ := decideCompanion_of_loses s path h.loses
      by_cases hdelete : decideCompanion s f path = .delete
      · have hdelete' : decideCompanion s g path = .delete := by
          by_cases hsource : SourceAmong s f gone path
          · exact hgone hsource
          · rw [hsame hsource, hdelete]
        obtain ⟨dry, left, real, hdry, hreal, hboth⟩ := ih h.without
        rw [← steady_cons_delete hdelete] at hboth
        refine ⟨_, left, _, ?_, h.cleanFiles_delete hdelete' hreal,
          hboth.delete (displayPath f root path)⟩
        simp [cleanFiles, hdelete, delete, hdry]
      by_cases hsource : SourceAmong s f gone path
      · -- The real run removes a companion that the dry run leaves.
        obtain ⟨dry, left, real, hdry, hreal, hboth⟩ := ih h.without
        obtain ⟨dry', hdry', hdeleted, hkept⟩ := cleanFiles_dry_stays hdelete hdry
        refine ⟨dry', left, _, hdry', h.cleanFiles_delete (hgone hsource) hreal, ?_⟩
        rw [eq_false (not_steady_cons hdelete hsource)]
        exact hboth.strand hdeleted hkept _
      · obtain ⟨dry, left, real, hdry, hreal, hboth⟩ := ih h.tail
        rw [← steady_cons_stays hdelete hsource] at hboth
        have hdecide' := hsame hsource
        cases hdecide : decideCompanion s f path with
        | delete => exact absurd hdecide hdelete
        | leave =>
            rw [hdecide] at hdecide'
            refine ⟨dry, left, real, ?_, ?_, hboth⟩
            · simp [cleanFiles, hdecide, hdry]
            · simp [cleanFiles, hdecide', hreal]
        | keep reason =>
            rw [hdecide] at hdecide'
            refine ⟨_, left, _, ?_, ?_, hboth.keep (displayPath f root path, reason)⟩
            · simp [cleanFiles, hdecide, hdry]
            · simp [cleanFiles, hdecide', hreal, h.displayPath_eq]

end Compare

/-- A dry run changes nothing, and what it shows as removed is removed by a real run.  The two
report the same exactly if no companion that is removed is the source of a later one that would
stay. -/
theorem preview_eq_iff {s : Settings} {f : FileSystem} {root : String} {found : List Found}
    (hf : f.root.WellFormed) (hfound : companions s f root = .ok found) :
    ∃ dry g real, clean true s f root = .ok (f, dry) ∧ clean false s f root = .ok (g, real) ∧
      dry.deleted.Sublist real.deleted ∧ real.kept.Sublist dry.kept ∧
        ((dry.deleted = real.deleted ∧ dry.kept = real.kept) ↔
          (found.map Found.path).Pairwise fun path other => ¬Strands s f path other) := by
  obtain ⟨all, hall, rfl⟩ := companions_eq_ok_iff.mp hfound
  have hcompanions := companions_of_candidates hf hall
  have hpending : Pending s root f f [] ((all.filter fun c =>
      s.isGeneratedName c.path && s.marksGenerated c).map Found.path) := by
    refine ⟨FileSystem.loses_refl hf, ?_, by simp, hcompanions.distinct, ?_⟩
    · intro path hpath
      obtain ⟨text, hnode, -⟩ := hcompanions.headed path hpath
      exact ⟨.text text, hnode⟩
    · intro path hpath
      obtain ⟨c, hc, rfl⟩ := List.mem_map.mp hpath
      exact (discovered_of_candidates hf hall).root c (List.mem_filter.mp hc).1
  obtain ⟨dry, g, real, hdry, hreal, hboth⟩ := cleanFiles_compare hpending
  refine ⟨dry, g, real, ?_, ?_, hboth.deleted, hboth.kept, ?_⟩
  · rw [clean, hfound, ok_bind, hdry]
  · rw [clean, hfound, ok_bind, hreal]
  · rw [hboth.same, Steady]
    exact and_iff_right fun path hpath hamong => by simp [SourceAmong] at hamong

/-- A generated file with an annotated declaration. -/
def annotatedCompanion : String :=
  "// Code generated by valgen. DO NOT EDIT.\n\npackage v1\n\n" ++
    "// +generate:validate\ntype A struct{}\n"

/-- A companion without a source, and a companion of that companion. -/
def chainFiles : FileSystem where
  root :=
    .file "a_validate.go" (.text annotatedCompanion)
      (.file "a_validate_validate.go"
        (.text "// Code generated by valgen. DO NOT EDIT.\n\npackage v1\n") .empty)
  here := []

theorem companions_chainFiles :
    companions .standard chainFiles "." =
      .ok [⟨"./a_validate.go", .text annotatedCompanion⟩,
        ⟨"./a_validate_validate.go",
          .text "// Code generated by valgen. DO NOT EDIT.\n\npackage v1\n"⟩] := by
  decide +kernel

theorem preview_eq_iff_chainFiles :
    ∃ dry g real, clean true .standard chainFiles "." = .ok (chainFiles, dry) ∧
      clean false .standard chainFiles "." = .ok (g, real) ∧ dry.deleted.Sublist real.deleted := by
  have hf : chainFiles.root.WellFormed := ⟨by decide, by decide, by decide, by decide, trivial⟩
  obtain ⟨dry, g, real, hdry, hreal, hdeleted, -⟩ := preview_eq_iff hf companions_chainFiles
  exact ⟨dry, g, real, hdry, hreal, hdeleted⟩

theorem decideCompanion_chainFiles :
    decideCompanion .standard chainFiles "./a_validate.go" = .delete ∧
      decideCompanion .standard chainFiles "./a_validate_validate.go" = .leave := by
  have hread : chainFiles.readText "./a_validate.go" = .ok annotatedCompanion := by decide +kernel
  have hpath : Settings.standard.sourcePath? "./a_validate_validate.go" =
      some "./a_validate.go" := by decide +kernel
  have hfile : chainFiles.isFile "./a_validate.go" = true := by decide +kernel
  obtain ⟨a, ha, hempty⟩ : ∃ a, analyze "./a_validate.go" annotatedCompanion .standard .builtin =
      .ok a ∧ a.file.isEmpty = false := exists_analyze_of_any (by cbv)
  have hanalyze := analyzeFile_eq_ok_iff.mpr ⟨_, hread, ha⟩
  exact ⟨by decide +kernel, by simp [decideCompanion, hpath, hfile, hanalyze, hempty]⟩

/-- What is left when the first companion is removed. -/
def strandedFiles : FileSystem where
  root :=
    .file "a_validate_validate.go"
      (.text "// Code generated by valgen. DO NOT EDIT.\n\npackage v1\n") .empty
  here := []

/-- A dry run leaves the second companion, and a real one removes it. -/
theorem preview_ne_chainFiles :
    ∃ dry g real, clean true .standard chainFiles "." = .ok (chainFiles, dry) ∧
      clean false .standard chainFiles "." = .ok (g, real) ∧
        dry.deleted = ["a_validate.go"] ∧
          real.deleted = ["a_validate.go", "a_validate_validate.go"] := by
  obtain ⟨hfirst, hsecond⟩ := decideCompanion_chainFiles
  have hremove : chainFiles.removeFile "./a_validate.go" = .ok strandedFiles := by decide +kernel
  have hstranded : decideCompanion .standard strandedFiles "./a_validate_validate.go" =
      .delete := by decide +kernel
  have hremove' : strandedFiles.removeFile "./a_validate_validate.go" = .ok ⟨.empty, []⟩ := by
    decide +kernel
  have hshown : displayPath chainFiles "." "./a_validate.go" = "a_validate.go" := by
    decide +kernel
  have hshown' : displayPath strandedFiles "." "./a_validate_validate.go" =
      "a_validate_validate.go" := by decide +kernel
  simp [clean, companions_chainFiles, cleanFiles, delete, hfirst, hsecond, hremove, hstranded,
    hremove', hshown, hshown']

end FieldRules.Workspace
