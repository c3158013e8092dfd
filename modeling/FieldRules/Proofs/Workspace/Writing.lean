/-
What the generation of one companion changes.  A text goes to the place that the path of the
companion describes, unless it stands there already, and no other file changes.
-/
import FieldRules.Proofs.Code.Indentation
import FieldRules.Proofs.Tree.Siblings
import FieldRules.Workspace.Generate

namespace FieldRules

namespace FileSystem

/-- A path that a file can be written to. -/
def Writable (f : FileSystem) (path : String) : Prop :=
  ∃ dir name, Opens f path dir name ∧ f.root.entryAt (dir ++ [name]) ≠ some .folder

section Writable

variable {f g : FileSystem} {path : String}

theorem writable_iff (content : Content) :
    f.Writable path ↔ ∃ g, f.writeFile path content = .ok g := by
  constructor
  · rintro ⟨dir, name, hopens, hfree⟩
    exact ⟨_, hopens.writeFile_eq hfree content⟩
  · rintro ⟨g, h⟩
    obtain ⟨dir, name, hopens, hfree, -⟩ := opens_of_writeFile h
    exact ⟨dir, name, hopens, hfree⟩

theorem Writable.free (h : f.Writable path) : f.Free (f.destination path) := by
  obtain ⟨dir, name, hopens, hfree⟩ := h
  rw [hopens.destination_eq]
  exact ⟨dir, name, rfl, hopens.folder, hfree⟩

theorem Writable.of_keeps (h : f.Writable path) (hk : Keeps f g)
    (hfree : g.root.entryAt (f.destination path) ≠ some .folder) : g.Writable path := by
  obtain ⟨dir, name, hopens, -⟩ := h
  rw [hopens.destination_eq] at hfree
  exact ⟨dir, name, hopens.of_keeps hk, hfree⟩

/-- What can be written depends on the directories only. -/
theorem Writable.of_sameFolders (h : f.Writable path) (hfg : SameFolders f g) :
    g.Writable path := by
  apply h.of_keeps hfg.keeps
  intro hfolder
  obtain ⟨dir, name, hplace, -, hfree⟩ := h.free
  exact hfree ((hfg.folder _).mp hfolder)

/-- What can be written can be read. -/
theorem Writable.node_eq (h : f.Writable path) :
    f.node path =
      match f.root.at? (f.destination path) with
      | some n => .ok n
      | none => .error .notFound := by
  obtain ⟨dir, name, hopens, -⟩ := h
  rw [hopens.destination_eq]
  exact hopens.node_eq

theorem writable_of_node {content : Content} (h : f.node path = .ok (.file content)) :
    f.Writable path := by
  obtain ⟨dir, name, hopens, hat⟩ := opens_of_node h
  exact ⟨dir, name, hopens, by rw [Forest.entryAt_eq_file_iff.mpr hat]; simp⟩

/-- A path that could be written leads to the file that stands at its place later. -/
theorem Writable.node_of_keeps {content : Content} (h : f.Writable path) (hk : Keeps f g)
    (hat : g.root.at? (f.destination path) = some (.file content)) :
    g.node path = .ok (.file content) := by
  have hfree : g.root.entryAt (f.destination path) ≠ some .folder := by
    rw [Forest.entryAt_eq_file_iff.mpr hat]
    simp
  rw [(h.of_keeps hk hfree).node_eq, hk.destination_eq, hat]

end Writable

end FileSystem

/-! The text of a companion. -/

namespace Workspace

open FileSystem (Grows)

/-- A companion begins with the header. -/
theorem companionText_eq (s : Settings) (file : AnnotatedFile) :
    ∃ rest, companionText s file = s.header ++ "\n" ++ rest :=
  (file.lower s.header).exists_render_eq

section Update

variable {f : FileSystem} {path text : String}

/-- Nothing has to be made to write a file that can be written. -/
theorem replace_of_writable (h : f.Writable path) :
    replace f path text = (f.withFile (f.destination path) (.text text), .written) := by
  obtain ⟨dir, name, hopens, hfree⟩ := h
  rw [replace, hopens.makeFoldersTo_directory]
  dsimp only
  rw [hopens.writeFile_eq hfree, hopens.destination_eq]

/-- A text is written unless it stands there. -/
theorem update_of_writable (h : f.Writable path) :
    update f path text =
      if f.root.at? (f.destination path) = some (.file (.text text)) then (f, .unchanged)
      else (f.withFile (f.destination path) (.text text), .written) := by
  rw [update, h.node_eq, ← replace_of_writable h]
  cases hat : f.root.at? (f.destination path) with
  | none => simp
  | some n =>
      cases n with
      | folder inside => simp
      | file content => cases content <;> simp

/-- A path into a directory that is there is left alone if it cannot be written. -/
theorem update_of_not_writable (text : String)
    (hmake : f.makeFoldersTo (Path.directory path) = (f, none))
    (h : ¬f.Writable path) : ∃ message, update f path text = (f, .failed message) := by
  have hwrite : ∃ e, f.writeFile path (.text text) = .error e := by
    cases hg : f.writeFile path (.text text) with
    | ok g => exact absurd ((FileSystem.writable_iff _).mpr ⟨g, hg⟩) h
    | error e => exact ⟨e, rfl⟩
  obtain ⟨e, he⟩ := hwrite
  refine ⟨s!"failed to write '{path}': " ++ e.message, ?_⟩
  rw [update]
  split
  · rename_i old hnode
    exact absurd (FileSystem.writable_of_node hnode) h
  · simp only [replace, hmake, he]

theorem grows_replace : Grows f (replace f path text).1 (· = f.destination path) := by
  have hmake := FileSystem.grows_makeFoldersTo f (Path.directory path)
  rw [replace]
  split
  · rename_i g e hg
    rw [hg] at hmake
    exact hmake.weaken fun _ h => h.elim
  · rename_i g hg
    rw [hg] at hmake
    have hgrows : Grows f g (· = f.destination path) := hmake.weaken fun _ h => h.elim
    split
    · exact hgrows
    · rename_i h hwrite
      have hlast := FileSystem.grows_writeFile hwrite
      rw [hmake.toKeeps.destination_eq] at hlast
      exact hgrows.trans hlast

/-- Updating a file changes no other. -/
theorem grows_update (f : FileSystem) (path text : String) :
    Grows f (update f path text).1 (· = f.destination path) := by
  rw [update]
  split
  · split
    · exact Grows.refl f _
    · exact grows_replace
  · exact grows_replace

end Update

section Generate

variable {dryRun : Bool} {s : Settings} {root : String} {f : FileSystem}

/-- Write the companion of a file, or show it in a dry run. -/
def deliver (dryRun : Bool) (s : Settings) (root : String) (f : FileSystem) (file : AnnotatedFile)
    (text : String) : FileSystem × FileStatus :=
  let output := s.outputPath file.path
  let display := displayPath f root output
  if dryRun then (f, .preview display text)
  else
    match update f output text with
    | (g, .failed message) => (g, .failed message)
    | (g, .unchanged) => (g, .unchanged)
    | (g, .written) => (g, .written display)

theorem emit_eq (file : AnnotatedFile) :
    emit dryRun s root f file =
      if file.isEmpty then (f, .noAnnotations)
      else deliver dryRun s root f file (companionText s file) := by
  rcases hupdate : update f (s.outputPath file.path) (companionText s file) with ⟨g, outcome⟩
  cases outcome <;> simp [emit, deliver, hupdate]

/-- A companion that can be written is delivered unless it is up to date. -/
theorem deliver_of_writable {file : AnnotatedFile} {text : String}
    (h : f.Writable (s.outputPath file.path)) :
    deliver false s root f file text =
      if f.root.at? (f.destination (s.outputPath file.path)) = some (.file (.text text)) then
        (f, .unchanged)
      else (f.withFile (f.destination (s.outputPath file.path)) (.text text),
        .written (displayPath f root (s.outputPath file.path))) := by
  rw [deliver, if_neg Bool.false_ne_true, update_of_writable h]
  by_cases hat : f.root.at? (f.destination (s.outputPath file.path)) = some (.file (.text text))
  · rw [if_pos hat, if_pos hat]
  · rw [if_neg hat, if_neg hat]

theorem deliver_of_not_writable {file : AnnotatedFile} (root text : String)
    (hmake : f.makeFoldersTo (Path.directory (s.outputPath file.path)) = (f, none))
    (h : ¬f.Writable (s.outputPath file.path)) :
    ∃ message, deliver false s root f file text = (f, .failed message) := by
  obtain ⟨message, hupdate⟩ := update_of_not_writable text hmake h
  exact ⟨message, by rw [deliver, if_neg Bool.false_ne_true, hupdate]⟩

theorem grows_deliver (file : AnnotatedFile) (text : String) :
    Grows f (deliver dryRun s root f file text).1 (· = f.destination (s.outputPath file.path)) := by
  have hupdate := grows_update f (s.outputPath file.path) text
  rw [deliver]
  split
  · exact Grows.refl f _
  · split <;> rename_i h <;> rwa [h] at hupdate

end Generate

end Workspace

end FieldRules
