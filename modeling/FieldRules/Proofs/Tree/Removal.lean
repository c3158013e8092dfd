/-
What removing a file changes.  The file is gone, and everything else stands where it was, so a
path leads to a file that is left exactly if it led there before.
-/
import FieldRules.Proofs.Tree.WellFormed

namespace FieldRules

namespace Forest

/-! One directory. -/

section Directory

variable {f : Forest} {name other : String}

theorem child?_remove_of_ne (h : other ≠ name) : (f.remove name).child? other = f.child? other := by
  induction f with
  | empty => rfl
  | file n c rest ih =>
      by_cases hn : n = name
      · simp [remove, child?, hn, h.symm]
      · simp [remove, child?, hn, ih]
  | folder n inside rest _ ih =>
      by_cases hn : n = name
      · simp [remove, child?, hn, h.symm]
      · simp [remove, child?, hn, ih]

theorem child?_eq_none (h : ∀ n ∈ f.names, name < n) : f.child? name = none := by
  cases hchild : f.child? name with
  | none => rfl
  | some n => exact absurd (h name (mem_names_of_child? hchild)) (String.lt_irrefl name)

/-- No other entry has the name of one that is removed. -/
theorem child?_remove_self (hf : f.WellFormed) : (f.remove name).child? name = none := by
  induction f with
  | empty => rfl
  | file n c rest ih =>
      by_cases hn : n = name
      · rw [remove, if_pos hn]
        exact child?_eq_none (hn ▸ hf.2.1)
      · simp [remove, child?, hn, ih hf.2.2]
  | folder n inside rest _ ih =>
      by_cases hn : n = name
      · rw [remove, if_pos hn]
        exact child?_eq_none (hn ▸ hf.2.1)
      · simp [remove, child?, hn, ih hf.2.2.2]

end Directory

/-! Places. -/

section Place

variable {f : Forest} {name : String} {dir other place : List String}

theorem local_remove : Local WellFormed name (remove name) where
  inside hf hinside := hf.inside hinside
  child?_of_ne := child?_remove_of_ne
  at?_below hf _ := by rw [at?_cons, child?_remove_self hf]

/-- A file that is removed leaves all other places as they were. -/
theorem entryAt_removeAt_of_ne (hf : f.WellFormed)
    (hplace : f.entryAt (dir ++ [name]) ≠ some .folder) (hne : other ≠ dir ++ [name]) :
    (f.removeAt (dir ++ [name])).entryAt other = f.entryAt other :=
  entryAt_changeAt_of_ne local_remove hf hplace hne

theorem at?_removeAt_self (hf : f.WellFormed) :
    (f.removeAt (dir ++ [name])).at? (dir ++ [name]) = none := by
  induction dir generalizing f with
  | nil => simp [removeAt, changeAt, at?_cons, child?_remove_self hf]
  | cons first dir ih =>
      rw [removeAt, List.cons_append, changeAt_cons, at?_cons, child?_within, if_pos rfl]
      cases hchild : f.child? first with
      | none => rfl
      | some n =>
          cases n with
          | file content => simp [Node.inside]
          | folder inside => exact ih (hf.inside hchild)

end Place

end Forest

namespace FileSystem

open FieldRules.Forest (entryAt_eq_file_iff)

theorem isFile_iff {f : FileSystem} {path : String} :
    f.isFile path = true ↔ ∃ content, f.node path = .ok (.file content) := by
  rw [isFile]
  split
  · rename_i content hnode
    simp [hnode]
  · rename_i hnot
    simpa using hnot

/-! Removing. -/

/-- A file system without what stands at one place. -/
def without (f : FileSystem) (place : List String) : FileSystem :=
  { f with root := f.root.removeAt place }

/-- A file system after the files at some places were removed. -/
structure Loses (f g : FileSystem) (gone : List (List String)) : Prop where
  here : g.here = f.here
  wellFormed : g.root.WellFormed
  file : ∀ place ∈ gone, f.root.entryAt place ≠ some .folder
  lost : ∀ place ∈ gone, g.root.entryAt place = none
  kept : ∀ place ∉ gone, g.root.entryAt place = f.root.entryAt place

section Removing

variable {f g : FileSystem} {path : String} {content : Content} {gone : List (List String)}

/-- A file that is there can be removed. -/
theorem removeFile_eq (h : f.node path = .ok (.file content)) :
    f.removeFile path = .ok (f.without (f.destination path)) := by
  obtain ⟨place, hplace, hat⟩ := node_eq_ok_iff.mp h
  obtain rfl := eq_destination_of_place hplace
  rw [removeFile, hplace, ok_bind, hat]
  rfl

theorem loses_refl (hf : f.root.WellFormed) : Loses f f [] :=
  ⟨rfl, hf, by simp, by simp, fun _ _ => rfl⟩

theorem Loses.sameFolders (h : Loses f g gone) : SameFolders f g := by
  refine ⟨h.here, fun place => ?_⟩
  by_cases hgone : place ∈ gone
  · have hnone : g.root.entryAt place ≠ some .folder := by simp [h.lost place hgone]
    exact ⟨fun hfolder => absurd hfolder hnone, fun hfolder => absurd hfolder (h.file place hgone)⟩
  · rw [h.kept place hgone]

theorem Loses.isFile_iff (h : Loses f g gone) :
    g.isFile path = true ↔ f.isFile path = true ∧ f.destination path ∉ gone := by
  rw [FileSystem.isFile_iff, FileSystem.isFile_iff]
  by_cases hgone : f.destination path ∈ gone
  · have hnone := h.lost _ hgone
    constructor
    · rintro ⟨content, hnode⟩
      have hat := entryAt_eq_file_iff.mpr (at?_destination_of_node hnode)
      rw [h.sameFolders.keeps.destination_eq, hnone] at hat
      cases hat
    · exact fun hfile => absurd hgone hfile.2
  · simp only [h.sameFolders.node_file_iff (h.kept _ hgone), hgone, not_false_eq_true, and_true]

theorem Loses.readText_eq (h : Loses f g gone) (hfile : g.isFile path = true) :
    g.readText path = f.readText path := by
  obtain ⟨content, hnode⟩ := FileSystem.isFile_iff.mp hfile
  have hkept := (h.isFile_iff.mp hfile).2
  rw [readText, readText, hnode, (h.sameFolders.node_file_iff (h.kept _ hkept)).mp hnode]

/-- One more file is removed. -/
theorem Loses.without (h : Loses f g gone) (hnode : g.node path = .ok (.file content)) :
    Loses f (g.without (f.destination path)) (f.destination path :: gone) := by
  obtain ⟨dir, name, hopens, hat⟩ := opens_of_node hnode
  have hplace : f.destination path = dir ++ [name] := by
    rw [← h.sameFolders.keeps.destination_eq, hopens.destination_eq]
  have hfile : g.root.entryAt (dir ++ [name]) ≠ some .folder := by
    simp [entryAt_eq_file_iff.mpr hat]
  have hother : ∀ place, place ≠ dir ++ [name] →
      (g.without (dir ++ [name])).root.entryAt place = g.root.entryAt place := fun place hne =>
    Forest.entryAt_removeAt_of_ne h.wellFormed hfile hne
  have hself : (g.without (dir ++ [name])).root.entryAt (dir ++ [name]) = none := by
    rw [Forest.entryAt, FileSystem.without, Forest.at?_removeAt_self h.wellFormed]
    rfl
  rw [hplace]
  refine ⟨h.here, h.wellFormed.changeAt fun _ hinside => hinside.remove, ?_, ?_, ?_⟩
  · intro place hgone
    rcases List.mem_cons.mp hgone with rfl | hgone
    · exact fun hfolder => hfile ((h.sameFolders.folder _).mpr hfolder)
    · exact h.file place hgone
  · intro place hgone
    by_cases hne : place = dir ++ [name]
    · rw [hne, hself]
    · rw [hother place hne, h.lost place ((List.mem_cons.mp hgone).resolve_left hne)]
  · intro place hkept
    rw [List.mem_cons, not_or] at hkept
    rw [hother place hkept.1, h.kept place hkept.2]

end Removing

end FileSystem

end FieldRules
