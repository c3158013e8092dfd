/-
File systems in which generated files were written.  What is written bears the header, so it is
no source afterwards, and a file without the header has been left alone.
-/
import FieldRules.Proofs.Workspace.Walk
import FieldRules.Proofs.Workspace.Writing

namespace FieldRules

open FileSystem (SameFolders Opens isPathTooLong)

/-- A file system that differs from another by files with the header only. -/
structure Marks (s : Settings) (f g : FileSystem) : Prop extends SameFolders f g where
  wellFormed : g.root.WellFormed
  file : ∀ place, g.root.entryAt place = f.root.entryAt place ∨
    ∃ text, s.hasHeader text = true ∧ g.root.entryAt place = some (.file (.text text))

/-- A file with the header stands where a path leads. -/
def Overwritten (s : Settings) (f : FileSystem) (path : String) : Prop :=
  ∃ text, s.hasHeader text = true ∧
    f.root.entryAt (f.destination path) = some (.file (.text text))

section Marks

variable {s : Settings} {f g h : FileSystem} {path text : String}

theorem Marks.refl (hf : f.root.WellFormed) : Marks s f f :=
  ⟨SameFolders.refl f, hf, fun _ => Or.inl rfl⟩

theorem Marks.trans (hfg : Marks s f g) (hgh : Marks s g h) : Marks s f h := by
  refine ⟨hfg.toSameFolders.trans hgh.toSameFolders, hgh.wellFormed, fun place => ?_⟩
  rcases hgh.file place with hsame | hmarked
  · rw [hsame]
    exact hfg.file place
  · exact Or.inr hmarked

/-- Files are still files. -/
theorem Marks.node (hfg : Marks s f g) {content : Content}
    (hnode : f.node path = .ok (.file content)) :
    ∃ content, g.node path = .ok (.file content) := by
  have hat := Forest.entryAt_eq_file_iff.mpr (FileSystem.at?_destination_of_node hnode)
  have hfile : ∃ content, g.root.entryAt (f.destination path) = some (.file content) := by
    rcases hfg.file (f.destination path) with hsame | ⟨text, -, htext⟩
    · exact ⟨content, hsame.trans hat⟩
    · exact ⟨.text text, htext⟩
  obtain ⟨content', hfile⟩ := hfile
  exact ⟨content', hfg.keeps.node hnode (Forest.entryAt_eq_file_iff.mp hfile)⟩

theorem FileSystem.Writable.marks (hw : f.Writable path) (hf : f.root.WellFormed)
    (htext : s.hasHeader text = true) :
    Marks s f (f.withFile (f.destination path) (.text text)) := by
  have hother := fun place (hne : place ≠ f.destination path) =>
    hw.free.entryAt_of_ne hne (.text text)
  have hself : (f.withFile (f.destination path) (.text text)).root.entryAt (f.destination path) =
      some (.file (.text text)) := Forest.entryAt_eq_file_iff.mpr hw.free.at?_self
  obtain ⟨dir, name, hopens, hfree⟩ := hw
  rw [hopens.destination_eq] at hother hself ⊢
  refine ⟨⟨rfl, fun place => ?_⟩, ?_, fun place => ?_⟩
  · by_cases hne : place = dir ++ [name]
    · subst hne
      rw [hself]
      constructor
      · intro hfolder
        cases hfolder
      · intro hfolder
        exact absurd hfolder hfree
    · rw [hother place hne]
  · exact hf.changeAt fun _ hinside => hinside.putFile hopens.entryName
  · by_cases hne : place = dir ++ [name]
    · exact Or.inr ⟨text, htext, hne ▸ hself⟩
    · exact Or.inl (hother place hne)

/-- A file with the header is only ever replaced by another. -/
theorem Overwritten.marks (hgh : Marks s g h) (hover : Overwritten s g path) :
    Overwritten s h path := by
  obtain ⟨text, htext, hat⟩ := hover
  rw [Overwritten, hgh.keeps.destination_eq]
  rcases hgh.file (g.destination path) with hsame | hmarked
  · exact ⟨text, htext, hsame.trans hat⟩
  · exact hmarked

theorem Marks.readText_eq (hfg : Marks s f g)
    (hread : isPathTooLong path = true ∨ ∃ content, f.node path = .ok (.file content))
    (hover : ¬Overwritten s g path) : g.readText path = f.readText path := by
  rw [FileSystem.readText, FileSystem.readText]
  rcases hread with hlong | ⟨content, hnode⟩
  · rw [FileSystem.node_of_isPathTooLong g f hlong]
  · rcases hfg.file (f.destination path) with hsame | hmarked
    · rw [hnode, (hfg.toSameFolders.node_file_iff hsame).mpr hnode]
    · rw [Overwritten, hfg.keeps.destination_eq] at hover
      exact absurd hmarked hover

end Marks

/-! Discovery. -/

theorem marksGenerated_eq {s : Settings} {c : Found} (hlong : isPathTooLong c.path = false) :
    s.marksGenerated c = c.content.text?.any s.hasHeader := by
  rw [Settings.marksGenerated, Found.text?, hlong, if_neg Bool.false_ne_true]

theorem FileSystem.entryAt_below {f : FileSystem} {root : String} {inside : Forest}
    (h : f.node root = .ok (.folder inside)) (place : List String) :
    f.root.entryAt (f.destination root ++ place) = inside.entryAt place := by
  rw [Forest.entryAt, Forest.at?_append, at?_destination_of_node h]
  rfl

namespace Workspace

section Sources

variable {s : Settings} {f g : FileSystem} {root : String} {found all : List Found}

/-- What stands at a place is marked or stood there before. -/
theorem marksGenerated_or_entryAt (hfg : Marks s f g) {c : Found} {place : List String}
    (hat : g.root.entryAt place = some (.file c.content)) :
    isPathTooLong c.path = true ∨ s.marksGenerated c = true ∨
      f.root.entryAt place = some (.file c.content) := by
  cases hlong : isPathTooLong c.path with
  | true => exact Or.inl rfl
  | false =>
      refine Or.inr ?_
      rcases hfg.file place with hsame | ⟨text, htext, hmarked⟩
      · exact Or.inr (hsame.symm.trans hat)
      · have heq : c.content = .text text :=
          Entry.file.inj (Option.some.inj (hat.symm.trans hmarked))
        exact Or.inl (by rw [marksGenerated_eq hlong, heq]; exact htext)

/-- The walk can go where it could go before. -/
theorem barred?_of_sameFolders (hfg : SameFolders f g) {inside inside' : Forest}
    (hinside : inside.WellFormed) (hinside' : inside'.WellFormed)
    (hnode : f.node root = .ok (.folder inside)) (hnode' : g.node root = .ok (.folder inside'))
    (hbarred : inside.barred? s root = none) : inside'.barred? s root = none := by
  rw [Forest.barred?_eq_none_iff hinside] at hbarred
  rw [Forest.barred?_eq_none_iff hinside']
  intro place below hplace hat
  have hfolder : g.root.entryAt (g.destination root ++ place) = some .folder := by
    rw [FileSystem.entryAt_below hnode', Forest.entryAt, hat]
    rfl
  rw [hfg.folder, hfg.keeps.destination_eq, FileSystem.entryAt_below hnode] at hfolder
  obtain ⟨before, hbefore⟩ := Forest.entryAt_eq_folder_iff.mp hfolder
  exact hbarred place before hplace hbefore

/-- The walk finds what it found before, and files with the header. -/
theorem candidates_of_marks (hf : f.root.WellFormed) (hfg : Marks s f g)
    (hall : candidates s f root = .ok all) :
    ∃ all', candidates s g root = .ok all' ∧ ∀ c ∈ all',
      isPathTooLong c.path = true ∨ s.marksGenerated c = true ∨ c ∈ all := by
  rw [candidates] at hall
  split at hall
  · rename_i content hnode
    obtain ⟨content', hnode'⟩ := hfg.node hnode
    obtain rfl := Except.ok.inj hall
    refine ⟨if s.isSource root then [⟨root, content'⟩] else [], by rw [candidates, hnode'], ?_⟩
    intro c hc
    split at hc
    · rename_i hsource
      obtain rfl := List.mem_singleton.mp hc
      have hat := Forest.entryAt_eq_file_iff.mpr (FileSystem.at?_destination_of_node hnode')
      have hcontent : isPathTooLong root = true ∨ s.marksGenerated ⟨root, content'⟩ = true ∨
          f.root.entryAt (g.destination root) = some (.file content') :=
        marksGenerated_or_entryAt (c := ⟨root, content'⟩) hfg hat
      refine hcontent.imp_right (Or.imp_right fun hbefore => ?_)
      have hat' := Forest.entryAt_eq_file_iff.mpr (FileSystem.at?_destination_of_node hnode)
      rw [hfg.keeps.destination_eq, hat'] at hbefore
      have heq : content = content' := Entry.file.inj (Option.some.inj hbefore)
      rw [if_pos hsource, heq]
      exact List.mem_singleton_self _
    · cases hc
  · rename_i inside hnode
    obtain ⟨inside', hnode'⟩ := hfg.keeps.isFolder hnode
    have hinside := hf.of_at? (FileSystem.at?_destination_of_node hnode)
    have hinside' := hfg.wellFormed.of_at? (FileSystem.at?_destination_of_node hnode')
    split at hall
    · cases hall
    · rename_i hbarred
      obtain rfl := Except.ok.inj hall
      have hbarred' : inside'.barred? s root = none :=
        barred?_of_sameFolders hfg.toSameFolders hinside hinside' hnode hnode' hbarred
      refine ⟨inside'.candidates s root, by rw [candidates, hnode']; simp [hbarred'], ?_⟩
      intro c hc
      obtain ⟨place, hat, hplace⟩ := (Forest.mem_candidates_iff hinside').mp hc
      have hentry : g.root.entryAt (g.destination root ++ place) = some (.file c.content) := by
        rw [FileSystem.entryAt_below hnode', Forest.entryAt, hat]
        rfl
      refine (marksGenerated_or_entryAt hfg hentry).imp_right (Or.imp_right fun hbefore => ?_)
      rw [hfg.keeps.destination_eq, FileSystem.entryAt_below hnode] at hbefore
      exact (Forest.mem_candidates_iff hinside).mpr
        ⟨place, Forest.entryAt_eq_file_iff.mp hbefore, hplace⟩
  · cases hall

/-- The sources that are left have been sources before, unless they cannot be read, and have not
been overwritten. -/
theorem sources_of_marks (hf : f.root.WellFormed) (hfg : Marks s f g)
    (hfound : sources s f root = .ok found) :
    ∃ found', sources s g root = .ok found' ∧ ∀ c ∈ found',
      isPathTooLong c.path = true ∨ (c ∈ found ∧ ¬Overwritten s g c.path) := by
  obtain ⟨all, hall, rfl⟩ := sources_eq_ok_iff.mp hfound
  obtain ⟨all', hall', hmem⟩ := candidates_of_marks hf hfg hall
  have hd := discovered_of_candidates hfg.wellFormed hall'
  refine ⟨_, sources_eq_ok_iff.mpr ⟨all', hall', rfl⟩, ?_⟩
  intro c hc
  obtain ⟨hc, hplain⟩ := List.mem_filter.mp hc
  have hunmarked : s.marksGenerated c = false := by simpa using hplain
  rcases hd.node c hc with hlong | hnode
  · exact Or.inl hlong
  rcases hmem c hc with hlong | hmarked | hbefore
  · exact Or.inl hlong
  · exact absurd hmarked (by simp [hunmarked])
  · refine Or.inr ⟨List.mem_filter.mpr ⟨hbefore, hplain⟩, ?_⟩
    rintro ⟨text, htext, hat⟩
    rw [Forest.entryAt_eq_file_iff, FileSystem.at?_destination_of_node hnode] at hat
    have heq : c.content = .text text := Node.file.inj (Option.some.inj hat)
    rw [marksGenerated_eq (FileSystem.notTooLong_of_node hnode), heq] at hunmarked
    simp [Content.text?, htext] at hunmarked

end Sources

end Workspace

end FieldRules
