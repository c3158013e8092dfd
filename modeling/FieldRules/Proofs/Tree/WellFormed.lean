/-
The trees that a file system can hold.  Entries have names that can be read off a path, no two
entries of a directory have the same, and changes of single entries keep this.
-/
import FieldRules.Proofs.Tree.Changes

namespace FieldRules

open FileSystem (nameLimit)

/-- A name that an entry of a directory can have. -/
structure EntryName (name : String) : Prop where
  isName : Path.IsName name
  noNul : '\x00' ∉ name.toList
  short : name.utf8ByteSize ≤ nameLimit

instance (name : String) : Decidable (EntryName name) :=
  decidable_of_iff (Path.IsName name ∧ '\x00' ∉ name.toList ∧ name.utf8ByteSize ≤ nameLimit)
    ⟨fun ⟨h, h', h''⟩ => ⟨h, h', h''⟩, fun ⟨h, h', h''⟩ => ⟨h, h', h''⟩⟩

namespace Forest

/-- The trees that a file system can hold: the entries of a directory have names, and they stand
in the order of these. -/
def WellFormed : Forest → Prop
  | empty => True
  | file name _ rest => EntryName name ∧ (∀ n ∈ rest.names, name < n) ∧ rest.WellFormed
  | folder name inside rest =>
      EntryName name ∧ (∀ n ∈ rest.names, name < n) ∧ inside.WellFormed ∧ rest.WellFormed

instance decidableWellFormed : (f : Forest) → Decidable f.WellFormed
  | empty => .isTrue trivial
  | file _ _ rest =>
      have := decidableWellFormed rest
      inferInstanceAs (Decidable (_ ∧ _ ∧ _))
  | folder _ inside rest =>
      have := decidableWellFormed inside
      have := decidableWellFormed rest
      inferInstanceAs (Decidable (_ ∧ _ ∧ _ ∧ _))

section WellFormed

variable {f : Forest} {name : String}

theorem WellFormed.sorted (h : f.WellFormed) : f.Sorted := by
  induction f with
  | empty => trivial
  | file name content rest ih => exact ⟨h.2.1, ih h.2.2⟩
  | folder name inside rest ih ih' => exact ⟨h.2.1, ih h.2.2.1, ih' h.2.2.2⟩

theorem WellFormed.inside {inside : Forest} (h : f.WellFormed)
    (hchild : f.child? name = some (.folder inside)) : inside.WellFormed := by
  induction f with
  | empty => cases hchild
  | file n content rest ih =>
      rw [child?] at hchild
      split at hchild
      · cases hchild
      · exact ih h.2.2 hchild
  | folder n inside' rest _ ih =>
      rw [child?] at hchild
      split at hchild
      · exact Node.folder.inj (Option.some.inj hchild) ▸ h.2.2.1
      · exact ih h.2.2.2 hchild

theorem WellFormed.of_at? {place : List String} {inside : Forest} (h : f.WellFormed)
    (hat : f.at? place = some (.folder inside)) : inside.WellFormed := by
  induction place generalizing f with
  | nil => exact Node.folder.inj (Option.some.inj hat) ▸ h
  | cons name names ih =>
      rw [at?_cons] at hat
      split at hat
      · rename_i inside' hchild
        exact ih (h.inside hchild) hat
      · split at hat <;> cases hat
      · cases hat

theorem WellFormed.entryName (h : f.WellFormed) (hname : name ∈ f.names) : EntryName name := by
  induction f with
  | empty => cases hname
  | file n content rest ih =>
      rcases List.mem_cons.mp hname with rfl | hname
      · exact h.1
      · exact ih h.2.2 hname
  | folder n inside rest _ ih =>
      rcases List.mem_cons.mp hname with rfl | hname
      · exact h.1
      · exact ih h.2.2.2 hname

/-- Only such names lead to a place. -/
theorem WellFormed.entryName_of_at? {place : List String} {n : Node} (h : f.WellFormed)
    (hat : f.at? place = some n) : ∀ name ∈ place, EntryName name := by
  induction place generalizing f with
  | nil => exact fun name hname => by cases hname
  | cons first names ih =>
      rw [at?_cons] at hat
      cases hchild : f.child? first with
      | none => simp [hchild] at hat
      | some m =>
          have hfirst := h.entryName (mem_names_of_child? hchild)
          rw [hchild] at hat
          refine List.forall_mem_cons.mpr ⟨hfirst, ?_⟩
          cases m with
          | folder inside => exact ih (h.inside hchild) hat
          | file content =>
              have hnames : names = [] := by
                by_contra hne
                simp [hne] at hat
              simp [hnames]

theorem child?_rest_of_ne {n : Node} {rest : Forest} (hlt : ∀ m ∈ rest.names, name < m)
    {m : String} (hchild : rest.child? m = some n) : name ≠ m := by
  rintro rfl
  exact String.lt_irrefl name (hlt name (mem_names_of_child? hchild))

end WellFormed

/-! Changes of one directory. -/

section Change

variable {f : Forest} {name other : String} {content : Content} {change : Forest → Forest}

theorem mem_names_putFile (h : other ∈ (f.putFile name content).names) :
    other = name ∨ other ∈ f.names := by
  induction f with
  | empty => exact Or.inl (List.mem_singleton.mp h)
  | file n c rest ih =>
      rw [putFile] at h
      split at h
      · exact Or.inr h
      · split at h
        · exact List.mem_cons.mp h
        · rcases List.mem_cons.mp h with rfl | h
          · exact Or.inr List.mem_cons_self
          · exact (ih h).imp_right (List.mem_cons_of_mem n)
  | folder n inside rest _ ih =>
      rw [putFile] at h
      split at h
      · exact Or.inr h
      · split at h
        · exact List.mem_cons.mp h
        · rcases List.mem_cons.mp h with rfl | h
          · exact Or.inr List.mem_cons_self
          · exact (ih h).imp_right (List.mem_cons_of_mem n)

theorem mem_names_remove (h : other ∈ (f.remove name).names) : other ∈ f.names := by
  induction f with
  | empty => exact h
  | file n c rest ih =>
      by_cases hn : n = name
      · exact List.mem_cons_of_mem n (by simpa [remove, hn] using h)
      · simp only [remove, if_neg hn, names, List.mem_cons] at h ⊢
        exact h.imp_right ih
  | folder n inside rest _ ih =>
      by_cases hn : n = name
      · exact List.mem_cons_of_mem n (by simpa [remove, hn] using h)
      · simp only [remove, if_neg hn, names, List.mem_cons] at h ⊢
        exact h.imp_right ih

theorem names_within : (f.within name change).names = f.names := by
  induction f with
  | empty => rfl
  | file n c rest ih => simp [within, names, ih]
  | folder n inside rest _ ih =>
      by_cases hn : n = name
      · simp [within, names, hn]
      · simp [within, names, hn, ih]

/-- A name that comes behind an entry, and the names of the entries behind it. -/
theorem lt_of_mem_names_putFile {n : String} {rest : Forest} (hne : n ≠ name) (hlt : ¬name < n)
    (hrest : ∀ m ∈ rest.names, n < m) : ∀ m ∈ (rest.putFile name content).names, n < m := by
  intro m hm
  rcases mem_names_putFile hm with rfl | hm
  · exact (lt_or_lt hne).resolve_right hlt
  · exact hrest m hm

theorem lt_of_mem_names_cons {n : String} {rest : Forest} (hlt : name < n)
    (hrest : ∀ m ∈ rest.names, n < m) : ∀ m ∈ n :: rest.names, name < m := by
  intro m hm
  rcases List.mem_cons.mp hm with rfl | hm
  · exact hlt
  · exact String.lt_trans hlt (hrest m hm)

theorem WellFormed.putFile (hf : f.WellFormed) (hname : EntryName name) :
    (f.putFile name content).WellFormed := by
  induction f with
  | empty => exact ⟨hname, by simp [names], trivial⟩
  | file n c rest ih =>
      rw [Forest.putFile]
      split
      · exact hf
      · rename_i hne
        split
        · rename_i hlt
          exact ⟨hname, lt_of_mem_names_cons hlt hf.2.1, hf⟩
        · rename_i hlt
          exact ⟨hf.1, lt_of_mem_names_putFile hne hlt hf.2.1, ih hf.2.2⟩
  | folder n inside rest _ ih =>
      rw [Forest.putFile]
      split
      · exact hf
      · rename_i hne
        split
        · rename_i hlt
          exact ⟨hname, lt_of_mem_names_cons hlt hf.2.1, hf⟩
        · rename_i hlt
          exact ⟨hf.1, lt_of_mem_names_putFile hne hlt hf.2.1, hf.2.2.1, ih hf.2.2.2⟩

theorem WellFormed.remove (hf : f.WellFormed) : (f.remove name).WellFormed := by
  induction f with
  | empty => exact hf
  | file n c rest ih =>
      rw [Forest.remove]
      split
      · exact hf.2.2
      · exact ⟨hf.1, fun m hm => hf.2.1 m (mem_names_remove hm), ih hf.2.2⟩
  | folder n inside rest _ ih =>
      rw [Forest.remove]
      split
      · exact hf.2.2.2
      · exact ⟨hf.1, fun m hm => hf.2.1 m (mem_names_remove hm), hf.2.2.1, ih hf.2.2.2⟩

theorem WellFormed.within (hf : f.WellFormed)
    (hchange : ∀ inside, inside.WellFormed → (change inside).WellFormed) :
    (f.within name change).WellFormed := by
  induction f with
  | empty => exact hf
  | file n c rest ih =>
      rw [Forest.within]
      exact ⟨hf.1, by rw [names_within]; exact hf.2.1, ih hf.2.2⟩
  | folder n inside rest _ ih =>
      rw [Forest.within]
      split
      · exact ⟨hf.1, hf.2.1, hchange inside hf.2.2.1, hf.2.2.2⟩
      · exact ⟨hf.1, by rw [names_within]; exact hf.2.1, hf.2.2.1, ih hf.2.2.2⟩

/-- A change of one entry that keeps a directory well-formed keeps the tree so. -/
theorem WellFormed.changeAt {change : String → Forest → Forest} {dir : List String}
    (hf : f.WellFormed) (hchange : ∀ inside, inside.WellFormed → (change name inside).WellFormed) :
    (f.changeAt change (dir ++ [name])).WellFormed := by
  induction dir generalizing f with
  | nil => exact hchange f hf
  | cons first dir ih =>
      rw [List.cons_append, changeAt_cons]
      exact hf.within fun inside hinside => ih hinside

end Change

end Forest

namespace FileSystem

/-- A path leads to names only that entries can have. -/
theorem Opens.entryName {f : FileSystem} {path name : String} {dir : List String}
    (h : Opens f path dir name) : EntryName name := by
  refine ⟨h.isName, fun hnul => h.followable.noNul ?_, h.short⟩
  obtain ⟨segs, hsegs, -⟩ := h.route
  rcases Path.of_segments_eq_concat hsegs with ⟨-, hpath⟩ | ⟨ds, hpath, -⟩
  · exact hpath ▸ hnul
  · rw [hpath]
    exact List.mem_append_right ds (List.mem_cons_of_mem '/' hnul)

end FileSystem

end FieldRules
