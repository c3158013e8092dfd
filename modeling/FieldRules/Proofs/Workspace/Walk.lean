/-
Which files the walk through a directory finds.  They are those that stand below directories
that are entered and have the extension of sources, and they are found by the names on the way.
-/
import FieldRules.Proofs.Workspace.Discovery

namespace FieldRules.Forest

open FileSystem (isPathTooLong)

/-- The path by which the walk comes to a place below a directory. -/
def walkPath (dir : String) (place : List String) : String := place.foldl Path.join dir

section Place

variable {name first : String} {content : Content} {inside rest : Forest} {names : List String}

theorem at?_file_cons :
    (file name content rest).at? (first :: names) =
      if name = first then if names = [] then some (.file content) else none
      else rest.at? (first :: names) := by
  by_cases hname : name = first <;> simp [at?_cons, child?, hname]

theorem at?_folder_cons :
    (folder name inside rest).at? (first :: names) =
      if name = first then inside.at? names else rest.at? (first :: names) := by
  by_cases hname : name = first <;> simp [at?_cons, child?, hname]

/-- What stands below later entries does not have the name of the first one. -/
theorem ne_of_at? {n : Node} (hlt : ∀ m ∈ rest.names, name < m)
    (hat : rest.at? (first :: names) = some n) : name ≠ first := by
  rw [at?_cons] at hat
  cases hchild : rest.child? first with
  | none => simp [hchild] at hat
  | some n => exact child?_rest_of_ne hlt hchild

end Place

section Walk

variable {s : Settings} {f : Forest} {dir : String} {c : Found}

/-- The files that the walk finds. -/
theorem mem_candidates_iff (hf : f.WellFormed) :
    c ∈ f.candidates s dir ↔
      ∃ place, f.at? place = some (.file c.content) ∧ (∀ d ∈ place.dropLast, s.skips d = false) ∧
        c.path = walkPath dir place ∧ s.isSource c.path = true := by
  induction f generalizing dir with
  | empty =>
      constructor
      · exact fun h => absurd h List.not_mem_nil
      · rintro ⟨place, hat, -⟩
        cases place with
        | nil => cases hat
        | cons first names => cases hat
  | file name content rest ih =>
      rw [mem_candidates_file, ih hf.2.2]
      constructor
      · rintro (⟨hsource, rfl⟩ | ⟨place, hat, hskips, hpath⟩)
        · exact ⟨[name], by simp [at?_file_cons], by simp, rfl, hsource⟩
        · refine ⟨place, ?_, hskips, hpath⟩
          cases place with
          | nil => cases hat
          | cons first names => rw [at?_file_cons, if_neg (ne_of_at? hf.2.1 hat), hat]
      · rintro ⟨place, hat, hskips, hpath, hsource⟩
        cases place with
        | nil => cases hat
        | cons first names =>
            rw [at?_file_cons] at hat
            split at hat
            · rename_i hname
              split at hat
              · rename_i hnames
                obtain ⟨path, content'⟩ := c
                obtain rfl : content = content' := by simpa using hat
                obtain rfl : path = Path.join dir name := by
                  simpa [hname, hnames, walkPath] using hpath
                exact Or.inl ⟨hsource, rfl⟩
              · cases hat
            · exact Or.inr ⟨first :: names, hat, hskips, hpath, hsource⟩
  | folder name inside rest ih ih' =>
      rw [mem_candidates_folder, ih hf.2.2.1, ih' hf.2.2.2]
      constructor
      · rintro (⟨hname, place, hat, hskips, hpath⟩ | ⟨place, hat, hskips, hpath⟩)
        · have hplace : place ≠ [] := by
            rintro rfl
            cases hat
          refine ⟨name :: place, by simp [at?_folder_cons, hat], ?_, hpath⟩
          rw [List.dropLast_cons_of_ne_nil hplace, List.forall_mem_cons]
          exact ⟨hname, hskips⟩
        · refine ⟨place, ?_, hskips, hpath⟩
          cases place with
          | nil => cases hat
          | cons first names => rw [at?_folder_cons, if_neg (ne_of_at? hf.2.1 hat), hat]
      · rintro ⟨place, hat, hskips, hpath⟩
        cases place with
        | nil => cases hat
        | cons first names =>
            rw [at?_folder_cons] at hat
            split at hat
            · rename_i hname
              subst hname
              have hnames : names ≠ [] := by
                rintro rfl
                cases hat
              rw [List.dropLast_cons_of_ne_nil hnames, List.forall_mem_cons] at hskips
              exact Or.inl ⟨hskips.1, names, hat, hskips.2, hpath⟩
            · exact Or.inr ⟨first :: names, hat, hskips, hpath⟩

/-- The walk is barred by directories only, by those whose paths are too long. -/
theorem barred?_eq_none_iff (hf : f.WellFormed) :
    f.barred? s dir = none ↔
      ∀ place inside, place ≠ [] → f.at? place = some (.folder inside) →
        (∀ d ∈ place, s.skips d = false) → isPathTooLong (walkPath dir place) = false := by
  induction f generalizing dir with
  | empty =>
      refine ⟨fun _ place inside hplace hat => ?_, fun _ => rfl⟩
      cases place with
      | nil => exact absurd rfl hplace
      | cons first names => cases hat
  | file name content rest ih =>
      rw [barred?, ih hf.2.2]
      constructor
      · intro h place inside hplace hat
        refine h place inside hplace ?_
        cases place with
        | nil => exact absurd rfl hplace
        | cons first names =>
            rw [at?_file_cons] at hat
            split at hat
            · split at hat <;> cases hat
            · exact hat
      · intro h place inside hplace hat
        refine h place inside hplace ?_
        cases place with
        | nil => exact absurd rfl hplace
        | cons first names => rw [at?_file_cons, if_neg (ne_of_at? hf.2.1 hat), hat]
  | folder name inner rest ih ih' =>
      rw [barred?_folder_eq_none_iff, ih hf.2.2.1, ih' hf.2.2.2]
      constructor
      · rintro ⟨hrest, hinner⟩ place inside hplace hat hskips
        cases place with
        | nil => exact absurd rfl hplace
        | cons first names =>
            rw [at?_folder_cons] at hat
            split at hat
            · rename_i hname
              subst hname
              rw [List.forall_mem_cons] at hskips
              obtain ⟨hlong, hbelow⟩ := hinner hskips.1
              by_cases hnames : names = []
              · rw [hnames]
                exact hlong
              · exact hbelow names inside hnames hat hskips.2
            · exact hrest (first :: names) inside hplace hat hskips
      · intro h
        constructor
        · intro place inside hplace hat
          refine h place inside hplace ?_
          cases place with
          | nil => exact absurd rfl hplace
          | cons first names => rw [at?_folder_cons, if_neg (ne_of_at? hf.2.1 hat), hat]
        · intro hskips
          constructor
          · exact h [name] inner (by simp) (by simp [at?_folder_cons, at?]) (by simpa using hskips)
          · intro place inside hplace hat hbelow
            refine h (name :: place) inside (by simp) (by simp [at?_folder_cons, hat]) ?_
            exact List.forall_mem_cons.mpr ⟨hskips, hbelow⟩

end Walk

/-! Paths of the walk. -/

section WalkPath

variable {s : Settings} {f : Forest} {dir name other : String} {place : List String} {c d : Found}

theorem walkPath_concat (dir : String) (place : List String) (name : String) :
    walkPath dir (place ++ [name]) = Path.join (walkPath dir place) name := by
  simp [walkPath]

theorem parts_walkPath (hdir : dir ≠ "") (hplace : ∀ name ∈ place, Path.IsName name) :
    Path.parts (walkPath dir place) = Path.parts dir ++ place.map .name := by
  induction place generalizing dir with
  | nil => simp [walkPath]
  | cons first names ih =>
      obtain ⟨hfirst, hnames⟩ := List.forall_mem_cons.mp hplace
      have hrest := ih (Path.join_ne_empty hdir hfirst.1) hnames
      rw [Path.parts_join hdir hfirst, List.append_assoc] at hrest
      exact hrest

/-- A candidate has the path by which the walk comes to a name in a directory. -/
theorem path_of_mem_candidates (hf : f.WellFormed) (hdir : dir ≠ "") (hc : c ∈ f.candidates s dir)
    {base : List PathPart} (hparts : Path.parts c.path = base ++ [.name name]) :
    Path.IsName name ∧ ∃ place : List String, base = Path.parts dir ++ place.map .name ∧
      c.path = Path.join (walkPath dir place) name := by
  obtain ⟨place, hat, -, hpath, -⟩ := (mem_candidates_iff hf).mp hc
  have hnames : ∀ name ∈ place, Path.IsName name := fun name hname =>
    (hf.entryName_of_at? hat name hname).isName
  rcases List.eq_nil_or_concat place with rfl | ⟨front, last, hplace⟩
  · cases hat
  rw [List.concat_eq_append] at hplace
  subst hplace
  rw [hpath, parts_walkPath hdir hnames, List.map_append, ← List.append_assoc] at hparts
  obtain ⟨hbase, hlast⟩ := List.append_inj' hparts (by simp)
  have hname : last = name := by simpa using hlast
  rw [hname, walkPath_concat] at hpath
  exact ⟨hname ▸ hnames last (by simp), front, hbase.symm, hpath⟩

theorem utf8ByteSize_join_le (hname : '/' ∉ name.toList) (hother : '/' ∉ other.toList)
    (hsize : name.utf8ByteSize ≤ other.utf8ByteSize) :
    (Path.join dir name).utf8ByteSize ≤ (Path.join dir other).utf8ByteSize := by
  have hslash : ∀ text : String, '/' ∉ text.toList → text.toList.head? ≠ some '/' :=
    fun text htext hhead => htext (List.mem_of_mem_head? hhead)
  rw [Path.join, Path.join, if_neg (hslash name hname), if_neg (hslash other hother)]
  split <;> simp only [String.utf8ByteSize_append] <;> omega

/-- Of two candidates in one directory, the one with the longer name has the longer path. -/
theorem utf8ByteSize_le_of_mem_candidates (hf : f.WellFormed) (hdir : dir ≠ "")
    (hc : c ∈ f.candidates s dir) (hd : d ∈ f.candidates s dir) {base : List PathPart}
    (hparts : Path.parts c.path = base ++ [.name name])
    (hparts' : Path.parts d.path = base ++ [.name other])
    (hsize : name.utf8ByteSize ≤ other.utf8ByteSize) :
    c.path.utf8ByteSize ≤ d.path.utf8ByteSize := by
  obtain ⟨hname, place, hbase, hpath⟩ := path_of_mem_candidates hf hdir hc hparts
  obtain ⟨hother, place', hbase', hpath'⟩ := path_of_mem_candidates hf hdir hd hparts'
  have hmap : place.map PathPart.name = place'.map PathPart.name :=
    List.append_cancel_left (hbase.symm.trans hbase')
  have hplace : place = place' := List.map_inj_right (fun _ _ h => PathPart.name.inj h) |>.mp hmap
  rw [hpath, hpath', hplace]
  exact utf8ByteSize_join_le hname.1 hother.1 hsize

end WalkPath

end FieldRules.Forest
