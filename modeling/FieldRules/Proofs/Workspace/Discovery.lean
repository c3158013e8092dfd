/-
What discovery finds.  Its sources are files that can be read by their paths, no two of these
paths lead to the same place, and the companions of different sources are different files.
-/
import FieldRules.Proofs.Settings.Companion
import FieldRules.Proofs.Tree.PathOrder
import FieldRules.Proofs.Tree.WellFormed
import FieldRules.Workspace.Discovery

namespace FieldRules

open FileSystem (isPathTooLong)

namespace Forest

/-! The walk through a directory. -/

section Walk

variable {s : Settings} {dir name : String} {content : Content} {f inside rest : Forest}
  {c : Found}

theorem mem_candidates_file :
    c ∈ (file name content rest).candidates s dir ↔
      (s.isSource (Path.join dir name) = true ∧ c = ⟨Path.join dir name, content⟩) ∨
        c ∈ rest.candidates s dir := by
  rw [candidates]
  split <;> simp_all

theorem mem_candidates_folder :
    c ∈ (folder name inside rest).candidates s dir ↔
      (s.skips name = false ∧ c ∈ inside.candidates s (Path.join dir name)) ∨
        c ∈ rest.candidates s dir := by
  rw [candidates]
  split <;> simp_all

theorem barred?_folder_eq_none_iff :
    (folder name inside rest).barred? s dir = none ↔
      rest.barred? s dir = none ∧
        (s.skips name = false → isPathTooLong (Path.join dir name) = false ∧
          inside.barred? s (Path.join dir name) = none) := by
  rw [barred?]
  cases hskips : s.skips name with
  | true => simp
  | false =>
      cases hlong : isPathTooLong (Path.join dir name) with
      | true => simp
      | false => simp [and_comm]

theorem isSource_of_mem_candidates (h : c ∈ f.candidates s dir) : s.isSource c.path = true := by
  induction f generalizing dir with
  | empty => cases h
  | file name content rest ih =>
      rcases mem_candidates_file.mp h with ⟨hsource, rfl⟩ | h
      · exact hsource
      · exact ih h
  | folder name inside rest ih ih' =>
      rcases mem_candidates_folder.mp h with ⟨-, h⟩ | h
      · exact ih h
      · exact ih' h

/-- What is found below a directory lies below one of its entries. -/
theorem parts_of_mem_candidates (hf : f.WellFormed) (hdir : dir ≠ "")
    (h : c ∈ f.candidates s dir) :
    ∃ first ∈ f.names, ∃ names,
      Path.parts c.path = Path.parts dir ++ (first :: names).map .name := by
  induction f generalizing dir with
  | empty => cases h
  | file name content rest ih =>
      rcases mem_candidates_file.mp h with ⟨-, rfl⟩ | h
      · exact ⟨name, List.mem_cons_self, [], Path.parts_join hdir hf.1.isName⟩
      · obtain ⟨first, hfirst, names, hparts⟩ := ih hf.2.2 hdir h
        exact ⟨first, List.mem_cons_of_mem name hfirst, names, hparts⟩
  | folder name inside rest ih ih' =>
      rcases mem_candidates_folder.mp h with ⟨-, h⟩ | h
      · obtain ⟨first, -, names, hparts⟩ := ih hf.2.2.1 (Path.join_ne_empty hdir hf.1.isName.1) h
        refine ⟨name, List.mem_cons_self, first :: names, ?_⟩
        rw [hparts, Path.parts_join hdir hf.1.isName, List.append_assoc]
        rfl
      · obtain ⟨first, hfirst, names, hparts⟩ := ih' hf.2.2.2 hdir h
        exact ⟨first, List.mem_cons_of_mem name hfirst, names, hparts⟩

/-- Paths below an entry come before those below later entries. -/
theorem before_of_names (hdir : dir ≠ "") (hname : Path.IsName name) {names : List PathPart}
    {path : String} (hpath : Path.parts path = Path.parts (Path.join dir name) ++ names)
    (hrest : rest.WellFormed) (hlt : ∀ m ∈ rest.names, name < m) (h : c ∈ rest.candidates s dir) :
    Path.Before path c.path := by
  obtain ⟨first, hfirst, names', hparts⟩ := parts_of_mem_candidates hrest hdir h
  rw [Path.parts_join hdir hname, List.append_assoc] at hpath
  exact Path.before_of_lt (hlt first hfirst) hpath hparts

/-- What is found is in the order of the paths, and nothing is found twice. -/
theorem pairwise_candidates (hf : f.WellFormed) (hdir : dir ≠ "") :
    (f.candidates s dir).Pairwise fun c d => Path.Before c.path d.path := by
  induction f generalizing dir with
  | empty => exact List.Pairwise.nil
  | file name content rest ih =>
      rw [candidates]
      refine List.pairwise_append.mpr ⟨?_, ih hf.2.2 hdir, fun c hc d hd => ?_⟩
      · split <;> simp
      · split at hc
        · rw [List.mem_singleton.mp hc]
          exact before_of_names hdir hf.1.isName (List.append_nil _).symm hf.2.2 hf.2.1 hd
        · cases hc
  | folder name inside rest ih ih' =>
      have hjoin := Path.join_ne_empty hdir hf.1.isName.1
      rw [candidates]
      refine List.pairwise_append.mpr ⟨?_, ih' hf.2.2.2 hdir, fun c hc d hd => ?_⟩
      · split
        · exact List.Pairwise.nil
        · exact ih hf.2.2.1 hjoin
      · split at hc
        · cases hc
        · obtain ⟨first, -, names, hparts⟩ := parts_of_mem_candidates hf.2.2.1 hjoin hc
          exact before_of_names hdir hf.1.isName hparts hf.2.2.2 hf.2.1 hd

end Walk

end Forest

namespace FileSystem

section Walk

variable {s : Settings} {f : FileSystem} {dir name : String} {forest inside : Forest} {n : Node}

theorem node_entry (hdir : f.node dir = .ok (.folder inside)) (hname : EntryName name)
    (hlong : isPathTooLong (Path.join dir name) = false) (hchild : inside.child? name = some n) :
    f.node (Path.join dir name) = .ok n :=
  node_join hdir hname.isName hname.noNul hname.short hlong hchild

/-- What is found is there, except for files with paths that are too long.  `forest` are entries
of the directory that the walk has yet to look at. -/
theorem node_of_mem_candidates (hf : forest.WellFormed) (hdir : f.node dir = .ok (.folder inside))
    (hsub : ∀ name n, forest.child? name = some n → inside.child? name = some n)
    (hbarred : forest.barred? s dir = none) {c : Found} (h : c ∈ forest.candidates s dir) :
    isPathTooLong c.path = true ∨ f.node c.path = .ok (.file c.content) := by
  induction forest generalizing dir inside with
  | empty => cases h
  | file name content rest ih =>
      rcases Forest.mem_candidates_file.mp h with ⟨-, rfl⟩ | h
      · cases hlong : isPathTooLong (Path.join dir name) with
        | true => exact Or.inl rfl
        | false =>
            exact Or.inr (node_entry hdir hf.1 hlong (hsub name _ (by simp [Forest.child?])))
      · refine ih hf.2.2 hdir (fun m n hchild => hsub m n ?_) hbarred h
        rwa [Forest.child?, if_neg (Forest.child?_rest_of_ne hf.2.1 hchild)]
  | folder name inner rest ih ih' =>
      have hrest := Forest.barred?_folder_eq_none_iff.mp hbarred
      rcases Forest.mem_candidates_folder.mp h with ⟨hskips, h⟩ | h
      · obtain ⟨hlong, hinner⟩ := hrest.2 hskips
        exact ih hf.2.2.1 (node_entry hdir hf.1 hlong (hsub name _ (by simp [Forest.child?])))
          (fun _ _ hchild => hchild) hinner h
      · refine ih' hf.2.2.2 hdir (fun m n hchild => hsub m n ?_) hrest.1 h
        rwa [Forest.child?, if_neg (Forest.child?_rest_of_ne hf.2.1 hchild)]

end Walk

end FileSystem

/-! The sources of a root. -/

/-- A path of some names below a base. -/
def Below (base : List PathPart) (path : String) : Prop :=
  ∃ names name, Path.parts path = base ++ (names ++ [name]).map .name

/-- What is known of the sources in a file system. -/
structure Discovered (s : Settings) (f : FileSystem) (root : String) (found : List Found) :
    Prop where
  isSource : ∀ c ∈ found, s.isSource c.path = true
  node : ∀ c ∈ found, isPathTooLong c.path = true ∨ f.node c.path = .ok (.file c.content)
  below : ∃ base, ∀ c ∈ found, Below base c.path
  distinct : found.Pairwise fun c d => Path.parts c.path ≠ Path.parts d.path
  root : ∀ c ∈ found, c.path = root ∨ ∃ inside, f.node root = .ok (.folder inside)

section Below

variable {s : Settings} {base : List PathPart} {path other : String}

theorem foldl_advance_names (place names : List String) :
    (names.map .name).foldl PathPart.advance place = place ++ names := by
  induction names generalizing place with
  | nil => simp
  | cons name names ih => simp [PathPart.advance, ih]

/-- Paths of names below one base lead to different places if they are different. -/
theorem parts_eq_of_destination (f : FileSystem) (h : Below base path) (h' : Below base other)
    (heq : f.destination path = f.destination other) : Path.parts path = Path.parts other := by
  obtain ⟨names, name, hparts⟩ := h
  obtain ⟨names', name', hparts'⟩ := h'
  rw [FileSystem.destination, FileSystem.destination, hparts, hparts', List.foldl_append,
    List.foldl_append, foldl_advance_names, foldl_advance_names] at heq
  rw [hparts, hparts', List.append_cancel_left heq]

/-- The companion of a source is below the same base. -/
theorem Below.outputPath (h : Below base path) (hsource : s.isSource path = true)
    (hsuffix : '/' ∉ s.outputSuffix.toList) : Below base (s.outputPath path) := by
  obtain ⟨names, name, hparts⟩ := h
  refine ⟨names, Path.stem path ++ s.companionEnd, ?_⟩
  rw [Path.parts_of_fileName? (Settings.fileName?_of_isSource hsource).1, List.map_append,
    ← List.append_assoc] at hparts
  rw [Settings.parts_outputPath hsource hsuffix, (List.append_inj' hparts (by simp)).1,
    List.map_append, List.append_assoc]
  rfl

end Below

section Sources

variable {s : Settings} {f : FileSystem} {root : String} {found : List Found}

theorem discovered_of_candidates (hf : f.root.WellFormed)
    (h : Workspace.candidates s f root = .ok found) : Discovered s f root found := by
  rw [Workspace.candidates] at h
  split at h
  · rename_i content hnode
    obtain rfl := Except.ok.inj h
    by_cases hsource : s.isSource root = true
    · obtain ⟨hfile, -⟩ := Settings.fileName?_of_isSource hsource
      rw [if_pos hsource]
      refine ⟨?_, ?_, ⟨Path.parts (Path.directory root), ?_⟩, List.pairwise_singleton _ _, ?_⟩
      · simpa using hsource
      · simpa using Or.inr hnode
      · simpa using ⟨[], _, Path.parts_of_fileName? hfile⟩
      · simp
    · rw [if_neg hsource]
      exact ⟨by simp, by simp, ⟨[], by simp⟩, List.Pairwise.nil, by simp⟩
  · rename_i inside hnode
    split at h
    · cases h
    · rename_i hbarred
      obtain rfl := Except.ok.inj h
      have hinside := hf.of_at? (FileSystem.at?_destination_of_node hnode)
      have hroot := FileSystem.ne_empty_of_node hnode
      refine ⟨fun c => Forest.isSource_of_mem_candidates, fun c => ?_, ⟨Path.parts root, ?_⟩,
        (Forest.pairwise_candidates hinside hroot).imp Path.Before.parts_ne,
        fun _ _ => Or.inr ⟨inside, hnode⟩⟩
      · exact FileSystem.node_of_mem_candidates hinside hnode (fun _ _ hchild => hchild) hbarred
      · intro c hc
        obtain ⟨first, -, names, hparts⟩ := Forest.parts_of_mem_candidates hinside hroot hc
        refine ⟨(first :: names).dropLast, (first :: names).getLast (List.cons_ne_nil _ _), ?_⟩
        rw [hparts, List.dropLast_concat_getLast]
  · cases h

/-- The same is known of some of what was found. -/
theorem Discovered.filter (h : Discovered s f root found) (p : Found → Bool) :
    Discovered s f root (found.filter p) := by
  have hmem : ∀ c ∈ found.filter p, c ∈ found := fun c hc => (List.mem_filter.mp hc).1
  obtain ⟨base, hbase⟩ := h.below
  exact ⟨fun c hc => h.isSource c (hmem c hc), fun c hc => h.node c (hmem c hc),
    ⟨base, fun c hc => hbase c (hmem c hc)⟩, h.distinct.filter p,
    fun c hc => h.root c (hmem c hc)⟩

theorem sources_eq_ok_iff :
    Workspace.sources s f root = .ok found ↔ ∃ all, Workspace.candidates s f root = .ok all ∧
      all.filter (fun c => !s.marksGenerated c) = found := by
  rw [Workspace.sources]
  cases Workspace.candidates s f root <;> simp [Except.map]

theorem companions_eq_ok_iff :
    Workspace.companions s f root = .ok found ↔ ∃ all, Workspace.candidates s f root = .ok all ∧
      all.filter (fun c => s.isGeneratedName c.path && s.marksGenerated c) = found := by
  rw [Workspace.companions]
  cases Workspace.candidates s f root <;> simp [Except.map]

/-- What is found stands at different places. -/
theorem Discovered.destination_ne (h : Discovered s f root found) :
    found.Pairwise fun c d => f.destination c.path ≠ f.destination d.path := by
  obtain ⟨base, hbase⟩ := h.below
  refine h.distinct.imp_of_mem fun {c d} hc hd hne heq => hne ?_
  exact parts_eq_of_destination f (hbase c hc) (hbase d hd) heq

/-- The companions of different sources belong to different places. -/
theorem Discovered.destination_outputPath_ne (h : Discovered s f root found)
    (hsuffix : '/' ∉ s.outputSuffix.toList) :
    found.Pairwise fun c d =>
      f.destination (s.outputPath c.path) ≠ f.destination (s.outputPath d.path) := by
  obtain ⟨base, hbase⟩ := h.below
  refine h.distinct.imp_of_mem fun {c d} hc hd hne heq => hne ?_
  apply Settings.parts_outputPath_inj (h.isSource c hc) (h.isSource d hd) hsuffix
  exact parts_eq_of_destination f ((hbase c hc).outputPath (h.isSource c hc) hsuffix)
    ((hbase d hd).outputPath (h.isSource d hd) hsuffix) heq

/-- Sources are files that can be read by their paths, unless these are too long, and they are
different files below one place. -/
theorem discovered_of_sources (hf : f.root.WellFormed)
    (h : Workspace.sources s f root = .ok found) : Discovered s f root found := by
  obtain ⟨all, hall, rfl⟩ := sources_eq_ok_iff.mp h
  exact (discovered_of_candidates hf hall).filter _

end Sources

/-- Reports show paths as before, as long as the root is a directory. -/
theorem Workspace.displayPath_of_keeps {f g : FileSystem} {root : String} {inside : Forest}
    (hk : FileSystem.Keeps f g) (hroot : f.node root = .ok (.folder inside)) (path : String) :
    displayPath g root path = displayPath f root path := by
  obtain ⟨inside', hroot'⟩ := hk.isFolder hroot
  rw [displayPath, displayPath, FileSystem.isFile, FileSystem.isFile, hroot, hroot']

end FieldRules
