/-
What writing a file changes.  A file is written into the directory of its path, and everything
else is left as it was.
-/
import FieldRules.Proofs.Tree.Routes
import Mathlib.Data.List.Nodup

namespace FieldRules.FileSystem

open FieldRules.Path (isIdle part? IsName Same segments kept)
open FieldRules.Forest (entryAt_eq_folder_iff entryAt_eq_file_iff isSome_entryAt)

/-- A path leads into a directory and ends in a name there, which need not be taken. -/
structure Opens (f : FileSystem) (path : String) (dir : List String) (name : String) : Prop where
  followable : Followable path
  isName : IsName name
  short : name.utf8ByteSize ≤ nameLimit
  folder : f.root.entryAt dir = some .folder
  route : ∃ segs, segments path.toList = segs ++ [name.toList] ∧
    f.locate ⟨f.startOf path, segs⟩ = .ok dir

/-- A file system after changes that leave its directories, and all files but some. -/
structure Grows (f g : FileSystem) (changed : List String → Prop) : Prop extends Keeps f g where
  file : ∀ place content, ¬changed place → f.root.entryAt place = some (.file content) →
    g.root.entryAt place = some (.file content)

/-- A file system with another entry, or another content of a file, at one place. -/
def withFile (f : FileSystem) (place : List String) (content : Content) : FileSystem :=
  { f with root := f.root.putFileAt place content }

/-! Changes one after the other. -/

section Grows

variable {f g h : FileSystem} {changed changed' : List String → Prop}

theorem Keeps.refl (f : FileSystem) : Keeps f f := ⟨rfl, fun _ h => h⟩

theorem Keeps.trans (hfg : Keeps f g) (hgh : Keeps g h) : Keeps f h :=
  ⟨hgh.here.trans hfg.here, fun place hplace => hgh.folder place (hfg.folder place hplace)⟩

theorem Grows.refl (f : FileSystem) (changed : List String → Prop) : Grows f f changed :=
  ⟨Keeps.refl f, fun _ _ _ h => h⟩

theorem Grows.trans (hfg : Grows f g changed) (hgh : Grows g h changed) : Grows f h changed :=
  ⟨hfg.toKeeps.trans hgh.toKeeps, fun place content hfree hfile =>
    hgh.file place content hfree (hfg.file place content hfree hfile)⟩

theorem Grows.weaken (hfg : Grows f g changed) (himp : ∀ place, changed place → changed' place) :
    Grows f g changed' :=
  ⟨hfg.toKeeps, fun place content hfree => hfg.file place content (mt (himp place) hfree)⟩

/-- A path still leads to its file, unless that is one of those that change. -/
theorem Grows.node {path : String} {content : Content} (hfg : Grows f g changed)
    (hnode : f.node path = .ok (.file content)) (hplace : ¬changed (f.destination path)) :
    g.node path = .ok (.file content) := by
  have hfile : f.root.entryAt (f.destination path) = some (.file content) :=
    entryAt_eq_file_iff.mpr (at?_destination_of_node hnode)
  have hkept : g.root.entryAt (f.destination path) = some (.file content) :=
    hfg.file _ _ hplace hfile
  exact hfg.toKeeps.node hnode (entryAt_eq_file_iff.mp hkept)

end Grows

/-! The same directories. -/

/-- File systems with the same directories, seen from the same one. -/
structure SameFolders (f g : FileSystem) : Prop where
  here : g.here = f.here
  folder : ∀ place, g.root.entryAt place = some .folder ↔ f.root.entryAt place = some .folder

namespace SameFolders

variable {f g h : FileSystem} {path : String} {content : Content}

theorem refl (f : FileSystem) : SameFolders f f := ⟨rfl, fun _ => Iff.rfl⟩

theorem symm (hfg : SameFolders f g) : SameFolders g f :=
  ⟨hfg.here.symm, fun place => (hfg.folder place).symm⟩

theorem trans (hfg : SameFolders f g) (hgh : SameFolders g h) : SameFolders f h :=
  ⟨hgh.here.trans hfg.here, fun place => (hgh.folder place).trans (hfg.folder place)⟩

theorem keeps (hfg : SameFolders f g) : Keeps f g :=
  ⟨hfg.here, fun place => (hfg.folder place).mpr⟩

/-- A path that leads to a file leads to what stands there in the other file system. -/
theorem node_file_iff (hfg : SameFolders f g)
    (hsame : g.root.entryAt (f.destination path) = f.root.entryAt (f.destination path)) :
    g.node path = .ok (.file content) ↔ f.node path = .ok (.file content) := by
  constructor
  · intro hnode
    have hat := entryAt_eq_file_iff.mpr (at?_destination_of_node hnode)
    rw [hfg.keeps.destination_eq, hsame, entryAt_eq_file_iff] at hat
    exact hfg.symm.keeps.node hnode (by rwa [hfg.keeps.destination_eq])
  · intro hnode
    have hat := entryAt_eq_file_iff.mpr (at?_destination_of_node hnode)
    rw [← hsame, entryAt_eq_file_iff] at hat
    exact hfg.keeps.node hnode hat

end SameFolders

/-! Paths into a directory. -/

namespace Opens

variable {f g : FileSystem} {path name : String} {dir : List String} {content : Content}

theorem follow_eq (h : Opens f path dir name) :
    f.follow dir name.toList =
      if (f.root.entryAt (dir ++ [name])).isSome then .ok (dir ++ [name])
      else .error .notFound := by
  obtain ⟨inside, hinside⟩ := entryAt_eq_folder_iff.mp h.folder
  exact follow_name hinside h.isName.2 h.short

theorem node_eq (h : Opens f path dir name) :
    f.node path =
      match f.root.at? (dir ++ [name]) with
      | some n => .ok n
      | none => .error .notFound := by
  obtain ⟨segs, hsegs, hlocate⟩ := h.route
  rw [node, place, route_eq_ok h.followable, ok_bind, hsegs, locate_concat, hlocate, ok_bind,
    h.follow_eq, isSome_entryAt]
  cases hat : f.root.at? (dir ++ [name]) with
  | none => rfl
  | some n => simp [hat]

theorem destination_eq (h : Opens f path dir name) : f.destination path = dir ++ [name] := by
  obtain ⟨segs, hsegs, hlocate⟩ := h.route
  rw [FileSystem.destination_eq, hsegs, List.filterMap_append, List.foldl_append,
    ← eq_foldl_of_locate hlocate]
  simp [h.isName.2, PathPart.advance]

/-- A path leads into the same directory wherever there is one. -/
theorem of_keeps (h : Opens f path dir name) (hk : Keeps f g) : Opens g path dir name := by
  have hfolder := hk.folder dir h.folder
  obtain ⟨segs, hsegs, hlocate⟩ := h.route
  refine ⟨h.followable, h.isName, h.short, hfolder, segs, hsegs, ?_⟩
  rw [hk.startOf_eq]
  exact hk.locate hlocate (by simp [hfolder])

theorem writeFile_eq (h : Opens f path dir name)
    (hfree : f.root.entryAt (dir ++ [name]) ≠ some .folder) (content : Content) :
    f.writeFile path content = .ok (f.withFile (dir ++ [name]) content) := by
  obtain ⟨inside, hinside⟩ := entryAt_eq_folder_iff.mp h.folder
  obtain ⟨segs, hsegs, hlocate⟩ := h.route
  obtain ⟨-, hdots⟩ := isDots_eq_false_of_name h.isName.2
  have hlook : lookUp inside name = .ok (inside.child? name) := if_neg (Nat.not_lt.mpr h.short)
  rw [Forest.entryAt, at?_concat hinside] at hfree
  simp only [writeFile, route_eq_ok h.followable, ok_bind, hsegs, List.dropLast_concat, hlocate,
    folderAt_eq_ok_iff.mpr hinside, List.getLast?_concat, Option.getD_some, hdots,
    Bool.false_eq_true, ↓reduceIte, String.ofList_toList, hlook]
  cases hchild : inside.child? name with
  | none => rfl
  | some n =>
      cases n with
      | file old => rfl
      | folder inside' => simp [hchild, Node.entry] at hfree

end Opens

section Opening

variable {f g : FileSystem} {path name : String} {dir place : List String} {content : Content}

theorem exists_concat_segments (cs : List Char) : ∃ segs s, segments cs = segs ++ [s] := by
  rcases List.eq_nil_or_concat (segments cs) with hnil | ⟨segs, s, hsegs⟩
  · exact absurd hnil (Path.segments_ne_nil cs)
  · exact ⟨segs, s, by rw [hsegs, List.concat_eq_append]⟩

theorem isName_of_segment {segs : List (List Char)} {s : List Char}
    (hsegs : segments path.toList = segs ++ [s]) (hpart : part? s = some (.name name)) :
    IsName name ∧ s = name.toList := by
  have hname : s = name.toList := by rw [Path.eq_name_of_part? hpart, String.toList_ofList]
  have hmem : s ∈ segments path.toList := hsegs ▸ List.mem_append_right _ List.mem_cons_self
  have hplain : '/' ∉ s := Path.plain_of_mem_segments hmem
  exact ⟨⟨hname ▸ hplain, hname ▸ hpart⟩, hname⟩

/-- What is looked up is what is there, unless the name is too long. -/
theorem lookUp_eq_ok {inside : Forest} {found : Option Node} (h : lookUp inside name = .ok found) :
    name.utf8ByteSize ≤ nameLimit ∧ found = inside.child? name := by
  rw [lookUp] at h
  split at h
  · cases h
  · rename_i hshort
    exact ⟨Nat.not_lt.mp hshort, (Except.ok.inj h).symm⟩

/-- What can be written is in a directory that is there, and takes no directory's place. -/
theorem opens_of_writeFile (h : f.writeFile path content = .ok g) :
    ∃ dir name, Opens f path dir name ∧ f.root.entryAt (dir ++ [name]) ≠ some .folder ∧
      g = f.withFile (dir ++ [name]) content := by
  obtain ⟨segs, s, hsegs⟩ := exists_concat_segments path.toList
  obtain ⟨r, hroute, h⟩ := bind_eq_ok.mp h
  have hfollow : Followable path := followable_of_route hroute
  obtain rfl := Except.ok.inj ((route_eq_ok hfollow).symm.trans hroute)
  simp only [hsegs, List.dropLast_concat, List.getLast?_concat, Option.getD_some] at h
  obtain ⟨dir, hlocate, h⟩ := bind_eq_ok.mp h
  obtain ⟨inside, hfolder, h⟩ := bind_eq_ok.mp h
  have hinside : f.root.at? dir = some (.folder inside) := folderAt_eq_ok_iff.mp hfolder
  cases hdots : isDots s with
  | true => simp [hdots] at h
  | false =>
      simp only [hdots, Bool.false_eq_true, ↓reduceIte] at h
      obtain ⟨found, hlook, h⟩ := bind_eq_ok.mp h
      obtain ⟨hshort, rfl⟩ := lookUp_eq_ok hlook
      obtain ⟨hname, hs⟩ := isName_of_segment hsegs (part?_of_isDots_eq_false hdots)
      have hopens : Opens f path dir (String.ofList s) :=
        ⟨hfollow, hname, hshort, entryAt_eq_folder_iff.mpr ⟨inside, hinside⟩, segs, hs ▸ hsegs,
          hlocate⟩
      refine ⟨dir, String.ofList s, hopens, ?_⟩
      rw [Forest.entryAt, at?_concat hinside]
      cases hchild : inside.child? (String.ofList s) with
      | none =>
          rw [hchild] at h
          exact ⟨by simp, (Except.ok.inj h).symm⟩
      | some n =>
          rw [hchild] at h
          cases n with
          | file old => exact ⟨by simp [Node.entry], (Except.ok.inj h).symm⟩
          | folder inside' => cases h

theorem entryAt_dropLast (h : f.root.entryAt place = some .folder) :
    f.root.entryAt place.dropLast = some .folder := by
  rcases List.eq_nil_or_concat place with rfl | ⟨dir, name, rfl⟩
  · exact h
  · rw [List.concat_eq_append] at h ⊢
    rw [List.dropLast_concat]
    rw [Forest.entryAt, Forest.at?_append] at h
    cases hdir : f.root.at? dir with
    | none => simp [hdir] at h
    | some n =>
        cases n with
        | file content => simp [hdir] at h
        | folder inside => exact entryAt_eq_folder_iff.mpr ⟨inside, hdir⟩

/-- A file stands in a directory. -/
theorem opens_of_node (h : f.node path = .ok (.file content)) :
    ∃ dir name, Opens f path dir name ∧ f.root.at? (dir ++ [name]) = some (.file content) := by
  obtain ⟨place, hplace, hat⟩ := node_eq_ok_iff.mp h
  obtain ⟨hfollow, hlocate⟩ := place_eq_ok_iff.mp hplace
  obtain ⟨segs, s, hsegs⟩ := exists_concat_segments path.toList
  rw [hsegs] at hlocate
  obtain ⟨dir, hdir, hfolder, hleads⟩ := locate_concat_eq_ok_iff.mp hlocate
  have hnot : f.root.entryAt place ≠ some .folder := by
    rw [entryAt_eq_file_iff.mpr hat]
    simp
  cases hleads with
  | idle _ => exact absurd hfolder hnot
  | up _ => exact absurd (entryAt_dropLast hfolder) hnot
  | name hpart short there =>
      obtain ⟨hname, hs⟩ := isName_of_segment hsegs hpart
      exact ⟨dir, _, ⟨hfollow, hname, short, hfolder, segs, hs ▸ hsegs, hdir⟩, hat⟩

theorem Opens.fileName?_eq (h : Opens f path dir name) : Path.fileName? path = some name := by
  obtain ⟨segs, hsegs, -⟩ := h.route
  refine Path.fileName?_of_toList h.isName ?_
  rcases Path.of_segments_eq_concat hsegs with ⟨-, hpath⟩ | ⟨cs, hpath, -⟩
  · exact Or.inl hpath
  · exact Or.inr ⟨cs, hpath⟩

theorem Followable.of_prefix {path start : String} (h : Followable path)
    (hstarts : start.toList <+: path.toList) (hne : start ≠ "") : Followable start := by
  obtain ⟨rest, hrest⟩ := hstarts
  have hpath : path = start ++ String.ofList rest := by simp [← String.toList_inj, hrest]
  refine ⟨fun hnul => h.noNul (hrest ▸ List.mem_append_left _ hnul), by simpa using hne, ?_⟩
  have hlong := h.notTooLong
  rw [hpath] at hlong
  simp only [isPathTooLong, decide_eq_false_iff_not, String.utf8ByteSize_append] at hlong ⊢
  omega

/-- The directory of a path is there if the path leads into one. -/
theorem Opens.place_directory (h : Opens f path dir name) (hne : Path.directory path ≠ "") :
    f.place (Path.directory path) = .ok dir := by
  obtain ⟨segs, hsegs, hlocate⟩ := h.route
  obtain ⟨-, ⟨-, hempty⟩ | ⟨cs, hpath, hdir, -⟩⟩ := Path.fileName?_cases h.fileName?_eq
  · exact absurd hempty hne
  have hfollow := h.followable.of_prefix (Path.directory_starts path) hne
  have hstart : f.startOf (Path.directory path) = f.startOf path := by
    rw [startOf, startOf, hdir.head, hpath.head]
    cases cs <;> rfl
  have hkept : segs.filter (fun s => !isIdle s) = kept (Path.directory path).toList := by
    have hname := Path.kept_name h.isName
    rw [kept, Path.segments_of_plain h.isName.1] at hname
    have hall := hpath.kept
    rw [kept, hsegs, List.filter_append, hname, Path.kept_append, Path.kept_name h.isName] at hall
    rw [hdir.kept, Path.kept_append, Path.kept_nil, List.append_nil]
    exact List.append_cancel_right hall
  rw [← locate_filter_iff h.folder, hkept, locate_kept_iff h.folder, ← hstart] at hlocate
  exact place_eq_ok_iff.mpr ⟨hfollow, hlocate⟩

theorem lookUp_dots {inside : Forest} {s : List Char} (h : isDots s = true) :
    lookUp inside (String.ofList s) = .ok (inside.child? (String.ofList s)) := by
  have hcases : s = [] ∨ s = ['.'] ∨ s = ['.', '.'] := by simpa [isDots, or_assoc] using h
  rcases hcases with rfl | rfl | rfl <;> exact if_neg (by decide)

theorem makeFolder_eq_taken {start : List String} {segs : List (List Char)} {s : List Char}
    (h : f.locate ⟨start, segs ++ [s]⟩ = .ok place)
    (hplace : f.root.entryAt place = some .folder) :
    f.makeFolder ⟨start, segs ++ [s]⟩ = .error .taken := by
  obtain ⟨dir, hdir, hfolder, hleads⟩ := locate_concat_eq_ok_iff.mp h
  obtain ⟨inside, hinside⟩ := entryAt_eq_folder_iff.mp hfolder
  have htaken : ∃ found, lookUp inside (String.ofList s) = .ok found ∧
      (isDots s || found.isSome) = true := by
    by_cases hdots : isDots s = true
    · exact ⟨_, lookUp_dots hdots, by simp [hdots]⟩
    · cases hleads with
      | idle hidle => simp_all [isDots, isIdle]
      | up hup => simp_all [isDots]
      | name hpart short there =>
          rw [isSome_entryAt, at?_concat hinside, Path.eq_name_of_part? hpart] at there
          rw [Path.eq_name_of_part? hpart] at short
          exact ⟨_, if_neg (Nat.not_lt.mpr short), by simp [there]⟩
  obtain ⟨found, hfound, htaken⟩ := htaken
  simp only [makeFolder, List.dropLast_concat, hdir, ok_bind, folderAt_eq_ok_iff.mpr hinside,
    List.getLast?_concat, Option.getD_some, hfound, htaken, ↓reduceIte]

/-- Nothing is made where there is a directory. -/
theorem makeFoldersTo_eq (h : f.place path = .ok place)
    (hplace : f.root.entryAt place = some .folder) : f.makeFoldersTo path = (f, none) := by
  obtain ⟨hfollow, hlocate⟩ := place_eq_ok_iff.mp h
  obtain ⟨segs, s, hsegs⟩ := exists_concat_segments path.toList
  obtain ⟨inside, hinside⟩ := entryAt_eq_folder_iff.mp hplace
  rw [hsegs] at hlocate
  have hreverse : (s :: segs.reverse).reverse = segs ++ [s] := by simp
  have hempty : path.isEmpty = false := by simpa using hfollow.notEmpty
  have hleads : f.leadsToFolder ⟨f.startOf path, segs ++ [s]⟩ = true := by
    simp [leadsToFolder, hlocate, hinside, Except.toOption]
  simp only [makeFoldersTo, hempty, Bool.false_eq_true, ↓reduceIte, route_eq_ok hfollow, hsegs,
    List.reverse_append, List.reverse_singleton, List.singleton_append, makeFolders, hreverse,
    makeFolder_eq_taken hlocate hplace, makeFolderIfNew, hleads]

theorem mem_join {dir path : String} {c : Char} (h : c ∈ (Path.join dir path).toList) :
    c ∈ dir.toList ∨ c = '/' ∨ c ∈ path.toList := by
  rw [Path.join] at h
  split at h
  · exact Or.inr (Or.inr h)
  · split at h <;> simp only [String.toList_append, List.mem_append] at h
    · exact h.imp_right Or.inr
    · rcases h with (h | h) | h
      · exact Or.inl h
      · exact Or.inr (Or.inl (by simpa using h))
      · exact Or.inr (Or.inr h)

/-- A name below a directory. -/
theorem opens_join {text : String} {inside : Forest} (h : f.node text = .ok (.folder inside))
    (hname : IsName name) (hnul : '\x00' ∉ name.toList) (short : name.utf8ByteSize ≤ nameLimit)
    (hlong : isPathTooLong (Path.join text name) = false) :
    Opens f (Path.join text name) (f.destination text) name := by
  obtain ⟨place, hplace, hat⟩ := node_eq_ok_iff.mp h
  obtain rfl := eq_destination_of_place hplace
  obtain ⟨hfollow, hlocate⟩ := place_eq_ok_iff.mp hplace
  have hfolder : f.root.entryAt (f.destination text) = some .folder :=
    entryAt_eq_folder_iff.mpr ⟨inside, hat⟩
  have hne : text ≠ "" := fun e => hfollow.notEmpty (by simp [e])
  obtain ⟨cs, hjoin, hsame⟩ := Path.exists_join hne hname.1
  have hfollow' : Followable (Path.join text name) := by
    refine ⟨fun hmem => ?_, by simp [hjoin], hlong⟩
    rcases mem_join hmem with hmem | hmem | hmem
    · exact hfollow.noNul hmem
    · cases hmem
    · exact hnul hmem
  refine ⟨hfollow', hname, short, hfolder, segments cs, ?_, ?_⟩
  · rw [hjoin, Path.segments_name hname.1]
  · have hstart : f.startOf (Path.join text name) = f.startOf text := by
      rw [startOf, startOf, hjoin, hsame.head]
      cases cs <;> rfl
    have hkept : kept text.toList = kept cs := by
      rw [hsame.kept, Path.kept_append, Path.kept_nil, List.append_nil]
    rwa [hstart, ← locate_kept_iff hfolder, ← hkept, locate_kept_iff hfolder]

theorem node_join {text : String} {inside : Forest} {n : Node}
    (h : f.node text = .ok (.folder inside)) (hname : IsName name) (hnul : '\x00' ∉ name.toList)
    (short : name.utf8ByteSize ≤ nameLimit)
    (hlong : isPathTooLong (Path.join text name) = false) (hchild : inside.child? name = some n) :
    f.node (Path.join text name) = .ok n := by
  rw [(opens_join h hname hnul short hlong).node_eq, at?_concat (at?_destination_of_node h),
    hchild]

end Opening

/-! What changes leave as it was. -/

section Frame

variable {f g : FileSystem} {path name : String} {dir place : List String} {content : Content}

theorem entryAt_withFile_of_ne (hfree : f.root.entryAt (dir ++ [name]) ≠ some .folder)
    (hne : place ≠ dir ++ [name]) :
    (f.withFile (dir ++ [name]) content).root.entryAt place = f.root.entryAt place :=
  Forest.entryAt_putFileAt_of_ne hfree hne

theorem at?_withFile_self (hdir : f.root.entryAt dir = some .folder)
    (hfree : f.root.entryAt (dir ++ [name]) ≠ some .folder) :
    (f.withFile (dir ++ [name]) content).root.at? (dir ++ [name]) = some (.file content) :=
  Forest.at?_putFileAt_self hdir hfree

/-- Writing a file at a place that no directory has changes nothing at the other places. -/
theorem grows_withFile (hfree : f.root.entryAt (dir ++ [name]) ≠ some .folder) :
    Grows f (f.withFile (dir ++ [name]) content) (· = dir ++ [name]) where
  here := rfl
  folder place hplace := by
    have hne : place ≠ dir ++ [name] := fun e => hfree (e ▸ hplace)
    rw [entryAt_withFile_of_ne hfree hne, hplace]
  file place old hne hplace := by rw [entryAt_withFile_of_ne hfree hne, hplace]

theorem grows_writeFile (h : f.writeFile path content = .ok g) :
    Grows f g (· = f.destination path) := by
  obtain ⟨dir, name, hopens, hfree, rfl⟩ := opens_of_writeFile h
  rw [hopens.destination_eq]
  exact grows_withFile hfree

theorem grows_putFolderAt (hnone : f.root.entryAt (dir ++ [name]) = none) :
    Grows f { f with root := f.root.putFolderAt (dir ++ [name]) } fun _ => False := by
  have hframe : ∀ place e, f.root.entryAt place = some e →
      (f.root.putFolderAt (dir ++ [name])).entryAt place = some e := by
    intro place e hplace
    rw [Forest.entryAt_putFolderAt_of_ne (by simp [hnone]), hplace]
    rintro rfl
    simp [hnone] at hplace
  exact ⟨⟨rfl, fun place hplace => hframe place _ hplace⟩,
    fun place content _ hplace => hframe place _ hplace⟩

/-- Making a directory changes no file. -/
theorem grows_makeFolder {r : Route} (h : f.makeFolder r = .ok g) :
    Grows f g fun _ => False := by
  obtain ⟨dir, hlocate, h⟩ := bind_eq_ok.mp h
  obtain ⟨inside, hfolder, h⟩ := bind_eq_ok.mp h
  obtain ⟨found, hlook, h⟩ := bind_eq_ok.mp h
  have hinside : f.root.at? dir = some (.folder inside) := folderAt_eq_ok_iff.mp hfolder
  obtain ⟨-, rfl⟩ := lookUp_eq_ok hlook
  split at h
  · cases h
  · rename_i hfree
    obtain rfl := Except.ok.inj h
    have hnone : f.root.entryAt (dir ++ [String.ofList (r.segments.getLast?.getD [])]) = none := by
      rw [Forest.entryAt, at?_concat hinside]
      simp_all
    exact grows_putFolderAt hnone

theorem grows_makeFolderIfNew (r : Route) : Grows f (f.makeFolderIfNew r).1 fun _ => False := by
  rw [makeFolderIfNew]
  split
  · rename_i h
    exact grows_makeFolder h
  · exact Grows.refl f _

theorem grows_makeFolders (start : List String) (back : List (List Char)) :
    Grows f (f.makeFolders start back).1 fun _ => False := by
  induction back generalizing f with
  | nil => exact Grows.refl f _
  | cons segment before ih =>
      rw [makeFolders]
      split
      · split
        · rename_i g hbefore
          have hg := ih (f := f)
          rw [hbefore] at hg
          exact hg.trans (grows_makeFolderIfNew _)
        · exact ih
      · exact grows_makeFolderIfNew _

theorem grows_makeFoldersTo (f : FileSystem) (path : String) :
    Grows f (f.makeFoldersTo path).1 fun _ => False := by
  rw [makeFoldersTo]
  split
  · exact Grows.refl f _
  · split
    · exact Grows.refl f _
    · exact grows_makeFolders _ _

end Frame

/-! Several files. -/

/-- A place for a file: it is in a directory, and none itself. -/
def Free (f : FileSystem) (place : List String) : Prop :=
  ∃ dir name, place = dir ++ [name] ∧ f.root.entryAt dir = some .folder ∧
    f.root.entryAt place ≠ some .folder

/-- A file system with files put at some places, one after the other. -/
def withFiles (f : FileSystem) (files : List (List String × Content)) : FileSystem :=
  files.foldl (fun g file => g.withFile file.1 file.2) f

section Several

variable {f g : FileSystem} {place other : List String} {content : Content}
  {files files' : List (List String × Content)}

theorem Free.grows (h : Free f place) (content : Content) :
    Grows f (f.withFile place content) (· = place) := by
  obtain ⟨dir, name, rfl, -, hfree⟩ := h
  exact grows_withFile hfree

theorem Free.entryAt_of_ne (h : Free f place) (hne : other ≠ place) (content : Content) :
    (f.withFile place content).root.entryAt other = f.root.entryAt other := by
  obtain ⟨dir, name, rfl, -, hfree⟩ := h
  exact entryAt_withFile_of_ne hfree hne

theorem Free.at?_self (h : Free f place) :
    (f.withFile place content).root.at? place = some (.file content) := by
  obtain ⟨dir, name, rfl, hdir, hfree⟩ := h
  exact at?_withFile_self hdir hfree

/-- Where one file can be put, it can be put after another. -/
theorem Free.withFile (h : Free f place) (h' : Free f other) :
    Free (f.withFile other content) place := by
  have hgrows := h'.grows content
  by_cases hne : place = other
  · obtain ⟨dir, name, hplace, hdir, -⟩ := h
    refine ⟨dir, name, hplace, hgrows.folder dir hdir, ?_⟩
    rw [hne, entryAt_eq_file_iff.mpr h'.at?_self]
    simp
  · have hsame := h'.entryAt_of_ne hne content
    obtain ⟨dir, name, hplace, hdir, hfree⟩ := h
    exact ⟨dir, name, hplace, hgrows.folder dir hdir, hsame ▸ hfree⟩

theorem withFiles_cons (file : List String × Content) :
    f.withFiles (file :: files) = (f.withFile file.1 file.2).withFiles files := rfl

theorem withFiles_concat (file : List String × Content) :
    f.withFiles (files ++ [file]) = (f.withFiles files).withFile file.1 file.2 := by
  rw [withFiles, List.foldl_append]
  rfl

/-- Files that are put somewhere leave the other places as they were. -/
theorem entryAt_withFiles_of_ne (hfree : ∀ file ∈ files, Free f file.1)
    (hne : ∀ file ∈ files, place ≠ file.1) :
    (f.withFiles files).root.entryAt place = f.root.entryAt place := by
  induction files generalizing f with
  | nil => rfl
  | cons file rest ih =>
      have hfile := hfree file List.mem_cons_self
      rw [withFiles_cons, ih, hfile.entryAt_of_ne (hne file List.mem_cons_self)]
      · exact fun file' h => (hfree file' (List.mem_cons_of_mem file h)).withFile hfile
      · exact fun file' h => hne file' (List.mem_cons_of_mem file h)

theorem keeps_withFiles (hfree : ∀ file ∈ files, Free f file.1) : Keeps f (f.withFiles files) := by
  induction files generalizing f with
  | nil => exact Keeps.refl f
  | cons file rest ih =>
      have hfile := hfree file List.mem_cons_self
      refine (hfile.grows file.2).toKeeps.trans (ih fun file' h => ?_)
      exact (hfree file' (List.mem_cons_of_mem file h)).withFile hfile

/-- Files at different places can be put there in any order. -/
theorem withFiles_perm (h : files.Perm files')
    (hplaces : (files.map Prod.fst).Nodup) : f.withFiles files = f.withFiles files' := by
  refine h.foldl_eq' (fun file hfile other hother g => ?_) f
  by_cases hsame : file.1 = other.1
  · rw [List.inj_on_of_nodup_map hplaces hfile hother hsame]
  · simp only [withFile, Forest.putFileAt_comm hsame]

/-- Each file that is put somewhere stands there. -/
theorem at?_withFiles_of_mem (hfree : ∀ file ∈ files, Free f file.1)
    (hplaces : (files.map Prod.fst).Nodup) {file : List String × Content} (h : file ∈ files) :
    (f.withFiles files).root.at? file.1 = some (.file file.2) := by
  induction files generalizing f with
  | nil => cases h
  | cons first rest ih =>
      have hfirst := hfree first List.mem_cons_self
      have hrest : ∀ file' ∈ rest, Free (f.withFile first.1 first.2) file'.1 := fun file' h =>
        (hfree file' (List.mem_cons_of_mem first h)).withFile hfirst
      rw [List.map_cons, List.nodup_cons] at hplaces
      rw [withFiles_cons]
      rcases List.mem_cons.mp h with rfl | h
      · have hne : ∀ file' ∈ rest, file.1 ≠ file'.1 := fun file' h e =>
          hplaces.1 (List.mem_map.mpr ⟨file', h, e.symm⟩)
        rw [← entryAt_eq_file_iff, entryAt_withFiles_of_ne hrest hne, entryAt_eq_file_iff]
        exact hfirst.at?_self
      · exact ih hrest hplaces.2 h

/-- A file that has its content already need not be put anywhere. -/
theorem withFile_of_at? (hf : f.root.Sorted) (h : f.root.at? place = some (.file content)) :
    f.withFile place content = f := by
  rw [withFile, Forest.putFileAt_of_at? hf h]

end Several

end FieldRules.FileSystem
