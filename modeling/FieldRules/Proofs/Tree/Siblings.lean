/-
Paths with another name at their end.  They stand in the same directory, so where a path leads
into a directory, its siblings lead into the same one, unless they are too long.
-/
import FieldRules.Proofs.Tree.Changes
import FieldRules.Text.Slice

namespace FieldRules

/-! Bytes of a text. -/

section Bytes

variable {xs ys : List Char}

theorem utf8ByteSize_eq (s : String) : s.utf8ByteSize = utf8Length s.toList := by
  have hofList : ∀ cs : List Char, (String.ofList cs).utf8ByteSize = utf8Length cs := by
    intro cs
    induction cs with
    | nil => rfl
    | cons c cs ih => simp [String.ofList_cons, ih]
  rw [← hofList, String.ofList_toList]

theorem utf8Length_reverse (xs : List Char) : utf8Length xs.reverse = utf8Length xs := by
  induction xs with
  | nil => rfl
  | cons x xs ih => simp [ih, Nat.add_comm]

theorem utf8Length_le_of_suffix (h : xs <:+ ys) : utf8Length xs ≤ utf8Length ys := by
  obtain ⟨front, rfl⟩ := h
  simp

end Bytes

namespace Path

section Siblings

variable {path name new : String}

theorem trimBack_trimBack (b : List Char) : trimBack (trimBack b) = trimBack b := by
  fun_induction trimBack b with
  | case1 c cs ih => exact ih
  | case2 cs ih => exact ih
  | case3 cs hslash hdot =>
      rw [trimBack.eq_def]
      split
      · exact absurd rfl (hslash _ _)
      · exact absurd rfl (hdot _)
      · rfl

theorem backward_eq (h : fileName? path = some name) :
    backward path = name.toList.reverse ++ (backward path).dropWhile (· ≠ '/') := by
  have hpart : part? ((backward path).takeWhile (· ≠ '/')).reverse = some (.name name) := by
    rw [fileName?] at h
    split at h
    · rename_i s hs
      rw [hs, Option.some.inj h]
    · cases h
  have hname : (backward path).takeWhile (· ≠ '/') = name.toList.reverse := by
    rw [eq_name_of_part? hpart, String.toList_ofList, List.reverse_reverse]
  rw [← hname, List.takeWhile_append_dropWhile]

/-- A sibling is written as the directory, a slash unless the directory ends in one, and the new
name.  Given backwards, `back` is what stands in front of the name. -/
theorem withFileName_cases (h : fileName? path = some name) :
    (directory path = "" ∧ ∀ new, '/' ∉ new.toList → withFileName path new = new) ∨
      ∃ back, back.head? = some '/' ∧ trimBack back = (directory path).toList.reverse ∧
        utf8Length back ≤ utf8Length ((backward path).dropWhile (· ≠ '/')) ∧
        ∀ new, '/' ∉ new.toList → (withFileName path new).toList = back.reverse ++ new.toList := by
  have hjoin : ∀ new, withFileName path new = join (directory path) new := by
    intro new
    rw [withFileName, h]
  have hdir : (directory path).toList.reverse =
      trimBack ((backward path).dropWhile (· ≠ '/')) := by
    rw [directory, String.toList_ofList, List.reverse_reverse]
  rcases dropWhile_cases (backward path) with hdrop | ⟨cs, hdrop⟩
  · have hempty : directory path = "" := by rw [directory, hdrop]; rfl
    exact Or.inl ⟨hempty, fun new hnew => by rw [hjoin, hempty, join_empty hnew]⟩
  · have htrim := trimBack_trimBack ((backward path).dropWhile (· ≠ '/'))
    have hne : trimBack ((backward path).dropWhile (· ≠ '/')) ≠ [] := by
      rw [hdrop]
      exact trimBack_ne_nil (List.cons_ne_nil _ _)
    have hslash : ∀ new : String, '/' ∉ new.toList → new.toList.head? ≠ some '/' :=
      fun new hnew hhead => hnew (List.mem_of_mem_head? hhead)
    have hempty : (directory path).isEmpty = false := by
      rw [← hdir] at hne
      simpa [← String.toList_eq_nil_iff] using hne
    rw [← hdir] at htrim hne
    by_cases hlast : (directory path).toList.getLast? = some '/'
    · refine Or.inr ⟨(directory path).toList.reverse, ?_, htrim, ?_, fun new hnew => ?_⟩
      · rw [List.head?_reverse, hlast]
      · rw [hdir]
        exact utf8Length_le_of_suffix (trimBack_suffix _)
      · rw [hjoin, join, if_neg (hslash new hnew), if_pos (by simp [hlast]), String.toList_append,
          List.reverse_reverse]
    · cases cs with
      | nil =>
          have hroot : (directory path).toList.reverse = ['/'] := by
            rw [hdir, hdrop]
            decide
          exact absurd (by rw [← List.head?_reverse, hroot]; rfl) hlast
      | cons c cs =>
          have hsize : utf8Length (directory path).toList.reverse ≤ utf8Length (c :: cs) := by
            rw [hdir, hdrop, trimBack]
            exact utf8Length_le_of_suffix (trimBack_suffix _)
          refine Or.inr ⟨'/' :: (directory path).toList.reverse, rfl, ?_, ?_, fun new hnew => ?_⟩
          · obtain ⟨d, ds, hds⟩ := List.exists_cons_of_ne_nil hne
            rw [hds] at htrim ⊢
            rw [trimBack, htrim]
          · rw [hdrop, utf8Length_cons, utf8Length_cons]
            exact Nat.add_le_add_left hsize _
          · rw [hjoin, join, if_neg (hslash new hnew), if_neg (by simp [hlast, hempty])]
            simp

theorem directory_of_isName (h : IsName name) : directory name = "" := by
  have hplain := ne_slash_of_mem_reverse h.1
  have htrim := trimBack_name h []
  rw [List.append_nil] at htrim
  have hdrop : (name.toList.reverse ++ []).dropWhile (· ≠ '/') = [].dropWhile (· ≠ '/') :=
    List.dropWhile_append_of_pos hplain
  rw [List.append_nil] at hdrop
  rw [directory, backward, htrim, hdrop]
  rfl

/-- Siblings have the same directory. -/
theorem directory_withFileName (h : fileName? path = some name) (hnew : IsName new) :
    directory (withFileName path new) = directory path := by
  rcases withFileName_cases h with ⟨hempty, hsibling⟩ | ⟨back, hhead, htrim, -, hsibling⟩
  · rw [hsibling new hnew.1, hempty, directory_of_isName hnew]
  · have hplain := ne_slash_of_mem_reverse hnew.1
    have hdrop : back.dropWhile (· ≠ '/') = back := by
      cases back with
      | nil => rfl
      | cons c cs => simp_all
    rw [directory, backward, hsibling new hnew.1, List.reverse_append, List.reverse_reverse,
      trimBack_name hnew, List.dropWhile_append_of_pos hplain, hdrop, htrim, List.reverse_reverse,
      String.ofList_toList]

theorem fileName?_withFileName (h : fileName? path = some name) (hnew : IsName new) :
    fileName? (withFileName path new) = some new := by
  apply fileName?_of_toList hnew
  rcases withFileName_cases h with ⟨-, hsibling⟩ | ⟨back, hhead, -, -, hsibling⟩
  · exact Or.inl (by rw [hsibling new hnew.1])
  · obtain ⟨rest, rfl⟩ := List.head?_eq_some_iff.mp hhead
    refine Or.inr ⟨rest.reverse, ?_⟩
    rw [hsibling new hnew.1, List.reverse_cons, List.append_assoc]
    rfl

/-- A sibling with a name that is no longer is no longer itself. -/
theorem utf8ByteSize_withFileName_le (h : fileName? path = some name) (hnew : '/' ∉ new.toList)
    (hsize : new.utf8ByteSize ≤ name.utf8ByteSize) :
    (withFileName path new).utf8ByteSize ≤ path.utf8ByteSize := by
  have hpath : utf8Length (backward path) ≤ path.utf8ByteSize := by
    rw [utf8ByteSize_eq, ← utf8Length_reverse path.toList]
    exact utf8Length_le_of_suffix (trimBack_suffix _)
  have hback := congrArg utf8Length (backward_eq h)
  rw [utf8Length_append, utf8Length_reverse, ← utf8ByteSize_eq] at hback
  rcases withFileName_cases h with ⟨-, hsibling⟩ | ⟨back, -, -, hle, hsibling⟩
  · rw [hsibling new hnew]
    omega
  · rw [utf8ByteSize_eq (withFileName path new), hsibling new hnew, utf8Length_append,
      utf8Length_reverse, ← utf8ByteSize_eq new]
    omega

end Siblings

end Path

namespace FileSystem

open FieldRules.Path (IsName)

variable {f : FileSystem} {path name new : String} {dir : List String}

/-- Nothing has to be made for a path into a directory that is there. -/
theorem Opens.makeFoldersTo_directory (h : Opens f path dir name) :
    f.makeFoldersTo (Path.directory path) = (f, none) := by
  by_cases hempty : Path.directory path = ""
  · simp [makeFoldersTo, hempty]
  · exact makeFoldersTo_eq (h.place_directory hempty) h.folder

/-- A sibling leads into the same directory. -/
theorem Opens.sibling (h : Opens f path dir name) (hnew : IsName new) (hnul : '\x00' ∉ new.toList)
    (short : new.utf8ByteSize ≤ nameLimit)
    (hlong : isPathTooLong (Path.withFileName path new) = false) :
    Opens f (Path.withFileName path new) dir new := by
  have hfile := h.fileName?_eq
  by_cases hempty : Path.directory path = ""
  · have hsibling : Path.withFileName path new = new := by
      rw [Path.withFileName, hfile]
      exact hempty ▸ Path.join_empty hnew.1
    obtain ⟨segs, hsegs, hlocate⟩ := h.route
    obtain ⟨-, ⟨hpath, -⟩ | ⟨-, -, -, hne⟩⟩ := Path.fileName?_cases hfile
    · -- The path is its name but for idle segments, so it starts in the directory it leads to.
      have hkept : segs.filter (fun s => !Path.isIdle s) = [] := by
        have hname := Path.kept_name h.isName
        rw [Path.kept, Path.segments_of_plain h.isName.1] at hname
        have hall := hpath.kept
        rw [Path.kept, hsegs, List.filter_append, hname, Path.kept_name h.isName] at hall
        exact List.append_left_eq_self.mp hall
      have hstart : ∀ name : String, IsName name → f.startOf name = f.here := fun name hname =>
        if_neg fun hslash => hname.1 (List.mem_of_mem_head? hslash)
      rw [← locate_filter_iff h.folder, hkept] at hlocate
      have hdir : f.startOf path = dir := Except.ok.inj hlocate
      have hsame : f.startOf path = f.startOf name := by rw [startOf, startOf, hpath.head]
      rw [hsibling] at hlong ⊢
      refine ⟨⟨hnul, hnew.ne_nil, hlong⟩, hnew, short, h.folder, [], ?_, ?_⟩
      · rw [Path.segments_of_plain hnew.1]
        rfl
      · rw [hstart new hnew, ← hstart name h.isName, ← hsame, hdir]
        rfl
    · exact absurd hempty hne
  · have hplace := h.place_directory hempty
    obtain ⟨inside, hinside⟩ := Forest.entryAt_eq_folder_iff.mp h.folder
    have hnode : f.node (Path.directory path) = .ok (.folder inside) :=
      node_eq_ok_iff.mpr ⟨dir, hplace, hinside⟩
    have hjoin : Path.withFileName path new = Path.join (Path.directory path) new := by
      rw [Path.withFileName, hfile]
    rw [hjoin] at hlong ⊢
    have hopens := opens_join hnode hnew hnul short hlong
    rwa [← eq_destination_of_place hplace] at hopens

end FileSystem

end FieldRules
