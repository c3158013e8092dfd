/-
Path texts that mean the same.  Slashes and dots without meaning change neither the parts of a
path nor where it leads, so the path of a file is that of its directory and one name more.
-/
import FieldRules.Tree.Path

namespace FieldRules.Path

/-- A text that can be one part of a path. -/
def IsName (name : String) : Prop :=
  '/' ∉ name.toList ∧ part? name.toList = some (.name name)

instance : DecidablePred IsName := fun name =>
  inferInstanceAs (Decidable ('/' ∉ name.toList ∧ _))

/-- A segment without meaning. -/
def isIdle (segment : List Char) : Bool := segment = [] || segment = ['.']

/-- The segments that lead somewhere. -/
def kept (cs : List Char) : List (List Char) := (segments cs).filter fun s => !isIdle s

/-- Texts with the same beginning and the same segments that lead somewhere. -/
structure Same (cs ds : List Char) : Prop where
  head : cs.head? = ds.head?
  first : (segments cs).head? = (segments ds).head?
  kept : kept cs = kept ds

/-! Segments. -/

section Segments

variable {cs ds es name : List Char}

theorem segments_ne_nil (cs : List Char) : segments cs ≠ [] := by
  cases cs with
  | nil => simp [segments]
  | cons c cs =>
      rw [segments]
      split
      · simp
      · split <;> simp

theorem segments_append (cs ds : List Char) :
    segments (cs ++ '/' :: ds) = segments cs ++ segments ds := by
  induction cs with
  | nil => simp [segments]
  | cons c cs ih =>
      rw [List.cons_append, segments, segments]
      split
      · rw [ih, List.cons_append]
      · rw [ih]
        cases h : segments cs with
        | nil => exact absurd h (segments_ne_nil cs)
        | cons s ss => rfl

theorem segments_of_plain (h : '/' ∉ name) : segments name = [name] := by
  induction name with
  | nil => rfl
  | cons c cs ih =>
      rw [List.mem_cons, not_or] at h
      rw [segments, if_neg (Ne.symm h.1), ih h.2]

theorem segments_name (h : '/' ∉ name) (cs : List Char) :
    segments (cs ++ '/' :: name) = segments cs ++ [name] := by
  rw [segments_append, segments_of_plain h]

theorem plain_of_mem_segments (h : name ∈ segments cs) : '/' ∉ name := by
  induction cs generalizing name with
  | nil => simp_all [segments]
  | cons c cs ih =>
      rw [segments] at h
      split at h
      · rcases List.mem_cons.mp h with rfl | h
        · simp
        · exact ih h
      · rename_i hc
        cases hsegs : segments cs with
        | nil => exact absurd hsegs (segments_ne_nil cs)
        | cons s ss =>
            rw [hsegs] at h ih
            rcases List.mem_cons.mp h with rfl | h
            · simpa [Ne.symm hc] using ih List.mem_cons_self
            · exact ih (List.mem_cons_of_mem s h)

theorem plain_or_exists_slash (cs : List Char) :
    '/' ∉ cs ∨ ∃ ds name, '/' ∉ name ∧ cs = ds ++ '/' :: name := by
  induction cs with
  | nil => simp
  | cons c cs ih =>
      rcases ih with hplain | ⟨ds, name, hplain, rfl⟩
      · by_cases hc : c = '/'
        · exact Or.inr ⟨[], cs, hplain, by rw [hc]; rfl⟩
        · exact Or.inl (by simp [hplain, Ne.symm hc])
      · exact Or.inr ⟨c :: ds, name, hplain, rfl⟩

/-- The last segment is the whole text, or what is behind the last slash. -/
theorem of_segments_eq_concat {segs : List (List Char)} (h : segments cs = segs ++ [name]) :
    (segs = [] ∧ cs = name) ∨ ∃ ds, cs = ds ++ '/' :: name ∧ segments ds = segs := by
  rcases plain_or_exists_slash cs with hplain | ⟨ds, last, hplain, rfl⟩
  · rw [segments_of_plain hplain] at h
    obtain ⟨hsegs, hname⟩ := List.append_inj' ((List.nil_append [cs]).trans h) rfl
    exact Or.inl ⟨hsegs.symm, List.singleton_inj.mp hname⟩
  · rw [segments_name hplain] at h
    obtain ⟨hsegs, hname⟩ := List.append_inj' h rfl
    exact Or.inr ⟨ds, by rw [List.singleton_inj.mp hname], hsegs⟩

theorem head?_segments_append (cs ds : List Char) :
    (segments (cs ++ '/' :: ds)).head? = (segments cs).head? := by
  rw [segments_append, List.head?_append]
  cases h : segments cs with
  | nil => exact absurd h (segments_ne_nil cs)
  | cons s ss => rfl

theorem kept_append (cs ds : List Char) : kept (cs ++ '/' :: ds) = kept cs ++ kept ds := by
  rw [kept, segments_append, List.filter_append]
  rfl

theorem kept_nil : kept [] = [] := rfl

theorem kept_dot : kept ['.'] = [] := by decide

end Segments

/-! Texts that mean the same. -/

namespace Same

variable {cs ds es : List Char}

theorem refl (cs : List Char) : Same cs cs := ⟨rfl, rfl, rfl⟩

theorem trans (h : Same cs ds) (h' : Same ds es) : Same cs es :=
  ⟨h.head.trans h'.head, h.first.trans h'.first, h.kept.trans h'.kept⟩

theorem symm (h : Same cs ds) : Same ds cs := ⟨h.head.symm, h.first.symm, h.kept.symm⟩

theorem slashEnd (h : cs ≠ []) : Same (cs ++ ['/']) cs := by
  refine ⟨?_, head?_segments_append cs [], ?_⟩
  · cases cs with
    | nil => exact absurd rfl h
    | cons c cs => rfl
  · rw [kept_append, kept_nil, List.append_nil]

theorem dotEnd (cs : List Char) : Same (cs ++ ['/', '.']) (cs ++ ['/']) := by
  refine ⟨by cases cs <;> rfl, ?_, ?_⟩
  · rw [head?_segments_append, head?_segments_append]
  · rw [kept_append, kept_append, kept_nil, kept_dot]

/-- Trimming a text at its end keeps its meaning. -/
theorem trimBack (b : List Char) : Same (Path.trimBack b).reverse b.reverse := by
  fun_induction Path.trimBack b with
  | case1 c cs ih =>
      refine ih.trans ?_
      rw [List.reverse_cons (a := '/')]
      exact (slashEnd (by simp)).symm
  | case2 cs ih =>
      refine ih.trans ?_
      simpa using (dotEnd cs.reverse).symm
  | case3 cs => exact refl _

end Same

/-! Parts. -/

/-- The part that only the beginning of a path has. -/
def lead (cs : List Char) : List PathPart :=
  if cs.head? = some '/' then [.root]
  else if (segments cs).head? = some ['.'] then [.here]
  else []

theorem part?_eq_none_iff {segment : List Char} : part? segment = none ↔ isIdle segment = true := by
  rw [part?, isIdle]
  split
  · simp_all
  · split <;> simp_all

theorem filterMap_kept (cs : List Char) :
    (kept cs).filterMap part? = (segments cs).filterMap part? := by
  rw [kept, List.filterMap_filter]
  congr 1
  funext s
  cases h : isIdle s with
  | true => simp [part?_eq_none_iff.mpr h]
  | false => simp

theorem parts_eq (path : String) :
    parts path = lead path.toList ++ (kept path.toList).filterMap part? := by
  rw [filterMap_kept, parts, lead]
  cases path.toList with
  | nil => rfl
  | cons c cs =>
      obtain ⟨s, ss, hss⟩ := List.exists_cons_of_ne_nil (segments_ne_nil cs)
      by_cases hc : c = '/'
      · simp [segments, hc, hss, part?]
      · simp only [segments, hss, List.head?_cons, Option.some.injEq, hc, ↓reduceIte]
        split
        · rename_i hdot
          simp [hdot, part?]
        · simp

theorem Same.parts_eq {p q : String} (h : Same p.toList q.toList) : parts p = parts q := by
  rw [Path.parts_eq, Path.parts_eq, lead, lead, h.head, h.first, h.kept]

/-! One name more. -/

section Name

variable {name : String}

/-- Only short texts can be dots. -/
theorem isName_of_length (hplain : '/' ∉ name.toList) (hlength : 2 < name.toList.length) :
    IsName name := by
  have hne : ∀ dots : List Char, dots.length ≤ 2 → name.toList ≠ dots := by
    intro dots hdots heq
    rw [heq] at hlength
    exact Nat.not_lt.mpr hdots hlength
  refine ⟨hplain, ?_⟩
  rw [part?, if_neg, if_neg (hne _ (by simp)), String.ofList_toList]
  simpa using ⟨fun e => hne [] (by simp) (by simp [e]), hne ['.'] (by simp)⟩

theorem kept_name (h : IsName name) : kept name.toList = [name.toList] := by
  have hidle : isIdle name.toList = false := by
    rw [← Bool.not_eq_true, ← part?_eq_none_iff, h.2]
    simp
  rw [kept, segments_of_plain h.1]
  simp [hidle]

theorem lead_append (cs ds : List Char) : lead (cs ++ '/' :: ds) = lead (cs ++ ['/']) := by
  have hhead : (cs ++ '/' :: ds).head? = (cs ++ ['/']).head? := by cases cs <;> rfl
  rw [lead, lead, hhead, head?_segments_append, head?_segments_append]

/-- The parts of a path with a name at its end. -/
theorem parts_name (h : IsName name) {path dir : String} {cs : List Char}
    (hpath : Same path.toList (cs ++ '/' :: name.toList)) (hdir : Same dir.toList (cs ++ ['/'])) :
    parts path = parts dir ++ [.name name] := by
  have hp : parts path = parts (String.ofList (cs ++ '/' :: name.toList)) :=
    Same.parts_eq (by rwa [String.toList_ofList])
  have hd : parts dir = parts (String.ofList (cs ++ ['/'])) :=
    Same.parts_eq (by rwa [String.toList_ofList])
  rw [hp, hd, parts_eq, parts_eq, String.toList_ofList, String.toList_ofList, lead_append,
    kept_append, kept_append, kept_name h, kept_nil]
  simp [h.2]

theorem parts_of_isName (h : IsName name) : parts name = [.name name] := by
  have hlead : lead name.toList = [] := by
    rw [lead, segments_of_plain h.1, if_neg, if_neg]
    · intro hdot
      have := h.2
      simp_all [part?]
    · intro hslash
      exact h.1 (List.mem_of_mem_head? hslash)
  rw [parts_eq, hlead, kept_name h]
  simp [h.2]

/-- Joining puts a slash between a directory and a name, unless one is there. -/
theorem exists_join {dir : String} (hdir : dir ≠ "") (h : '/' ∉ name.toList) :
    ∃ cs, (join dir name).toList = cs ++ '/' :: name.toList ∧
      Same dir.toList (cs ++ ['/']) := by
  have hslash : name.toList.head? ≠ some '/' := fun hs => h (List.mem_of_mem_head? hs)
  have hne : dir.toList ≠ [] := fun e => hdir (String.toList_eq_nil_iff.mp e)
  rw [join, if_neg hslash]
  by_cases hlast : dir.toList.getLast? = some '/'
  · obtain ⟨cs, hcs⟩ := List.getLast?_eq_some_iff.mp hlast
    refine ⟨cs, ?_, hcs ▸ Same.refl _⟩
    simp [hcs]
  · refine ⟨dir.toList, ?_, (Same.slashEnd hne).symm⟩
    simp [hlast, hdir]

theorem join_ne_empty {dir : String} (hdir : dir ≠ "") (h : '/' ∉ name.toList) :
    join dir name ≠ "" := by
  obtain ⟨cs, hjoin, -⟩ := exists_join hdir h
  rw [Ne, ← String.toList_eq_nil_iff, hjoin]
  simp

theorem parts_join {dir : String} (hdir : dir ≠ "") (h : IsName name) :
    parts (join dir name) = parts dir ++ [.name name] := by
  obtain ⟨cs, hjoin, hsame⟩ := exists_join hdir h.1
  exact parts_name h (hjoin ▸ Same.refl _) hsame

theorem join_empty (h : '/' ∉ name.toList) : join "" name = name := by
  have hslash : name.toList.head? ≠ some '/' := fun hs => h (List.mem_of_mem_head? hs)
  simp [join, hslash]

end Name

/-! The name and the directory of a path. -/

section FileName

variable {path name new : String}

theorem trimBack_suffix (b : List Char) : trimBack b <:+ b := by
  fun_induction trimBack b with
  | case1 c cs ih => exact ih.trans (List.suffix_cons _ _)
  | case2 cs ih => exact ih.trans (List.suffix_cons _ _)
  | case3 cs => exact List.suffix_rfl

theorem trimBack_ne_nil {b : List Char} (h : b ≠ []) : trimBack b ≠ [] := by
  fun_induction trimBack b with
  | case1 c cs ih => exact ih (by simp)
  | case2 cs ih => exact ih (by simp)
  | case3 cs => exact h

/-- The directory of a path is written at its beginning. -/
theorem directory_starts (path : String) : (directory path).toList <+: path.toList := by
  rw [directory, String.toList_ofList, ← List.reverse_suffix, List.reverse_reverse]
  exact (trimBack_suffix _).trans ((List.dropWhile_suffix _).trans (trimBack_suffix _))

theorem eq_name_of_part? {segment : List Char} (h : part? segment = some (.name name)) :
    name = String.ofList segment := by
  rw [part?] at h
  split at h
  · cases h
  · split at h
    · cases h
    · exact (PathPart.name.inj (Option.some.inj h)).symm

/-- Trimming a path at its end keeps its meaning. -/
theorem same_backward (path : String) : Same path.toList (backward path).reverse := by
  have h := (Same.trimBack path.toList.reverse).symm
  rwa [List.reverse_reverse] at h

theorem plain_takeWhile (b : List Char) : '/' ∉ (b.takeWhile (· ≠ '/')).reverse := by
  rw [List.mem_reverse]
  intro hmem
  simpa using List.all_eq_true.mp List.all_takeWhile _ hmem

/-- A text backwards, without the part after its last slash, begins with that slash if it has
one. -/
theorem dropWhile_cases (b : List Char) :
    b.dropWhile (· ≠ '/') = [] ∨ ∃ cs, b.dropWhile (· ≠ '/') = '/' :: cs := by
  cases h : b.dropWhile (· ≠ '/') with
  | nil => exact Or.inl rfl
  | cons c cs =>
      have hc := List.head?_dropWhile_not (· ≠ '/') b
      rw [h] at hc
      have hslash : c = '/' := by simpa using hc
      exact Or.inr ⟨cs, by rw [hslash]⟩

/-- A path with a name at its end stands in its directory, which has no text if the name is
all there is. -/
theorem fileName?_cases (h : fileName? path = some name) :
    IsName name ∧
      ((Same path.toList name.toList ∧ directory path = "") ∨
        ∃ cs, Same path.toList (cs ++ '/' :: name.toList) ∧
          Same (directory path).toList (cs ++ ['/']) ∧ directory path ≠ "") := by
  have hpart : part? ((backward path).takeWhile (· ≠ '/')).reverse = some (.name name) := by
    rw [fileName?] at h
    split at h
    · rename_i s hs
      rw [hs, Option.some.inj h]
    · cases h
  have hname : ((backward path).takeWhile (· ≠ '/')).reverse = name.toList := by
    rw [eq_name_of_part? hpart, String.toList_ofList]
  have hplain : '/' ∉ name.toList := hname ▸ plain_takeWhile _
  refine ⟨⟨hplain, hname ▸ hpart⟩, ?_⟩
  have hsplit : (backward path).reverse =
      ((backward path).dropWhile (· ≠ '/')).reverse ++ name.toList := by
    rw [← hname, ← List.reverse_append, List.takeWhile_append_dropWhile]
  have hpath := hsplit ▸ same_backward path
  rcases dropWhile_cases (backward path) with hdrop | ⟨cs, hdrop⟩
  · rw [hdrop] at hpath
    exact Or.inl ⟨hpath, by rw [directory, hdrop]; rfl⟩
  · have hdir : (directory path).toList = (trimBack ('/' :: cs)).reverse := by
      rw [directory, String.toList_ofList, hdrop]
    rw [hdrop, List.reverse_cons, List.append_assoc] at hpath
    refine Or.inr ⟨cs.reverse, hpath, ?_, ?_⟩
    · rw [hdir, ← List.reverse_cons]
      exact Same.trimBack _
    · rw [Ne, ← String.toList_eq_nil_iff, hdir, List.reverse_eq_nil_iff]
      exact trimBack_ne_nil (List.cons_ne_nil _ _)

theorem parts_empty : parts "" = [] := by decide

theorem parts_of_fileName? (h : fileName? path = some name) :
    parts path = parts (directory path) ++ [.name name] := by
  obtain ⟨hname, ⟨hpath, hdir⟩ | ⟨cs, hpath, hdir, -⟩⟩ := fileName?_cases h
  · rw [hpath.parts_eq, parts_of_isName hname, hdir, parts_empty]
    rfl
  · exact parts_name hname hpath hdir

theorem parts_withFileName (h : fileName? path = some name) (hnew : IsName new) :
    parts (withFileName path new) = parts (directory path) ++ [.name new] := by
  rw [withFileName, h]
  by_cases hdir : directory path = ""
  · rw [hdir, join_empty hnew.1, parts_of_isName hnew, parts_empty]
    rfl
  · exact parts_join hdir hnew

theorem IsName.ne_dot (h : IsName name) : name.toList ≠ ['.'] := by
  intro hdot
  have := h.2
  rw [hdot] at this
  cases this

theorem IsName.ne_nil (h : IsName name) : name.toList ≠ [] := by
  intro hnil
  have := h.2
  rw [hnil] at this
  cases this

/-- Nothing is trimmed after a name. -/
theorem trimBack_name (h : IsName name) (cs : List Char) :
    trimBack (name.toList.reverse ++ cs) = name.toList.reverse ++ cs := by
  have hplain : '/' ∉ name.toList.reverse := fun hmem => h.1 (List.mem_reverse.mp hmem)
  have hdot : name.toList.reverse ≠ ['.'] := by
    intro e
    exact h.ne_dot (by rw [← List.reverse_reverse name.toList, e]; rfl)
  obtain ⟨c, rest, hrev⟩ :=
    List.exists_cons_of_ne_nil (mt List.reverse_eq_nil_iff.mp h.ne_nil)
  rw [hrev] at hplain hdot ⊢
  rw [List.mem_cons, not_or] at hplain
  rw [List.cons_append, trimBack.eq_def]
  split
  · rename_i heq
    exact absurd (List.cons.inj heq).1.symm hplain.1
  · rename_i heq
    obtain ⟨rfl, hrest⟩ := List.cons.inj heq
    cases rest with
    | nil => exact absurd rfl hdot
    | cons d ds => exact absurd (List.cons.inj hrest).1.symm fun e => hplain.2 (e ▸ List.mem_cons_self)
  · rfl

theorem ne_slash_of_mem_reverse (h : '/' ∉ name.toList) :
    ∀ c ∈ name.toList.reverse, decide (c ≠ '/') = true := by
  intro c hc
  exact decide_eq_true fun e => h (e ▸ List.mem_reverse.mp hc)

/-- The name that a text ends in is that of the path. -/
theorem fileName?_of_toList (h : IsName name)
    (hpath : path.toList = name.toList ∨ ∃ cs, path.toList = cs ++ '/' :: name.toList) :
    fileName? path = some name := by
  have hplain := ne_slash_of_mem_reverse h.1
  have hlast : (backward path).takeWhile (· ≠ '/') = name.toList.reverse := by
    rcases hpath with hpath | ⟨cs, hpath⟩
    · have htrim := trimBack_name h []
      rw [List.append_nil] at htrim
      rw [backward, hpath, htrim, ← List.append_nil name.toList.reverse,
        List.takeWhile_append_of_pos hplain]
      simp
    · rw [backward, hpath, List.reverse_append, List.reverse_cons, List.append_assoc,
        trimBack_name h, List.takeWhile_append_of_pos hplain]
      simp
  rw [fileName?, hlast, List.reverse_reverse, h.2]

end FileName

/-! The name before its last dot and after it. -/

section Stem

variable {path name stem ext : String}

theorem splitName_eq_some (h : splitName name = (stem, some ext)) :
    name = stem ++ "." ++ ext ∧ stem ≠ "" := by
  rw [splitName] at h
  split at h
  · rename_i d c cs hdrop
    have hd : d = '.' := by
      have := List.head?_dropWhile_not (· ≠ '.') name.toList.reverse
      rw [hdrop] at this
      simpa using this
    obtain ⟨rfl, hext⟩ := Prod.mk.inj h
    have hback : name.toList.reverse = ext.toList.reverse ++ '.' :: c :: cs := by
      have hsplit := List.takeWhile_append_dropWhile (p := (· ≠ '.')) (l := name.toList.reverse)
      rw [hdrop, hd] at hsplit
      rw [← hsplit, ← Option.some.inj hext]
      simp
    refine ⟨String.toList_inj.mp ?_, by simp [← String.toList_inj]⟩
    rw [← List.reverse_reverse name.toList, hback]
    simp
  · cases (Prod.mk.inj h).2

/-- An extension has no dots. -/
theorem dot_not_mem_of_splitName (h : splitName name = (stem, some ext)) : '.' ∉ ext.toList := by
  rw [splitName] at h
  split at h
  · rw [← Option.some.inj (Prod.mk.inj h).2, String.toList_ofList, List.mem_reverse]
    intro hmem
    simpa using List.all_eq_true.mp List.all_takeWhile _ hmem
  · cases (Prod.mk.inj h).2

/-- A name is split at its last dot. -/
theorem splitName_append (hstem : stem ≠ "") (hext : '.' ∉ ext.toList) :
    splitName (stem ++ "." ++ ext) = (stem, some ext) := by
  have hback : (stem ++ "." ++ ext).toList.reverse =
      ext.toList.reverse ++ '.' :: stem.toList.reverse := by simp
  have hplain : ∀ c ∈ ext.toList.reverse, decide (c ≠ '.') = true := fun c hc =>
    decide_eq_true fun e => hext (e ▸ List.mem_reverse.mp hc)
  have hne : stem.toList.reverse ≠ [] :=
    mt List.reverse_eq_nil_iff.mp (mt String.toList_eq_nil_iff.mp hstem)
  obtain ⟨c, cs, hcs⟩ := List.exists_cons_of_ne_nil hne
  rw [hcs] at hback
  have hdrop : (stem ++ "." ++ ext).toList.reverse.dropWhile (· ≠ '.') = '.' :: c :: cs := by
    rw [hback, List.dropWhile_append_of_pos hplain]
    rfl
  have htake : (stem ++ "." ++ ext).toList.reverse.takeWhile (· ≠ '.') = ext.toList.reverse := by
    rw [hback, List.takeWhile_append_of_pos hplain]
    simp
  have hfront : (c :: cs).reverse = stem.toList := by rw [← hcs, List.reverse_reverse]
  rw [splitName]
  simp only [hdrop, htake, hfront, List.reverse_reverse, String.ofList_toList]

/-- A path with an extension ends in a name of which it is one. -/
theorem fileName?_of_extension? (h : extension? path = some ext) :
    fileName? path = some (Path.stem path ++ "." ++ ext) ∧ Path.stem path ≠ "" := by
  rw [extension?] at h
  cases hname : fileName? path with
  | none => simp [hname] at h
  | some name =>
      have hsplit : splitName name = (Path.stem path, some ext) := by
        rw [Path.stem, hname]
        exact Prod.ext rfl (by simpa [hname] using h)
      obtain ⟨heq, hne⟩ := splitName_eq_some hsplit
      exact ⟨by rw [heq], hne⟩

end Stem

end FieldRules.Path
