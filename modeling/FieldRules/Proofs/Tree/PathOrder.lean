/-
The order of paths, and paths as they are seen from a directory above them.  What is seen are the
parts that come after those of the directory, and so paths below one directory are in the same order
wherever they are seen from.
-/
import FieldRules.Proofs.Tree.Texts

namespace FieldRules

namespace PathPart

/-- Parts in common do not matter. -/
theorem listLe_append (base ps qs : List PathPart) :
    listLe (base ++ ps) (base ++ qs) = listLe ps qs := by
  induction base with
  | nil => rfl
  | cons p base ih => rw [List.cons_append, List.cons_append, listLe, if_pos rfl, ih]

theorem listLe_name {m n : String} (h : m < n) (ps qs : List PathPart) :
    listLe (name m :: ps) (name n :: qs) = true ∧
      listLe (name n :: qs) (name m :: ps) = false := by
  have hne : m ≠ n := fun e => String.lt_irrefl m (e ▸ h)
  constructor
  · simp [listLe, before, hne, h]
  · simp [listLe, before, hne.symm, String.lt_asymm h]

end PathPart

namespace Path

/-- A path that comes before another one, which is not the same. -/
def Before (p q : String) : Prop := le p q = true ∧ le q p = false

theorem Before.parts_ne {p q : String} (h : Before p q) : parts p ≠ parts q := by
  intro heq
  have hle : le q p = true := by
    rw [le, ← heq]
    exact (congrArg (PathPart.listLe (parts p)) heq).trans h.1
  rw [h.2] at hle
  cases hle

/-- Below one directory, paths are ordered by the first names in which they differ. -/
theorem before_of_lt {p q m n : String} {base ps qs : List PathPart} (hlt : m < n)
    (hp : parts p = base ++ .name m :: ps) (hq : parts q = base ++ .name n :: qs) : Before p q := by
  rw [Before, le, le, hp, hq, PathPart.listLe_append, PathPart.listLe_append]
  exact PathPart.listLe_name hlt ps qs

/-- Paths that lack the same parts in front are ordered as before. -/
theorem le_of_parts_append {p q shown shown' : String} {base : List PathPart} (hle : le p q = true)
    (hp : parts p = base ++ parts shown) (hq : parts q = base ++ parts shown') :
    le shown shown' = true := by
  rwa [le, hp, hq, PathPart.listLe_append] at hle

/-! Parts inside a path. -/

/-- The parts of a text that is not the beginning of a path. -/
def inner (cs : List Char) : List PathPart := (segments cs).filterMap part?

theorem inner_nil : inner [] = [] := rfl

theorem parts_eq_inner (path : String) : parts path = lead path.toList ++ inner path.toList := by
  rw [parts_eq, filterMap_kept, inner]

/-- Inside a path there is nothing but names and steps up. -/
theorem inner_cases {cs : List Char} {p : PathPart} (h : p ∈ inner cs) :
    p = .up ∨ ∃ name, p = .name name := by
  obtain ⟨segment, -, hpart⟩ := List.mem_filterMap.mp h
  rw [part?] at hpart
  split at hpart
  · cases hpart
  · split at hpart
    · exact Or.inl (Option.some.inj hpart).symm
    · exact Or.inr ⟨_, (Option.some.inj hpart).symm⟩

/-- A text begins with one segment, and what is behind its first slash are the others. -/
theorem exists_first (cs : List Char) :
    ∃ name, (cs = name ∨ ∃ ds, cs = name ++ '/' :: ds) ∧ (segments cs).head? = some name ∧
      inner cs = (part? name).toList ++ inner ((cs.dropWhile (· ≠ '/')).drop 1) := by
  have hplain : '/' ∉ cs.takeWhile (· ≠ '/') := fun hmem => by
    simpa using List.all_eq_true.mp List.all_takeWhile _ hmem
  have hsplit := List.takeWhile_append_dropWhile (p := (· ≠ '/')) (l := cs)
  refine ⟨cs.takeWhile (· ≠ '/'), ?_⟩
  rcases dropWhile_cases cs with hdrop | ⟨ds, hdrop⟩
  · rw [hdrop, List.append_nil] at hsplit
    have hsegs := segments_of_plain hplain
    rw [hsplit] at hsegs
    rw [hdrop, hsplit]
    refine ⟨Or.inl rfl, by rw [hsegs]; rfl, ?_⟩
    rw [inner, hsegs, List.filterMap_cons]
    cases part? cs <;> rfl
  · rw [hdrop] at hsplit
    have hsegs : segments cs = cs.takeWhile (· ≠ '/') :: segments ds := by
      rw [← hsplit, segments_append, hsplit, segments_of_plain hplain]
      rfl
    refine ⟨Or.inr ⟨ds, hsplit.symm⟩, by rw [hsegs]; rfl, ?_⟩
    rw [hdrop, inner, hsegs, List.filterMap_cons]
    cases part? (cs.takeWhile (· ≠ '/')) <;> rfl

theorem inner_trimFront (cs : List Char) : inner (trimFront cs) = inner cs := by
  fun_induction trimFront cs with
  | case1 cs ih => exact ih
  | case2 cs ih => exact ih
  | case3 => rfl
  | case4 cs => rfl

/-- Without what means nothing in front, a text does not look like the beginning of a path. -/
theorem lead_trimFront (cs : List Char) : lead (trimFront cs) = [] := by
  fun_induction trimFront cs with
  | case1 cs ih => exact ih
  | case2 cs ih => exact ih
  | case3 => rfl
  | case4 cs hslash hdotSlash hdot =>
      have hhead : cs.head? ≠ some '/' := by
        intro hhead
        obtain ⟨ds, rfl⟩ := List.head?_eq_some_iff.mp hhead
        exact hslash ds rfl
      have hfirst : (segments cs).head? ≠ some ['.'] := by
        intro hfirst
        obtain ⟨name, htext, hname, -⟩ := exists_first cs
        obtain rfl : ['.'] = name := Option.some.inj (hfirst.symm.trans hname)
        rcases htext with rfl | ⟨ds, rfl⟩
        · exact hdot rfl
        · exact hdotSlash ds rfl
      rw [lead, if_neg hhead, if_neg hfirst]

theorem head?_of_lead_eq_nil {cs : List Char} (h : lead cs = []) :
    cs.head? ≠ some '/' ∧ (segments cs).head? ≠ some ['.'] := by
  rw [lead] at h
  split at h
  · cases h
  · rename_i hhead
    split at h
    · cases h
    · rename_i hfirst
      exact ⟨hhead, hfirst⟩

/-- A text that does not look like the beginning of a path begins with a part, if it is not empty:
an empty segment in front would need a slash there, and a dot is a beginning. -/
theorem exists_first_part {cs : List Char} (hlead : lead cs = []) (hne : cs ≠ []) :
    ∃ p, inner cs = p :: inner ((cs.dropWhile (· ≠ '/')).drop 1) := by
  obtain ⟨hhead, hfirst⟩ := head?_of_lead_eq_nil hlead
  obtain ⟨name, htext, hname, hinner⟩ := exists_first cs
  cases hpart : part? name with
  | some p => exact ⟨p, by rw [hinner, hpart]; rfl⟩
  | none =>
      exfalso
      have hidle := part?_eq_none_iff.mp hpart
      rw [isIdle, Bool.or_eq_true, decide_eq_true_eq, decide_eq_true_eq] at hidle
      rcases hidle with rfl | rfl
      · rcases htext with rfl | ⟨ds, rfl⟩
        · exact hne rfl
        · exact hhead rfl
      · exact hfirst hname

/-- Only the empty text has no parts. -/
theorem parts_ne_nil {path : String} (h : path ≠ "") : parts path ≠ [] := by
  intro hnil
  rw [parts_eq_inner, List.append_eq_nil_iff] at hnil
  obtain ⟨p, hp⟩ := exists_first_part hnil.1 (mt String.toList_eq_nil_iff.mp h)
  rw [hnil.2] at hp
  cases hp

/-! Seen from above. -/

/-- Dropping the first part inside a path. -/
theorem inner_dropPart {cs : List Char} {p : PathPart} {ps : List PathPart}
    (h : inner cs = p :: ps) : inner (dropPart cs p) = ps := by
  have hdrop : dropPart cs p = ((trimFront cs).dropWhile (· ≠ '/')).drop 1 := by
    rcases inner_cases (h ▸ List.mem_cons_self) with rfl | ⟨name, rfl⟩ <;> rfl
  have hne : trimFront cs ≠ [] := by
    intro hnil
    rw [← inner_trimFront, hnil, inner_nil] at h
    cases h
  obtain ⟨q, hq⟩ := exists_first_part (lead_trimFront cs) hne
  rw [inner_trimFront, h, ← hdrop] at hq
  exact (List.cons.inj hq).2.symm

theorem inner_foldl_dropPart {cs : List Char} {above rest : List PathPart}
    (h : inner cs = above ++ rest) : inner (above.foldl dropPart cs) = rest := by
  induction above generalizing cs with
  | nil => exact h
  | cons p above ih => exact ih (inner_dropPart h)

/-- Dropping the first parts of a path, be they what only its beginning has or not. -/
theorem inner_foldl_dropPart_parts {path : String} {above rest : List PathPart} (hne : above ≠ [])
    (h : parts path = above ++ rest) : inner (above.foldl dropPart path.toList) = rest := by
  obtain ⟨p, above, rfl⟩ := List.exists_cons_of_ne_nil hne
  rw [parts_eq_inner, lead] at h
  split at h
  · rename_i hhead
    obtain ⟨cs, hcs⟩ := List.head?_eq_some_iff.mp hhead
    obtain ⟨rfl, htail⟩ := List.cons.inj h
    rw [hcs] at htail ⊢
    change inner (above.foldl dropPart cs) = rest
    exact inner_foldl_dropPart htail
  · split at h
    · rename_i hfirst
      obtain ⟨rfl, htail⟩ := List.cons.inj h
      obtain ⟨name, -, hname, hinner⟩ := exists_first path.toList
      obtain rfl : ['.'] = name := Option.some.inj (hfirst.symm.trans hname)
      change inner (above.foldl dropPart ((path.toList.dropWhile (· ≠ '/')).drop 1)) = rest
      exact inner_foldl_dropPart (hinner.symm.trans htail)
    · exact inner_foldl_dropPart h

/-- A path that goes on from a directory is seen from there as what comes after it. -/
theorem exists_relativeTo? {base path : String} {rest : List PathPart} (hbase : parts base ≠ [])
    (h : parts path = parts base ++ rest) :
    ∃ shown, relativeTo? base path = some shown ∧ parts shown = rest := by
  have hprefix : (parts base).isPrefixOf (parts path) = true := by
    rw [h, List.isPrefixOf_iff_prefix]
    exact List.prefix_append _ _
  refine ⟨_, by rw [relativeTo?, if_pos hprefix], ?_⟩
  simp only [List.isEmpty_eq_false_iff.mpr hbase, Bool.false_eq_true, ↓reduceIte]
  generalize hfront : trimFront ((parts base).foldl dropPart path.toList) = front
  have hsame := Same.trimBack front.reverse
  rw [List.reverse_reverse] at hsame
  have htrim : parts (String.ofList (trimBack front.reverse).reverse) =
      parts (String.ofList front) :=
    Same.parts_eq (by rwa [String.toList_ofList, String.toList_ofList])
  rw [htrim, parts_eq_inner, String.toList_ofList, ← hfront, lead_trimFront, inner_trimFront,
    inner_foldl_dropPart_parts hbase h]
  rfl

end Path

end FieldRules
