/-
What stands where in a directory tree.  A file that is put at a place leaves all other places
as they were, and files that are put at different places do not depend on the order.
-/
import FieldRules.Tree.Forest

namespace FieldRules

/-- What stands at a place, without what is inside a directory. -/
inductive Entry where
  | file (content : Content)
  | folder
deriving DecidableEq, Repr

def Node.entry : Node → Entry
  | file content => .file content
  | folder _ => .folder

/-- A directory after a change inside it; a file stays what it is. -/
def Node.inside (change : Forest → Forest) : Node → Node
  | .file content => .file content
  | .folder inside => .folder (change inside)

namespace Forest

def entryAt (f : Forest) (place : List String) : Option Entry := (f.at? place).map Node.entry

section Entry

variable {f : Forest} {place : List String} {content : Content}

theorem entryAt_eq_folder_iff :
    f.entryAt place = some .folder ↔ ∃ inside, f.at? place = some (.folder inside) := by
  rw [entryAt]
  cases f.at? place with
  | none => simp
  | some n => cases n <;> simp [Node.entry]

theorem entryAt_eq_file_iff :
    f.entryAt place = some (.file content) ↔ f.at? place = some (.file content) := by
  rw [entryAt]
  cases f.at? place with
  | none => simp
  | some n => cases n <;> simp [Node.entry]

theorem isSome_entryAt : (f.entryAt place).isSome = (f.at? place).isSome := by
  rw [entryAt, Option.isSome_map]

end Entry

/-! One directory. -/

section Directory

variable {f : Forest} {name other : String} {content : Content}

theorem child?_putFile_of_ne (h : other ≠ name) :
    (f.putFile name content).child? other = f.child? other := by
  induction f with
  | empty => simp [putFile, child?, h.symm]
  | file n c rest ih =>
      rw [putFile]
      split
      · rename_i hn
        simp [child?, hn, h.symm]
      · split <;> simp [child?, h.symm, ih]
  | folder n inside rest _ ih =>
      rw [putFile]
      split
      · rfl
      · split <;> simp [child?, h.symm, ih]

theorem child?_putFile_self (h : ∀ inside, f.child? name ≠ some (.folder inside)) :
    (f.putFile name content).child? name = some (.file content) := by
  induction f with
  | empty => simp [putFile, child?]
  | file n c rest ih =>
      by_cases hn : n = name
      · simp [putFile, child?, hn]
      · rw [putFile, if_neg hn]
        split
        · simp [child?]
        · simpa [child?, hn] using ih (by simpa [child?, hn] using h)
  | folder n inside rest _ ih =>
      by_cases hn : n = name
      · exact absurd (by simp [child?, hn]) (h inside)
      · rw [putFile, if_neg hn]
        split
        · simp [child?]
        · simpa [child?, hn] using ih (by simpa [child?, hn] using h)

theorem child?_putFolder_of_ne (h : other ≠ name) :
    (f.putFolder name).child? other = f.child? other := by
  induction f with
  | empty => simp [putFolder, child?, h.symm]
  | file n c rest ih =>
      rw [putFolder]
      split
      · rfl
      · split <;> simp [child?, h.symm, ih]
  | folder n inside rest _ ih =>
      rw [putFolder]
      split
      · rfl
      · split <;> simp [child?, h.symm, ih]

/-- Making a directory makes nothing inside it. -/
theorem child?_putFolder_self (h : ∀ inside, f.child? name ≠ some (.folder inside)) :
    (f.putFolder name).child? name = some (.folder empty) ∨
      ∃ content, (f.putFolder name).child? name = some (.file content) := by
  induction f with
  | empty => simp [putFolder, child?]
  | file n c rest ih =>
      by_cases hn : n = name
      · simp [putFolder, child?, hn]
      · rw [putFolder, if_neg hn]
        split
        · simp [child?]
        · simpa [child?, hn] using ih (by simpa [child?, hn] using h)
  | folder n inside rest _ ih =>
      by_cases hn : n = name
      · exact absurd (by simp [child?, hn]) (h inside)
      · rw [putFolder, if_neg hn]
        split
        · simp [child?]
        · simpa [child?, hn] using ih (by simpa [child?, hn] using h)

theorem child?_within (change : Forest → Forest) :
    (f.within name change).child? other =
      if other = name then (f.child? other).map (Node.inside change) else f.child? other := by
  induction f with
  | empty => simp [within, child?]
  | file n c rest ih =>
      by_cases hn : n = other
      · simp [within, child?, hn, Node.inside]
      · simp [within, child?, hn, ih]
  | folder n inside rest _ ih =>
      by_cases hn : n = name
      · by_cases ho : name = other
        · simp [within, child?, hn, ho, Node.inside]
        · simp [within, child?, hn, ho, Ne.symm ho]
      · by_cases ho : n = other
        · have hne : other ≠ name := fun e => hn (ho.trans e)
          simp [within, child?, ho, hne]
        · simp [within, child?, hn, ho, ih]

end Directory

/-! Places. -/

section Place

variable {f : Forest} {name : String} {dir other : List String} {content : Content}

theorem at?_cons (name : String) (names : List String) :
    f.at? (name :: names) =
      match f.child? name with
      | some (.folder inside) => inside.at? names
      | some (.file content) => if names = [] then some (.file content) else none
      | none => none := by
  rw [at?.eq_def]
  dsimp only
  cases f.child? name with
  | none => rfl
  | some n =>
      cases n with
      | folder inside => rfl
      | file content => cases names <;> rfl

theorem at?_append (place other : List String) :
    f.at? (place ++ other) =
      match f.at? place with
      | some (.folder inside) => inside.at? other
      | some (.file content) => if other = [] then some (.file content) else none
      | none => none := by
  induction place generalizing f with
  | nil => rfl
  | cons name names ih =>
      rw [List.cons_append, at?_cons, at?_cons]
      cases f.child? name with
      | none => rfl
      | some n =>
          cases n with
          | folder inside => exact ih
          | file content => cases names <;> simp

theorem changeAt_cons (change : String → Forest → Forest) (first : String) (f : Forest) :
    f.changeAt change (first :: (dir ++ [name])) =
      f.within first (changeAt change (dir ++ [name])) := by
  cases dir <;> rfl

/-- What a change of the entry `name` must be like to concern no other place: no other name,
and nothing below that name unless a directory has it.  `P` holds of the directories it is for. -/
structure Local (P : Forest → Prop) (name : String) (change : Forest → Forest) : Prop where
  inside : ∀ {f inside : Forest} {m : String}, P f → f.child? m = some (.folder inside) → P inside
  child?_of_ne : ∀ {f : Forest} {m : String}, m ≠ name → (change f).child? m = f.child? m
  at?_below : ∀ {f : Forest} {m : String} {ms : List String}, P f →
    (∀ inside, f.child? name ≠ some (.folder inside)) → (change f).at? (name :: m :: ms) = none

theorem entryAt_changeAt_of_ne {P : Forest → Prop} {change : String → Forest → Forest}
    (h : Local P name (change name)) (hf : P f)
    (hplace : f.entryAt (dir ++ [name]) ≠ some .folder) (hne : other ≠ dir ++ [name]) :
    (f.changeAt change (dir ++ [name])).entryAt other = f.entryAt other := by
  induction dir generalizing f other with
  | nil =>
      have hfree : ∀ inside, f.child? name ≠ some (.folder inside) := by
        intro inside hinside
        simp [entryAt, at?_cons, hinside, at?, Node.entry] at hplace
      cases other with
      | nil => rfl
      | cons m ms =>
          by_cases hm : m = name
          · subst hm
            cases ms with
            | nil => exact absurd rfl hne
            | cons m' ms =>
                have hbefore : f.at? (m :: m' :: ms) = none := by
                  rw [at?_cons]
                  cases hchild : f.child? m with
                  | none => rfl
                  | some n =>
                      cases n with
                      | folder inside => exact absurd hchild (hfree inside)
                      | file content => rfl
                have hafter : (change m f).at? (m :: m' :: ms) = none := h.at?_below hf hfree
                simp [entryAt, changeAt, hbefore, hafter]
          · simp [entryAt, changeAt, at?_cons, h.child?_of_ne hm]
  | cons first dir ih =>
      rw [List.cons_append, changeAt_cons]
      cases other with
      | nil => rfl
      | cons m ms =>
          simp only [entryAt, at?_cons, child?_within]
          by_cases hm : m = first
          · subst hm
            rw [if_pos rfl]
            cases hchild : f.child? m with
            | none => rfl
            | some n =>
                cases n with
                | file content => rfl
                | folder inside =>
                    refine ih (h.inside hf hchild) ?_ fun e => hne (by rw [e, List.cons_append])
                    simpa [entryAt, at?_cons, hchild] using hplace
          · rw [if_neg hm]

theorem local_putFile : Local (fun _ => True) name (putFile name content) where
  inside _ _ := trivial
  child?_of_ne := child?_putFile_of_ne
  at?_below _ hfree := by rw [at?_cons, child?_putFile_self hfree]; rfl

theorem local_putFolder : Local (fun _ => True) name (putFolder name) where
  inside _ _ := trivial
  child?_of_ne := child?_putFolder_of_ne
  at?_below _ hfree := by
    rw [at?_cons]
    rcases child?_putFolder_self hfree with h | ⟨content, h⟩ <;> simp [h, at?_cons, child?]

/-- A file that is put at a place leaves all other places as they were. -/
theorem entryAt_putFileAt_of_ne (hplace : f.entryAt (dir ++ [name]) ≠ some .folder)
    (hne : other ≠ dir ++ [name]) :
    (f.putFileAt (dir ++ [name]) content).entryAt other = f.entryAt other :=
  entryAt_changeAt_of_ne local_putFile trivial hplace hne

theorem entryAt_putFolderAt_of_ne (hplace : f.entryAt (dir ++ [name]) ≠ some .folder)
    (hne : other ≠ dir ++ [name]) :
    (f.putFolderAt (dir ++ [name])).entryAt other = f.entryAt other :=
  entryAt_changeAt_of_ne local_putFolder trivial hplace hne

theorem at?_putFileAt_self (hdir : f.entryAt dir = some .folder)
    (hplace : f.entryAt (dir ++ [name]) ≠ some .folder) :
    (f.putFileAt (dir ++ [name]) content).at? (dir ++ [name]) = some (.file content) := by
  induction dir generalizing f with
  | nil =>
      have hfree : ∀ inside, f.child? name ≠ some (.folder inside) := by
        intro inside hinside
        simp [entryAt, at?_cons, hinside, at?, Node.entry] at hplace
      simp [putFileAt, changeAt, at?_cons, child?_putFile_self hfree]
  | cons first dir ih =>
      rw [putFileAt, List.cons_append, changeAt_cons, at?_cons, child?_within, if_pos rfl]
      rw [entryAt, at?_cons] at hdir
      cases hchild : f.child? first with
      | none => simp [hchild] at hdir
      | some n =>
          cases n with
          | file content => cases dir <;> simp [hchild, Node.entry] at hdir
          | folder inside =>
              refine ih (by simpa [entryAt, hchild] using hdir) ?_
              simpa [entryAt, at?_cons, hchild] using hplace

end Place

/-! The order of changes. -/

section Order

variable {f : Forest} {name other : String} {place place' : List String}
  {content content' : Content}

theorem lt_or_lt (h : name ≠ other) : name < other ∨ other < name := by
  by_cases hle : name < other
  · exact Or.inl hle
  · refine Or.inr (Decidable.byContradiction fun hge => h ?_)
    exact String.le_antisymm (String.not_lt.mp hge) (String.not_lt.mp hle)

/-- Of two names that both come before an entry, the smaller one ends up in front of the
other, whichever is put there first. -/
theorem putFile_comm (h : name ≠ other) :
    (f.putFile name content).putFile other content' =
      (f.putFile other content').putFile name content := by
  induction f with
  | empty =>
      rcases lt_or_lt h with hlt | hlt <;>
        simp [putFile, h, h.symm, hlt, String.lt_asymm hlt]
  | file n c rest ih => grind [putFile, String.lt_trans, String.lt_asymm, lt_or_lt h]
  | folder n inside rest _ ih => grind [putFile, String.lt_trans, String.lt_asymm, lt_or_lt h]

theorem putFile_within (change : Forest → Forest) :
    (f.within other change).putFile name content =
      (f.putFile name content).within other change := by
  induction f with
  | empty => rfl
  | file n c rest ih =>
      simp only [within, putFile]
      split
      · rfl
      · split <;> simp [within, ih]
  | folder n inside rest _ ih =>
      by_cases hn : n = other
      · simp only [within, putFile, if_pos hn]
        split
        · simp [within, hn]
        · split <;> simp [within, hn]
      · simp only [within, putFile, if_neg hn]
        split
        · simp [within, hn]
        · split <;> simp [within, hn, ih]

theorem within_comm {change change' : Forest → Forest}
    (h : name = other → ∀ f, change (change' f) = change' (change f)) :
    (f.within other change').within name change =
      (f.within name change).within other change' := by
  induction f with
  | empty => rfl
  | file n c rest ih => simp [within, ih]
  | folder n inside rest _ ih =>
      by_cases hname : name = other
      · subst hname
        by_cases hn : n = name
        · simp [within, hn, h rfl]
        · simp [within, hn, ih]
      · by_cases hn : n = name
        · simp [within, hn, hname]
        · by_cases ho : n = other
          · simp [within, ho, Ne.symm hname]
          · simp [within, hn, ho, ih]

/-- Files that are put at different places do not depend on the order. -/
theorem putFileAt_comm (h : place ≠ place') :
    (f.putFileAt place content).putFileAt place' content' =
      (f.putFileAt place' content').putFileAt place content := by
  induction place generalizing f place' with
  | nil => rfl
  | cons first names ih =>
      cases place' with
      | nil => rfl
      | cons first' names' =>
          cases names with
          | nil =>
              cases names' with
              | nil => exact putFile_comm fun e => h (by rw [e])
              | cons second' names' => exact (putFile_within _).symm
          | cons second names =>
              cases names' with
              | nil => exact putFile_within _
              | cons second' names' =>
                  exact within_comm fun e f => ih fun e' => h (by rw [e, e'])

end Order

/-! Trees in order. -/

def names : Forest → List String
  | empty => []
  | file name _ rest => name :: rest.names
  | folder name _ rest => name :: rest.names

/-- In every directory the entries stand in the order of their names. -/
def Sorted : Forest → Prop
  | empty => True
  | file name _ rest => (∀ n ∈ rest.names, name < n) ∧ rest.Sorted
  | folder name inside rest => (∀ n ∈ rest.names, name < n) ∧ inside.Sorted ∧ rest.Sorted

section Sorted

variable {f : Forest} {name : String} {content : Content}

theorem mem_names_of_child? {n : Node} (h : f.child? name = some n) : name ∈ f.names := by
  induction f with
  | empty => cases h
  | file m c rest ih =>
      by_cases hm : m = name
      · simp [names, hm]
      · exact List.mem_cons_of_mem m (ih (by simpa [child?, hm] using h))
  | folder m inside rest _ ih =>
      by_cases hm : m = name
      · simp [names, hm]
      · exact List.mem_cons_of_mem m (ih (by simpa [child?, hm] using h))

theorem Sorted.inside {inside : Forest} (h : f.Sorted)
    (hinside : f.child? name = some (.folder inside)) : inside.Sorted := by
  induction f with
  | empty => cases hinside
  | file n c rest ih =>
      by_cases hn : n = name
      · simp [child?, hn] at hinside
      · exact ih h.2 (by simpa [child?, hn] using hinside)
  | folder n inside' rest _ ih =>
      by_cases hn : n = name
      · simp only [child?, if_pos hn, Option.some.injEq, Node.folder.injEq] at hinside
        exact hinside ▸ h.2.1
      · exact ih h.2.2 (by simpa [child?, hn] using hinside)

theorem putFile_of_child? (h : f.Sorted) (hchild : f.child? name = some (.file content)) :
    f.putFile name content = f := by
  induction f with
  | empty => cases hchild
  | file n c rest ih =>
      by_cases hn : n = name
      · simpa [child?, putFile, hn, eq_comm] using hchild
      · have hrest : rest.child? name = some (.file content) := by
          simpa [child?, hn] using hchild
        have hlt : ¬name < n := String.lt_asymm (h.1 name (mem_names_of_child? hrest))
        rw [putFile, if_neg hn, if_neg hlt, ih h.2 hrest]
  | folder n inside rest _ ih =>
      by_cases hn : n = name
      · simp [child?, hn] at hchild
      · have hrest : rest.child? name = some (.file content) := by
          simpa [child?, hn] using hchild
        have hlt : ¬name < n := String.lt_asymm (h.1 name (mem_names_of_child? hrest))
        rw [putFile, if_neg hn, if_neg hlt, ih h.2.2 hrest]

theorem within_of_child? {change : Forest → Forest} {inside : Forest}
    (hchild : f.child? name = some (.folder inside)) (hchange : change inside = inside) :
    f.within name change = f := by
  induction f with
  | empty => rfl
  | file n c rest ih =>
      by_cases hn : n = name
      · simp [child?, hn] at hchild
      · rw [within, ih (by simpa [child?, hn] using hchild)]
  | folder n inside' rest _ ih =>
      by_cases hn : n = name
      · simp only [child?, if_pos hn, Option.some.injEq, Node.folder.injEq] at hchild
        rw [within, if_pos hn, hchild, hchange]
      · rw [within, if_neg hn, ih (by simpa [child?, hn] using hchild)]

/-- A file that is given the content that it has stays as it is. -/
theorem putFileAt_of_at? {place : List String} (h : f.Sorted)
    (hplace : f.at? place = some (.file content)) : f.putFileAt place content = f := by
  induction place generalizing f with
  | nil => cases hplace
  | cons first names ih =>
      rw [at?_cons] at hplace
      cases hchild : f.child? first with
      | none => simp [hchild] at hplace
      | some n =>
          cases n with
          | file c =>
              cases names with
              | nil =>
                  simp only [hchild, ↓reduceIte, Option.some.injEq, Node.file.injEq] at hplace
                  exact putFile_of_child? h (hplace ▸ hchild)
              | cons second names => simp [hchild] at hplace
          | folder inside =>
              rw [hchild] at hplace
              cases names with
              | nil => cases hplace
              | cons second names =>
                  exact within_of_child? hchild (ih (h.inside hchild) hplace)

end Sorted

end Forest

end FieldRules
