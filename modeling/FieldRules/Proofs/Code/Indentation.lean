/-
How fragments are laid out.  They are written as rows, each behind as many tabs as there are blocks
around it, and whatever is written leaves the depth of the sheet as it was.
-/
import FieldRules.Code.File

namespace FieldRules

/-- A row of code inside some blocks, or an empty one. -/
inductive Row where
  | line (around : Nat) (text : String)
  | blank
deriving DecidableEq, Repr

namespace Row

/-- A row as it is written: one tab for each block around it, and a line end. -/
def text : Row → String
  | line around text => String.ofList (List.replicate around '\t') ++ text ++ "\n"
  | blank => "\n"

/-- Rows below each other. -/
def page (rows : List Row) : String := String.join (rows.map text)

theorem page_append (rows more : List Row) : page (rows ++ more) = page rows ++ page more := by
  rw [page, List.map_append, String.join_append, page, page]

theorem page_single (row : Row) : page [row] = row.text := by
  rw [page, List.map_singleton, String.join_cons, String.join_nil, String.append_empty]

end Row

namespace Fragment

mutual
/-- The rows of a fragment that stands inside some blocks. -/
def rows (around : Nat) : Fragment → List Row
  | line text => [.line around text]
  | blank => [.blank]
  | block header body close =>
      .line around header :: rowsAll (around + 1) body ++ (close.map (Row.line around)).toList

def rowsAll (around : Nat) : List Fragment → List Row
  | [] => []
  | f :: fs => rows around f ++ rowsAll around fs
end

theorem rowsAll_append (around : Nat) (fs more : List Fragment) :
    rowsAll around (fs ++ more) = rowsAll around fs ++ rowsAll around more := by
  induction fs with
  | nil => rfl
  | cons f fs ih => rw [List.cons_append, rowsAll, rowsAll, ih, List.append_assoc]

end Fragment

namespace Sheet

/-- A sheet with more rows on it. -/
def below (s : Sheet) (rows : List Row) : Sheet := { s with text := s.text ++ Row.page rows }

theorem below_nil (s : Sheet) : s.below [] = s := by
  rw [below, Row.page, List.map_nil, String.join_nil, String.append_empty]

theorem below_append (s : Sheet) (rows more : List Row) :
    s.below (rows ++ more) = (s.below rows).below more := by
  simp only [below, Row.page_append, String.append_assoc]

theorem addLine_eq (s : Sheet) (text : String) : s.addLine text = s.below [.line s.depth text] := by
  simp only [addLine, below, Row.page_single, Row.text, tabs, String.append_assoc]

theorem addBlank_eq (s : Sheet) : s.addBlank = s.below [.blank] := by
  rw [addBlank, below, Row.page_single, Row.text]

/-- Rows that are written one level deeper are written on the sheet itself. -/
theorem dedent_indent_below (s : Sheet) (rows : List Row) :
    (s.indent.below rows).dedent = s.below rows := rfl

mutual
/-- Writing a fragment adds its rows, and the depth stays. -/
theorem add_eq (s : Sheet) : ∀ f, s.add f = s.below (f.rows s.depth)
  | .line text => s.addLine_eq text
  | .blank => s.addBlank_eq
  | .block header body close => by
      have hinner : ((s.addLine header).indent.addAll body).dedent =
          s.below (.line s.depth header :: Fragment.rowsAll (s.depth + 1) body) := by
        rw [addAll_eq, dedent_indent_below, addLine_eq, ← below_append]
        rfl
      cases close with
      | none => exact hinner.trans (congrArg s.below (List.append_nil _).symm)
      | some text =>
          change ((s.addLine header).indent.addAll body).dedent.addLine text = _
          rw [hinner, addLine_eq, ← below_append]
          rfl

theorem addAll_eq (s : Sheet) : ∀ fs, s.addAll fs = s.below (Fragment.rowsAll s.depth fs)
  | [] => s.below_nil.symm
  | f :: fs => by
      rw [addAll, addAll_eq, add_eq, ← below_append]
      rfl
end

theorem addAll_append (s : Sheet) (fs more : List Fragment) :
    s.addAll (fs ++ more) = (s.addAll fs).addAll more := by
  rw [addAll_eq, addAll_eq, addAll_eq, Fragment.rowsAll_append, below_append]
  rfl

/-! Writing that does not go on where a level is left that was not entered. -/

/-- One level less, unless there is none. -/
def dedent? (s : Sheet) : Option Sheet := if s.depth = 0 then none else some s.dedent

mutual
def add? (s : Sheet) : Fragment → Option Sheet
  | .line text => some (s.addLine text)
  | .blank => some s.addBlank
  | .block header body close => do
      let inner ← (s.addLine header).indent.addAll? body
      let outer ← inner.dedent?
      match close with
      | some text => some (outer.addLine text)
      | none => some outer

def addAll? (s : Sheet) : List Fragment → Option Sheet
  | [] => some s
  | f :: fs => do (← s.add? f).addAll? fs
end

theorem dedent?_of_pos {s : Sheet} (h : 0 < s.depth) : s.dedent? = some s.dedent :=
  if_neg (Nat.ne_of_gt h)

mutual
/-- Only levels that were entered are left. -/
theorem add?_eq (s : Sheet) : ∀ f, s.add? f = some (s.add f)
  | .line _ => rfl
  | .blank => rfl
  | .block header body close => by
      have hdeep : 0 < ((s.addLine header).indent.addAll body).depth := by
        rw [addAll_eq]
        exact Nat.succ_pos s.depth
      rw [add?, addAll?_eq, Option.bind_eq_bind, Option.bind_some, dedent?_of_pos hdeep]
      cases close <;> rfl

theorem addAll?_eq (s : Sheet) : ∀ fs, s.addAll? fs = some (s.addAll fs)
  | [] => rfl
  | f :: fs => by
      rw [addAll?, add?_eq, Option.bind_eq_bind, Option.bind_some, addAll?_eq, addAll]
end

/-- However fragments are written one list after the other, what comes out is the page of all
their rows.  The depth is the same after every list, no level is left that was not entered, and
nothing depends on where one list ends and the next begins. -/
theorem foldl_addAll_eq_page (s : Sheet) (lists : List (List Fragment)) :
    lists.foldl addAll s =
        ⟨s.depth, s.text ++ Row.page (Fragment.rowsAll s.depth lists.flatten)⟩ ∧
      lists.foldl addAll s = s.addAll lists.flatten ∧
      lists.foldlM addAll? s = some (lists.foldl addAll s) ∧
      ∀ fs, Fragment.render fs = Row.page (Fragment.rowsAll 0 fs) := by
  have hflat : lists.foldl addAll s = s.addAll lists.flatten := by
    induction lists generalizing s with
    | nil => rfl
    | cons fs lists ih => rw [List.foldl_cons, List.flatten_cons, addAll_append, ih]
  have hchecked : lists.foldlM addAll? s = some (lists.foldl addAll s) := by
    clear hflat
    induction lists generalizing s with
    | nil => rfl
    | cons fs lists ih =>
        rw [List.foldlM_cons, addAll?_eq, List.foldl_cons, ← ih]
        rfl
  refine ⟨?_, hflat, hchecked, fun fs => ?_⟩
  · rw [hflat, addAll_eq]
    rfl
  · rw [Fragment.render, addAll_eq]
    exact String.empty_append

/-- A block in a block, with a line that closes the outer one only. -/
example : Fragment.render [.block "a (" [.block "b:" [.line "c", .blank] none] (some ")")] =
    "a (\n\tb:\n\t\tc\n\n)\n" := by rfl

end Sheet

/-- The text of a file starts with its header. -/
theorem GoFile.exists_render_eq (f : GoFile) : ∃ rest, f.render = f.header ++ "\n" ++ rest := by
  obtain ⟨more, hmore⟩ : ∃ more, f.fragments = .line f.header :: more :=
    ⟨_, by rw [fragments, List.append_assoc, List.cons_append]⟩
  refine ⟨Row.page (Fragment.rowsAll 0 more), ?_⟩
  rw [render, hmore, Fragment.render, Sheet.addAll_eq, Sheet.below, Fragment.rowsAll,
    Row.page_append, Fragment.rows, Row.page_single]
  simp [Sheet.empty, Row.text]

end FieldRules
