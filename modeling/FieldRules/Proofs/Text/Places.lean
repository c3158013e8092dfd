/-
Places in a text: offsets between its characters, ranges of them, and the lines on which
they stand.
-/
import FieldRules.Source.Token
import FieldRules.Text.Slice

namespace FieldRules

/-- The offset of a place between two characters, or at an end of the text. -/
def IsBoundary (cs : List Char) (n : Nat) : Prop :=
  ∃ before after, cs = before ++ after ∧ n = utf8Length before

/-- The line of the character at an offset, counted from one. -/
def lineAt (cs : List Char) (n : Nat) : Nat := 1 + (takeBytes n cs).count '\n'

/-- A byte of a character for which `p` holds, given what stands before it. -/
def IsByteOf (p : List Char → Char → Prop) (cs : List Char) (n : Nat) : Prop :=
  ∃ before c after, cs = before ++ c :: after ∧ utf8Length before ≤ n ∧
    n < utf8Length before + c.utf8Size ∧ p before c

theorem isBoundary_append (before after : List Char) :
    IsBoundary (before ++ after) (utf8Length before) := ⟨before, after, rfl, rfl⟩

theorem lineAt_append (before after : List Char) :
    lineAt (before ++ after) (utf8Length before) = 1 + before.count '\n' := by
  rw [lineAt, takeBytes_utf8Length]

theorem IsBoundary.le {cs : List Char} {n : Nat} (h : IsBoundary cs n) : n ≤ utf8Length cs := by
  obtain ⟨before, after, rfl, rfl⟩ := h
  rw [utf8Length_append]
  exact Nat.le_add_right _ _

namespace Span

/-- The range starts at or before its end, and cuts no character in two. -/
structure Cuts (s : Span) (cs : List Char) : Prop where
  ordered : s.start ≤ s.stop
  start : IsBoundary cs s.start
  stop : IsBoundary cs s.stop

def Contains (s : Span) (n : Nat) : Prop := s.start ≤ n ∧ n < s.stop

/-- The first range ends before the second starts. -/
def Before (a b : Span) : Prop := a.stop ≤ b.start

theorem cuts_append (before piece after : List Char) :
    Cuts ⟨utf8Length before, utf8Length before + utf8Length piece⟩ (before ++ (piece ++ after)) where
  ordered := Nat.le_add_right _ _
  start := isBoundary_append before _
  stop := by
    rw [← List.append_assoc, ← utf8Length_append]
    exact isBoundary_append _ after

theorem cuts_empty {cs : List Char} {n : Nat} (h : IsBoundary cs n) : Cuts ⟨n, n⟩ cs :=
  ⟨Nat.le_refl n, h, h⟩

/-- From the start of one range to the end of another. -/
theorem Cuts.through {a b : Span} {cs : List Char} (ha : a.Cuts cs) (hb : b.Cuts cs)
    (h : a.start ≤ b.stop) : Cuts ⟨a.start, b.stop⟩ cs := ⟨h, ha.start, hb.stop⟩

end Span

end FieldRules
