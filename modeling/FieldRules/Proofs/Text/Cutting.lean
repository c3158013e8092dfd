/-
Cutting texts: a piece that ends where another kind of character follows, and white
space at the ends.  Classes of characters are decided digit by digit.
-/
import FieldRules.Text.Blank
import Mathlib.Data.List.TakeDrop
import Mathlib.Data.List.TakeWhile

namespace FieldRules

/-- What holds of the ten digits holds of every digit. -/
theorem of_isDigit {p : Char → Prop} (h : ∀ n < 10, p (Char.ofNat (48 + n))) {c : Char}
    (hc : c.isDigit = true) : p c := by
  have hbounds : 48 ≤ c.toNat ∧ c.toNat ≤ 57 := by
    simpa [Char.isDigit, UInt32.le_iff_toNat_le] using hc
  have hdigit := h (c.toNat - 48) (by omega)
  rwa [Nat.add_sub_cancel' hbounds.1, Char.ofNat_toNat] at hdigit

section Pieces

variable {p : Char → Bool} {xs : List Char} (rest : List Char)

theorem takeWhile_append_stop (hx : ∀ c ∈ xs, p c = true) (hrest : ∀ c ∈ rest.head?, p c = false) :
    (xs ++ rest).takeWhile p = xs := by
  rw [List.takeWhile_append_of_pos hx]
  cases rest with
  | nil => simp
  | cons c cs => simp [hrest c rfl]

theorem dropWhile_append_stop (hx : ∀ c ∈ xs, p c = true) (hrest : ∀ c ∈ rest.head?, p c = false) :
    (xs ++ rest).dropWhile p = rest := by
  rw [List.dropWhile_append_of_pos hx]
  cases rest with
  | nil => rfl
  | cons c cs => simp [hrest c rfl]

/-- Cutting after the characters of a class gives them all, if the next one is not of
the class. -/
theorem span_append (hx : ∀ c ∈ xs, p c = true) (hrest : ∀ c ∈ rest.head?, p c = false) :
    (xs ++ rest).span p = (xs, rest) := by
  rw [List.span_eq_takeWhile_dropWhile, takeWhile_append_stop rest hx hrest,
    dropWhile_append_stop rest hx hrest]

end Pieces

theorem trim_cons_blank {c : Char} (h : isBlank c = true) (cs : List Char) :
    trim (c :: cs) = trim cs := by
  rw [trim, trim, trimStart, trimStart, List.dropWhile_cons_of_pos h]

/-- A text that neither starts nor ends with white space. -/
theorem trim_eq_self {c d : Char} {cs : List Char} (hc : isBlank c = false)
    (hd : isBlank d = false) (h : (c :: cs).getLast? = some d) : trim (c :: cs) = c :: cs := by
  have hstart : trimStart (c :: cs) = c :: cs := List.dropWhile_cons_of_neg (by simp [hc])
  obtain ⟨init, hinit⟩ := List.getLast?_eq_some_iff.mp h
  rw [trim, hstart, hinit]
  exact dropEndWhile_append_of_not hd

theorem trim_of_not_blank {cs : List Char} (h : ∀ c ∈ cs, isBlank c = false) : trim cs = cs := by
  cases cs with
  | nil => rfl
  | cons c cs =>
      obtain ⟨d, hd⟩ : ∃ d, (c :: cs).getLast? = some d := ⟨_, List.getLast?_cons⟩
      exact trim_eq_self (h c List.mem_cons_self) (h d (List.mem_of_getLast? hd)) hd

/-! White space at the end. -/

theorem exists_dropEndWhile_append (p : Char → Bool) (cs : List Char) :
    ∃ ends, dropEndWhile p cs ++ ends = cs ∧ ∀ c ∈ ends, p c = true := by
  refine ⟨(cs.reverse.takeWhile p).reverse, ?_, ?_⟩
  · rw [dropEndWhile, ← List.reverse_append, List.takeWhile_append_dropWhile, List.reverse_reverse]
  · intro c hc
    exact List.mem_takeWhile_imp (List.mem_reverse.mp hc)

theorem trim_append_blanks {cs ends : List Char} (h : ∀ c ∈ ends, isBlank c = true) :
    trim (cs ++ ends) = trim cs := by
  have hdrop : trimStart ends = [] := List.dropWhile_eq_nil_iff.mpr h
  have hend : ∀ xs, trimEnd (xs ++ ends) = trimEnd xs := by
    intro xs
    rw [trimEnd, dropEndWhile, List.reverse_append, List.dropWhile_append_of_pos (by simpa using h)]
    rfl
  unfold trim
  by_cases hcs : trimStart cs = []
  · have : trimStart (cs ++ ends) = trimStart ends := by
      exact List.dropWhile_append_of_pos (List.dropWhile_eq_nil_iff.mp hcs)
    rw [this, hdrop, hcs]
  · have : trimStart (cs ++ ends) = trimStart cs ++ ends := by
      rw [trimStart, List.dropWhile_append, if_neg (by simpa [trimStart] using hcs)]
      rfl
    rw [this, hend]

/-- Trimming also cuts what was cut from the end before. -/
theorem trim_dropEndWhile {p : Char → Bool} (h : ∀ c, p c = true → isBlank c = true)
    (cs : List Char) : trim (dropEndWhile p cs) = trim cs := by
  obtain ⟨ends, hcs, hends⟩ := exists_dropEndWhile_append p cs
  conv_rhs => rw [← hcs]
  rw [trim_append_blanks fun c hc => h c (hends c hc)]

/-- A character that stays keeps everything before it. -/
theorem dropEndWhile_append_cons {p : Char → Bool} {c : Char} (h : p c = false)
    (xs ys : List Char) :
    dropEndWhile p (xs ++ c :: ys) = xs ++ c :: dropEndWhile p ys := by
  unfold dropEndWhile
  rw [List.reverse_append, List.reverse_cons, List.append_assoc, List.dropWhile_append]
  by_cases hys : (ys.reverse.dropWhile p) = []
  · simp [hys, h]
  · simp [hys]

end FieldRules
