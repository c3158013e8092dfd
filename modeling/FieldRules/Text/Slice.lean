/-
Byte offsets into a text.  A text is a list of characters here, and an offset
counts the bytes of its UTF-8 form.
-/
namespace FieldRules

/-- Bytes of the UTF-8 form. -/
def utf8Length : List Char → Nat
  | [] => 0
  | c :: cs => c.utf8Size + utf8Length cs

@[simp] theorem utf8Length_nil : utf8Length [] = 0 := rfl

@[simp] theorem utf8Length_cons (c : Char) (cs : List Char) :
    utf8Length (c :: cs) = c.utf8Size + utf8Length cs := rfl

@[simp] theorem utf8Length_append (xs ys : List Char) :
    utf8Length (xs ++ ys) = utf8Length xs + utf8Length ys := by
  induction xs with
  | nil => simp
  | cons x xs ih => simp [ih, Nat.add_assoc]

/-- Drop characters until `n` bytes are gone. -/
def dropBytes : Nat → List Char → List Char
  | _, [] => []
  | 0, cs => cs
  | n + 1, c :: cs => dropBytes (n + 1 - c.utf8Size) cs

/-- Keep characters until `n` bytes are there. -/
def takeBytes : Nat → List Char → List Char
  | _, [] => []
  | 0, _ => []
  | n + 1, c :: cs => c :: takeBytes (n + 1 - c.utf8Size) cs

@[simp] theorem dropBytes_zero (cs : List Char) : dropBytes 0 cs = cs := by
  cases cs <;> rfl

@[simp] theorem takeBytes_zero (cs : List Char) : takeBytes 0 cs = [] := by
  cases cs <;> rfl

theorem dropBytes_utf8Length (xs ys : List Char) :
    dropBytes (utf8Length xs) (xs ++ ys) = ys := by
  induction xs with
  | nil => simp
  | cons c cs ih =>
      obtain ⟨n, hn⟩ := Nat.exists_eq_add_one.mpr (Nat.add_pos_left c.utf8Size_pos (utf8Length cs))
      simp only [utf8Length_cons, List.cons_append, hn, dropBytes]
      rw [← hn, Nat.add_sub_cancel_left, ih]

theorem takeBytes_utf8Length (xs ys : List Char) :
    takeBytes (utf8Length xs) (xs ++ ys) = xs := by
  induction xs with
  | nil => simp
  | cons c cs ih =>
      obtain ⟨n, hn⟩ := Nat.exists_eq_add_one.mpr (Nat.add_pos_left c.utf8Size_pos (utf8Length cs))
      simp only [utf8Length_cons, List.cons_append, hn, takeBytes]
      rw [← hn, Nat.add_sub_cancel_left, ih]

/-- The characters between two byte offsets. -/
def slice (cs : List Char) (start stop : Nat) : List Char :=
  takeBytes (stop - start) (dropBytes start cs)

/-- Offsets at the ends of a piece give the piece. -/
theorem slice_append (xs ys zs : List Char) :
    slice (xs ++ (ys ++ zs)) (utf8Length xs) (utf8Length xs + utf8Length ys) = ys := by
  rw [slice, dropBytes_utf8Length, Nat.add_sub_cancel_left, takeBytes_utf8Length]

end FieldRules
