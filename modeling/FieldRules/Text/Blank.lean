/-
White space: the characters Unicode calls White_Space, and cutting them from
the ends of a text.
-/
import FieldRules.Text.Letter

namespace FieldRules

/-- Code points with the property White_Space. -/
def blankRanges : List (Nat × Nat) :=
  [(0x9, 0xd), (0x20, 0x20), (0x85, 0x85), (0xa0, 0xa0), (0x1680, 0x1680), (0x2000, 0x200a),
   (0x2028, 0x2029), (0x202f, 0x202f), (0x205f, 0x205f), (0x3000, 0x3000)]

def isBlank (c : Char) : Bool :=
  inRanges blankRanges c.toNat

theorem isBlank_of_isWhitespace {c : Char} (h : c.isWhitespace = true) : isBlank c = true := by
  simp only [Char.isWhitespace, Bool.or_eq_true, decide_eq_true_eq] at h
  rcases h with ((h | h) | h) | h <;> subst h <;> decide

/-- Drop the longest end of a list whose elements all satisfy `p`. -/
def dropEndWhile (p : Char → Bool) (cs : List Char) : List Char :=
  (cs.reverse.dropWhile p).reverse

def trimStart (cs : List Char) : List Char := cs.dropWhile isBlank

def trimEnd (cs : List Char) : List Char := dropEndWhile isBlank cs

/-- Cut white space from both ends. -/
def trim (cs : List Char) : List Char := trimEnd (trimStart cs)

/-- `trim` on texts. -/
def trimText (s : String) : String := String.ofList (trim s.toList)

theorem dropEndWhile_append_of_not {p : Char → Bool} {cs : List Char} {c : Char}
    (h : p c = false) : dropEndWhile p (cs ++ [c]) = cs ++ [c] := by
  simp [dropEndWhile, h]

@[simp] theorem trim_nil : trim [] = [] := rfl

end FieldRules
