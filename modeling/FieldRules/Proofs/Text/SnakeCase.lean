/-
Folding names.  What lowercasing gives stays as it is when it is lowercased again, and only a
character that is its own lowercase stays a capital.  So a name in snake case is its own snake
case, and cutting white space does not change it.
-/
import FieldRules.Text.Name
import FieldRules.Proofs.Text.Cutting
import Mathlib

namespace FieldRules

/-! Tables of code points as bits of one number. -/

/-- The bits of `count` numbers from `first` on, `step` apart. -/
def strideBits (first step : Nat) : Nat → Nat
  | 0 => 0
  | count + 1 => strideBits first step count ||| 2 ^ (first + count * step)

def tableBits (rows : List (Nat × Nat × Nat)) : Nat :=
  rows.foldr (fun (first, last, step) bits =>
    strideBits first step ((last - first) / step + 1) ||| bits) 0

theorem testBit_strideBits (first step : Nat) {i count : Nat} (h : i < count) :
    (strideBits first step count).testBit (first + i * step) = true := by
  induction count with
  | zero => cases h
  | succ count ih =>
      rw [strideBits, Nat.testBit_or, Bool.or_eq_true]
      rcases Nat.lt_succ_iff_lt_or_eq.mp h with h | rfl
      · exact .inl (ih h)
      · exact .inr Nat.testBit_two_pow_self

theorem testBit_stride {first last step n : Nat} (h : inStride first last step n = true) :
    (strideBits first step ((last - first) / step + 1)).testBit n = true := by
  simp only [inStride, Bool.and_eq_true, decide_eq_true_eq, beq_iff_eq] at h
  obtain ⟨⟨hfirst, hlast⟩, hstep⟩ := h
  have hn : n = first + (n - first) / step * step := by
    rw [Nat.div_mul_cancel (Nat.dvd_of_mod_eq_zero hstep), Nat.add_sub_cancel' hfirst]
  rw [hn]
  exact testBit_strideBits first step
    (Nat.lt_succ_of_le (Nat.div_le_div_right (Nat.sub_le_sub_right hlast first)))

theorem testBit_tableBits {rows : List (Nat × Nat × Nat)} {first last step n : Nat}
    (hrow : (first, last, step) ∈ rows) (h : inStride first last step n = true) :
    (tableBits rows).testBit n = true := by
  induction rows with
  | nil => cases hrow
  | cons row rows ih =>
      rw [tableBits, List.foldr_cons, Nat.testBit_or, Bool.or_eq_true]
      rcases List.mem_cons.mp hrow with rfl | hrow
      · exact .inl (testBit_stride h)
      · exact .inr (ih hrow)

/-- Tables without a common bit have no number in common. -/
theorem inStride_eq_false_of_apart {rows rows' : List (Nat × Nat × Nat)}
    (hapart : tableBits rows &&& tableBits rows' = 0) {first last step first' last' step' n : Nat}
    (hrow : (first, last, step) ∈ rows) (h : inStride first last step n = true)
    (hrow' : (first', last', step') ∈ rows') : inStride first' last' step' n = false := by
  by_contra h'
  rw [Bool.not_eq_false] at h'
  have hboth : (tableBits rows &&& tableBits rows').testBit n = true := by
    rw [Nat.testBit_and, testBit_tableBits hrow h, testBit_tableBits hrow' h']
    rfl
  rw [hapart, Nat.zero_testBit] at hboth
  cases hboth

/-! Lowercase. -/

/-- Where the lowercase characters of other characters are. -/
def loweredStrides : List (Nat × Nat × Nat) :=
  lowercaseShifts.map fun (first, last, step, shift) =>
    ((first + shift).toNat, (last + shift).toNat, step)

/-- Capitals, whatever has a lowercase of its own, and white space. -/
def unloweredStrides : List (Nat × Nat × Nat) :=
  uppercaseStrides ++ lowercaseShifts.map (fun (first, last, step, _) => (first, last, step)) ++
    blankRanges.map fun (first, last) => (first, last, 1)

theorem loweredStrides_apart : tableBits loweredStrides &&& tableBits unloweredStrides = 0 := by
  decide +kernel

/-- Every lowercase is a character. -/
theorem lowercaseShifts_valid : ∀ row ∈ lowercaseShifts,
    0 ≤ row.1 + row.2.2.2 ∧
      (row.2.1 + row.2.2.2 < 0xd800 ∨
        0xdfff < row.1 + row.2.2.2 ∧ row.2.1 + row.2.2.2 < 0x110000) := by
  decide +kernel

theorem toLower_of_not_isUpper {c : Char} (h : c.isUpper = false) : c.toLower = c := by
  rw [Char.isUpper, decide_eq_false_iff_not] at h
  exact dif_neg h

/-- A character that lowercasing leaves alone, and that is no capital and no white space. -/
def IsLowered (d : Char) : Prop :=
  lowercase d = [d] ∧ isUppercase d = false ∧ isBlank d = false

theorem isLowered_of_strides {d : Char}
    (h : ∀ first last step, (first, last, step) ∈ unloweredStrides →
      inStride first last step d.toNat = false) : IsLowered d := by
  simp only [unloweredStrides, List.mem_append, List.mem_map] at h
  have hupper : ∀ row ∈ uppercaseStrides, inStride row.1 row.2.1 row.2.2 d.toNat = false :=
    fun row hrow => h _ _ _ (.inl (.inl hrow))
  have hshift : ∀ row ∈ lowercaseShifts, inStride row.1 row.2.1 row.2.2.1 d.toNat = false :=
    fun row hrow => h _ _ _ (.inl (.inr ⟨row, hrow, rfl⟩))
  have hblank : ∀ row ∈ blankRanges, inStride row.1 row.2 1 d.toNat = false :=
    fun row hrow => h _ _ _ (.inr ⟨row, hrow, rfl⟩)
  have hupperD : isUppercase d = false := by
    unfold isUppercase
    split
    · -- the capitals of ASCII are a row of the table, too
      have hcapitals := hupper (0x41, 0x5a, 1) (by decide)
      simpa [inStride, Char.isUpper, Nat.mod_one, UInt32.le_iff_toNat_le] using hcapitals
    · rw [List.any_eq_false]
      exact fun row hrow => by simp [hupper row hrow]
  have hdot : d.toNat ≠ 0x130 := by
    intro hd
    have hdotted := hupper (0x100, 0x136, 2) (by decide)
    rw [hd] at hdotted
    revert hdotted
    decide
  refine ⟨?_, hupperD, ?_⟩
  · unfold lowercase
    split
    · rename_i hascii
      rw [isUppercase, if_pos hascii] at hupperD
      rw [toLower_of_not_isUpper hupperD]
    · rw [List.find?_eq_none.mpr fun row hrow => by simp [hshift row hrow]]
  · rw [← Bool.not_eq_true, isBlank, inRanges_iff]
    rintro ⟨row, hrow, hfirst, hlast⟩
    have hout := hblank row hrow
    simp [inStride, hfirst, hlast, Nat.mod_one] at hout

/-- What lowercasing gives: a character of lower case, or the character as it was. -/
theorem lowercase_cases {c d : Char} (h : d ∈ lowercase c) :
    IsLowered d ∨ d = c ∧ lowercase c = [c] := by
  by_cases hascii : c.toNat < 0x80
  · have hall : ∀ n < 0x80, IsLowered (Char.ofNat n).toLower ∨
        (Char.ofNat n).toLower = Char.ofNat n ∧ lowercase (Char.ofNat n) = [Char.ofNat n] := by
      unfold IsLowered
      decide +kernel
    have hc := hall c.toNat hascii
    rw [Char.ofNat_toNat] at hc
    rw [lowercase_of_ascii hascii, List.mem_singleton] at h
    rwa [h]
  · unfold lowercase at h ⊢
    rw [if_neg hascii] at h ⊢
    split at h
    · simp only [List.mem_cons, List.not_mem_nil, or_false] at h
      left
      unfold IsLowered
      rcases h with rfl | rfl <;> decide +kernel
    · rename_i hdot
      rw [if_neg hdot]
      split at h
      · rename_i first last step shift hrow
        left
        have hin : inStride first last step c.toNat = true := by simpa using List.find?_some hrow
        have hmem := List.mem_of_find?_eq_some hrow
        obtain ⟨hpositive, hvalid⟩ := lowercaseShifts_valid _ hmem
        have himage : ((first + shift).toNat, (last + shift).toNat, step) ∈ loweredStrides :=
          List.mem_map.mpr ⟨_, hmem, rfl⟩
        dsimp only at hpositive hvalid
        have hshifted : inStride (first + shift).toNat (last + shift).toNat step
            (c.toNat + shift).toNat = true := by
          simp only [inStride, Bool.and_eq_true, decide_eq_true_eq, beq_iff_eq] at hin ⊢
          obtain ⟨⟨hfirst, hlast⟩, hstep⟩ := hin
          rw [show (c.toNat + shift).toNat - (first + shift).toNat = c.toNat - first by omega]
          exact ⟨⟨by omega, by omega⟩, hstep⟩
        have htoNat : d.toNat = (c.toNat + shift).toNat := by
          simp only [inStride, Bool.and_eq_true, decide_eq_true_eq] at hin
          have hchar : (c.toNat + shift).toNat.isValidChar := by
            unfold Nat.isValidChar
            omega
          rw [List.mem_singleton.mp h, Char.ofNat, dif_pos hchar]
          rfl
        refine isLowered_of_strides fun first' last' step' hrow' => ?_
        rw [htoNat]
        exact inStride_eq_false_of_apart loweredStrides_apart himage hshifted hrow'
      · rename_i hnone
        rw [List.mem_singleton] at h
        exact .inr ⟨h, rfl⟩

section

variable {c d : Char}

theorem lowercase_of_mem (h : d ∈ lowercase c) : lowercase d = [d] := by
  rcases lowercase_cases h with hd | ⟨rfl, hc⟩
  · exact hd.1
  · exact hc

theorem eq_of_isUppercase (h : d ∈ lowercase c) (hd : isUppercase d = true) :
    d = c ∧ lowercase c = [c] := by
  rcases lowercase_cases h with hlowered | hc
  · rw [hlowered.2.1] at hd
    cases hd
  · exact hc

theorem isBlank_of_mem_lowercase (h : d ∈ lowercase c) (hc : isBlank c = false) :
    isBlank d = false := by
  rcases lowercase_cases h with hd | ⟨rfl, -⟩
  · exact hd.2.2
  · exact hc

end

theorem exists_lowercase_concat (c : Char) : ∃ init d, lowercase c = init ++ [d] :=
  ⟨_, _, (List.dropLast_concat_getLast (lowercase_ne_nil c)).symm⟩

/-! Snake case. -/

def undash (c : Char) : Char := if c = '-' then '_' else c

theorem undash_eq (c : Char) : undash c = c ∨ undash c = '_' := by
  unfold undash
  split
  · exact .inr rfl
  · exact .inl rfl

theorem undash_ne_dash (c : Char) : undash c ≠ '-' := by
  unfold undash
  split
  · decide
  · assumption

theorem isUppercase_undash {c : Char} (h : isUppercase (undash c) = true) : undash c = c := by
  rcases undash_eq c with hc | hc
  · exact hc
  · rw [hc] at h
    exact absurd h (by decide)

theorem snakeChars_eq (cs : List Char) : snakeChars cs = (snakeFrom none cs).map undash := rfl

/-- Each character is its own lowercase and no dash, and a capital starts the name or stands
behind an underscore. -/
def InSnakeCase (last : Option Char) : List Char → Prop
  | [] => True
  | d :: ds =>
      lowercase d = [d] ∧ d ≠ '-' ∧ (isUppercase d = true → last = none ∨ last = some '_') ∧
        InSnakeCase (some d) ds

namespace InSnakeCase

variable {last : Option Char} {xs ys : List Char}

theorem snakeFrom_eq (h : InSnakeCase last xs) : snakeFrom last xs = xs := by
  induction xs generalizing last with
  | nil => rfl
  | cons d ds ih =>
      obtain ⟨hlower, -, hupper, hrest⟩ := h
      have hlead : (isUppercase d && last.isSome && last != some '_') = false := by
        cases hd : isUppercase d with
        | false => rfl
        | true => rcases hupper hd with rfl | rfl <;> rfl
      rw [snakeFrom, hlead, hlower]
      exact congrArg (d :: ·) (ih hrest)

theorem append (hxs : InSnakeCase last xs) (hys : InSnakeCase (xs.getLast?.or last) ys) :
    InSnakeCase last (xs ++ ys) := by
  induction xs generalizing last with
  | nil => exact hys
  | cons d ds ih =>
      obtain ⟨hlower, hdash, hupper, hrest⟩ := hxs
      refine ⟨hlower, hdash, hupper, ih hrest ?_⟩
      rw [List.getLast?_cons] at hys
      cases hlast : ds.getLast? with
      | none => simpa [hlast] using hys
      | some e => simpa [hlast] using hys

theorem of_not_upper (h : ∀ d ∈ xs, lowercase d = [d] ∧ d ≠ '-' ∧ isUppercase d = false)
    (last : Option Char) : InSnakeCase last xs := by
  induction xs generalizing last with
  | nil => trivial
  | cons d ds ih =>
      obtain ⟨⟨hlower, hdash, hupper⟩, hrest⟩ := List.forall_mem_cons.mp h
      exact ⟨hlower, hdash, fun hd => (by rw [hupper] at hd; cases hd), ih hrest _⟩

end InSnakeCase

theorem lowercase_undash {c d : Char} (h : d ∈ lowercase c) :
    lowercase (undash d) = [undash d] := by
  rcases undash_eq d with hd | hd
  · rw [hd]
    exact lowercase_of_mem h
  · rw [hd]
    decide

/-- One character in lower case. -/
theorem inSnakeCase_lowercase {last : Option Char} {c : Char}
    (h : isUppercase c = true → last = none ∨ last = some '_') :
    InSnakeCase last ((lowercase c).map undash) := by
  by_cases hsingle : lowercase c = [c]
  · have hc : c ∈ lowercase c := by rw [hsingle]; exact List.mem_singleton_self c
    rw [hsingle]
    refine ⟨lowercase_undash hc, undash_ne_dash c, fun hupper => h ?_, trivial⟩
    rwa [isUppercase_undash hupper] at hupper
  · refine .of_not_upper (List.forall_mem_map.mpr fun d hd => ?_) last
    refine ⟨lowercase_undash hd, undash_ne_dash d, ?_⟩
    by_contra hupper
    rw [Bool.not_eq_false] at hupper
    rw [isUppercase_undash hupper] at hupper
    exact hsingle (eq_of_isUppercase hd hupper).2

/-- Where a capital gets no underscore in front of it, it needs none. -/
theorem inSnakeCase_snakeFrom (last : Option Char) (cs : List Char) :
    InSnakeCase (last.map undash) ((snakeFrom last cs).map undash) := by
  induction cs generalizing last with
  | nil => trivial
  | cons c cs ih =>
      obtain ⟨init, d, hlower⟩ := exists_lowercase_concat c
      have hrest := ih (lowercase c).getLast?
      rw [snakeFrom, List.map_append, List.map_append]
      refine InSnakeCase.append ?_ ?_
      · by_cases hlead : (isUppercase c && last.isSome && last != some '_') = true
        · rw [if_pos hlead]
          exact ⟨by decide, by decide, fun hupper => absurd hupper (by decide),
            inSnakeCase_lowercase fun _ => .inr rfl⟩
        · rw [if_neg hlead]
          refine inSnakeCase_lowercase fun hupper => ?_
          rw [hupper, Bool.true_and, Bool.and_eq_true, not_and_or] at hlead
          cases last with
          | none => exact .inl rfl
          | some e =>
              right
              have he : e = '_' := by simpa using hlead
              rw [he]
              rfl
      · simpa [hlower] using hrest

theorem snakeChars_snakeChars (cs : List Char) : snakeChars (snakeChars cs) = snakeChars cs := by
  have hsnake : InSnakeCase none (snakeChars cs) := inSnakeCase_snakeFrom none cs
  have hdash : ∀ d ∈ snakeChars cs, undash d = d := by
    intro d hd
    refine if_neg fun hdashed => dash_not_mem_snakeChars cs ?_
    rwa [hdashed] at hd
  conv_lhs => rw [snakeChars_eq, hsnake.snakeFrom_eq]
  exact (List.map_congr_left hdash).trans (List.map_id _)

/-! White space around names. -/

section

variable {cs : List Char} {c d : Char}

theorem trim_eq_self_of_ends (hhead : ∀ c ∈ cs.head?, isBlank c = false)
    (hlast : ∀ d ∈ cs.getLast?, isBlank d = false) : trim cs = cs := by
  cases cs with
  | nil => rfl
  | cons c cs =>
      have hend : (c :: cs).getLast? = some ((c :: cs).getLast (by simp)) :=
        List.getLast?_eq_some_getLast _
      exact trim_eq_self (hhead c rfl) (hlast _ hend) hend

theorem isBlank_of_head?_trim (h : c ∈ (trim cs).head?) : isBlank c = false := by
  obtain ⟨ends, hends, -⟩ := exists_dropEndWhile_append isBlank (trimStart cs)
  have hstart : (trimStart cs).head? = some c := by
    rw [← hends, List.head?_append]
    exact Option.or_eq_some_iff.mpr (.inl h)
  have hnot := List.head?_dropWhile_not isBlank cs
  rw [trimStart] at hstart
  rw [hstart] at hnot
  simpa using hnot

theorem isBlank_of_getLast?_trim (h : d ∈ (trim cs).getLast?) : isBlank d = false := by
  have hnot := List.head?_dropWhile_not isBlank (trimStart cs).reverse
  rw [trim, trimEnd, dropEndWhile, List.getLast?_reverse] at h
  rw [Option.mem_def.mp h] at hnot
  simpa using hnot

theorem isBlank_undash (h : isBlank c = false) : isBlank (undash c) = false := by
  rcases undash_eq c with hc | hc
  · rwa [hc]
  · rw [hc]
    decide

theorem isBlank_of_head?_snakeChars (hhead : ∀ c ∈ cs.head?, isBlank c = false)
    (h : d ∈ (snakeChars cs).head?) : isBlank d = false := by
  cases cs with
  | nil => cases h
  | cons c cs =>
      obtain ⟨e, rest, hlower⟩ := List.exists_cons_of_ne_nil (lowercase_ne_nil c)
      have hfirst : snakeChars (c :: cs) =
          ((lowercase c ++ snakeFrom (lowercase c).getLast? cs).map undash) := by
        simp [snakeChars_eq, snakeFrom]
      rw [hfirst, hlower] at h
      obtain rfl : undash e = d := by simpa using h
      have he : e ∈ lowercase c := by rw [hlower]; exact List.mem_cons_self
      exact isBlank_undash (isBlank_of_mem_lowercase he (hhead c rfl))

/-- A name ends with the lowercase of its last character. -/
theorem exists_snakeFrom_concat (last : Option Char) (cs : List Char) (c : Char) :
    ∃ init, snakeFrom last (cs ++ [c]) = init ++ lowercase c := by
  induction cs generalizing last with
  | nil => exact ⟨_, by simp [snakeFrom]; rfl⟩
  | cons d ds ih =>
      obtain ⟨init, hinit⟩ := ih (lowercase d).getLast?
      exact ⟨_, by rw [List.cons_append, snakeFrom, hinit, ← List.append_assoc]⟩

theorem isBlank_of_getLast?_snakeChars (hlast : ∀ c ∈ cs.getLast?, isBlank c = false)
    (h : d ∈ (snakeChars cs).getLast?) : isBlank d = false := by
  rcases List.eq_nil_or_concat' cs with rfl | ⟨front, c, rfl⟩
  · cases h
  · obtain ⟨init, hinit⟩ := exists_snakeFrom_concat none front c
    obtain ⟨front', e, hlower⟩ := exists_lowercase_concat c
    have hall : snakeChars (front ++ [c]) = (init ++ (front' ++ [e])).map undash := by
      rw [snakeChars_eq, hinit, hlower]
    rw [hall] at h
    obtain rfl : undash e = d := by simpa using h
    have he : e ∈ lowercase c := by rw [hlower]; simp
    exact isBlank_undash (isBlank_of_mem_lowercase he (hlast c (by simp)))

/-- Snake case brings no white space to the ends of a name. -/
theorem trim_snakeChars_trim (cs : List Char) :
    trim (snakeChars (trim cs)) = snakeChars (trim cs) :=
  trim_eq_self_of_ends
    (fun _ hd => isBlank_of_head?_snakeChars (fun _ hc => isBlank_of_head?_trim hc) hd)
    (fun _ hd => isBlank_of_getLast?_snakeChars (fun _ hc => isBlank_of_getLast?_trim hc) hd)

end

/-! Names of letters and digits. -/

/-- The words that capitals make of a name: an underscore stands before every capital but a
first one. -/
def wordsAtCapitals : List Char → List Char
  | [] => []
  | c :: cs =>
      c.toLower :: cs.flatMap fun d => if d.isUpper then ['_', d.toLower] else [d.toLower]

section Letters

variable {c : Char} (h : c.isAlphanum = true)
include h

theorem toNat_lt_of_isAlphanum : c.toNat < 0x80 := by
  simp only [Char.isAlphanum, Char.isAlpha, Char.isUpper, Char.isLower, Char.isDigit,
    UInt32.le_iff_toNat_le, Bool.or_eq_true, Bool.and_eq_true, decide_eq_true_eq] at h
  simp at h
  omega

theorem lowercase_of_isAlphanum : lowercase c = [c.toLower] :=
  lowercase_of_ascii (toNat_lt_of_isAlphanum h)

theorem isUppercase_of_isAlphanum : isUppercase c = c.isUpper := by
  rw [isUppercase, if_pos (toNat_lt_of_isAlphanum h)]

theorem toLower_ne_of_isAlphanum : c.toLower ≠ '_' ∧ c.toLower ≠ '-' := by
  have hall : ∀ n < 0x80, (Char.ofNat n).isAlphanum = true →
      (Char.ofNat n).toLower ≠ '_' ∧ (Char.ofNat n).toLower ≠ '-' := by decide +kernel
  have hc := hall c.toNat (toNat_lt_of_isAlphanum h)
  rw [Char.ofNat_toNat] at hc
  exact hc h

theorem isBlank_of_isAlphanum : isBlank c = false := by
  have hall : ∀ n < 0x80, (Char.ofNat n).isAlphanum = true → isBlank (Char.ofNat n) = false := by
    decide +kernel
  have hc := hall c.toNat (toNat_lt_of_isAlphanum h)
  rw [Char.ofNat_toNat] at hc
  exact hc h

end Letters

section Words

variable {cs : List Char} (h : ∀ c ∈ cs, c.isAlphanum = true)
include h

theorem snakeFrom_of_isAlphanum {last : Char} (hlast : last ≠ '_') :
    snakeFrom (some last) cs =
      cs.flatMap fun d => if d.isUpper then ['_', d.toLower] else [d.toLower] := by
  induction cs generalizing last with
  | nil => rfl
  | cons c cs ih =>
      obtain ⟨hc, hcs⟩ := List.forall_mem_cons.mp h
      rw [snakeFrom, lowercase_of_isAlphanum hc, isUppercase_of_isAlphanum hc, List.flatMap_cons,
        List.getLast?_singleton, ih hcs (toLower_ne_of_isAlphanum hc).1]
      cases c.isUpper with
      | true => simp [hlast]
      | false => rfl

theorem snakeFrom_none_of_isAlphanum : snakeFrom none cs = wordsAtCapitals cs := by
  cases cs with
  | nil => rfl
  | cons c cs =>
      obtain ⟨hc, hcs⟩ := List.forall_mem_cons.mp h
      rw [snakeFrom, lowercase_of_isAlphanum hc, List.getLast?_singleton,
        snakeFrom_of_isAlphanum hcs (toLower_ne_of_isAlphanum hc).1]
      simp [wordsAtCapitals]

theorem dash_not_mem_wordsAtCapitals : '-' ∉ wordsAtCapitals cs := by
  cases cs with
  | nil => simp [wordsAtCapitals]
  | cons c cs =>
      obtain ⟨hc, hcs⟩ := List.forall_mem_cons.mp h
      rw [wordsAtCapitals, List.mem_cons, List.mem_flatMap, not_or]
      refine ⟨(toLower_ne_of_isAlphanum hc).2.symm, ?_⟩
      rintro ⟨d, hd, hdash⟩
      have hne := (toLower_ne_of_isAlphanum (hcs d hd)).2.symm
      split at hdash <;> simp [hne] at hdash

theorem snakeChars_of_isAlphanum : snakeChars cs = wordsAtCapitals cs := by
  rw [snakeChars_eq, snakeFrom_none_of_isAlphanum h]
  refine (List.map_congr_left fun c hc => ?_).trans (List.map_id _)
  refine if_neg fun hdash => dash_not_mem_wordsAtCapitals h ?_
  rwa [hdash] at hc

/-- A spelling keeps a word together exactly if it has no capital inside. -/
theorem wordsAtCapitals_eq_map_iff :
    wordsAtCapitals cs = cs.map Char.toLower ↔ ∀ d ∈ cs.tail, d.isUpper = false := by
  cases cs with
  | nil => simp [wordsAtCapitals]
  | cons c cs =>
      obtain ⟨-, hcs⟩ := List.forall_mem_cons.mp h
      rw [wordsAtCapitals, List.map_cons, List.cons.injEq, List.tail_cons]
      constructor
      · intro heq d hd
        by_contra hupper
        rw [Bool.not_eq_false] at hupper
        -- the underscore in front of a capital is no letter in lower case
        have hmem : '_' ∈ cs.map Char.toLower := by
          rw [← heq.2]
          exact List.mem_flatMap.mpr ⟨d, hd, by simp [hupper]⟩
        obtain ⟨e, he, hunder⟩ := List.mem_map.mp hmem
        exact (toLower_ne_of_isAlphanum (hcs e he)).1 hunder
      · intro hlower
        refine ⟨rfl, ?_⟩
        rw [List.map_eq_flatMap]
        exact List.flatMap_congr fun d hd => by simp [hlower d hd]

end Words

end FieldRules
