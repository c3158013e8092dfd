/-
What the lexer makes of a text is well-formed by itself: a token cut out of the text is read
as the same token where it stands alone.
-/
import FieldRules.Proofs.Source.Spelling

namespace FieldRules

/-- Identifiers are spelled like identifiers, and literals are read as such by themselves. -/
def TokenKind.Lexical : TokenKind → Prop
  | ident name => isIdentifier name = true
  | literal kind spelling => IsLiteral kind spelling
  | op symbol => symbol ∈ operators
  | semi _ | eof => True

/-! Literals without what follows them. -/

theorem quotedLength?_take {quote : Char} {cs : List Char} {n : Nat}
    (h : quotedLength? quote cs = some n) :
    n ≤ cs.length ∧ quotedLength? quote (cs.take n) = some n := by
  induction cs using quotedLength?.induct quote generalizing n with
  | case1 => cases h
  | case2 ds => simp [quotedLength?.eq_def] at h
  | case3 hne => simp [quotedLength?.eq_def] at h
  | case4 ds hne => simp [quotedLength?.eq_def] at h
  | case5 d ds hline hne ih =>
      rw [quotedLength?.eq_def] at h
      simp only [hne, if_false, if_true, hline] at h
      obtain ⟨k, hk, rfl⟩ := Option.map_eq_some_iff.mp h
      obtain ⟨hle, htake⟩ := ih hk
      refine ⟨by simpa using hle, ?_⟩
      rw [List.take_succ_cons, List.take_succ_cons, quotedLength?.eq_def]
      simp only [hne, if_false, if_true, hline, htake]
      rfl
  | case6 ds hline hslash =>
      rw [quotedLength?.eq_def] at h
      simp only [hline, hslash, if_false, if_true, Option.some.injEq] at h
      subst h
      refine ⟨by simp, ?_⟩
      rw [List.take_succ_cons, quotedLength?.eq_def]
      simp only [hline, hslash, if_false, if_true]
  | case7 d ds hline hslash hquote ih =>
      rw [quotedLength?.eq_def] at h
      simp only [hline, hslash, hquote, if_false] at h
      obtain ⟨k, hk, rfl⟩ := Option.map_eq_some_iff.mp h
      obtain ⟨hle, htake⟩ := ih hk
      refine ⟨by simpa using hle, ?_⟩
      rw [List.take_succ_cons, quotedLength?.eq_def]
      simp only [hline, hslash, hquote, if_false, htake]
      rfl

theorem rawLength?_take {cs : List Char} {n : Nat} (h : rawLength? cs = some n) :
    n ≤ cs.length ∧ rawLength? (cs.take n) = some n := by
  induction cs generalizing n with
  | nil => cases h
  | cons c cs ih =>
      rw [rawLength?] at h
      by_cases hc : c = '\x60'
      · rw [if_pos hc, Option.some.injEq] at h
        subst h
        exact ⟨by simp, by rw [List.take_succ_cons, rawLength?, if_pos hc]⟩
      · rw [if_neg hc] at h
        obtain ⟨k, hk, rfl⟩ := Option.map_eq_some_iff.mp h
        obtain ⟨hle, htake⟩ := ih hk
        refine ⟨by simpa using hle, ?_⟩
        rw [List.take_succ_cons, rawLength?, if_neg hc, htake]
        rfl

theorem numberExtent_take (hex signed : Bool) (cs : List Char) :
    (numberExtent hex signed cs).1 ≤ cs.length ∧
      numberExtent hex signed (cs.take (numberExtent hex signed cs).1) =
        numberExtent hex signed cs := by
  induction cs generalizing signed with
  | nil => exact ⟨Nat.le_refl 0, rfl⟩
  | cons c cs ih =>
      by_cases hsign : (signed && (c = '+' || c = '-')) = true
      · obtain ⟨hle, htake⟩ := ih false
        simp only [numberExtent, if_pos hsign, List.take_succ_cons, htake, List.length_cons, and_true]
        exact Nat.succ_le_succ hle
      by_cases hexponent : startsExponent hex c = true
      · obtain ⟨hle, htake⟩ := ih true
        simp only [numberExtent, if_neg hsign, if_pos hexponent, List.take_succ_cons, htake,
          List.length_cons, and_true]
        exact Nat.succ_le_succ hle
      by_cases hpoint : c = '.'
      · obtain ⟨hle, htake⟩ := ih false
        simp only [numberExtent, if_neg hsign, if_neg hexponent, if_pos hpoint,
          List.take_succ_cons, htake, List.length_cons, and_true]
        exact Nat.succ_le_succ hle
      by_cases halnum : (c.isAlphanum || c = '_') = true
      · obtain ⟨hle, htake⟩ := ih false
        simp only [numberExtent, if_neg hsign, if_neg hexponent, if_neg hpoint, if_pos halnum,
          List.take_succ_cons, htake, List.length_cons, and_true]
        exact Nat.succ_le_succ hle
      · simp only [numberExtent, if_neg hsign, if_neg hexponent, if_neg hpoint, if_neg halnum]
        exact ⟨Nat.zero_le _, rfl⟩

/-- What is read of a literal in quotes, if its end is `length?` characters behind the first
quote. -/
def quotedToken (k : LiteralKind) (c : Char) (cs : List Char) (error : SourceError)
    (length? : Option Nat) : Except SourceError (TokenKind × Nat) :=
  match length? with
  | some n => .ok (.literal k (String.ofList (c :: cs.take n)), n)
  | none => .error error

/-- A text in quotes is a literal by itself. -/
theorem isLiteral_quoted {k : LiteralKind} {c : Char} {cs : List Char} {n : Nat}
    {length? : List Char → Option Nat} (error : Nat → SourceError)
    (hform : ∀ pos ds, tokenAt pos c ds = quotedToken k c ds (error pos) (length? ds))
    (htake : n ≤ cs.length ∧ length? (cs.take n) = some n) :
    IsLiteral k (String.ofList (c :: cs.take n)) := by
  refine ⟨c, cs.take n, String.toList_ofList, ?_⟩
  have hlength : (cs.take n).length = n := List.length_take_of_le htake.1
  rw [hform, htake.2, hlength, quotedToken]
  simp only [List.take_take, Nat.min_self]

theorem numberExtent_pos_of_isAlphanum (hex signed : Bool) {d : Char} (ds : List Char)
    (h : d.isAlphanum = true) : 0 < (numberExtent hex signed (d :: ds)).1 := by
  unfold numberExtent
  split
  · exact Nat.succ_pos _
  split
  · exact Nat.succ_pos _
  split
  · exact Nat.succ_pos _
  · simp [h]

/-- A letter or digit right after the start of a number belongs to it. -/
theorem head?_take_number {hex : Bool} {c d : Char} {cs : List Char}
    (hc : c.isDigit = true ∨ c = '.') (hd : cs.head? = some d) (halnum : d.isAlphanum = true) :
    (cs.take ((numberExtent hex false (c :: cs)).1 - 1)).head? = some d := by
  obtain ⟨ds, rfl⟩ : ∃ ds, cs = d :: ds := List.head?_eq_some_iff.mp hd
  have hfirst : (c.isAlphanum || c = '_') = true ∨ c = '.' :=
    hc.imp_left fun h => by simp [Char.isAlphanum, h]
  obtain ⟨signed, hmore⟩ : ∃ signed, (numberExtent hex false (c :: d :: ds)).1 =
      (numberExtent hex signed (d :: ds)).1 + 1 := by
    rw [numberExtent, Bool.false_and, if_neg Bool.false_ne_true]
    split
    · exact ⟨true, rfl⟩
    split
    · exact ⟨false, rfl⟩
    · rename_i hpoint
      rw [if_pos (hfirst.resolve_right hpoint)]
      exact ⟨false, rfl⟩
  have hpos := numberExtent_pos_of_isAlphanum hex signed ds halnum
  obtain ⟨n, hn⟩ := Nat.exists_eq_succ_of_ne_zero hpos.ne'
  rw [hmore, Nat.add_sub_cancel, hn]
  rfl

/-- A number is a literal by itself. -/
theorem isLiteral_number {pos more : Nat} {kind : TokenKind} {c : Char} {cs : List Char}
    (hident : ¬ startsIdent c = true)
    (hnumber : (c.isDigit || (c = '.' && (cs.head?.any Char.isDigit))) = true)
    (h : tokenAt pos c cs = .ok (kind, more)) : kind.Lexical := by
  have hfirst : c.isDigit = true ∨ c = '.' := by
    simp only [Bool.or_eq_true, Bool.and_eq_true, decide_eq_true_eq] at hnumber
    exact hnumber.imp_right And.left
  rw [tokenAt, if_neg hident, if_pos hnumber] at h
  simp only [Except.ok.injEq, Prod.mk.injEq] at h
  generalize hhex : (c = '0' && (cs.head? == some 'x' || cs.head? == some 'X') : Bool) = hex at h
  obtain ⟨hle, htake⟩ := numberExtent_take hex false (c :: cs)
  have hpos := numberExtent_pos hex cs hfirst
  have hmore := h.2
  have hcount : (numberExtent hex false (c :: cs)).1 = more + 1 := by omega
  have hlength : (cs.take more).length = more := by
    apply List.length_take_of_le
    rw [hcount] at hle
    simpa using hle
  have hhead : ∀ d, cs.head? = some d → d.isAlphanum = true → (cs.take more).head? = some d := by
    intro d hd halnum
    rw [← hmore]
    exact head?_take_number hfirst hd halnum
  have hnumber' : (c.isDigit || (c = '.' && ((cs.take more).head?.any Char.isDigit))) = true := by
    rcases hfirst with hdigit | rfl
    · simp [hdigit]
    · obtain ⟨d, hd, hdigit⟩ : ∃ d, cs.head? = some d ∧ d.isDigit = true := by
        simpa [Option.any_eq_true] using hnumber
      simp [hhead d hd (by simp [Char.isAlphanum, hdigit]), hdigit]
  have hhex' : (c = '0' && ((cs.take more).head? == some 'x' ||
      (cs.take more).head? == some 'X') : Bool) = hex := by
    have hsame : ∀ d, d.isAlphanum = true →
        ((cs.take more).head? == some d) = (cs.head? == some d) := by
      intro d halnum
      by_cases hd : cs.head? = some d
      · rw [hhead d hd halnum, hd]
      · have hne : (cs.take more).head? ≠ some d := by
          intro htaken
          cases cs with
          | nil => simp at htaken
          | cons e es =>
              cases more with
              | zero => simp at htaken
              | succ n => exact hd htaken
        rw [beq_eq_false_iff_ne.mpr hd, beq_eq_false_iff_ne.mpr hne]
    rw [hsame 'x' (by decide), hsame 'X' (by decide), hhex]
  rw [hcount, List.take_succ_cons] at htake
  rw [← h.1, hmore]
  refine ⟨c, cs.take more, String.toList_ofList, ?_⟩
  rw [tokenAt, if_neg hident, if_pos hnumber', hhex']
  simp only [htake, hmore, List.take_take, Nat.min_self, hlength]

/-- Every token is well-formed by itself. -/
theorem lexical_of_tokenAt {pos more : Nat} {c : Char} {cs : List Char} {kind : TokenKind}
    (h : tokenAt pos c cs = .ok (kind, more)) : kind.Lexical := by
  by_cases hident : startsIdent c = true
  · rw [tokenAt, if_pos hident] at h
    cases h
    have hmore : ∀ d ∈ cs.take (cs.takeWhile continuesIdent).length, continuesIdent d = true := by
      intro d hd
      rw [← List.prefix_iff_eq_take.mp (List.takeWhile_prefix continuesIdent)] at hd
      exact List.mem_takeWhile_imp hd
    simpa [TokenKind.Lexical, isIdentifier, hident] using hmore
  by_cases hnumber : (c.isDigit || (c = '.' && (cs.head?.any Char.isDigit))) = true
  · exact isLiteral_number hident hnumber h
  -- three kinds of literals in quotes differ only in how their end is found
  have quoted : ∀ {k : LiteralKind} {length? : List Char → Option Nat} (error : Nat → SourceError),
      (∀ p ds, tokenAt p c ds = quotedToken k c ds (error p) (length? ds)) →
      (∀ {ds n}, length? ds = some n → n ≤ ds.length ∧ length? (ds.take n) = some n) →
      kind.Lexical := by
    intro k length? error hform htake
    rw [hform] at h
    cases hlength : length? cs with
    | none =>
        rw [hlength] at h
        cases h
    | some n =>
        rw [hlength] at h
        cases h
        exact isLiteral_quoted error hform (htake hlength)
  by_cases hquote : c = '"'
  · subst hquote
    exact quoted (fun p => .unterminated .interpreted ⟨p, p + 1⟩) (fun _ _ => rfl) quotedLength?_take
  by_cases hraw : c = '\x60'
  · subst hraw
    exact quoted (fun p => .unterminated .raw ⟨p, p + 1⟩) (fun _ _ => rfl) rawLength?_take
  by_cases hrune : c = '\''
  · subst hrune
    exact quoted (fun p => .unterminated .rune ⟨p, p + 1⟩) (fun _ _ => rfl) quotedLength?_take
  rw [tokenAt, if_neg hident, if_neg hnumber, if_neg hquote, if_neg hraw, if_neg hrune] at h
  split at h
  · cases h
    trivial
  split at h
  · rename_i symbol hfound
    cases h
    exact List.mem_of_find?_eq_some hfound
  · cases h

end FieldRules
