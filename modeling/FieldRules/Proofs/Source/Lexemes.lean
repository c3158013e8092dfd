/-
Lexemes as pieces of the text: what the lexemes of each class are made of, and that they stand
one after the other from the start of the text to its end.
-/
import FieldRules.Proofs.Outcome
import FieldRules.Proofs.Source.Lexical
import FieldRules.Source.Layout

namespace FieldRules

/-- How a token is written; line ends and the end of the file are not. -/
def TokenKind.written? : TokenKind → Option String
  | ident name => some name
  | literal _ spelling => some spelling
  | op symbol => some symbol
  | semi false => some ";"
  | semi true | eof => none

/-- The text of a comment that stands as these characters in a file: a line comment ends before
the carriage returns of its line end. -/
inductive CommentText : List Char → String → Prop
  | line (body returns : List Char) (hbody : body.getLast? ≠ some '\r')
      (hreturns : ∀ c ∈ returns, c = '\r') :
      CommentText ('/' :: '/' :: (body ++ returns)) (String.ofList ('/' :: '/' :: body))
  | block (body : List Char) :
      CommentText ('/' :: '*' :: body) (String.ofList ('/' :: '*' :: body))

/-- Characters between tokens and comments; a byte order mark only starts a text. -/
def IsGap (before : List Char) (c : Char) : Prop :=
  c = ' ' ∨ c = '\t' ∨ c = '\r' ∨ c = '\n' ∨ (c = byteOrderMark ∧ before = [])

/-- What a lexeme of its class may be, with `before` in front of it. -/
def Lexeme.Fits (before : List Char) (x : Lexeme) : Prop :=
  match x.cls with
  | .blank => ∃ c, x.chars = [c] ∧ IsGap before c
  | .newline => x.chars = ['\n']
  | .comment => CommentText x.chars x.toComment.text
  | .token kind => kind.written? = some (String.ofList x.chars) ∧ kind.Lexical

/-- An operator is a piece of the text where it is found. -/
theorem toList_of_operatorAt? {c : Char} {cs : List Char} {symbol : String}
    (h : operatorAt? (c :: cs) = some symbol) :
    c :: cs.take (symbol.length - 1) = symbol.toList := by
  have hne : ∀ s ∈ operators, s.toList ≠ [] := by decide
  have hstarts := List.find?_some h
  obtain ⟨d, ds, hsymbol⟩ :=
    List.exists_cons_of_ne_nil (hne symbol (List.mem_of_find?_eq_some h))
  obtain ⟨rest, hrest⟩ := List.isPrefixOf_iff_prefix.mp hstarts
  rw [hsymbol, List.cons_append, List.cons.injEq] at hrest
  obtain ⟨rfl, rfl⟩ := hrest
  rw [← String.length_toList, hsymbol, List.length_cons, Nat.add_sub_cancel, List.take_left]

/-- A token is spelled as it stands in the text. -/
theorem written?_of_tokenAt {pos more : Nat} {c : Char} {cs : List Char} {kind : TokenKind}
    (h : tokenAt pos c cs = .ok (kind, more)) :
    kind.written? = some (String.ofList (c :: cs.take more)) := by
  have quoted : ∀ {k : LiteralKind} {e : SourceError} (length? : Option Nat),
      quotedToken k c cs e length? = .ok (kind, more) →
      kind.written? = some (String.ofList (c :: cs.take more)) := by
    intro k e length? hread
    cases length? with
    | none => cases hread
    | some n =>
        cases hread
        rfl
  unfold tokenAt at h
  split at h
  · cases h
    rfl
  split at h
  · cases h
    rfl
  split at h
  · exact quoted _ h
  split at h
  · exact quoted _ h
  split at h
  · exact quoted _ h
  split at h
  · rename_i hsemi
    cases h
    rw [hsemi]
    rfl
  split at h
  · rename_i symbol hfound
    cases h
    rw [toList_of_operatorAt? hfound, String.ofList_toList]
    rfl
  · cases h

theorem getLast?_dropEndWhile {p : Char → Bool} {cs : List Char} {c : Char}
    (h : (dropEndWhile p cs).getLast? = some c) : p c = false := by
  rw [dropEndWhile, List.getLast?_reverse] at h
  have hnot := List.head?_dropWhile_not p cs.reverse
  rwa [h] at hnot

theorem commentText_line (body : List Char) :
    CommentText ('/' :: '/' :: body)
      (String.ofList (dropEndWhile (· == '\r') ('/' :: '/' :: body))) := by
  obtain ⟨returns, hbody, hreturns⟩ := exists_dropEndWhile_append (· == '\r') body
  have hends : dropEndWhile (· == '\r') ('/' :: '/' :: body) =
      '/' :: '/' :: dropEndWhile (· == '\r') body :=
    dropEndWhile_append_cons (c := '/') (by decide) ['/'] body
  have hlast : (dropEndWhile (· == '\r') body).getLast? ≠ some '\r' := fun h =>
    absurd (getLast?_dropEndWhile h) (by decide)
  have := CommentText.line (dropEndWhile (· == '\r') body) returns hlast fun c hc =>
    eq_of_beq (hreturns c hc)
  rwa [hbody, ← hends] at this

/-- A lexeme is made of what its class allows. -/
theorem fits_of_lexemeAt {pos more line : Nat} {c : Char} {cs : List Char} {cls : LexemeClass}
    (before : List Char) (h : lexemeAt pos c cs = .ok (cls, more)) :
    Lexeme.Fits before ⟨cls, c :: cs.take more, pos, line⟩ := by
  unfold lexemeAt at h
  split at h
  · rename_i hblank
    cases h
    simp only [Bool.or_eq_true, decide_eq_true_eq, or_assoc] at hblank
    exact ⟨c, rfl, by unfold IsGap; tauto⟩
  split at h
  · rename_i hline
    cases h
    exact congrArg (· :: []) hline
  split at h
  · rename_i hcomment
    cases h
    obtain ⟨rfl, ds, rfl⟩ : c = '/' ∧ ∃ ds, cs = '/' :: ds := by
      simpa [List.head?_eq_some_iff] using hcomment
    exact commentText_line _
  split at h
  · rename_i hcomment
    obtain ⟨rfl, ds, rfl⟩ : c = '/' ∧ ∃ ds, cs = '*' :: ds := by
      simpa [List.head?_eq_some_iff] using hcomment
    split at h
    · cases h
      exact .block _
    · cases h
  · cases hread : tokenAt pos c cs with
    | error e =>
        rw [hread] at h
        cases h
    | ok found =>
        obtain ⟨kind, n⟩ := found
        rw [hread] at h
        cases h
        exact ⟨written?_of_tokenAt hread, lexical_of_tokenAt hread⟩

/-- The lexemes stand one after the other, the first right after `before`. -/
def StandAfter (before : List Char) : List Lexeme → Prop
  | [] => True
  | x :: xs =>
      x.start = utf8Length before ∧ x.line = 1 + before.count '\n' ∧ x.Fits before ∧
        StandAfter (before ++ x.chars) xs

theorem standAfter_lexemesFrom {pos line : Nat} {before cs : List Char} {xs : List Lexeme}
    (h : lexemesFrom pos line cs = .ok xs) (hpos : pos = utf8Length before)
    (hline : line = 1 + before.count '\n') : StandAfter before xs := by
  induction pos, line, cs using lexemesFrom.induct generalizing before xs with
  | case1 pos line =>
      rw [lexemesFrom_nil] at h
      cases h
      trivial
  | case2 pos line c cs ih =>
      rw [lexemesFrom] at h
      obtain ⟨⟨cls, more⟩, hone, h⟩ := bind_eq_ok.mp h
      obtain ⟨rest, hrest, h⟩ := bind_eq_ok.mp h
      cases h
      refine ⟨hpos, hline, fits_of_lexemeAt before hone, ih cls more hrest ?_ ?_⟩
      · rw [Lexeme.stop, hpos, utf8Length_append]
      · rw [Lexeme.endLine, hline, List.count_append, Nat.add_assoc]

/-- The lexemes of a text are its pieces, from its start to its end. -/
theorem standAfter_lexemes {cs : List Char} {xs : List Lexeme} (h : lexemes cs = .ok xs) :
    StandAfter [] xs ∧ (xs.map Lexeme.chars).flatten = cs := by
  cases cs with
  | nil =>
      cases h
      exact ⟨trivial, rfl⟩
  | cons c cs =>
      rw [lexemes] at h
      split at h
      · rename_i hmark
        obtain ⟨rest, hrest, h⟩ := bind_eq_ok.mp h
        cases h
        have hgap : IsGap [] c := .inr (.inr (.inr (.inr ⟨hmark, rfl⟩)))
        have hcount : [c].count '\n' = 0 := by
          rw [hmark]
          decide
        refine ⟨⟨rfl, rfl, ⟨c, rfl, hgap⟩, standAfter_lexemesFrom hrest ?_ ?_⟩, ?_⟩
        · simp [Lexeme.stop]
        · simp [hcount]
        · simp [flatten_lexemesFrom hrest]
      · exact ⟨standAfter_lexemesFrom h rfl rfl, flatten_lexemesFrom h⟩

end FieldRules
