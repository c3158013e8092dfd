/-
Errors of the lexer name a piece of the text, and lexemes lie inside it.
-/
import FieldRules.Proofs.Source.Cover

namespace FieldRules

/-- The label of the error is a slice of the text. -/
def SourceError.Locates (cs : List Char) (e : SourceError) : Prop :=
  ∃ span note, e.label? = some (span, note) ∧ span.Cuts cs

/-- A computation gives a value with property `Q` or an error that names a slice of the text. -/
def Settles {α : Type} (cs : List Char) (Q : α → Prop) : Except SourceError α → Prop
  | .ok a => Q a
  | .error e => e.Locates cs

namespace Settles

variable {α β : Type} {cs : List Char} {Q : α → Prop} {R : β → Prop}

theorem bind {x : Except SourceError α} {f : α → Except SourceError β} (h : Settles cs Q x)
    (hf : ∀ a, Q a → Settles cs R (f a)) : Settles cs R (x >>= f) := by
  cases x with
  | error e => exact h
  | ok a => exact hf a h

theorem map {x : Except SourceError α} {f : α → β} (h : Settles cs Q x)
    (hf : ∀ a, Q a → R (f a)) : Settles cs R (x.map f) := by
  cases x with
  | error e => exact h
  | ok a => exact hf a h

theorem mono {P : α → Prop} {x : Except SourceError α} (h : Settles cs P x)
    (himp : ∀ a, P a → Q a) : Settles cs Q x := by
  cases x with
  | error e => exact h
  | ok a => exact himp a h

theorem eq {x : Except SourceError α} (h : Settles cs Q x) :
    Settles cs (fun a => x = .ok a) x := by
  cases x with
  | error e => exact h
  | ok a => rfl

end Settles

/-! One lexeme. -/

section Lexeme

variable {before after : List Char} {c : Char}

theorem locates_piece {e : SourceError} {text : List Char} (piece after : List Char)
    (htext : text = before ++ (piece ++ after))
    (hlabel : e.label?.map Prod.fst =
      some ⟨utf8Length before, utf8Length before + utf8Length piece⟩) : e.Locates text := by
  obtain ⟨⟨span, note⟩, hlabel, hspan⟩ := Option.map_eq_some_iff.mp hlabel
  refine ⟨span, note, hlabel, ?_⟩
  rw [htext, show span = _ from hspan]
  exact Span.cuts_append before piece after

/-- A token lies inside the text, and an error points at its start. -/
theorem settles_tokenAt :
    Settles (before ++ c :: after) (fun found => found.2 ≤ after.length)
      (tokenAt (utf8Length before) c after) := by
  have hc : before ++ c :: after = before ++ ([c] ++ after) := rfl
  have quoted : ∀ {k : LiteralKind} {what : Enclosed} {length? : Option Nat},
      (∀ n, length? = some n → n ≤ after.length) → c.utf8Size = 1 →
      Settles (before ++ c :: after) (fun found => found.2 ≤ after.length)
        (quotedToken k c after
          (.unterminated what ⟨utf8Length before, utf8Length before + 1⟩) length?) := by
    intro k what length? hle hsize
    cases length? with
    | none => exact locates_piece [c] after hc (by simp [SourceError.label?, hsize])
    | some n => exact hle n rfl
  unfold tokenAt
  split
  · exact (List.takeWhile_sublist _).length_le
  split
  · have hle := (numberExtent_take
      (c = '0' && (after.head? == some 'x' || after.head? == some 'X')) false (c :: after)).1
    rw [List.length_cons] at hle
    exact Nat.sub_le_of_le_add hle
  split
  · rename_i hquote
    exact quoted (fun n h => (quotedLength?_take h).1) (by rw [hquote]; rfl)
  split
  · rename_i hraw
    exact quoted (fun n h => (rawLength?_take h).1) (by rw [hraw]; rfl)
  split
  · rename_i hrune
    exact quoted (fun n h => (quotedLength?_take h).1) (by rw [hrune]; rfl)
  split
  · exact Nat.zero_le _
  split
  · rename_i symbol hfound
    have hlength := congrArg List.length (toList_of_operatorAt? hfound)
    rw [List.length_cons, List.length_take, String.length_toList] at hlength
    show symbol.length - 1 ≤ after.length
    omega
  · exact locates_piece [c] after hc (by simp [SourceError.label?])

theorem blockLength?_le {cs : List Char} {n : Nat} (h : blockLength? cs = some n) :
    n ≤ cs.length := by
  induction cs using blockLength?.induct generalizing n with
  | case1 => cases h
  | case2 c => cases h
  | case3 c d cs hend =>
      rw [blockLength?, if_pos hend] at h
      cases h
      simp
  | case4 c d cs hend ih =>
      rw [blockLength?, if_neg hend] at h
      obtain ⟨k, hk, rfl⟩ := Option.map_eq_some_iff.mp h
      exact Nat.succ_le_succ (ih hk)

/-- A lexeme lies inside the text, and an error points at its start. -/
theorem settles_lexemeAt :
    Settles (before ++ c :: after) (fun found => found.2 ≤ after.length)
      (lexemeAt (utf8Length before) c after) := by
  unfold lexemeAt
  split
  · exact Nat.zero_le _
  split
  · exact Nat.zero_le _
  split
  · exact (List.takeWhile_sublist _).length_le
  split
  · rename_i hcomment
    obtain ⟨rfl, ds, rfl⟩ : c = '/' ∧ ∃ ds, after = '*' :: ds := by
      simpa [List.head?_eq_some_iff] using hcomment
    split
    · rename_i n hlength
      exact Nat.succ_le_succ (blockLength?_le hlength)
    · exact locates_piece ['/', '*'] ds rfl rfl
  · exact settles_tokenAt.map fun found hle => hle

end Lexeme

/-! The whole text. -/

theorem settles_lexemesFrom {text cs : List Char} {pos line : Nat} (before : List Char)
    (htext : text = before ++ cs) (hpos : pos = utf8Length before) :
    Settles text (fun _ => True) (lexemesFrom pos line cs) := by
  induction pos, line, cs using lexemesFrom.induct generalizing before with
  | case1 pos line =>
      rw [lexemesFrom_nil]
      trivial
  | case2 pos line c cs ih =>
      rw [lexemesFrom]
      have hone := @settles_lexemeAt before cs c
      rw [← htext, ← hpos] at hone
      refine hone.bind ?_
      rintro ⟨cls, more⟩ hle
      refine (@ih cls more (before ++ (c :: cs.take more)) ?_ ?_).bind fun _ _ => trivial
      · rw [htext, List.append_assoc, List.cons_append, List.take_append_drop]
      · rw [Lexeme.stop, hpos, utf8Length_append]

theorem settles_lexemes (cs : List Char) : Settles cs (fun _ => True) (lexemes cs) := by
  cases cs with
  | nil => trivial
  | cons c cs =>
      rw [lexemes]
      split
      · refine (settles_lexemesFrom [c] rfl ?_).bind fun _ _ => trivial
        simp [Lexeme.stop]
      · exact settles_lexemesFrom [] rfl rfl

theorem settles_tokenize (text : String) :
    Settles text.toList (fun stream => stream.Covers text.toList) (tokenize text) :=
  (settles_lexemes text.toList).eq.map fun _ => covers_layout

end FieldRules
