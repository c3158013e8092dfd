/-
The tokens of generated expressions.  An expression is written so that reading its text gives
these tokens, whatever character of generated code follows, and its delimiters match.
-/
import FieldRules.Proofs.Source.Balanced
import FieldRules.Proofs.Source.Kinds
import FieldRules.Proofs.Source.Lexical
import FieldRules.Code.Expr

namespace FieldRules

/-- Characters that follow a name or a literal in generated code. -/
def endsWord (d : Char) : Bool :=
  d ∈ [' ', '\n', '(', ')', '[', ']', '\x7b', '\x7d', ',', ':', ';']

/-- A name may also be followed by a selector. -/
def endsName (d : Char) : Bool := d = '.' || endsWord d

/-- Such a character belongs to no word. -/
theorem not_continues_of_endsWord {d : Char} (h : endsWord d = true) :
    continuesIdent d = false ∧ continuesNumber d = false := by
  simp only [endsWord, List.mem_cons, List.not_mem_nil, or_false, decide_eq_true_eq] at h
  rcases h with rfl | rfl | rfl | rfl | rfl | rfl | rfl | rfl | rfl | rfl | rfl <;> decide

theorem not_continuesIdent_of_endsName {d : Char} (h : endsName d = true) :
    continuesIdent d = false := by
  rw [endsName, Bool.or_eq_true, decide_eq_true_eq] at h
  rcases h with rfl | h
  · decide
  · exact (not_continues_of_endsWord h).1

/-- Symbols that end wherever they stand, with their characters. -/
def punctuation : List (Char × String) :=
  [('(', "("), (')', ")"), ('[', "["), (']', "]"), ('\x7b', "\x7b"), ('\x7d', "\x7d"), (',', ",")]

/-- The text is read as tokens of these kinds, the last of which ends a statement, where a
character follows that `ends` it. -/
structure Spelled (ends : Char → Bool) (cs : List Char) (ks : List TokenKind) : Prop where
  start : ∃ c rest, cs = c :: rest ∧ c ≠ '='
  lexes : ∀ before rest more, (∀ d ∈ rest.head?, ends d = true) → Lexes true rest more →
    Lexes before (cs ++ rest) (ks ++ more)

namespace Spelled

variable {ends ends' : Char → Bool} {cs ds : List Char} {ks ls : List TokenKind}

theorem mono (h : Spelled ends cs ks) (himp : ∀ d, ends' d = true → ends d = true) :
    Spelled ends' cs ks where
  start := h.start
  lexes before rest more hrest := h.lexes before rest more fun d hd => himp d (hrest d hd)

theorem word (h : Spelled endsName cs ks) : Spelled endsWord cs ks :=
  h.mono fun d hd => by simp [endsName, hd]

/-- One text after another. -/
theorem append (h : Spelled ends cs ks) (hmore : Spelled ends' ds ls)
    (hstart : ∀ d ∈ ds.head?, ends d = true) : Spelled ends' (cs ++ ds) (ks ++ ls) where
  start := by
    obtain ⟨c, rest, rfl, hc⟩ := h.start
    exact ⟨c, rest ++ ds, rfl, hc⟩
  lexes before rest more hrest hlexes := by
    rw [List.append_assoc, List.append_assoc]
    refine h.lexes before _ _ ?_ (hmore.lexes true rest more hrest hlexes)
    obtain ⟨d, more, rfl, -⟩ := hmore.start
    exact hstart

theorem ident {name : String} (h : isIdentifier name = true) :
    Spelled endsName name.toList [.ident name] where
  start := by
    obtain ⟨c, cs, hchars, hstart, -⟩ := exists_of_isIdentifier h
    refine ⟨c, cs, hchars, ?_⟩
    rintro rfl
    revert hstart
    decide
  lexes before rest more hrest hlexes :=
    hlexes.ident before h fun d hd => not_continuesIdent_of_endsName (hrest d hd)

theorem literal {kind : LiteralKind} {spelling : String} (h : IsLiteral kind spelling) :
    Spelled endsWord spelling.toList [.literal kind spelling] where
  start := by
    obtain ⟨c, cs, hchars, hread⟩ := h
    refine ⟨c, cs, hchars, ?_⟩
    rintro rfl
    obtain ⟨-, hstart⟩ := startsLiteral hread
    simp at hstart
  lexes before rest more hrest hlexes := hlexes.literal before h fun d hd => by
    have hnumber := (not_continues_of_endsWord (hrest d hd)).2
    cases kind <;> simp [stopsAt, hnumber]

/-- A symbol in front. -/
theorem mark (h : Spelled ends cs ks) (c : Char) (symbol : String)
    (hchars : symbol.toList = [c]) (hc : c ≠ '=') (hsymbol : symbol ∈ symbols)
    (hstop : ∀ d ∈ cs.head?, stopsAt (.op symbol) d = true) :
    Spelled ends (c :: cs) (.op symbol :: ks) where
  start := ⟨c, cs, rfl, hc⟩
  lexes before rest more hrest hlexes := by
    have hmark := (h.lexes _ rest more hrest hlexes).mark before hsymbol (by
      obtain ⟨d, ds, rfl, -⟩ := h.start
      exact hstop)
    rwa [hchars] at hmark

theorem punct (h : Spelled ends cs ks) (c : Char) (symbol : String)
    (hmem : (c, symbol) ∈ punctuation) : Spelled ends (c :: cs) (.op symbol :: ks) := by
  have hmark : symbol.toList = [c] ∧ c ≠ '=' ∧ symbol ∈ symbols ∧
      ∀ d, stopsAt (.op symbol) d = true := by
    simp only [punctuation, List.mem_cons, Prod.mk.injEq, List.not_mem_nil, or_false] at hmem
    rcases hmem with ⟨rfl, rfl⟩ | ⟨rfl, rfl⟩ | ⟨rfl, rfl⟩ | ⟨rfl, rfl⟩ | ⟨rfl, rfl⟩ | ⟨rfl, rfl⟩ |
      ⟨rfl, rfl⟩ <;> exact ⟨rfl, by decide, by decide, fun _ => rfl⟩
  exact h.mark c symbol hmark.1 hmark.2.1 hmark.2.2.1 fun d _ => hmark.2.2.2 d

theorem star (h : Spelled ends cs ks) : Spelled ends ('*' :: cs) (.op "*" :: ks) :=
  h.mark '*' "*" rfl (by decide) (by decide) (by
    obtain ⟨d, ds, rfl, hd⟩ := h.start
    rintro _ ⟨⟩
    simpa [stopsAt] using hd)

/-- A closing delimiter. -/
theorem close (ends : Char → Bool) (c : Char) (symbol : String) (hchars : symbol.toList = [c])
    (hsymbol : symbol ∈ [")", "]", "\x7d"]) : Spelled ends [c] [.op symbol] where
  start := by
    refine ⟨c, [], rfl, ?_⟩
    rintro rfl
    simp only [List.mem_cons, List.not_mem_nil, or_false] at hsymbol
    rcases hsymbol with rfl | rfl | rfl <;> cases hchars
  lexes before rest more hrest hlexes := by
    have hends : (TokenKind.op symbol).endsStatement = true ∧ symbol ∈ symbols ∧
        ∀ d, stopsAt (.op symbol) d = true := by
      simp only [List.mem_cons, List.not_mem_nil, or_false] at hsymbol
      rcases hsymbol with rfl | rfl | rfl <;> exact ⟨by decide, by decide, fun _ => rfl⟩
    rw [← hends.1] at hlexes
    have hmark := hlexes.mark before hends.2.1 fun d _ => hends.2.2 d
    rwa [hchars] at hmark

theorem blank (h : Spelled ends cs ks) : Spelled ends (' ' :: cs) ks where
  start := ⟨' ', cs, rfl, by decide⟩
  lexes before rest more hrest hlexes :=
    (h.lexes before rest more hrest hlexes).blank (.inl rfl)

/-- An operator and the blank after it. -/
theorem spaced {symbol : String} (h : Spelled ends cs ks) (hsymbol : symbol ∈ spacedOperators) :
    Spelled ends (symbol.toList ++ ' ' :: cs) (.op symbol :: ks) where
  start := by
    have hstart : ∀ symbol ∈ spacedOperators, ∃ c cs, symbol.toList = c :: cs ∧ c ≠ '=' := by
      simp only [spacedOperators, List.forall_mem_cons]
      exact ⟨⟨_, _, rfl, by decide⟩, ⟨_, _, rfl, by decide⟩, ⟨_, _, rfl, by decide⟩,
        ⟨_, _, rfl, by decide⟩, ⟨_, _, rfl, by decide⟩, ⟨_, _, rfl, by decide⟩,
        ⟨_, _, rfl, by decide⟩, ⟨_, _, rfl, by decide⟩, List.forall_mem_nil _⟩
    obtain ⟨c, more, hchars, hc⟩ := hstart symbol hsymbol
    exact ⟨c, more ++ ' ' :: cs, by rw [hchars]; rfl, hc⟩
  lexes before rest more hrest hlexes := by
    rw [List.append_assoc]
    exact (h.lexes false rest more hrest hlexes).spaced before hsymbol

theorem assignment (h : Spelled ends cs ks) :
    Spelled ends (' ' :: '=' :: ' ' :: cs) (.op "=" :: ks) where
  start := ⟨' ', _, rfl, by decide⟩
  lexes before rest more hrest hlexes := by
    have hblank : Lexes (TokenKind.op "=").endsStatement (' ' :: (cs ++ rest)) (ks ++ more) :=
      (h.lexes false rest more hrest hlexes).blank (.inl rfl)
    have hmark : Lexes before ("=".toList ++ ' ' :: (cs ++ rest)) _ :=
      hblank.mark before (by decide) (by simp [stopsAt])
    exact hmark.blank (.inl rfl)

theorem semicolon (h : Spelled ends cs ks) : Spelled ends (';' :: cs) (.semi false :: ks) where
  start := ⟨';', cs, rfl, by decide⟩
  lexes before rest more hrest hlexes :=
    (h.lexes false rest more hrest hlexes).semicolon before

theorem negation (h : Spelled ends cs ks) : Spelled ends ('!' :: cs) (.op "!" :: ks) where
  start := ⟨'!', cs, rfl, by decide⟩
  lexes before rest more hrest hlexes := by
    refine (h.lexes false rest more hrest hlexes).negation before ?_
    obtain ⟨d, ds, rfl, hd⟩ := h.start
    rintro _ ⟨⟩
    exact hd

/-- A word of the language, and a blank after it. -/
theorem keyword (word : String) (h : Spelled ends cs ks) (hword : isIdentifier word = true) :
    Spelled ends (word.toList ++ ' ' :: cs) (.ident word :: ks) :=
  (Spelled.ident hword).append h.blank (by simp [endsName, endsWord])

/-- Items with commas between them, in front of what ends the last one. -/
theorem items {α : Type} {chars : α → List Char} {tokens : α → List TokenKind} {as : List α}
    (h : Spelled ends cs ks) (hstart : ∀ d ∈ cs.head?, endsWord d = true)
    (hitems : ∀ a ∈ as, Spelled endsWord (chars a) (tokens a)) :
    Spelled ends ([',', ' '].intercalate (as.map chars) ++ cs)
      ([.op ","].intercalate (as.map tokens) ++ ks) := by
  induction as with
  | nil => exact h
  | cons a rest ih =>
      obtain ⟨hitem, hrest⟩ := List.forall_mem_cons.mp hitems
      cases rest with
      | nil => simpa using hitem.append h hstart
      | cons other rest =>
          -- an item is ended by the comma in front of the next
          have hmore := (ih hrest).blank.punct ',' "," (by decide)
          have hall := hitem.append hmore (by simp [endsWord])
          simpa [List.intercalate_cons_cons, List.append_assoc] using hall

end Spelled

/-- A selector ends before the name after it. -/
theorem stopsAt_point {c : Char} (h : startsIdent c = true) : stopsAt (.op ".") c = true := by
  have hpoint : c ≠ '.' := by
    rintro rfl
    revert h
    decide
  have hdigit : c.isDigit = false := by
    by_contra hdigit
    rw [Bool.not_eq_false] at hdigit
    rw [of_isDigit (p := fun c => startsIdent c = false) (by decide) hdigit] at h
    cases h
  simp [stopsAt, hpoint, hdigit]

/-! String literals. -/

theorem hexDigit_plain : ∀ n < 16, hexDigit n ≠ '\n' ∧ hexDigit n ≠ '\\' ∧ hexDigit n ≠ '"' := by
  decide

theorem quotedLength?_plain {c : Char} (hline : c ≠ '\n') (hslash : c ≠ '\\') (hquote : c ≠ '"')
    (cs : List Char) : quotedLength? '"' (c :: cs) = (quotedLength? '"' cs).map (· + 1) := by
  rw [quotedLength?.eq_def]
  simp [hline, hslash, hquote]

theorem quotedLength?_escape {c : Char} (hline : c ≠ '\n') (cs : List Char) :
    quotedLength? '"' ('\\' :: c :: cs) = (quotedLength? '"' cs).map (· + 2) := by
  rw [quotedLength?.eq_def]
  simp [hline]

/-- A character inside a literal does not end it. -/
theorem quotedLength?_quoteChar (c : Char) (cs : List Char) :
    quotedLength? '"' (quoteChar c ++ cs) =
      (quotedLength? '"' cs).map (· + (quoteChar c).length) := by
  unfold quoteChar
  split
  · exact quotedLength?_escape (by decide) cs
  split
  · exact quotedLength?_escape (by decide) cs
  split
  · exact quotedLength?_escape (by decide) cs
  split
  · exact quotedLength?_escape (by decide) cs
  split
  · exact quotedLength?_escape (by decide) cs
  split
  · rename_i hcontrol
    simp only [isControl, Bool.or_eq_true, Bool.and_eq_true, decide_eq_true_eq] at hcontrol
    obtain ⟨hline, hslash, hquote⟩ := hexDigit_plain (c.toNat / 16) (by omega)
    obtain ⟨hline', hslash', hquote'⟩ := hexDigit_plain (c.toNat % 16) (by omega)
    have hescape := quotedLength?_escape (c := 'x') (by decide)
      (hexDigit (c.toNat / 16) :: hexDigit (c.toNat % 16) :: cs)
    rw [quotedLength?_plain hline hslash hquote, quotedLength?_plain hline' hslash' hquote',
      Option.map_map, Option.map_map] at hescape
    exact hescape
  · rename_i hquote hslash hline _ _ _
    exact quotedLength?_plain hline hslash hquote cs

theorem quotedLength?_quote (cs : List Char) :
    quotedLength? '"' (cs.flatMap quoteChar ++ ['"']) =
      some ((cs.flatMap quoteChar).length + 1) := by
  induction cs with
  | nil => rfl
  | cons c cs ih =>
      rw [List.flatMap_cons, List.append_assoc, quotedLength?_quoteChar, ih, List.length_append]
      simp only [Option.map_some]
      congr 1
      omega

/-- Whatever text is quoted, the result is one literal. -/
theorem isLiteral_quote (s : String) : IsLiteral .str (quote s) := by
  refine ⟨'"', s.toList.flatMap quoteChar ++ ['"'], String.toList_ofList, ?_⟩
  have hread : tokenAt 0 '"' (s.toList.flatMap quoteChar ++ ['"']) =
      quotedToken .str '"' (s.toList.flatMap quoteChar ++ ['"'])
        (.unterminated .interpreted ⟨0, 0 + 1⟩)
        (quotedLength? '"' (s.toList.flatMap quoteChar ++ ['"'])) := rfl
  have hlength : (s.toList.flatMap quoteChar ++ ['"']).length =
      (s.toList.flatMap quoteChar).length + 1 := List.length_append
  rw [hread, quotedLength?_quote, quotedToken, ← hlength, List.take_length]
  rfl

end FieldRules
