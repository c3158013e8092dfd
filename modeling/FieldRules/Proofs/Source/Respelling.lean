/-
Token spelling determines the token.  Whatever text the tokens came from, their spellings with
blanks between them, and line feeds where lines ended statements, are read as the same tokens.
-/
import FieldRules.Proofs.Source.Between
import FieldRules.Proofs.Source.Cover
import FieldRules.Proofs.Source.Page
import Mathlib

namespace FieldRules

/-! Where line ends finish statements. -/

/-- Kinds of tokens up to the end of the file, after a token which finishes a statement or not.
A line end stands right after a token that does, and that token is never the last. -/
inductive Punctuated : Bool → List TokenKind → Prop
  | eof : Punctuated false [.eof]
  | line {ks : List TokenKind} (h : Punctuated false ks) : Punctuated true (.semi true :: ks)
  | word {k : TokenKind} {w : String} {ks : List TokenKind} (ends : Bool)
      (hword : k.written? = some w) (h : Punctuated k.endsStatement ks) : Punctuated ends (k :: ks)

namespace Punctuated

theorem of_eof {ends : Bool} (h : Punctuated ends [.eof]) : ends = false := by
  cases h with
  | eof => rfl
  | word _ hword _ => cases hword

theorem of_line {ends : Bool} {ks : List TokenKind} (h : Punctuated ends (.semi true :: ks)) :
    ends = true ∧ Punctuated false ks := by
  cases h with
  | line h => exact ⟨rfl, h⟩
  | word _ hword _ => cases hword

theorem of_word {ends : Bool} {k : TokenKind} {w : String} {ks : List TokenKind}
    (h : Punctuated ends (k :: ks)) (hword : k.written? = some w) :
    Punctuated k.endsStatement ks := by
  cases h with
  | eof => cases hword
  | line _ => cases hword
  | word _ _ h => exact h

end Punctuated

/-- Laying out gives a semicolon only where one is due, and leaves none out. -/
theorem punctuated_layout {before : List Char} {xs : List Lexeme} {s : LayoutState}
    (hstand : StandAfter before xs) (hbreaks : ∀ x ∈ xs, x.Breaks) :
    Punctuated s.ends ((layout s xs).tokens.map Token.kind) := by
  induction xs generalizing before s with
  | nil =>
      rw [layout, LayoutState.semi]
      cases s.ends with
      | false => exact .eof
      | true => exact .line .eof
  | cons x xs ih =>
      obtain ⟨-, -, hfits, hrest⟩ := hstand
      obtain ⟨hx, hmore⟩ := List.forall_mem_cons.mp hbreaks
      have hnext := ih (s := s.next x) hrest hmore
      rw [layout_cons]
      by_cases hfills : x.Fills
      · rw [LayoutState.ends_next hfills hx] at hnext
        rw [LayoutState.given_of_fills hfills hx, LayoutState.semi]
        by_cases hline : '\n' ∈ x.chars
        · cases hends : s.ends with
          | false => simpa [hline, hends] using hnext
          | true =>
              rw [hends, decide_eq_true hline] at hnext
              simpa [hline] using Punctuated.line hnext
        · simpa [hline] using hnext
      · obtain ⟨kind, hkind⟩ : ∃ kind, x.cls = .token kind := by
          simpa [Lexeme.Fills] using hfills
        rw [Lexeme.Fits, hkind] at hfits
        have hends : (s.next x).ends = kind.endsStatement := by
          simp [LayoutState.next, hkind, LayoutState.afterToken]
        rw [hends] at hnext
        simpa [LayoutState.given, hkind] using Punctuated.word s.ends hfits.1 hnext

/-! Tokens with white space after them. -/

/-- A blank or a line feed. -/
def IsSpacing (c : Char) : Prop := c = ' ' ∨ c = '\t' ∨ c = '\r' ∨ c = '\n'

theorem stopsAt_spacing (k : TokenKind) {c : Char} (h : IsSpacing c) : stopsAt k c = true := by
  have hident : continuesIdent c = false := by rcases h with rfl | rfl | rfl | rfl <;> decide
  have hnumber : continuesNumber c = false := by rcases h with rfl | rfl | rfl | rfl <;> decide
  cases k with
  | ident name => simp [stopsAt, hident]
  | literal kind spelling => cases kind <;> simp [stopsAt, hnumber]
  | op symbol => rcases h with rfl | rfl | rfl | rfl <;> simp [stopsAt]
  | semi _ => rfl
  | eof => rfl

theorem isPrefixOf_append_stop {p rest : List Char} (xs : List Char)
    (h : ∀ d ∈ rest.head?, d ∉ p) : p.isPrefixOf (xs ++ rest) = p.isPrefixOf xs := by
  induction xs generalizing p with
  | nil =>
      cases rest with
      | nil => rfl
      | cons d ds =>
          cases p with
          | nil => rfl
          | cons c cs =>
              have hne : (c == d) = false := by
                rw [beq_eq_false_iff_ne]
                rintro rfl
                exact h c rfl List.mem_cons_self
              simp [List.isPrefixOf, hne]
  | cons x xs ih =>
      cases p with
      | nil => rfl
      | cons c cs =>
          have hcs : ∀ d ∈ rest.head?, d ∉ cs := fun d hd hmem =>
            h d hd (List.mem_cons_of_mem c hmem)
          simp [List.isPrefixOf, ih hcs]

/-- Whether a text that starts with an operator starts with no other lexeme. -/
def onlyOperator : List Char → Bool
  | [] => false
  | c :: cs =>
      !startsIdent c && !c.isDigit &&
        !(['"', '\x60', '\'', ';', ' ', '\t', '\r', '\n'].contains c) &&
        !(c = '.' && (cs.head?.any Char.isDigit)) && !(c = '/' && cs.head? == some '/') &&
        !(c = '/' && cs.head? == some '*')

theorem onlyOperator_operators :
    operators.all (fun symbol => onlyOperator symbol.toList) = true := by decide +kernel

/-- The longest operator in the text of one is the operator itself. -/
theorem operatorAt?_toList : ∀ symbol ∈ operators, operatorAt? symbol.toList = some symbol := by
  decide +kernel

/-- No operator holds white space. -/
theorem spacing_not_mem_operators :
    operators.all (fun symbol => [' ', '\t', '\r', '\n'].all fun c => !symbol.toList.contains c) =
      true := by decide +kernel

theorem operatorAt?_append {symbol : String} {rest : List Char} (h : symbol ∈ operators)
    (hrest : ∀ d ∈ rest.head?, IsSpacing d) :
    operatorAt? (symbol.toList ++ rest) = some symbol := by
  rw [← operatorAt?_toList symbol h, operatorAt?, operatorAt?]
  refine List.find?_congr fun other hother => isPrefixOf_append_stop _ fun d hd => ?_
  have hnone := List.all_eq_true.mp (List.all_eq_true.mp spacing_not_mem_operators other hother) d
    (by simpa [IsSpacing] using hrest d hd)
  simpa using hnone

theorem onlyOperator_append {c : Char} {cs rest : List Char}
    (h : onlyOperator (c :: cs) = true) (hrest : ∀ d ∈ rest.head?, IsSpacing d) :
    onlyOperator (c :: (cs ++ rest)) = true := by
  cases cs with
  | cons d ds => exact h
  | nil =>
      -- white space makes neither a number nor a comment
      cases rest with
      | nil => exact h
      | cons d ds =>
          rcases hrest d rfl with rfl | rfl | rfl | rfl <;> simpa [onlyOperator] using h

theorem lexemeAt_of_onlyOperator {c : Char} {cs : List Char} {symbol : String}
    (h : onlyOperator (c :: cs) = true) (hfound : operatorAt? (c :: cs) = some symbol)
    (pos : Nat) : lexemeAt pos c cs = .ok (.token (.op symbol), symbol.length - 1) := by
  simp only [onlyOperator, Bool.and_eq_true, Bool.not_eq_true'] at h
  obtain ⟨⟨⟨⟨⟨hident, hdigit⟩, hother⟩, hnumber⟩, hline⟩, hblock⟩ := h
  simp only [List.contains_cons, List.contains_nil, Bool.or_eq_false_iff,
    beq_eq_false_iff_ne] at hother
  obtain ⟨hquote, hraw, hrune, hsemi, hblank, htab, hreturn, hfeed, -⟩ := hother
  have htoken : tokenAt pos c cs = .ok (.op symbol, symbol.length - 1) := by
    simp only [tokenAt, hident, hdigit, hnumber, hquote, hraw, hrune, hsemi, hfound, Bool.or_false,
      Bool.false_eq_true, if_false]
  simp only [lexemeAt, hblank, htab, hreturn, hfeed, hline, hblock, htoken, decide_false,
    Bool.or_false, Bool.false_eq_true, if_false]
  rfl

theorem lexemeAt_operator {symbol : String} {c : Char} {cs rest : List Char}
    (h : symbol ∈ operators) (hsymbol : symbol.toList = c :: cs)
    (hrest : ∀ d ∈ rest.head?, IsSpacing d) (pos : Nat) :
    lexemeAt pos c (cs ++ rest) = .ok (.token (.op symbol), cs.length) := by
  have hstarts := List.all_eq_true.mp onlyOperator_operators symbol h
  have hfound := operatorAt?_append h hrest
  rw [hsymbol] at hstarts hfound
  rw [lexemeAt_of_onlyOperator (onlyOperator_append hstarts hrest) hfound,
    ← String.length_toList, hsymbol, List.length_cons, Nat.add_sub_cancel]

/-- A token that is written starts with a character, and not with a byte order mark. -/
theorem exists_chars_of_written? {k : TokenKind} {w : String} (hk : k.Lexical)
    (hw : k.written? = some w) : ∃ c cs, w.toList = c :: cs ∧ c ≠ byteOrderMark := by
  cases k with
  | ident name =>
      cases hw
      obtain ⟨c, cs, heq, hstart, -⟩ := exists_of_isIdentifier hk
      refine ⟨c, cs, heq, ?_⟩
      rintro rfl
      exact absurd hstart (by decide +kernel)
  | literal kind spelling =>
      cases hw
      obtain ⟨c, cs, heq, hread⟩ := hk
      obtain ⟨-, hstart⟩ := startsLiteral hread
      refine ⟨c, cs, heq, ?_⟩
      rintro rfl
      simp [byteOrderMark, Char.isDigit] at hstart
  | op symbol =>
      cases hw
      have hhead : operators.all (fun symbol => symbol.toList.head?.any (· != byteOrderMark)) =
          true := by decide +kernel
      have hsymbol := List.all_eq_true.mp hhead w hk
      cases heq : w.toList with
      | nil => simp [heq] at hsymbol
      | cons c cs => exact ⟨c, cs, rfl, by simpa [heq] using hsymbol⟩
  | semi implicit =>
      cases implicit with
      | false =>
          cases hw
          exact ⟨';', [], rfl, by decide⟩
      | true => cases hw
  | eof => cases hw

/-- A token with white space after it is read as it was, wherever it stands. -/
theorem lexemeAt_written {k : TokenKind} {w : String} {c : Char} {cs rest : List Char}
    (hk : k.Lexical) (hw : k.written? = some w) (hchars : w.toList = c :: cs)
    (hrest : ∀ d ∈ rest.head?, IsSpacing d) (pos : Nat) :
    lexemeAt pos c (cs ++ rest) = .ok (.token k, cs.length) := by
  cases k with
  | ident name =>
      cases hw
      exact Word.lexemeAt_chars ⟨.ident w, hk⟩ hchars
        (fun d hd => stopsAt_spacing _ (hrest d hd)) pos
  | literal kind spelling =>
      cases hw
      exact Word.lexemeAt_chars ⟨.literal kind w, hk⟩ hchars
        (fun d hd => stopsAt_spacing _ (hrest d hd)) pos
  | op symbol =>
      cases hw
      exact lexemeAt_operator hk hchars hrest pos
  | semi implicit =>
      cases implicit with
      | false =>
          cases hw
          obtain ⟨rfl, rfl⟩ := List.cons.inj hchars
          rfl
      | true => cases hw
  | eof => cases hw

/-! Spellings of tokens. -/

/-- The text spells tokens up to the end of the file: each as it is written, with white space after
it, and a line feed for a semicolon that stands for a line end.  There may be blanks anywhere
between. -/
inductive Spells : List TokenKind → List Char → Prop
  | eof : Spells [.eof] []
  | blank {c : Char} {ks : List TokenKind} {cs : List Char} (hc : c = ' ' ∨ c = '\t' ∨ c = '\r')
      (h : Spells ks cs) : Spells ks (c :: cs)
  | line {ks : List TokenKind} {cs : List Char} (h : Spells ks cs) :
      Spells (.semi true :: ks) ('\n' :: cs)
  | word {k : TokenKind} {w : String} {ks : List TokenKind} {cs : List Char}
      (hw : k.written? = some w) (hcs : ∀ d ∈ cs.head?, IsSpacing d) (h : Spells ks cs) :
      Spells (k :: ks) (w.toList ++ cs)

/-- From state `s` the text is cut and laid out into tokens of these kinds, and no comments. -/
def LaysOut (s : LayoutState) (cs : List Char) (ks : List TokenKind) : Prop :=
  ∃ xs, lexemesFrom s.pos s.line cs = .ok xs ∧ (layout s xs).tokens.map Token.kind = ks ∧
    (layout s xs).groups = []

theorem laysOut_cons {s : LayoutState} {c : Char} {cs rest : List Char} {cls : LexemeClass}
    {ks more : List TokenKind} (hone : lexemeAt s.pos c (cs ++ rest) = .ok (cls, cs.length))
    (hfinished : s.finished ⟨cls, c :: cs, s.pos, s.line⟩ = [])
    (h : LaysOut (s.next ⟨cls, c :: cs, s.pos, s.line⟩) rest more)
    (hks : (s.given ⟨cls, c :: cs, s.pos, s.line⟩).map Token.kind ++ more = ks) :
    LaysOut s (c :: cs ++ rest) ks := by
  obtain ⟨xs, hxs, hkinds, hgroups⟩ := h
  refine ⟨⟨cls, c :: cs, s.pos, s.line⟩ :: xs, lexemesFrom_cons c cs hone ?_, ?_, ?_⟩
  · rw [← hxs]
    unfold LayoutState.next
    cases cls <;> rfl
  · rw [layout_cons, List.map_append, hkinds, hks]
  · rw [layout_cons, hfinished, hgroups, List.append_nil]

/-- Tokens are read from their spellings as they were, if line ends finish statements where a
semicolon stands for them. -/
theorem laysOut_of_spells {s : LayoutState} {ks : List TokenKind} {cs : List Char}
    (h : Spells ks cs) (hgap : s.gap = []) (hpunctuated : Punctuated s.ends ks)
    (hlexical : ∀ k ∈ ks, k.Lexical) : LaysOut s cs ks := by
  induction h generalizing s with
  | eof =>
      refine ⟨[], lexemesFrom_nil s.pos s.line, ?_, hgap⟩
      simp [layout, LayoutState.semi, hpunctuated.of_eof]
  | @blank c ks cs hc h ih =>
      have hone : lexemeAt s.pos c ([] ++ cs) = .ok (.blank, 0) := by
        rcases hc with rfl | rfl | rfl <;> rfl
      exact laysOut_cons hone rfl (ih hgap hpunctuated hlexical) rfl
  | @line ks cs h ih =>
      obtain ⟨hends, hrest⟩ := hpunctuated.of_line
      have hone : lexemeAt s.pos '\n' ([] ++ cs) = .ok (.newline, 0) := rfl
      refine laysOut_cons hone rfl
        (ih hgap hrest fun k hk => hlexical k (List.mem_cons_of_mem _ hk)) ?_
      simp [LayoutState.given, LayoutState.semi, hends]
  | @word k w ks cs hw hcs h ih =>
      obtain ⟨hk, hmore⟩ := List.forall_mem_cons.mp hlexical
      obtain ⟨c, ds, hchars, -⟩ := exists_chars_of_written? hk hw
      have hone := lexemeAt_written hk hw hchars hcs s.pos
      rw [hchars]
      exact laysOut_cons hone hgap (ih rfl (hpunctuated.of_word hw) hmore) rfl

theorem head_ne_byteOrderMark {ks : List TokenKind} {cs : List Char} (h : Spells ks cs)
    (hlexical : ∀ k ∈ ks, k.Lexical) : ∀ c ∈ cs.head?, c ≠ byteOrderMark := by
  cases h with
  | eof => nofun
  | blank hc h => rcases hc with rfl | rfl | rfl <;> simp [byteOrderMark]
  | line h => simp [byteOrderMark]
  | word hw hcs h =>
      obtain ⟨c, ds, hchars, hne⟩ := exists_chars_of_written? (hlexical _ List.mem_cons_self) hw
      simpa [hchars] using hne

/-- A text that spells the tokens of another is tokenized into the same tokens. -/
theorem exists_tokenize_of_spells {ks : List TokenKind} {text : String}
    (hpunctuated : Punctuated false ks) (hlexical : ∀ k ∈ ks, k.Lexical)
    (h : Spells ks text.toList) :
    ∃ stream, tokenize text = .ok stream ∧ stream.tokens.map Token.kind = ks ∧
      stream.groups = [] := by
  obtain ⟨xs, hxs, hkinds, hgroups⟩ :=
    laysOut_of_spells (s := .initial) h rfl hpunctuated hlexical
  have hmark := head_ne_byteOrderMark h hlexical
  have hlexemes : lexemes text.toList = .ok xs := by
    cases hchars : text.toList with
    | nil => rwa [hchars, LayoutState.initial, lexemesFrom_nil] at hxs
    | cons c cs =>
        rw [hchars] at hxs hmark
        rwa [lexemes, if_neg (hmark c rfl)]
  exact ⟨layout .initial xs, by rw [tokenize, hlexemes]; rfl, hkinds, hgroups⟩

/-! Single spaces. -/

/-- How a token is written again: with a line feed for a semicolon that stands for a line end, and
with nothing for the end of the file. -/
def TokenKind.respelling? : TokenKind → Option String
  | semi true => some "\n"
  | k => k.written?

/-- The spellings of tokens, separated by single spaces. -/
def respelled (ks : List TokenKind) : String := " ".intercalate (ks.filterMap TokenKind.respelling?)

theorem exists_respelled_cons {k : TokenKind} {w : String} {ks : List TokenKind}
    (hk : k.respelling? = some w) (h : Spells ks (respelled ks).toList) :
    ∃ cs, (respelled (k :: ks)).toList = w.toList ++ cs ∧ (∀ d ∈ cs.head?, IsSpacing d) ∧
      Spells ks cs := by
  unfold respelled at h ⊢
  rw [List.filterMap_cons_some hk]
  cases hwords : ks.filterMap TokenKind.respelling? with
  | nil =>
      rw [hwords] at h
      exact ⟨[], by simp, by simp, by simpa using h⟩
  | cons v words =>
      rw [hwords] at h
      refine ⟨' ' :: (" ".intercalate (v :: words)).toList, ?_, ?_, .blank (.inl rfl) h⟩
      · simp [String.toList_intercalate]
      · simp [IsSpacing]

theorem spells_respelled {ends : Bool} {ks : List TokenKind} (h : Punctuated ends ks) :
    Spells ks (respelled ks).toList := by
  induction h with
  | eof => exact .eof
  | line h ih =>
      obtain ⟨cs, hcs, -, hspells⟩ := exists_respelled_cons (k := .semi true) rfl ih
      rw [hcs]
      exact .line hspells
  | @word k w ks ends hword h ih =>
      have hk : k.respelling? = some w := by
        unfold TokenKind.respelling?
        split
        · cases hword
        · exact hword
      obtain ⟨cs, hcs, hhead, hspells⟩ := exists_respelled_cons hk ih
      rw [hcs]
      exact .word hword hhead hspells

/-- A text that spells the tokens of another, with blanks of any number between them and without
comments, is tokenized into the same tokens.  So is the text with single spaces. -/
theorem tokenize_respelled {text : String} {stream : TokenStream}
    (h : tokenize text = .ok stream) :
    (∃ again, tokenize (respelled (stream.tokens.map Token.kind)) = .ok again ∧
      again.tokens.map Token.kind = stream.tokens.map Token.kind ∧ again.groups = []) ∧
    ∀ spelled : String, Spells (stream.tokens.map Token.kind) spelled.toList →
      ∃ again, tokenize spelled = .ok again ∧
        again.tokens.map Token.kind = stream.tokens.map Token.kind ∧ again.groups = [] := by
  obtain ⟨xs, hxs, rfl⟩ := exists_lexemes_of_tokenize h
  have hpunctuated : Punctuated false ((layout .initial xs).tokens.map Token.kind) :=
    punctuated_layout (s := .initial) (standAfter_lexemes hxs).1 (breaks_of_lexemes hxs)
  have hlexical : ∀ k ∈ (layout .initial xs).tokens.map Token.kind, k.Lexical := by
    intro k hk
    obtain ⟨t, ht, rfl⟩ := List.mem_map.mp hk
    exact ((covers_of_tokenize h).tokens t ht).lexical
  exact ⟨exists_tokenize_of_spells hpunctuated hlexical (spells_respelled hpunctuated),
    fun spelled => exists_tokenize_of_spells hpunctuated hlexical⟩

theorem tokenize_respelled_numbers :
    ∃ stream again, tokenize "x:=0x1p-2+.5 // a\n\x7b`b\nc`;/* d */'\\''\n\x7d" = .ok stream ∧
      respelled (stream.tokens.map Token.kind) =
        "x := 0x1p-2 + .5 \n \x7b `b\nc` ; '\\'' \n \x7d \n" ∧
      tokenize (respelled (stream.tokens.map Token.kind)) = .ok again ∧
      again.tokens.map Token.kind = stream.tokens.map Token.kind ∧ again.groups = [] := by
  have h : (tokenize "x:=0x1p-2+.5 // a\n\x7b`b\nc`;/* d */'\\''\n\x7d").map
      (fun s => respelled (s.tokens.map Token.kind)) =
        .ok "x := 0x1p-2 + .5 \n \x7b `b\nc` ; '\\'' \n \x7d \n" := by cbv
  obtain ⟨stream, hread, hspelled⟩ := map_eq_ok.mp h
  obtain ⟨again, hagain⟩ := (tokenize_respelled hread).1
  exact ⟨stream, again, hread, hspelled, hagain⟩

end FieldRules
