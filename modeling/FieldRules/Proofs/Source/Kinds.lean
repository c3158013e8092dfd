/-
The kinds of the tokens of a text, judged with what follows each piece in view, and
whatever its places and comments.
-/
import FieldRules.Proofs.Source.Page

namespace FieldRules

/-- The semicolon for a line end, where the token before it ends a statement. -/
def lineBreak (ends : Bool) : List TokenKind := if ends then [.semi true] else []

/-- The kinds of the tokens that lexemes are laid out into; `ends` tells whether the token
before them ends a statement. -/
def kindsFrom (ends : Bool) : List Lexeme → List TokenKind
  | [] => lineBreak ends ++ [.eof]
  | x :: xs =>
      match x.cls with
      | .blank => kindsFrom ends xs
      | .newline => lineBreak ends ++ kindsFrom false xs
      | .comment =>
          if x.chars.contains '\n' then lineBreak ends ++ kindsFrom false xs
          else kindsFrom ends xs
      | .token kind => kind :: kindsFrom kind.endsStatement xs

theorem kinds_semi (s : LayoutState) (pos line : Nat) :
    (s.semi pos line).map Token.kind = lineBreak s.ends := by
  unfold LayoutState.semi lineBreak
  cases s.ends <;> rfl

theorem kinds_layout (s : LayoutState) (xs : List Lexeme) :
    (layout s xs).tokens.map Token.kind = kindsFrom s.ends xs := by
  induction xs generalizing s with
  | nil => rw [layout, kindsFrom, List.map_append, kinds_semi, List.map_singleton]
  | cons x xs ih =>
      unfold layout kindsFrom
      cases x.cls with
      | blank => exact ih _
      | newline =>
          dsimp only
          rw [List.map_append, kinds_semi, ih]
      | comment =>
          dsimp only
          split
          · rw [List.map_append, kinds_semi, ih]
          · exact ih _
      | token kind =>
          dsimp only
          rw [List.map_cons, ih]
          rfl

/-- A text is cut into tokens of these kinds, if the token before it ends a statement or
not. -/
def Lexes (ends : Bool) (cs : List Char) (ks : List TokenKind) : Prop :=
  ∀ pos line, ∃ xs, lexemesFrom pos line cs = .ok xs ∧ kindsFrom ends xs = ks

section Lexes

variable {ends : Bool} {c : Char} {cs rest : List Char} {ks : List TokenKind}

theorem lexes_nil (ends : Bool) : Lexes ends [] (lineBreak ends ++ [.eof]) :=
  fun pos line => ⟨[], lexemesFrom_nil pos line, rfl⟩

theorem Lexes.blank (h : Lexes ends cs ks) (hc : c = ' ' ∨ c = '\t') : Lexes ends (c :: cs) ks := by
  intro pos line
  obtain ⟨xs, hxs, hkinds⟩ := h (pos + utf8Length [c]) (line + [c].count '\n')
  refine ⟨⟨.blank, [c], pos, line⟩ :: xs, lexemesFrom_cons c [] ?_ hxs, hkinds⟩
  rcases hc with rfl | rfl <;> rfl

theorem Lexes.newline (h : Lexes false cs ks) (ends : Bool) :
    Lexes ends ('\n' :: cs) (lineBreak ends ++ ks) := by
  intro pos line
  obtain ⟨xs, hxs, rfl⟩ := h (pos + utf8Length ['\n']) (line + ['\n'].count '\n')
  exact ⟨⟨.newline, ['\n'], pos, line⟩ :: xs, lexemesFrom_cons '\n' [] rfl hxs, rfl⟩

theorem Lexes.token {kind : TokenKind} (h : Lexes kind.endsStatement rest ks) (ends : Bool)
    (hone : ∀ pos, lexemeAt pos c (cs ++ rest) = .ok (.token kind, cs.length)) :
    Lexes ends (c :: cs ++ rest) (kind :: ks) := by
  intro pos line
  obtain ⟨xs, hxs, rfl⟩ := h (pos + utf8Length (c :: cs)) (line + (c :: cs).count '\n')
  exact ⟨⟨.token kind, c :: cs, pos, line⟩ :: xs, lexemesFrom_cons c cs (hone pos) hxs, rfl⟩

/-- A word is a token where what follows does not go on with it. -/
theorem Lexes.word {w : Word} (h : Lexes w.kind.endsStatement rest ks) (ends : Bool)
    (hstop : ∀ d ∈ rest.head?, stopsAt w.kind d = true) :
    Lexes ends (w.chars ++ rest) (w.kind :: ks) := by
  obtain ⟨c, cs, hchars, -⟩ := w.exists_chars
  rw [hchars]
  exact h.token ends fun pos => w.lexemeAt_chars hchars hstop pos

theorem Lexes.ident {name : String} (h : Lexes true rest ks) (ends : Bool)
    (hname : isIdentifier name = true) (hstop : ∀ d ∈ rest.head?, continuesIdent d = false) :
    Lexes ends (name.toList ++ rest) (.ident name :: ks) :=
  Lexes.word (w := ⟨.ident name, hname⟩) h ends fun d hd => by simp [stopsAt, hstop d hd]

theorem Lexes.literal {kind : LiteralKind} {spelling : String} (h : Lexes true rest ks)
    (ends : Bool) (hliteral : IsLiteral kind spelling)
    (hstop : ∀ d ∈ rest.head?, stopsAt (.literal kind spelling) d = true) :
    Lexes ends (spelling.toList ++ rest) (.literal kind spelling :: ks) :=
  Lexes.word (w := ⟨.literal kind spelling, hliteral⟩) h ends hstop

/-- A symbol that goes on with nothing. -/
theorem Lexes.mark {symbol : String} (h : Lexes (TokenKind.op symbol).endsStatement rest ks)
    (ends : Bool) (hsymbol : symbol ∈ symbols)
    (hstop : ∀ d ∈ rest.head?, stopsAt (.op symbol) d = true) :
    Lexes ends (symbol.toList ++ rest) (.op symbol :: ks) :=
  Lexes.word (w := ⟨.op symbol, hsymbol⟩) h ends hstop

/-- Whether only an operator starts with this character. -/
def startsOperator (c : Char) : Bool :=
  startsToken c && !startsIdent c && !c.isDigit && c ∉ ['"', '\x60', '\'', ';', '.']

theorem Lexes.operator {symbol : String} (h : Lexes (TokenKind.op symbol).endsStatement rest ks)
    (ends : Bool) (hsymbol : symbol.toList = c :: cs) (hc : startsOperator c = true)
    (hfound : operatorAt? (symbol.toList ++ rest) = some symbol) :
    Lexes ends (symbol.toList ++ rest) (.op symbol :: ks) := by
  rw [hsymbol, List.cons_append] at hfound
  simp only [startsOperator, Bool.and_eq_true, Bool.not_eq_true', List.mem_cons, List.not_mem_nil,
    or_false, decide_eq_true_eq, not_or] at hc
  obtain ⟨⟨⟨htoken, hident⟩, hdigit⟩, hquote, hraw, hrune, hsemi, hpoint⟩ := hc
  have hlength : symbol.length - 1 = cs.length := by
    rw [← String.length_toList, hsymbol]
    rfl
  rw [hsymbol]
  refine h.token ends fun pos => ?_
  rw [lexemeAt_eq htoken, tokenAt]
  simp [hident, hdigit, hquote, hraw, hrune, hsemi, hpoint, hfound, hlength, Except.map]

/-- Operators that are written with a blank after them. -/
def spacedOperators : List String := ["<", "<=", ">", ">=", "!=", "&&", ":=", ":"]

theorem operatorAt?_spaced {symbol : String} (h : symbol ∈ spacedOperators) (rest : List Char) :
    operatorAt? (symbol.toList ++ ' ' :: rest) = some symbol := by
  simp only [spacedOperators, List.mem_cons, List.not_mem_nil, or_false] at h
  rcases h with rfl | rfl | rfl | rfl | rfl | rfl | rfl | rfl <;> simp [operatorAt?, operators]

theorem Lexes.spaced {symbol : String} (h : Lexes false rest ks) (ends : Bool)
    (hsymbol : symbol ∈ spacedOperators) :
    Lexes ends (symbol.toList ++ ' ' :: rest) (.op symbol :: ks) := by
  have hstart : ∀ symbol ∈ spacedOperators, ∃ c cs, symbol.toList = c :: cs ∧
      startsOperator c = true ∧ (TokenKind.op symbol).endsStatement = false := by
    simp only [spacedOperators, List.forall_mem_cons]
    exact ⟨⟨_, _, rfl, by decide, by decide⟩, ⟨_, _, rfl, by decide, by decide⟩,
      ⟨_, _, rfl, by decide, by decide⟩, ⟨_, _, rfl, by decide, by decide⟩,
      ⟨_, _, rfl, by decide, by decide⟩, ⟨_, _, rfl, by decide, by decide⟩,
      ⟨_, _, rfl, by decide, by decide⟩, ⟨_, _, rfl, by decide, by decide⟩, List.forall_mem_nil _⟩
  obtain ⟨c, cs, hchars, hc, hends⟩ := hstart symbol hsymbol
  have hblank : Lexes (TokenKind.op symbol).endsStatement (' ' :: rest) ks :=
    hends ▸ h.blank (.inl rfl)
  exact hblank.operator ends hchars hc (operatorAt?_spaced hsymbol rest)

theorem Lexes.negation (h : Lexes false rest ks) (ends : Bool)
    (hstop : ∀ d ∈ rest.head?, d ≠ '=') : Lexes ends ('!' :: rest) (.op "!" :: ks) := by
  have hbang : Lexes (TokenKind.op "!").endsStatement rest ks := h
  refine hbang.operator ends rfl (by decide) ?_
  cases rest with
  | nil => decide
  | cons d ds => simp [operatorAt?, operators, (hstop d rfl).symm]

theorem Lexes.semicolon (h : Lexes false rest ks) (ends : Bool) :
    Lexes ends (';' :: rest) (.semi false :: ks) :=
  @Lexes.token ';' [] rest ks (.semi false) h ends fun pos => by
    rw [lexemeAt_eq (by decide)]
    rfl

/-- A line that is a comment. -/
theorem Lexes.comment (h : Lexes ends ('\n' :: rest) ks) (hline : '\n' ∉ cs) :
    Lexes ends ('/' :: '/' :: cs ++ '\n' :: rest) ks := by
  intro pos line
  obtain ⟨xs, hxs, hkinds⟩ :=
    h (pos + utf8Length ('/' :: '/' :: cs)) (line + ('/' :: '/' :: cs).count '\n')
  have hwhole : ∀ d ∈ '/' :: cs, (d != '\n') = true := by
    intro d hd
    rw [bne_iff_ne]
    rintro rfl
    simp [hline] at hd
  refine ⟨⟨.comment, '/' :: '/' :: cs, pos, line⟩ :: xs,
    lexemesFrom_cons '/' ('/' :: cs) ?_ hxs, ?_⟩
  · conv_rhs => rw [← takeWhile_append_stop ('\n' :: rest) hwhole (by simp)]
    rfl
  · have hcontains : ('/' :: '/' :: cs).contains '\n' = false := by simpa using hline
    rw [kindsFrom]
    simp only [hcontains]
    exact hkinds

end Lexes

/-- The kinds of the tokens of a whole text. -/
theorem Lexes.tokenize {text : String} {ks : List TokenKind} (h : Lexes false text.toList ks)
    (hmark : text.toList.head? ≠ some byteOrderMark) :
    ∃ stream, FieldRules.tokenize text = .ok stream ∧ stream.tokens.map Token.kind = ks := by
  obtain ⟨xs, hxs, rfl⟩ := h 0 1
  have hlexemes : lexemes text.toList = .ok xs := by
    generalize text.toList = cs at *
    cases cs with
    | nil =>
        rw [lexemesFrom_nil] at hxs
        exact hxs
    | cons c cs => rwa [lexemes, if_neg (fun hc => hmark (congrArg some hc))]
  refine ⟨layout .initial xs, ?_, kinds_layout .initial xs⟩
  rw [FieldRules.tokenize, hlexemes]
  rfl

end FieldRules
