/-
Spellings: the words of a Go file.  A word that stands in a text is read as one token,
if the character after it does not belong to it.
-/
import FieldRules.Proofs.Text.Cutting
import FieldRules.Source.Lexeme

namespace FieldRules

/-- Whether a text is an identifier, as the lexer reads them. -/
def isIdentifier (name : String) : Bool :=
  match name.toList with
  | [] => false
  | c :: cs => startsIdent c && cs.all continuesIdent

theorem continuesIdent_of_startsIdent {c : Char} (h : startsIdent c = true) :
    continuesIdent c = true := by
  simp only [startsIdent, continuesIdent, isAlphanumeric, Bool.or_eq_true] at h ⊢
  rcases h with h | h
  · exact Or.inl (Or.inl h)
  · exact Or.inr h

theorem exists_of_isIdentifier {name : String} (h : isIdentifier name = true) :
    ∃ c cs, name.toList = c :: cs ∧ startsIdent c = true ∧ ∀ d ∈ cs, continuesIdent d = true := by
  unfold isIdentifier at h
  split at h
  · cases h
  · rename_i c cs heq
    rw [Bool.and_eq_true, List.all_eq_true] at h
    exact ⟨c, cs, heq, h.1, h.2⟩

theorem continuesIdent_of_mem {name : String} (h : isIdentifier name = true) {c : Char}
    (hc : c ∈ name.toList) : continuesIdent c = true := by
  obtain ⟨d, ds, heq, hstart, hrest⟩ := exists_of_isIdentifier h
  rw [heq, List.mem_cons] at hc
  rcases hc with rfl | hc
  · exact continuesIdent_of_startsIdent hstart
  · exact hrest c hc

/-- A longer identifier. -/
theorem isIdentifier_append {name more : String} (h : isIdentifier name = true)
    (hmore : ∀ d ∈ more.toList, continuesIdent d = true) : isIdentifier (name ++ more) = true := by
  obtain ⟨c, cs, hchars, hstart, hcs⟩ := exists_of_isIdentifier h
  rw [isIdentifier, String.toList_append, hchars, List.cons_append]
  simp only [Bool.and_eq_true, List.all_eq_true]
  exact ⟨hstart, List.forall_mem_append.mpr ⟨hcs, hmore⟩⟩

/-- The lexer reads the whole text as one literal. -/
def IsLiteral (kind : LiteralKind) (spelling : String) : Prop :=
  ∃ c cs, spelling.toList = c :: cs ∧ tokenAt 0 c cs = .ok (.literal kind spelling, cs.length)

/-- Operators and delimiters of declarations. -/
def symbols : List String := ["*", "[", "]", "(", ")", "\x7b", "\x7d", ",", ".", "=", "-"]

/-- The text of a token; a line end has none. -/
def TokenKind.spelling : TokenKind → String
  | ident name => name
  | literal _ spelling => spelling
  | op symbol => symbol
  | semi _ | eof => ""

/-- Tokens that declarations are written with. -/
def IsWord : TokenKind → Prop
  | .ident name => isIdentifier name = true
  | .literal kind spelling => IsLiteral kind spelling
  | .op symbol => symbol ∈ symbols
  | .semi _ | .eof => False

structure Word where
  kind : TokenKind
  isWord : IsWord kind

/-- Whether a character belongs to a number when it stands after one. -/
def continuesNumber (c : Char) : Bool :=
  c.isAlphanum || c = '_' || c = '.' || c = '+' || c = '-'

/-- Whether a token ends where a character follows. -/
def stopsAt (k : TokenKind) (c : Char) : Bool :=
  match k with
  | .ident _ => !continuesIdent c
  | .literal .str _ | .literal .char _ => true
  | .literal _ _ => !continuesNumber c
  | .op symbol =>
      if symbol = "*" || symbol = "=" then c != '='
      else if symbol = "-" then c != '-' && c != '='
      else if symbol = "." then c != '.' && !c.isDigit
      else true
  | .semi _ | .eof => true

/-- White space ends every token. -/
theorem stopsAt_blank (k : TokenKind) {c : Char} (h : c = ' ' ∨ c = '\n') :
    stopsAt k c = true := by
  have hident : continuesIdent c = false := by rcases h with rfl | rfl <;> decide
  have hnumber : continuesNumber c = false := by rcases h with rfl | rfl <;> decide
  cases k with
  | ident name => simp [stopsAt, hident]
  | literal kind spelling => cases kind <;> simp [stopsAt, hnumber]
  | op symbol => rcases h with rfl | rfl <;> simp [stopsAt]
  | semi _ => rfl
  | eof => rfl

/-! Literals with something after them. -/

theorem quotedLength?_append {quote : Char} {cs : List Char} {n : Nat}
    (h : quotedLength? quote cs = some n) (rest : List Char) :
    quotedLength? quote (cs ++ rest) = some n := by
  induction cs using quotedLength?.induct quote generalizing n with
  | case1 => cases h
  | case2 ds => simp [quotedLength?.eq_def] at h
  | case3 hne => simp [quotedLength?.eq_def] at h
  | case4 ds hne => simp [quotedLength?.eq_def] at h
  | case5 d ds hline hne ih =>
      rw [quotedLength?.eq_def] at h
      simp only [hne, if_false, if_true, hline] at h
      obtain ⟨k, hk, rfl⟩ := Option.map_eq_some_iff.mp h
      rw [quotedLength?.eq_def]
      simp only [List.cons_append, hne, if_false, if_true, hline, ih hk]
      rfl
  | case6 ds hline hslash =>
      rw [quotedLength?.eq_def] at h ⊢
      simpa [hline, hslash] using h
  | case7 d ds hline hslash hquote ih =>
      rw [quotedLength?.eq_def] at h
      simp only [hline, hslash, hquote, if_false] at h
      obtain ⟨k, hk, rfl⟩ := Option.map_eq_some_iff.mp h
      rw [quotedLength?.eq_def]
      simp only [List.cons_append, hline, hslash, hquote, if_false, ih hk]
      rfl

theorem rawLength?_append {cs : List Char} {n : Nat} (h : rawLength? cs = some n)
    (rest : List Char) : rawLength? (cs ++ rest) = some n := by
  induction cs generalizing n with
  | nil => cases h
  | cons c cs ih =>
      rw [rawLength?] at h
      rw [List.cons_append, rawLength?]
      by_cases hc : c = '\x60'
      · rwa [if_pos hc] at h ⊢
      · rw [if_neg hc] at h ⊢
        obtain ⟨k, hk, rfl⟩ := Option.map_eq_some_iff.mp h
        rw [ih hk]
        rfl

theorem numberExtent_stop {hex signed : Bool} {rest : List Char}
    (hrest : ∀ d ∈ rest.head?, continuesNumber d = false) :
    numberExtent hex signed rest = (0, false) := by
  cases rest with
  | nil => rfl
  | cons d ds =>
      have hd := hrest d rfl
      simp only [continuesNumber, Bool.or_eq_false_iff, decide_eq_false_iff_not] at hd
      obtain ⟨⟨⟨⟨halnum, hline⟩, hpoint⟩, hplus⟩, hminus⟩ := hd
      have hletter : ∀ e : Char, e.isAlphanum = true → d ≠ e := by
        rintro e he rfl
        rw [he] at halnum
        cases halnum
      have hexponent : startsExponent hex d = false := by
        simp [startsExponent, hletter 'p' rfl, hletter 'P' rfl, hletter 'e' rfl, hletter 'E' rfl]
      simp [numberExtent, hexponent, halnum, hline, hpoint, hplus, hminus]

/-- A number ends before a character that does not belong to it. -/
theorem numberExtent_append {hex signed : Bool} {cs rest : List Char}
    (h : (numberExtent hex signed cs).1 = cs.length)
    (hrest : ∀ d ∈ rest.head?, continuesNumber d = false) :
    numberExtent hex signed (cs ++ rest) = numberExtent hex signed cs := by
  induction cs generalizing signed with
  | nil => exact numberExtent_stop hrest
  | cons d ds ih =>
      rw [numberExtent] at h
      rw [List.cons_append, numberExtent, numberExtent]
      by_cases hsign : (signed && (d = '+' || d = '-')) = true
      · rw [if_pos hsign] at h
        rw [if_pos hsign, if_pos hsign, ih (Nat.succ.inj h)]
      · rw [if_neg hsign] at h
        rw [if_neg hsign, if_neg hsign]
        by_cases hexponent : startsExponent hex d = true
        · rw [if_pos hexponent] at h
          rw [if_pos hexponent, if_pos hexponent, ih (Nat.succ.inj h)]
        · rw [if_neg hexponent] at h
          rw [if_neg hexponent, if_neg hexponent]
          by_cases hpoint : d = '.'
          · rw [if_pos hpoint] at h
            rw [if_pos hpoint, if_pos hpoint, ih (Nat.succ.inj h)]
          · rw [if_neg hpoint] at h
            rw [if_neg hpoint, if_neg hpoint]
            by_cases halnum : (d.isAlphanum || d = '_') = true
            · rw [if_pos halnum] at h
              rw [if_pos halnum, if_pos halnum, ih (Nat.succ.inj h)]
            · rw [if_neg halnum] at h
              cases h

/-- A number has its first digit or point. -/
theorem numberExtent_pos (hex : Bool) {c : Char} (cs : List Char)
    (h : c.isDigit = true ∨ c = '.') : 0 < (numberExtent hex false (c :: cs)).1 := by
  rw [numberExtent, Bool.false_and, if_neg Bool.false_ne_true]
  by_cases hexponent : startsExponent hex c = true
  · rw [if_pos hexponent]
    exact Nat.succ_pos _
  · rw [if_neg hexponent]
    by_cases hpoint : c = '.'
    · rw [if_pos hpoint]
      exact Nat.succ_pos _
    · have hdigit : (c.isAlphanum || c = '_') = true := by
        rcases h with h | h
        · simp [Char.isAlphanum, h]
        · exact absurd h hpoint
      rw [if_neg hpoint, if_pos hdigit]
      exact Nat.succ_pos _

/-! Words in a text. -/

/-- Whether a character starts neither white space nor a comment. -/
def startsToken (c : Char) : Bool :=
  c != ' ' && c != '\t' && c != '\r' && c != '\n' && c != '/'

theorem lexemeAt_eq {c : Char} (h : startsToken c = true) (pos : Nat) (cs : List Char) :
    lexemeAt pos c cs = (tokenAt pos c cs).map fun (kind, more) => (.token kind, more) := by
  simp only [startsToken, Bool.and_eq_true, bne_iff_ne, ne_eq] at h
  obtain ⟨⟨⟨⟨hblank, htab⟩, hreturn⟩, hline⟩, hslash⟩ := h
  simp [lexemeAt, hblank, htab, hreturn, hline, hslash]

theorem startsToken_of_startsIdent {c : Char} (h : startsIdent c = true) :
    startsToken c = true := by
  have hne : ∀ d, startsIdent d = false → c ≠ d := by
    rintro d hd rfl
    rw [h] at hd
    cases hd
  simp only [startsToken, Bool.and_eq_true, bne_iff_ne]
  exact ⟨⟨⟨⟨hne _ (by decide), hne _ (by decide)⟩, hne _ (by decide)⟩, hne _ (by decide)⟩,
    hne _ (by decide)⟩

theorem tokenAt_ident {name : String} {c : Char} {cs rest : List Char} (pos : Nat)
    (h : isIdentifier name = true) (hname : name.toList = c :: cs)
    (hrest : ∀ d ∈ rest.head?, continuesIdent d = false) :
    tokenAt pos c (cs ++ rest) = .ok (.ident name, cs.length) := by
  obtain ⟨d, ds, heq, hstart, hmore⟩ := exists_of_isIdentifier h
  rw [hname, List.cons.injEq] at heq
  obtain ⟨rfl, rfl⟩ := heq
  rw [tokenAt, if_pos hstart, takeWhile_append_stop rest hmore hrest]
  simp only [List.take_left, ← hname, String.ofList_toList]

/-- No longer operator starts where a symbol stops. -/
theorem operatorAt?_symbol {symbol : String} {rest : List Char} (h : symbol ∈ symbols)
    (hrest : ∀ d ∈ rest.head?, stopsAt (.op symbol) d = true) :
    operatorAt? (symbol.toList ++ rest) = some symbol := by
  cases rest with
  | nil =>
      clear hrest
      revert symbol
      decide
  | cons d ds =>
      have hne : ∀ e, stopsAt (.op symbol) e = false → e ≠ d := by
        rintro e he rfl
        rw [hrest e rfl] at he
        cases he
      simp only [symbols, List.mem_cons, List.not_mem_nil, or_false] at h
      rcases h with rfl | rfl | rfl | rfl | rfl | rfl | rfl | rfl | rfl | rfl | rfl
      · simp [operatorAt?, operators, hne '=' rfl]
      iterate 7 simp [operatorAt?, operators]
      · simp [operatorAt?, operators, hne '.' rfl]
      · simp [operatorAt?, operators, hne '=' rfl]
      · simp [operatorAt?, operators, hne '=' rfl, hne '-' rfl]

/-- A symbol starts nothing else. -/
theorem startsSymbol {symbol : String} {c : Char} {cs : List Char} (h : symbol ∈ symbols)
    (hsymbol : symbol.toList = c :: cs) :
    cs = [] ∧ startsToken c = true ∧ startsIdent c = false ∧ c.isDigit = false ∧ c ≠ '"' ∧
      c ≠ '\x60' ∧ c ≠ '\'' ∧ c ≠ ';' := by
  simp only [symbols, List.mem_cons, List.not_mem_nil, or_false] at h
  rcases h with rfl | rfl | rfl | rfl | rfl | rfl | rfl | rfl | rfl | rfl | rfl <;>
    (cases hsymbol; decide)

theorem tokenAt_symbol {symbol : String} {c : Char} {cs rest : List Char} (pos : Nat)
    (h : symbol ∈ symbols) (hsymbol : symbol.toList = c :: cs)
    (hrest : ∀ d ∈ rest.head?, stopsAt (.op symbol) d = true) :
    tokenAt pos c (cs ++ rest) = .ok (.op symbol, cs.length) := by
  obtain ⟨rfl, -, hident, hdigit, hquote, hraw, hrune, hsemi⟩ := startsSymbol h hsymbol
  have hnumber : (c.isDigit || (c = '.' && (([] ++ rest).head?.any Char.isDigit))) = false := by
    rw [hdigit, Bool.false_or, Bool.and_eq_false_imp]
    intro hpoint
    -- a digit would make a number of the point
    have hname : symbol = "." := by
      rw [← String.ofList_toList (s := symbol), hsymbol, of_decide_eq_true hpoint]
    rw [List.nil_append]
    cases rest with
    | nil => rfl
    | cons d ds =>
        have hd := hrest d rfl
        rw [hname] at hd
        simp [stopsAt] at hd
        simpa using hd.2
  have hfound := operatorAt?_symbol h hrest
  have hlength : symbol.length - 1 = 0 := by
    rw [← String.length_toList, hsymbol]
    rfl
  rw [hsymbol] at hfound
  rw [tokenAt, hident, hnumber, if_neg Bool.false_ne_true, if_neg Bool.false_ne_true, if_neg hquote,
    if_neg hraw, if_neg hrune, if_neg hsemi]
  simp only [List.nil_append, List.cons_append] at hfound ⊢
  simp only [hfound, hlength, List.length_nil]

theorem stopsAt_number {cs : List Char} {float : Bool} {spelling : String} {d : Char}
    (h : stopsAt (.literal (numberKind cs float) spelling) d = true) :
    continuesNumber d = false := by
  unfold numberKind at h
  split at h
  · simpa [stopsAt] using h
  · split at h <;> simpa [stopsAt] using h

/-- A number is read as one also with something after it. -/
theorem tokenAt_number {kind : LiteralKind} {spelling : String} {c : Char} {cs rest : List Char}
    (pos : Nat) (hident : startsIdent c = false)
    (hnumber : (c.isDigit || (c = '.' && (cs.head?.any Char.isDigit))) = true)
    (h : tokenAt 0 c cs = .ok (.literal kind spelling, cs.length))
    (hrest : ∀ d ∈ rest.head?, stopsAt (.literal kind spelling) d = true) :
    tokenAt pos c (cs ++ rest) = .ok (.literal kind spelling, cs.length) := by
  have hident' : ¬ startsIdent c = true := by simp [hident]
  have hnumber' : (c.isDigit || (c = '.' && ((cs ++ rest).head?.any Char.isDigit))) = true := by
    cases cs with
    | nil => simpa using Or.inl hnumber
    | cons d ds => exact hnumber
  have hfirst : c.isDigit = true ∨ c = '.' := by
    simp only [Bool.or_eq_true, Bool.and_eq_true, decide_eq_true_eq] at hnumber
    exact hnumber.imp_right And.left
  rw [tokenAt, if_neg hident', if_pos hnumber] at h
  simp only [Except.ok.injEq, Prod.mk.injEq, TokenKind.literal.injEq] at h
  obtain ⟨⟨hkind, hspelling⟩, hlength⟩ := h
  have hstop : ∀ d ∈ rest.head?, continuesNumber d = false := fun d hd =>
    stopsAt_number (hkind ▸ hrest d hd)
  have hhex : ((cs ++ rest).head? == some 'x' || (cs ++ rest).head? == some 'X') =
      (cs.head? == some 'x' || cs.head? == some 'X') := by
    cases cs with
    | cons d ds => rfl
    | nil =>
        cases rest with
        | nil => rfl
        | cons d ds =>
            have hne : ∀ e, continuesNumber e = true → d ≠ e := by
              rintro e he rfl
              rw [hstop d rfl] at he
              cases he
            simp [hne 'x' (by decide), hne 'X' (by decide)]
  rw [tokenAt, if_neg hident', if_pos hnumber', hhex]
  generalize (c = '0' && (cs.head? == some 'x' || cs.head? == some 'X')) = hex at *
  have hpos := numberExtent_pos hex cs hfirst
  have hwhole : (numberExtent hex false (c :: cs)).1 = (c :: cs).length := by
    rw [List.length_cons]
    omega
  have hsame := numberExtent_append hwhole hstop
  rw [List.cons_append] at hsame
  rw [hlength, List.take_length] at hkind hspelling
  simp only [hsame, hlength, List.take_left, hkind, hspelling]

/-- So is a text in quotes. -/
theorem tokenAt_quoted {kind k : LiteralKind} {spelling : String} {c : Char} {cs : List Char}
    {length? : List Char → Option Nat} (error : Nat → SourceError)
    (hform : ∀ pos ds, tokenAt pos c ds =
      match length? ds with
      | some more => .ok (.literal k (String.ofList (c :: ds.take more)), more)
      | none => .error (error pos))
    (happend : ∀ {ds n}, length? ds = some n → ∀ rest, length? (ds ++ rest) = some n)
    (h : tokenAt 0 c cs = .ok (.literal kind spelling, cs.length)) (pos : Nat) (rest : List Char) :
    tokenAt pos c (cs ++ rest) = .ok (.literal kind spelling, cs.length) := by
  rw [hform] at h ⊢
  cases hlength : length? cs with
  | none =>
      rw [hlength] at h
      cases h
  | some more =>
      rw [hlength] at h
      simp only [Except.ok.injEq, Prod.mk.injEq, TokenKind.literal.injEq] at h
      obtain ⟨⟨rfl, hspelling⟩, rfl⟩ := h
      rw [List.take_length] at hspelling
      simp only [happend hlength rest, List.take_left, hspelling]

/-- How a literal starts. -/
theorem startsLiteral {pos n : Nat} {kind : LiteralKind} {spelling : String} {c : Char}
    {cs : List Char} (h : tokenAt pos c cs = .ok (.literal kind spelling, n)) :
    startsIdent c = false ∧
      ((c.isDigit || (c = '.' && (cs.head?.any Char.isDigit))) = true ∨
        c = '"' ∨ c = '\x60' ∨ c = '\'') := by
  by_cases hident : startsIdent c = true
  · rw [tokenAt, if_pos hident] at h
    cases h
  refine ⟨by simpa using hident, ?_⟩
  by_contra hnone
  rw [not_or, not_or, not_or] at hnone
  obtain ⟨hnumber, hquote, hraw, hrune⟩ := hnone
  rw [tokenAt, if_neg hident, if_neg hnumber, if_neg hquote, if_neg hraw, if_neg hrune] at h
  split at h
  · cases h
  · split at h <;> cases h

/-- A literal is read as one also with something after it. -/
theorem tokenAt_literal {kind : LiteralKind} {spelling : String} {c : Char} {cs rest : List Char}
    (pos : Nat) (h : tokenAt 0 c cs = .ok (.literal kind spelling, cs.length))
    (hrest : ∀ d ∈ rest.head?, stopsAt (.literal kind spelling) d = true) :
    tokenAt pos c (cs ++ rest) = .ok (.literal kind spelling, cs.length) := by
  obtain ⟨hident, hnumber | rfl | rfl | rfl⟩ := startsLiteral h
  · exact tokenAt_number pos hident hnumber h hrest
  · exact tokenAt_quoted (fun pos => .unterminated .interpreted ⟨pos, pos + 1⟩) (fun pos ds => rfl)
      quotedLength?_append h pos rest
  · exact tokenAt_quoted (fun pos => .unterminated .raw ⟨pos, pos + 1⟩) (fun pos ds => rfl)
      rawLength?_append h pos rest
  · exact tokenAt_quoted (fun pos => .unterminated .rune ⟨pos, pos + 1⟩) (fun pos ds => rfl)
      quotedLength?_append h pos rest

namespace Word

def chars (w : Word) : List Char := w.kind.spelling.toList

/-- Reading a word gives its token, whatever follows it. -/
theorem tokenAt_chars (w : Word) {c : Char} {cs rest : List Char} (h : w.chars = c :: cs)
    (hrest : ∀ d ∈ rest.head?, stopsAt w.kind d = true) (pos : Nat) :
    tokenAt pos c (cs ++ rest) = .ok (w.kind, cs.length) := by
  obtain ⟨kind, hword⟩ := w
  cases kind with
  | ident name =>
      apply tokenAt_ident pos hword h
      intro d hd
      simpa [stopsAt] using hrest d hd
  | literal kind spelling =>
      obtain ⟨d, ds, hspelling, hread⟩ := hword
      obtain ⟨rfl, rfl⟩ := List.cons.inj (hspelling.symm.trans h)
      exact tokenAt_literal pos hread hrest
  | op symbol => exact tokenAt_symbol pos hword h hrest
  | semi _ => exact hword.elim
  | eof => exact hword.elim

theorem exists_chars (w : Word) : ∃ c cs, w.chars = c :: cs ∧ startsToken c = true := by
  obtain ⟨kind, hword⟩ := w
  cases kind with
  | ident name =>
      obtain ⟨c, cs, heq, hstart, -⟩ := exists_of_isIdentifier hword
      exact ⟨c, cs, heq, startsToken_of_startsIdent hstart⟩
  | literal kind spelling =>
      obtain ⟨c, cs, heq, hread⟩ := hword
      refine ⟨c, cs, heq, ?_⟩
      by_contra hc
      have hother : c = ' ' ∨ c = '\t' ∨ c = '\r' ∨ c = '\n' ∨ c = '/' := by
        simpa [startsToken, or_assoc, imp_iff_not_or] using hc
      obtain ⟨-, hstart⟩ := startsLiteral hread
      rcases hother with rfl | rfl | rfl | rfl | rfl <;> simp at hstart
  | op symbol =>
      have hne : ∀ symbol ∈ symbols, symbol.toList ≠ [] := by decide
      obtain ⟨c, cs, heq⟩ := List.exists_cons_of_ne_nil (hne symbol hword)
      exact ⟨c, cs, heq, (startsSymbol hword heq).2.1⟩
  | semi _ => exact hword.elim
  | eof => exact hword.elim

theorem lexemeAt_chars (w : Word) {c : Char} {cs rest : List Char} (h : w.chars = c :: cs)
    (hrest : ∀ d ∈ rest.head?, stopsAt w.kind d = true) (pos : Nat) :
    lexemeAt pos c (cs ++ rest) = .ok (.token w.kind, cs.length) := by
  obtain ⟨d, ds, hchars, hstart⟩ := w.exists_chars
  obtain ⟨rfl, rfl⟩ := List.cons.inj (h.symm.trans hchars)
  rw [lexemeAt_eq hstart, w.tokenAt_chars h hrest pos]
  rfl

end Word

end FieldRules
