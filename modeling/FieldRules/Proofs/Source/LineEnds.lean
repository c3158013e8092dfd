/-
Semicolons for line ends.  Between two tokens that follow each other there is one exactly if a
line ends between them and the first of them finishes a statement.
-/
import FieldRules.Proofs.Source.Between

namespace FieldRules

/-- A statement may end with this token. -/
inductive TokenKind.Finishes : TokenKind → Prop
  | ident (name : String) : Finishes (.ident name)
  | literal (kind : LiteralKind) (spelling : String) : Finishes (.literal kind spelling)
  | closing {symbol : String} (h : symbol ∈ [")", "]", "\x7d"]) : Finishes (.op symbol)
  | counting {symbol : String} (h : symbol ∈ ["++", "--"]) : Finishes (.op symbol)

theorem TokenKind.endsStatement_iff {k : TokenKind} : k.endsStatement = true ↔ k.Finishes := by
  constructor
  · intro h
    cases k with
    | ident name => exact .ident name
    | literal kind spelling => exact .literal kind spelling
    | op symbol =>
        have hmem : symbol ∈ [")", "]", "\x7d"] ∨ symbol ∈ ["++", "--"] := by
          simpa [endsStatement, or_assoc] using h
        exact hmem.elim .closing .counting
    | semi _ => cases h
    | eof => cases h
  · intro h
    cases h with
    | ident => rfl
    | literal => rfl
    | closing h => simp only [endsStatement, List.mem_cons, List.not_mem_nil] at h ⊢; grind
    | counting h => simp only [endsStatement, List.mem_cons, List.not_mem_nil] at h ⊢; grind

/-- The second token ends the file, or stands on a later line than the first ends. -/
def LineEndsBetween (cs : List Char) (t u : Token) : Prop :=
  u.kind = .eof ∨ '\n' ∈ slice cs t.span.stop u.span.start

/-- Tokens `t` and `u` follow each other, with nothing but `semis` between them, semicolons for line
ends. -/
structure Adjacent (tokens : List Token) (t : Token) (semis : List Token) (u : Token) : Prop where
  parts : ∃ front back, tokens = front ++ t :: (semis ++ u :: back)
  first : t.kind ≠ .semi true
  between : ∀ v ∈ semis, v.kind = .semi true
  second : u.kind ≠ .semi true

/-- Semicolons stand for line ends exactly where a line end finishes a statement: one between two
tokens that follow each other, and none elsewhere. -/
structure TokenStream.EndsStatements (s : TokenStream) (cs : List Char) : Prop where
  first : ∀ t ∈ s.tokens.head?, t.kind ≠ .semi true
  due : ∀ t semis u, Adjacent s.tokens t semis u → t.kind.Finishes → LineEndsBetween cs t u →
    semis.length = 1
  others : ∀ t semis u, Adjacent s.tokens t semis u →
    ¬ (t.kind.Finishes ∧ LineEndsBetween cs t u) → semis = []

/-- A list is cut in one way before the last token that is no semicolon for a line end. -/
theorem eq_of_append_implicit {front front' semis semis' : List Token} {t t' : Token}
    (h : front ++ t :: semis = front' ++ t' :: semis') (ht : t.kind ≠ .semi true)
    (ht' : t'.kind ≠ .semi true) (hsemis : ∀ v ∈ semis, v.kind = .semi true)
    (hsemis' : ∀ v ∈ semis', v.kind = .semi true) : t = t' ∧ semis = semis' := by
  rcases List.append_eq_append_iff.mp h with ⟨more, -, hmore⟩ | ⟨more, -, hmore⟩
  · cases more with
    | nil => exact List.cons.inj hmore
    | cons v more =>
        obtain ⟨-, rfl⟩ := List.cons.inj hmore
        exact absurd (hsemis t' (by simp)) ht'
  · cases more with
    | nil =>
        obtain ⟨rfl, rfl⟩ := List.cons.inj hmore
        exact ⟨rfl, rfl⟩
    | cons v more =>
        obtain ⟨-, rfl⟩ := List.cons.inj hmore
        exact absurd (hsemis' t (by simp)) ht

/-- How many semicolons stand between two tokens that follow each other. -/
theorem Adjacent.length_semis {cs : List Char} {xs : List Lexeme} (h : lexemes cs = .ok xs)
    {semis : List Token} {t u : Token} (hadjacent : Adjacent (layout .initial xs).tokens t semis u)
    [Decidable (t.kind.Finishes ∧ LineEndsBetween cs t u)] :
    semis.length = if t.kind.Finishes ∧ LineEndsBetween cs t u then 1 else 0 := by
  obtain ⟨hstand, hflatten⟩ := standAfter_lexemes h
  obtain ⟨⟨front, back, htokens⟩, ht, hsemis, hu⟩ := hadjacent
  have hsplit : (layout .initial xs).tokens = (front ++ t :: semis) ++ u :: back := by
    rw [htokens, List.append_assoc, List.cons_append]
  obtain ⟨read, filling, rest, previous, semis', hgap⟩ := exists_gap h hsplit hu
  have hfront := hgap.front
  have hslice := hgap.slice_eq hstand
  cases previous with
  | none =>
      -- before the first token there is no other, and so not `t`
      rw [hgap.upTo.tokensOf_none, List.nil_append] at hfront
      exact absurd (hgap.implicit t (by simp [← hfront])) ht
  | some p =>
      obtain ⟨front', htokensOf⟩ := hgap.upTo.exists_tokensOf
      have hp := hgap.upTo.kind_ne (hgap.standAfter_read hstand)
      rw [htokensOf, List.append_assoc, List.singleton_append] at hfront
      obtain ⟨rfl, rfl⟩ := eq_of_append_implicit hfront ht hp hsemis hgap.implicit
      have hcs : charsOf xs = cs := hflatten
      rw [hgap.length_semis]
      simp only [LineEndsBetween, ← TokenKind.endsStatement_iff, Option.any_some, ← hslice, hcs,
        Option.elim_some]

/-- Where no statement is open, no semicolon comes first. -/
theorem kind_head_layout {before : List Char} {xs : List Lexeme} {s : LayoutState}
    (hstand : StandAfter before xs) (hbreaks : ∀ x ∈ xs, x.Breaks) (hends : s.ends = false) :
    ∀ t ∈ (layout s xs).tokens.head?, t.kind ≠ .semi true := by
  induction xs generalizing before s with
  | nil => simp [layout, LayoutState.semi, hends]
  | cons x xs ih =>
      obtain ⟨-, -, hfits, hrest⟩ := hstand
      obtain ⟨hx, hmore⟩ := List.forall_mem_cons.mp hbreaks
      rw [layout_cons]
      by_cases hfills : x.Fills
      · have hgiven : s.given x = [] := by
          simp [LayoutState.given_of_fills hfills hx, LayoutState.semi, hends]
        rw [hgiven]
        exact ih hrest hmore (by rw [LayoutState.ends_next hfills hx, hends, Bool.false_and])
      · obtain ⟨kind, hkind⟩ : ∃ kind, x.cls = .token kind := by
          simpa [Lexeme.Fills] using hfills
        rw [Lexeme.Fits, hkind] at hfits
        have hwritten : kind ≠ .semi true := by
          rintro rfl
          cases hfits.1
        simpa [LayoutState.given, hkind] using hwritten

/-- Semicolons stand for line ends exactly where a line end finishes a statement. -/
theorem endsStatements_of_tokenize {text : String} {stream : TokenStream}
    (h : tokenize text = .ok stream) : stream.EndsStatements text.toList := by
  classical
  obtain ⟨xs, hxs, rfl⟩ := exists_lexemes_of_tokenize h
  refine ⟨?_, ?_, ?_⟩
  · exact kind_head_layout (standAfter_lexemes hxs).1 (breaks_of_lexemes hxs) rfl
  · intro t semis u hadjacent hfinishes hline
    rw [hadjacent.length_semis hxs, if_pos ⟨hfinishes, hline⟩]
  · intro t semis u hadjacent hnot
    have hlength := hadjacent.length_semis hxs
    rw [if_neg hnot] at hlength
    exact List.eq_nil_of_length_eq_zero hlength

theorem endsStatements_of_tokenize_comments :
    ∃ stream, tokenize "x++ /* a\nb */ // c\n\n\x7b y\n\x7d" = .ok stream ∧
      stream.tokens.map Token.kind = [.ident "x", .op "++", .semi true, .op "\x7b", .ident "y",
        .semi true, .op "\x7d", .semi true, .eof] ∧
      stream.EndsStatements "x++ /* a\nb */ // c\n\n\x7b y\n\x7d".toList := by
  have h : (tokenize "x++ /* a\nb */ // c\n\n\x7b y\n\x7d").map (fun s => s.tokens.map Token.kind) =
      .ok [.ident "x", .op "++", .semi true, .op "\x7b", .ident "y", .semi true, .op "\x7d",
        .semi true, .eof] := by cbv
  obtain ⟨stream, hread, hkinds⟩ := map_eq_ok.mp h
  exact ⟨stream, hread, hkinds, endsStatements_of_tokenize hread⟩

end FieldRules
