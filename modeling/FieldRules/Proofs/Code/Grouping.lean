/-
The trees that printed expressions stand for.  The text of a tree is read as exactly one tree of
Go's grammar.  The printer puts parentheses under selectors and negations only, so this is the
tree that was printed exactly if every other part binds as strongly as its place asks.
-/
import FieldRules.Proofs.Code.ExprReader
import FieldRules.Proofs.Code.Parentheses
import FieldRules.Proofs.Code.Tokens
import FieldRules.Proofs.Source.Respelling

namespace FieldRules

/-! The text of a binary operator. -/

section Operators

variable {symbol : String}

theorem Lexes.binary {rest : List Char} {ks : List TokenKind} (h : Lexes false rest ks)
    (ends : Bool) (hsymbol : symbol ∈ binaryOperators) :
    Lexes ends (symbol.toList ++ ' ' :: rest) (.op symbol :: ks) := by
  have hall : ∀ symbol ∈ binaryOperators, symbol ∈ operators ∧ symbol.toList ≠ [] := by decide
  obtain ⟨hmem, hne⟩ := hall symbol hsymbol
  obtain ⟨c, cs, hchars⟩ := List.exists_cons_of_ne_nil hne
  obtain ⟨-, -, hends⟩ := BinaryOperator.plain_symbol ⟨symbol, hsymbol⟩
  have hblank : Lexes (TokenKind.op symbol).endsStatement (' ' :: rest) ks :=
    hends ▸ h.blank (.inl rfl)
  rw [hchars]
  refine hblank.token ends (lexemeAt_operator hmem hchars ?_)
  rintro _ ⟨⟩
  exact .inl rfl

/-- A binary operator with the blanks around it. -/
theorem Spelled.binary {ends : Char → Bool} {cs : List Char} {ks : List TokenKind}
    (h : Spelled ends cs ks) (hsymbol : symbol ∈ binaryOperators) :
    Spelled ends (' ' :: (symbol.toList ++ ' ' :: cs)) (.op symbol :: ks) where
  start := ⟨' ', _, rfl, by decide⟩
  lexes before rest more hrest hlexes := by
    rw [List.cons_append, List.append_assoc]
    exact ((h.lexes false rest more hrest hlexes).binary before hsymbol).blank (.inl rfl)

end Operators

namespace Expr

/-- Trees of names, selectors, operators, calls and indexing. -/
inductive Plain : Expr → Prop
  | ident {name : String} (word : isIdentifier name = true) : Plain (.ident name)
  | selector {b : Expr} {name : String} (base : b.Plain) (word : isIdentifier name = true) :
      Plain (.selector b name)
  | deref {e : Expr} (inner : e.Plain) : Plain (.deref e)
  | not {e : Expr} (inner : e.Plain) : Plain (.not e)
  | call {f : Expr} {args : List Expr} (function : f.Plain) (each : ∀ a ∈ args, a.Plain) :
      Plain (.call f args)
  | index {b k : Expr} (base : b.Plain) (key : k.Plain) : Plain (.index b k)
  | binary {l r : Expr} {op : String} (left : l.Plain) (symbol : op ∈ binaryOperators)
      (right : r.Plain) : Plain (.binary l op r)

/-- How strongly what stands outermost binds. -/
def strength : Expr → Nat
  | binary _ op _ => precedence op
  | deref _ | not _ => 6
  | _ => 7

/-- Where the printer adds no parentheses, none are needed: a function and what is indexed have
no operator outermost, a pointer to follow has no binary operator outermost, and the operands of
a binary operator bind more strongly than itself, or as strongly on its left. -/
inductive KeepsGrouping : Expr → Prop
  | ident (name : String) : KeepsGrouping (.ident name)
  | selector {b : Expr} (base : b.KeepsGrouping) (name : String) : KeepsGrouping (.selector b name)
  | deref {e : Expr} (inner : e.KeepsGrouping) (unary : 6 ≤ e.strength) : KeepsGrouping (.deref e)
  | not {e : Expr} (inner : e.KeepsGrouping) : KeepsGrouping (.not e)
  | call {f : Expr} {args : List Expr} (function : f.KeepsGrouping)
      (primary : f.hasOperator = false) (each : ∀ a ∈ args, a.KeepsGrouping) :
      KeepsGrouping (.call f args)
  | index {b k : Expr} (base : b.KeepsGrouping) (primary : b.hasOperator = false)
      (key : k.KeepsGrouping) : KeepsGrouping (.index b k)
  | binary {l r : Expr} {op : String} (left : l.KeepsGrouping) (right : r.KeepsGrouping)
      (onLeft : precedence op ≤ l.strength) (onRight : precedence op < r.strength) :
      KeepsGrouping (.binary l op r)

namespace Plain

variable {e : Expr}

theorem selectable (h : e.Plain) : e.Selectable := by
  intro d hd
  cases h with
  | ident | selector | call | index => exact .inr hd
  | deref | not | binary => exact .inl rfl

theorem printed (h : e.Plain) : e.Printed := by
  induction h with
  | ident word => exact .ident word
  | selector base word ih => exact ih.selector base.selectable word
  | deref inner ih => exact ih.deref
  | not inner ih => exact ih.not
  | call function each ih iheach => exact ih.call iheach
  | index base key ih ihkey => exact ih.index ihkey
  | @binary l r op left symbol right ihl ihr =>
      obtain ⟨hopens, hcloses, -⟩ := BinaryOperator.plain_symbol ⟨op, symbol⟩
      refine ⟨?_, ihl.balanced.append (ihr.balanced.cons hopens hcloses (by simp))⟩
      have hall := ihl.word.append (ihr.word.binary symbol) (by simp [endsWord])
      simpa [text, tokens, String.toList_append, ends] using hall

theorem strength_eq_seven_iff (h : e.Plain) : e.strength = 7 ↔ e.hasOperator = false := by
  cases h with
  | @binary l r op left symbol right =>
      have hle : precedence op ≤ 5 := BinaryOperator.precedence_le ⟨op, symbol⟩
      simp only [strength, hasOperator, Bool.true_eq_false, iff_false]
      omega
  | _ => simp [strength, hasOperator]

end Plain

/-! The tree that is written. -/

/-- The tree with the parentheses that the printer writes. -/
structure WrittenAs (e : Expr) (t : ParsedExpr) : Prop where
  expr : t.expr = e
  tokens : t.tokens = e.tokens
  strength : t.strength = e.strength
  grammatical : t.Grammatical ↔ e.KeepsGrouping

namespace WrittenAs

variable {e : Expr} {t : ParsedExpr}

/-- In parentheses, if it needs them, an expression is primary. -/
theorem enclosed (h : e.WrittenAs t) (he : e.Plain) :
    ∃ u : ParsedExpr, u.expr = e ∧ u.tokens = e.enclosedTokens e.tokens ∧ u.strength = 7 ∧
      (u.Grammatical ↔ e.KeepsGrouping) := by
  cases hoperator : e.hasOperator with
  | true =>
      refine ⟨.parens t, h.expr, ?_, rfl, ?_⟩
      · rw [ParsedExpr.tokens, h.tokens, enclosedTokens, if_pos hoperator]
      · rw [← h.grammatical]
        refine ⟨fun hparens => ?_, .parens⟩
        cases hparens with
        | parens hinside => exact hinside
  | false =>
      refine ⟨t, h.expr, ?_, ?_, h.grammatical⟩
      · rw [h.tokens, enclosedTokens, hoperator]
        rfl
      · rw [h.strength, he.strength_eq_seven_iff, hoperator]

theorem args {args : List Expr} (h : ∀ a ∈ args, ∃ t, a.WrittenAs t) :
    ∃ ts : List ParsedExpr, ts.map ParsedExpr.expr = args ∧
      ts.map ParsedExpr.tokens = args.map Expr.tokens ∧
        ((∀ t ∈ ts, t.Grammatical) ↔ ∀ a ∈ args, a.KeepsGrouping) := by
  induction args with
  | nil => exact ⟨[], rfl, rfl, by simp⟩
  | cons a args ih =>
      obtain ⟨⟨t, ht⟩, hmore⟩ := List.forall_mem_cons.mp h
      obtain ⟨ts, hexprs, htokens, hgrammatical⟩ := ih hmore
      refine ⟨t :: ts, ?_, ?_, ?_⟩
      · rw [List.map_cons, ht.expr, hexprs]
      · rw [List.map_cons, List.map_cons, ht.tokens, htokens]
      · rw [List.forall_mem_cons, List.forall_mem_cons, ht.grammatical, hgrammatical]

end WrittenAs

theorem Plain.exists_writtenAs {e : Expr} (h : e.Plain) : ∃ t, e.WrittenAs t := by
  induction h with
  | @ident name word => exact ⟨.name name, rfl, rfl, rfl, fun _ => .ident name, fun _ => .name name⟩
  | @selector b name base word ih =>
      obtain ⟨t, ht⟩ := ih
      obtain ⟨u, hexpr, htokens, hstrength, hgrammatical⟩ := ht.enclosed base
      refine ⟨.field u name, ?_, ?_, rfl, fun hread => ?_, fun hkeeps => ?_⟩
      · rw [ParsedExpr.expr, hexpr]
      · rw [ParsedExpr.tokens, htokens, tokens]
      · cases hread with
        | field hu => exact .selector (hgrammatical.mp hu) name
      · cases hkeeps with
        | selector hb => exact .field (hgrammatical.mpr hb) hstrength name
  | @deref e inner ih =>
      obtain ⟨t, ht⟩ := ih
      refine ⟨.prefixed .deref t, ?_, ?_, rfl, fun hread => ?_, fun hkeeps => ?_⟩
      · exact congrArg Expr.deref ht.expr
      · exact congrArg (.op "*" :: ·) ht.tokens
      · cases hread with
        | prefixed _ ht' hunary => exact .deref (ht.grammatical.mp ht') (ht.strength ▸ hunary)
      · cases hkeeps with
        | deref he hunary =>
            exact .prefixed .deref (ht.grammatical.mpr he) (ht.strength.symm ▸ hunary)
  | @not e inner ih =>
      obtain ⟨t, ht⟩ := ih
      obtain ⟨u, hexpr, htokens, hstrength, hgrammatical⟩ := ht.enclosed inner
      refine ⟨.prefixed .not u, ?_, ?_, rfl, fun hread => ?_, fun hkeeps => ?_⟩
      · exact congrArg Expr.not hexpr
      · exact congrArg (.op "!" :: ·) htokens
      · cases hread with
        | prefixed _ hu => exact .not (hgrammatical.mp hu)
      · cases hkeeps with
        | not he => exact .prefixed .not (hgrammatical.mpr he) (by omega)
  | @call f args function each ih iheach =>
      obtain ⟨t, ht⟩ := ih
      obtain ⟨ts, hexprs, htokens, hgrammatical⟩ := WrittenAs.args iheach
      have hprimary : t.strength = 7 ↔ f.hasOperator = false := by
        rw [ht.strength, function.strength_eq_seven_iff]
      refine ⟨.call t ts, ?_, ?_, rfl, fun hread => ?_, fun hkeeps => ?_⟩
      · rw [ParsedExpr.expr, ParsedExpr.exprs_eq_map, ht.expr, hexprs]
      · rw [ParsedExpr.tokens, ParsedExpr.tokensAll_eq_map, ht.tokens, htokens, tokens,
          tokensAll_eq_map]
      · cases hread with
        | call hf hseven hargs =>
            exact .call (ht.grammatical.mp hf) (hprimary.mp hseven) (hgrammatical.mp hargs)
      · cases hkeeps with
        | call hf hnone hargs =>
            exact .call (ht.grammatical.mpr hf) (hprimary.mpr hnone) (hgrammatical.mpr hargs)
  | @index b k base key ih ihkey =>
      obtain ⟨t, ht⟩ := ih
      obtain ⟨u, hu⟩ := ihkey
      have hprimary : t.strength = 7 ↔ b.hasOperator = false := by
        rw [ht.strength, base.strength_eq_seven_iff]
      refine ⟨.index t u, ?_, ?_, rfl, fun hread => ?_, fun hkeeps => ?_⟩
      · rw [ParsedExpr.expr, ht.expr, hu.expr]
      · rw [ParsedExpr.tokens, ht.tokens, hu.tokens, tokens]
      · cases hread with
        | index hb hseven hk =>
            exact .index (ht.grammatical.mp hb) (hprimary.mp hseven) (hu.grammatical.mp hk)
      · cases hkeeps with
        | index hb hnone hk =>
            exact .index (ht.grammatical.mpr hb) (hprimary.mpr hnone) (hu.grammatical.mpr hk)
  | @binary l r op left symbol right ihl ihr =>
      obtain ⟨t, ht⟩ := ihl
      obtain ⟨u, hu⟩ := ihr
      refine ⟨.binary t ⟨op, symbol⟩ u, ?_, ?_, rfl, fun hread => ?_, fun hkeeps => ?_⟩
      · rw [ParsedExpr.expr, ht.expr, hu.expr]
      · rw [ParsedExpr.tokens, ht.tokens, hu.tokens, tokens]
      · cases hread with
        | binary hl hr honLeft honRight =>
            exact .binary (ht.grammatical.mp hl) (hu.grammatical.mp hr) (ht.strength ▸ honLeft)
              (hu.strength ▸ honRight)
      · cases hkeeps with
        | binary hl hr honLeft honRight =>
            exact .binary (ht.grammatical.mpr hl) (hu.grammatical.mpr hr)
              (ht.strength.symm ▸ honLeft) (hu.strength.symm ▸ honRight)

end Expr

/-! Readings of a text. -/

/-- The text is written with the tokens of a tree of Go's grammar. -/
def ParsedExpr.IsReadingOf (t : ParsedExpr) (text : String) : Prop :=
  t.Grammatical ∧ t.tokens = wordsOf text

namespace Expr

variable {e e' : Expr}

/-- A text is read as one tree, which is the printed one exactly if the printed parentheses
suffice. -/
theorem Plain.exists_reading (h : e.Plain) :
    ∃ t : ParsedExpr, t.IsReadingOf e.text ∧ (∀ u : ParsedExpr, u.IsReadingOf e.text → u = t) ∧
      (t.expr = e ↔ e.KeepsGrouping) := by
  obtain ⟨written, hwritten⟩ := h.exists_writtenAs
  have hwords : wordsOf e.text = e.tokens := h.printed.word.wordsOf_eq
  obtain ⟨t, ht, htokens⟩ := written.exists_grammatical
  rw [hwritten.tokens] at htokens
  refine ⟨t, ⟨ht, htokens.trans hwords.symm⟩, ?_, ?_, ?_⟩
  · rintro u ⟨hu, hutokens⟩
    exact hu.eq_of_tokens ht (by rw [hutokens, hwords, htokens])
  · -- the tokens tell where the parentheses of the tree stand
    intro hexpr
    have hsame : t.tokens ++ [] = written.tokens ++ [] := by rw [htokens, hwritten.tokens]
    have heq := ParsedExpr.eq_of_tokens (hexpr.trans hwritten.expr.symm) hsame
    exact hwritten.grammatical.mp (heq ▸ ht)
  · intro hkeeps
    have heq := ht.eq_of_tokens (hwritten.grammatical.mpr hkeeps)
      (by rw [htokens, hwritten.tokens])
    rw [heq, hwritten.expr]

/-- A printed text is read as exactly one tree by Go's precedence and associativity.  That tree
is the printed one exactly if every part that is printed without parentheses binds as strongly
as its place asks, and different trees of that kind have different texts. -/
theorem Plain.text_reading (h : e.Plain) (h' : e'.Plain) :
    (∃ t : ParsedExpr, t.IsReadingOf e.text ∧ (∀ u : ParsedExpr, u.IsReadingOf e.text → u = t) ∧
      (t.expr = e ↔ e.KeepsGrouping)) ∧
    (e.KeepsGrouping → e'.KeepsGrouping → e ≠ e' → e.text ≠ e'.text) := by
  refine ⟨h.exists_reading, fun hkeeps hkeeps' hne htext => hne ?_⟩
  obtain ⟨t, ht, -, hexpr⟩ := h.exists_reading
  obtain ⟨t', -, hunique, hexpr'⟩ := h'.exists_reading
  calc e = t.expr := (hexpr.mpr hkeeps).symm
    _ = t'.expr := by rw [hunique t (htext ▸ ht)]
    _ = e' := hexpr'.mpr hkeeps'

/-- A method of what a pointer refers to, and a pointer to what the method returns. -/
theorem text_reading_method :
    (∃ t : ParsedExpr, t.IsReadingOf "(*r.Node).Next(a + b * c)" ∧
      t.expr = ((ident "r").selector "Node").deref.method "Next"
        [(ident "a").binary "+" ((ident "b").binary "*" (ident "c"))]) ∧
    (((ident "r").selector "Node").deref.method "Next"
        [(ident "a").binary "+" ((ident "b").binary "*" (ident "c"))]).text ≠
      (((ident "r").selector "Node").method "Next" []).deref.text := by
  have hnode : ((ident "r").selector "Node").Plain := .selector (.ident (by decide)) (by decide)
  have hsum : ((ident "a").binary "+" ((ident "b").binary "*" (ident "c"))).Plain :=
    .binary (.ident (by decide)) (by decide)
      (.binary (.ident (by decide)) (by decide) (.ident (by decide)))
  have hnext : (((ident "r").selector "Node").deref.method "Next"
      [(ident "a").binary "+" ((ident "b").binary "*" (ident "c"))]).Plain :=
    .call (.selector (.deref hnode) (by decide)) (List.forall_mem_singleton.mpr hsum)
  have hnext' : (((ident "r").selector "Node").method "Next" []).deref.Plain :=
    .deref (.call (.selector hnode (by decide)) (List.forall_mem_nil _))
  have hkeepsNode : ((ident "r").selector "Node").KeepsGrouping := .selector (.ident "r") "Node"
  have hkeepsSum : ((ident "a").binary "+" ((ident "b").binary "*" (ident "c"))).KeepsGrouping :=
    .binary (.ident "a") (.binary (.ident "b") (.ident "c") (by decide) (by decide)) (by decide)
      (by decide)
  have hkeeps : (((ident "r").selector "Node").deref.method "Next"
      [(ident "a").binary "+" ((ident "b").binary "*" (ident "c"))]).KeepsGrouping :=
    .call (.selector (.deref hkeepsNode (by decide)) "Next") rfl
      (List.forall_mem_singleton.mpr hkeepsSum)
  have hkeeps' : (((ident "r").selector "Node").method "Next" []).deref.KeepsGrouping :=
    .deref (.call (.selector hkeepsNode "Next") rfl (List.forall_mem_nil _)) (by decide)
  obtain ⟨⟨t, ht, -, hexpr⟩, hne⟩ := Plain.text_reading hnext hnext'
  exact ⟨⟨t, ht, hexpr.mpr hkeeps⟩, hne hkeeps hkeeps' (by simp [method])⟩

/-- A pointer that is called is printed as the call of a function that returns a pointer. -/
theorem text_call_deref : ¬ ∀ e e' : Expr, e.Plain → e'.Plain → e ≠ e' → e.text ≠ e'.text := by
  intro h
  have hname : (ident "f").Plain := .ident (by decide)
  exact h (call (deref (ident "f")) []) (deref (call (ident "f") []))
    (.call (.deref hname) (List.forall_mem_nil _)) (.deref (.call hname (List.forall_mem_nil _)))
    (by simp) (by decide)

end Expr

end FieldRules
