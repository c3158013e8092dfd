/-
Reading types in all their forms from tokens, whatever stands behind them: a type is read, or is
refused, as the types inside of it are.
-/
import FieldRules.Proofs.Source.ForkTypes
import FieldRules.Proofs.Source.StructLines

namespace FieldRules

/-! What follows a type. -/

/-- The end of a line, a tag, or a delimiter that closes what a type stands in. -/
def followsType : TokenKind → Bool
  | .semi _ => true
  | .literal kind _ => kind == .str
  | .op symbol => symbol ∈ [")", "]", "\x7d"]
  | _ => false

def AfterType (rest : List Token) : Prop := followsType (nextKind rest) = true

variable {src : SourceText} {rest ts us : List Token} {t : Token}

namespace AfterType

theorem ne_op (h : AfterType rest) {symbol : String}
    (hsymbol : followsType (.op symbol) = false) : nextKind rest ≠ .op symbol := by
  intro hkind
  rw [AfterType, hkind, hsymbol] at h
  cases h

theorem startsResult_eq (h : AfterType rest) : startsResult (nextKind rest) = false := by
  unfold AfterType at h
  cases hkind : nextKind rest with
  | op symbol =>
      rw [hkind, followsType, decide_eq_true_eq] at h
      simp only [List.mem_cons, List.not_mem_nil, or_false] at h
      rcases h with rfl | rfl | rfl <;> decide
  | ident name =>
      rw [hkind] at h
      cases h
  | _ => rfl

/-- No type starts there. -/
theorem parseType_error (h : AfterType rest) : ∃ e, parseType src rest = .error e := by
  cases rest with
  | nil => cases h
  | cons t r =>
      rw [parseType.eq_def]
      change followsType t.kind = true at h
      cases hkind : t.kind with
      | ident name =>
          rw [hkind] at h
          cases h
      | op symbol =>
          rw [hkind, followsType, decide_eq_true_eq] at h
          simp only [List.mem_cons, List.not_mem_nil, or_false] at h
          rcases h with rfl | rfl | rfl <;>
            exact ⟨unexpected "type" (t :: r), by simp only [hkind, String.reduceEq, if_false]⟩
      | _ => exact ⟨unexpected "type" (t :: r), by simp only [hkind]⟩

end AfterType

theorem afterType_closing {closing : Token} (h : closing.kind.closes = true)
    (rest : List Token) : AfterType (closing :: rest) := by
  unfold TokenKind.closes at h
  split at h
  · rename_i symbol hkind
    rw [AfterType, nextKind, hkind]
    exact h
  · cases h

/-! Outcomes. -/

/-- The tokens are read as a type whatever follows them. -/
def ReadsType (src : SourceText) (ts : List Token) (v : TypeExpr) (stop : Nat) : Prop :=
  ∀ rest, AfterType rest → ∃ lt, parseType src (ts ++ rest) = .ok ⟨v, rest, stop, lt⟩

/-- Clean tokens are read as a type, and others are refused, whatever follows them. -/
def TypeOutcome (src : SourceText) : (clean : Bool) → List Token → Prop
  | true, ts => ∃ v stop, ReadsType src ts v stop
  | false, ts => ∀ rest, AfterType rest → ∃ e, parseType src (ts ++ rest) = .error e

/-- More tokens are read as a type when the inner ones are, and refused when those are. -/
structure Wraps (src : SourceText) (make : TypeExpr → Nat → TypeExpr) (ts us : List Token) :
    Prop where
  ok : ∀ v rest stop lt, parseType src ts = .ok ⟨v, rest, stop, lt⟩ →
    ∃ lt', parseType src us = .ok ⟨make v stop, rest, stop, lt'⟩
  error : ∀ e, parseType src ts = .error e → parseType src us = .error e

theorem TypeOutcome.wrap {clean : Bool} {make : TypeExpr → Nat → TypeExpr}
    (h : TypeOutcome src clean ts)
    (hwraps : ∀ rest, AfterType rest → Wraps src make (ts ++ rest) (us ++ rest)) :
    TypeOutcome src clean us := by
  cases clean with
  | true =>
      obtain ⟨v, stop, hreads⟩ := h
      refine ⟨make v stop, stop, fun rest hrest => ?_⟩
      obtain ⟨lt, hread⟩ := hreads rest hrest
      exact (hwraps rest hrest).ok v rest stop lt hread
  | false =>
      intro rest hrest
      obtain ⟨e, herror⟩ := h rest hrest
      exact ⟨e, (hwraps rest hrest).error e herror⟩

/-! Forms with one type at their end. -/

theorem wraps_pointer (star : SymbolToken "*") :
    Wraps src (fun v stop => .pointer v ⟨star.token.span.start, stop⟩) ts (star.token :: ts) where
  ok v rest stop lt h := by
    refine ⟨Nat.lt_succ_of_lt lt, ?_⟩
    rw [parseType.eq_def]
    simp only [star.kind_eq, if_true, h, ok_bind]
    rfl
  error e h := by
    rw [parseType.eq_def]
    simp only [star.kind_eq, if_true, h, error_bind]

theorem expectOp_symbol {symbol : String} (s : SymbolToken symbol) (r : List Token) :
    expectOp symbol (s.token :: r) = .ok ⟨s.token, r, s.token.span.stop, Nat.lt_succ_self _⟩ := by
  rw [expectOp, if_pos s.kind_eq]

theorem expectIdent_keyword {what word : String} (k : KeywordToken word) (r : List Token) :
    expectIdent what (k.token :: r) =
      .ok ⟨⟨word, k.token.span⟩, r, k.token.span.stop, Nat.lt_succ_self _⟩ := by
  simp only [expectIdent, k.kind_eq]

theorem wraps_slice (opening : SymbolToken "[") (closing : SymbolToken "]") :
    Wraps src (fun v stop => .slice v ⟨opening.token.span.start, stop⟩) ts
      (opening.token :: closing.token :: ts) where
  ok v rest stop lt h := by
    refine ⟨Nat.lt_succ_of_lt (Nat.lt_succ_of_lt lt), ?_⟩
    rw [parseType.eq_def]
    simp only [opening.kind_eq, String.reduceEq, if_true, if_false, nextKind, closing.kind_eq,
      expectOp_symbol, h, ok_bind]
    rfl
  error e h := by
    rw [parseType.eq_def]
    simp only [opening.kind_eq, String.reduceEq, if_true, if_false, nextKind, closing.kind_eq,
      expectOp_symbol, h, ok_bind, error_bind]

theorem wraps_send (word : KeywordToken "chan") (arrow : SymbolToken "<-") :
    Wraps src (fun _ stop => .verbatim (src.between word.token.span.start stop)
      ⟨word.token.span.start, stop⟩) ts (word.token :: arrow.token :: ts) where
  ok v rest stop lt h := by
    refine ⟨Nat.lt_succ_of_lt (Nat.lt_succ_of_lt lt), ?_⟩
    rw [parseType.eq_def]
    simp only [word.kind_eq, String.reduceEq, if_true, if_false, arrow.kind_eq, h, ok_bind]
    rfl
  error e h := by
    rw [parseType.eq_def]
    simp only [word.kind_eq, String.reduceEq, if_true, if_false, arrow.kind_eq, h, error_bind]

theorem wraps_chan (word : KeywordToken "chan") (hne : ts ≠ []) (harrow : nextKind ts ≠ .op "<-") :
    Wraps src (fun _ stop => .verbatim (src.between word.token.span.start stop)
      ⟨word.token.span.start, stop⟩) ts (word.token :: ts) := by
  obtain ⟨u, r, rfl⟩ := List.exists_cons_of_ne_nil hne
  have hkind : u.kind ≠ .op "<-" := harrow
  constructor
  · intro v rest stop lt h
    refine ⟨Nat.lt_succ_of_lt lt, ?_⟩
    rw [parseType.eq_def]
    simp only [word.kind_eq, String.reduceEq, if_true, if_false, hkind, h, ok_bind]
    rfl
  · intro e h
    rw [parseType.eq_def]
    simp only [word.kind_eq, String.reduceEq, if_true, if_false, hkind, h, error_bind]

theorem wraps_receive (arrow : SymbolToken "<-") (word : KeywordToken "chan") :
    Wraps src (fun _ stop => .verbatim (src.between arrow.token.span.start stop)
      ⟨arrow.token.span.start, stop⟩) ts (arrow.token :: word.token :: ts) where
  ok v rest stop lt h := by
    refine ⟨Nat.lt_succ_of_lt (Nat.lt_succ_of_lt lt), ?_⟩
    rw [parseType.eq_def]
    simp only [arrow.kind_eq, String.reduceEq, if_true, if_false, nextKind, word.kind_eq,
      expectIdent_keyword, h, ok_bind]
    rfl
  error e h := by
    rw [parseType.eq_def]
    simp only [arrow.kind_eq, String.reduceEq, if_true, if_false, nextKind, word.kind_eq,
      expectIdent_keyword, h, ok_bind, error_bind]

/-! Parts that are skipped. -/

theorem Delimited.skips {left right : String} (d : Delimited left right)
    (hright : (TokenKind.op right).closes = true) (rest : List Token) :
    ∃ lt, skipClosed d.opening.token (d.inside ++ d.closing.token :: rest) =
      .ok ⟨(), rest, d.closing.token.span.stop, lt⟩ :=
  skipClosed_level d.opening.token d.level (by rw [d.closing.kind_eq, hright]) rest

theorem Delimited.tokens_append {left right : String} (d : Delimited left right)
    (rest : List Token) :
    d.tokens ++ rest = d.opening.token :: (d.inside ++ d.closing.token :: rest) := by
  simp [tokens]

/-- The length of an array is skipped up to the bracket behind it. -/
theorem wraps_array (length : Bracketed) :
    Wraps src (fun v stop => .array
        (src.between (length.inside.head?.elim 0 fun u => u.span.start)
          (length.inside.getLast?.elim 0 fun u => u.span.stop))
        v ⟨length.opening.token.span.start, stop⟩) ts (length.tokens ++ ts) := by
  obtain ⟨⟨opening, inside, hlevel, closing⟩, hne, hunbroken⟩ := length
  have hhalts : ∀ k : TokenKind, k.isSemi = false → k.closes = false →
      (k.isSemi || decide (k = .op "]")) = false := by
    intro k hsemi hcloses
    rw [hsemi, Bool.false_or, decide_eq_false_iff_not]
    rintro rfl
    cases hcloses
  have hopens : closing.token.kind.opens = false := by
    rw [closing.kind_eq]
    decide
  have hstop : (closing.token.kind.isSemi || decide (closing.token.kind = .op "]")) = true := by
    rw [closing.kind_eq]
    decide
  obtain ⟨first, more, rfl⟩ := List.exists_cons_of_ne_nil hne
  obtain ⟨le, hskip⟩ : ∃ le, skipUntil (fun k => k.isSemi || k = .op "]")
      (first :: (more ++ closing.token :: ts)) = .ok ⟨closing.token :: ts, le⟩ :=
    skipUntil_of_unbroken hhalts hopens hstop ts (first :: more) hunbroken
  have hfirst : first.kind ≠ .op "]" := by
    intro hkind
    rcases hlevel.cases_cons with ⟨hopening, -⟩ | ⟨hother, -, hone⟩
    · rw [hkind] at hopening
      cases hopening
    · have hcloses := closes_eq_false_of_level hother hone
      rw [hkind] at hcloses
      cases hcloses
  have htake : (first :: (more ++ closing.token :: ts)).take
      ((first :: (more ++ closing.token :: ts)).length - (closing.token :: ts).length) =
        first :: more := by
    rw [← List.cons_append, List.length_append, Nat.add_sub_cancel, List.take_left]
  rw [Delimited.tokens_append]
  constructor
  · intro v rest stop lt h
    have hlt : rest.length < (opening.token :: (first :: more ++ closing.token :: ts)).length := by
      simp only [List.length_cons, List.length_append]
      omega
    refine ⟨hlt, ?_⟩
    rw [parseType.eq_def]
    simp only [List.cons_append, opening.kind_eq, String.reduceEq, if_true, if_false, nextKind,
      hfirst, hskip, ok_bind, closing.kind_eq, expectOp_symbol, h, htake]
    rfl
  · intro e h
    rw [parseType.eq_def]
    simp only [List.cons_append, opening.kind_eq, String.reduceEq, if_true, if_false, nextKind,
      hfirst, hskip, ok_bind, closing.kind_eq, expectOp_symbol, h, error_bind]

/-- Behind a key that is read, a map is read as its values are. -/
theorem wraps_map (word : KeywordToken "map") (opening : SymbolToken "[")
    (closing : SymbolToken "]") {key : TypeExpr} {stop : Nat} (hkey : ReadsType src us key stop) :
    Wraps src (fun v stop => .map key v ⟨word.token.span.start, stop⟩) ts
      (word.token :: opening.token :: (us ++ closing.token :: ts)) := by
  have hclosing : AfterType (closing.token :: ts) :=
    afterType_closing (by rw [closing.kind_eq]; decide) ts
  obtain ⟨keyLt, hread⟩ := hkey _ hclosing
  constructor
  · intro v rest stop lt h
    have hlt : rest.length <
        (word.token :: opening.token :: (us ++ closing.token :: ts)).length := by
      simp only [List.length_cons, List.length_append]
      omega
    refine ⟨hlt, ?_⟩
    rw [parseType.eq_def]
    simp only [word.kind_eq, String.reduceEq, if_true, if_false, expectOp_symbol, hread, h, ok_bind]
    rfl
  · intro e h
    rw [parseType.eq_def]
    simp only [word.kind_eq, String.reduceEq, if_true, if_false, expectOp_symbol, hread, h, ok_bind,
      error_bind]

theorem outcome_map (word : KeywordToken "map") (opening : SymbolToken "[")
    (closing : SymbolToken "]") {clean clean' : Bool} (hkey : TypeOutcome src clean us)
    (hvalue : TypeOutcome src clean' ts) :
    TypeOutcome src (clean && clean')
      (word.token :: opening.token :: (us ++ closing.token :: ts)) := by
  cases clean with
  | true =>
      obtain ⟨key, stop, hkey⟩ := hkey
      apply hvalue.wrap
      intro rest _
      rw [List.cons_append, List.cons_append, List.append_assoc, List.cons_append]
      exact wraps_map word opening closing hkey
  | false =>
      intro rest hrest
      have hclosing : AfterType (closing.token :: (ts ++ rest)) :=
        afterType_closing (by rw [closing.kind_eq]; decide) _
      obtain ⟨e, herror⟩ := hkey _ hclosing
      refine ⟨e, ?_⟩
      rw [List.cons_append, List.cons_append, List.append_assoc, List.cons_append,
        parseType.eq_def]
      simp only [word.kind_eq, String.reduceEq, if_true, if_false, expectOp_symbol, herror, ok_bind,
        error_bind]

theorem outcome_parens (opening : SymbolToken "(") (closing : SymbolToken ")") {clean : Bool}
    (h : TypeOutcome src clean ts) :
    TypeOutcome src clean (opening.token :: (ts ++ [closing.token])) := by
  have hclosing : ∀ rest, AfterType (closing.token :: rest) :=
    afterType_closing (by rw [closing.kind_eq]; decide)
  have happend : ∀ rest, opening.token :: (ts ++ [closing.token]) ++ rest =
      opening.token :: (ts ++ closing.token :: rest) := by simp
  cases clean with
  | true =>
      obtain ⟨v, stop, hreads⟩ := h
      refine ⟨v, closing.token.span.stop, fun rest _ => ?_⟩
      obtain ⟨lt, hread⟩ := hreads _ (hclosing rest)
      rw [happend]
      have hlt : rest.length < (opening.token :: (ts ++ closing.token :: rest)).length := by
        simp only [List.length_cons, List.length_append]
        omega
      refine ⟨hlt, ?_⟩
      rw [parseType.eq_def]
      simp only [opening.kind_eq, String.reduceEq, if_true, if_false, hread, expectOp_symbol,
        ok_bind]
      rfl
  | false =>
      intro rest _
      obtain ⟨e, herror⟩ := h _ (hclosing rest)
      refine ⟨e, ?_⟩
      rw [happend, parseType.eq_def]
      simp only [opening.kind_eq, String.reduceEq, if_true, if_false, herror, error_bind]

theorem reads_interface (word : KeywordToken "interface") (body : Delimited "\x7b" "\x7d") :
    ∃ v stop, ReadsType src (word.token :: body.tokens) v stop := by
  let start := word.token.span.start
  let stop := body.closing.token.span.stop
  refine ⟨.verbatim (src.between start stop) ⟨start, stop⟩, stop, fun rest _ => ?_⟩
  obtain ⟨lt, hskip⟩ := body.skips (by decide) rest
  rw [List.cons_append, body.tokens_append]
  refine ⟨Nat.lt_succ_of_lt (Nat.lt_succ_of_lt lt), ?_⟩
  rw [parseType.eq_def]
  simp only [word.kind_eq, String.reduceEq, if_true, if_false, expectOp_symbol, hskip, ok_bind]
  rfl

/-! Functions. -/

section Functions

variable (parameters : Delimited "(" ")")

/-- Parameters alone are a signature, where neither results nor a type follow. -/
theorem skipSignature_none (h : AfterType rest) :
    ∃ lt, skipSignature src (parameters.tokens ++ rest) =
      .ok ⟨(), rest, parameters.closing.token.span.stop, lt⟩ := by
  obtain ⟨lt, hskip⟩ := parameters.skips (by decide) rest
  rw [parameters.tokens_append]
  cases rest with
  | nil => cases h
  | cons t r =>
      have hparen : t.kind ≠ .op "(" := h.ne_op (by decide)
      have hresult : ¬ startsResult t.kind = true := by
        rw [show startsResult t.kind = false from h.startsResult_eq]
        decide
      refine ⟨Nat.lt_succ_of_lt lt, ?_⟩
      rw [skipSignature.eq_def]
      simp only [expectOp_symbol, ok_bind, hskip, if_neg hparen, if_neg hresult]
      rfl

theorem skipSignature_results (results : Delimited "(" ")") (rest : List Token) :
    ∃ lt, skipSignature src (parameters.tokens ++ (results.tokens ++ rest)) =
      .ok ⟨(), rest, results.closing.token.span.stop, lt⟩ := by
  rw [parameters.tokens_append, results.tokens_append]
  obtain ⟨lt, hskip⟩ := parameters.skips (by decide)
    (results.opening.token :: (results.inside ++ results.closing.token :: rest))
  obtain ⟨lt', hskip'⟩ := results.skips (by decide) rest
  refine ⟨Nat.lt_succ_of_lt (Nat.lt_trans lt' (Nat.lt_of_succ_lt lt)), ?_⟩
  rw [skipSignature.eq_def]
  simp only [expectOp_symbol, ok_bind, hskip, if_pos results.opening.kind_eq, hskip']
  rfl

/-- A type behind the parameters is read with them. -/
theorem skipSignature_result (hparen : nextKind ts ≠ .op "(")
    (hstarts : startsResult (nextKind ts) = true) {read : Reading TypeExpr ts.length}
    (hread : parseType src ts = .ok read) :
    ∃ lt, skipSignature src (parameters.tokens ++ ts) = .ok ⟨(), read.rest, read.stop, lt⟩ := by
  obtain ⟨lt, hskip⟩ := parameters.skips (by decide) ts
  rw [parameters.tokens_append]
  cases ts with
  | nil => cases hstarts
  | cons t r =>
      have hkind : t.kind ≠ .op "(" := hparen
      have hresult : startsResult t.kind = true := hstarts
      refine ⟨Nat.lt_succ_of_lt (Nat.lt_trans read.lt lt), ?_⟩
      rw [skipSignature.eq_def]
      simp only [expectOp_symbol, ok_bind, hskip, if_neg hkind, if_pos hresult, hread]
      rfl

theorem skipSignature_error (hparen : nextKind ts ≠ .op "(")
    (hstarts : startsResult (nextKind ts) = true) {e : SourceError}
    (herror : parseType src ts = .error e) :
    skipSignature src (parameters.tokens ++ ts) = .error e := by
  obtain ⟨lt, hskip⟩ := parameters.skips (by decide) ts
  rw [parameters.tokens_append]
  cases ts with
  | nil => cases hstarts
  | cons t r =>
      have hkind : t.kind ≠ .op "(" := hparen
      have hresult : startsResult t.kind = true := hstarts
      rw [skipSignature.eq_def]
      simp only [expectOp_symbol, ok_bind, hskip, if_neg hkind, if_pos hresult, herror, error_bind]

end Functions

section FunctionTypes

variable (word : KeywordToken "func")

/-- A function type ends where its signature does. -/
theorem parseType_func {stop : Nat} {lt} (h : skipSignature src ts = .ok ⟨(), rest, stop, lt⟩) :
    ∃ lt', parseType src (word.token :: ts) =
      .ok ⟨.verbatim (src.between word.token.span.start stop) ⟨word.token.span.start, stop⟩, rest,
        stop, lt'⟩ := by
  refine ⟨Nat.lt_succ_of_lt lt, ?_⟩
  rw [parseType.eq_def]
  simp only [word.kind_eq, String.reduceEq, if_true, if_false, h, ok_bind]
  rfl

theorem reads_signature {stop : Nat}
    (h : ∀ rest, AfterType rest → ∃ lt, skipSignature src (ts ++ rest) = .ok ⟨(), rest, stop, lt⟩) :
    ∃ v stop, ReadsType src (word.token :: ts) v stop := by
  let start := word.token.span.start
  refine ⟨.verbatim (src.between start stop) ⟨start, stop⟩, stop, fun rest hrest => ?_⟩
  obtain ⟨lt, hskip⟩ := h rest hrest
  exact parseType_func word hskip

theorem reads_func (parameters : Delimited "(" ")") :
    ∃ v stop, ReadsType src (word.token :: parameters.tokens) v stop :=
  reads_signature word fun _ => skipSignature_none parameters

theorem reads_funcResults (parameters results : Delimited "(" ")") :
    ∃ v stop, ReadsType src (word.token :: (parameters.tokens ++ results.tokens)) v stop := by
  apply reads_signature word
  intro rest _
  rw [List.append_assoc]
  exact skipSignature_results parameters results rest

theorem wraps_funcResult (parameters : Delimited "(" ")") (hparen : nextKind ts ≠ .op "(")
    (hstarts : startsResult (nextKind ts) = true) :
    Wraps src (fun _ stop => .verbatim (src.between word.token.span.start stop)
      ⟨word.token.span.start, stop⟩) ts (word.token :: (parameters.tokens ++ ts)) where
  ok v rest stop lt h := by
    obtain ⟨lt', hskip⟩ := skipSignature_result parameters hparen hstarts h
    exact parseType_func word hskip
  error e h := by
    rw [parseType.eq_def]
    simp only [word.kind_eq, String.reduceEq, if_true, if_false,
      skipSignature_error parameters hparen hstarts h, error_bind]

end FunctionTypes

/-! Names. -/

theorem expectIdent_name {what : String} (n : NameToken) (r : List Token) :
    expectIdent what (n.token :: r) =
      .ok ⟨n.ident, r, n.token.span.stop, Nat.lt_succ_self _⟩ := by
  simp only [expectIdent, n.kind_eq]
  rfl

theorem NameToken.ne_keyword (n : NameToken) (word : String) (h : word ∈ keywords) :
    n.name ≠ word := by
  rintro rfl
  exact n.plain h

theorem parseType_nameToken (n : NameToken) (r : List Token) :
    parseType src (n.token :: r) = namedType src (n.token :: r) := by
  rw [parseType.eq_def]
  simp only [n.kind_eq, if_neg (n.ne_keyword "struct" (by decide)),
    if_neg (n.ne_keyword "map" (by decide)), if_neg (n.ne_keyword "interface" (by decide)),
    if_neg (n.ne_keyword "func" (by decide)), if_neg (n.ne_keyword "chan" (by decide))]

theorem nextKind_arguments (arguments : Option Bracketed) (hrest : AfterType rest) :
    nextKind (argumentsTokens arguments ++ rest) ≠ .op "." := by
  cases arguments with
  | none => exact hrest.ne_op (by decide)
  | some a =>
      have hopening : nextKind (argumentsTokens (some a) ++ rest) = .op "[" := a.opening.kind_eq
      rw [hopening]
      decide

/-- A name that has been read is read on with its arguments. -/
theorem withArguments_reads (src : SourceText) (arguments : Option Bracketed) (start : Nat)
    (v : TypeExpr) (stop : Nat) :
    ∃ v' stop', ∀ rest, AfterType rest → ∀ n lt, ∃ lt',
      withArguments src start (⟨v, argumentsTokens arguments ++ rest, stop, lt⟩ : Reading _ n) =
        .ok ⟨v', rest, stop', lt'⟩ := by
  cases arguments with
  | none =>
      refine ⟨v, stop, fun rest hrest n lt => ⟨lt, ?_⟩⟩
      cases rest with
      | nil => cases hrest
      | cons t r =>
          have hkind : t.kind ≠ .op "[" := hrest.ne_op (by decide)
          exact if_neg hkind
  | some a =>
      let stop' := a.closing.token.span.stop
      refine ⟨.verbatim (src.between start stop') ⟨start, stop'⟩, stop', fun rest _ n lt => ?_⟩
      obtain ⟨lt', hskip⟩ := a.skips (by decide) rest
      have htokens : argumentsTokens (some a) ++ rest =
          a.opening.token :: (a.inside ++ a.closing.token :: rest) := a.tokens_append rest
      revert lt
      rw [htokens]
      intro lt
      refine ⟨Nat.lt_trans lt' (Nat.lt_of_succ_lt lt), ?_⟩
      simp only [withArguments, if_pos a.opening.kind_eq, hskip, ok_bind]
      rfl

theorem TypeNameTokens.reads (src : SourceText) (t : TypeNameTokens) :
    ∃ v stop, ReadsType src t.tokens v stop := by
  obtain ⟨package, name, arguments⟩ := t
  cases package with
  | none =>
      obtain ⟨v, stop, hreads⟩ := withArguments_reads src arguments name.token.span.start
        (.named none name.ident) name.token.span.stop
      refine ⟨v, stop, fun rest hrest => ?_⟩
      have htokens : TypeNameTokens.tokens ⟨none, name, arguments⟩ ++ rest =
        name.token :: (argumentsTokens arguments ++ rest) := rfl
      obtain ⟨lt, hread⟩ := hreads rest hrest _ (Nat.lt_succ_self _)
      rw [htokens, parseType_nameToken, namedType_eq, expectIdent_name]
      refine ⟨lt, ?_⟩
      simp only [ok_bind, qualified, if_neg (nextKind_arguments arguments hrest)]
      exact hread
  | some qualifier =>
      obtain ⟨package, dot⟩ := qualifier
      obtain ⟨v, stop, hreads⟩ := withArguments_reads src arguments package.token.span.start
        (.named (some package.ident) name.ident) name.token.span.stop
      refine ⟨v, stop, fun rest hrest => ?_⟩
      have htokens : TypeNameTokens.tokens ⟨some (package, dot), name, arguments⟩ ++ rest =
        package.token :: dot.token :: name.token :: (argumentsTokens arguments ++ rest) := rfl
      obtain ⟨lt, hread⟩ := hreads rest hrest _ (Nat.lt_succ_of_lt (Nat.lt_succ_of_lt
        (Nat.lt_succ_self _)))
      rw [htokens, parseType_nameToken, namedType_eq, expectIdent_name]
      refine ⟨lt, ?_⟩
      simp only [ok_bind, qualified, nextKind, dot.kind_eq, if_true, expectOp_symbol,
        expectIdent_name]
      exact hread

end FieldRules
