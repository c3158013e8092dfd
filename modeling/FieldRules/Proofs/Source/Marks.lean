/-
Reading the tokens of a page: what the first tokens are, where lines end, and how single
tokens and names are read.
-/
import FieldRules.Proofs.Source.Grammar
import FieldRules.Source.Parser

namespace FieldRules

variable {src : SourceText}

/-- Reading the tokens of `ms` gives a value with property `P` and leaves those of `rest`. -/
def Parses {α : Type} (src : SourceText)
    (read : (ts : List Token) → Except SourceError (Reading α ts.length)) (ms rest : List Mark)
    (P : α → Prop) : Prop :=
  ∀ ts, Follows src ms ts → ∃ r, read ts = .ok r ∧ P r.value ∧ Follows src rest r.rest

/-- The kind of the first mark; after the last one the file has ended. -/
def nextMark : List Mark → TokenKind
  | [] => .eof
  | m :: _ => m.kind

theorem Follows.nextKind_eq {ms : List Mark} {ts : List Token} (h : Follows src ms ts) :
    nextKind ts = nextMark ms := by
  cases h with
  | nil => rfl
  | cons ht _ => exact ht.kind

theorem Follows.exists_cons {m : Mark} {ms : List Mark} {ts : List Token}
    (h : Follows src (m :: ms) ts) :
    ∃ t r, ts = t :: r ∧ Marked src m t ∧ Follows src ms r := by
  cases h with
  | cons ht hr => exact ⟨_, _, rfl, ht, hr⟩

/-! The marks of a page, from its first word on. -/

def Lead.inline : Lead → Bool
  | line _ => false
  | space | joined => true

/-- The doc lines above a word. -/
def Lead.doc : Lead → List DocLine
  | line doc => doc
  | space | joined => []

theorem pageMarks_first (lead : Lead) (w : Word) (ps : List Placed) :
    pageMarks false (⟨lead, w⟩ :: ps) =
      ⟨w.kind, docBodies lead.doc⟩ :: pageMarks w.kind.endsStatement ps := by
  cases lead <;> rfl

theorem pageMarks_inline {lead : Lead} (h : lead.inline = true) (ends : Bool) (w : Word)
    (ps : List Placed) :
    pageMarks ends (⟨lead, w⟩ :: ps) = pageMarks false (⟨lead, w⟩ :: ps) := by
  cases lead with
  | line doc => cases h
  | space => rfl
  | joined => rfl

theorem pageMarks_space (ends : Bool) (w : Word) (ps : List Placed) :
    pageMarks ends (⟨.space, w⟩ :: ps) = ⟨w.kind, none⟩ :: pageMarks w.kind.endsStatement ps := rfl

theorem pageMarks_close {symbol : String} (h : symbol ∈ symbols) (ends : Bool)
    (ps : List Placed) :
    pageMarks ends (close symbol h :: ps) =
      ⟨.op symbol, none⟩ :: pageMarks (TokenKind.op symbol).endsStatement ps := rfl

/-- The line ends before what follows, where the word before it ends a statement. -/
def EndsLine (rest : List Placed) : Prop := nextMark (pageMarks true rest) = .semi true

theorem endsLine_nil : EndsLine [] := rfl

theorem endsLine_line (doc : List DocLine) (w : Word) (ps : List Placed) :
    EndsLine (⟨.line doc, w⟩ :: ps) := rfl

/-- What follows does not go on with a type name. -/
def EndsType (rest : List Placed) : Prop :=
  nextMark (pageMarks true rest) ≠ .op "." ∧ nextMark (pageMarks true rest) ≠ .op "["

theorem EndsLine.endsType {rest : List Placed} (h : EndsLine rest) : EndsType rest := by
  unfold EndsType
  rw [h]
  exact ⟨nofun, nofun⟩

theorem endsType_bracket (h : "]" ∈ symbols) (rest : List Placed) :
    EndsType (close "]" h :: rest) := by
  rw [EndsType, pageMarks_close]
  constructor <;> (show TokenKind.op "]" ≠ .op _; decide)

theorem Word.isSemi_eq_false (w : Word) : w.kind.isSemi = false := by
  obtain ⟨kind, hword⟩ := w
  cases kind with
  | semi _ => exact hword.elim
  | _ => rfl

theorem dropSemis_cons {t : Token} (h : t.kind.isSemi = false) (r : List Token) :
    dropSemis (t :: r) = t :: r :=
  List.dropWhile_cons_of_neg (by simp [h])

/-- Without the line ends before it a page starts with its first word. -/
theorem Follows.dropSemis {ends : Bool} {p : Placed} {ps : List Placed} {ts : List Token}
    (h : Follows src (pageMarks ends (p :: ps)) ts) :
    Follows src (pageMarks false (p :: ps)) (dropSemis ts) := by
  obtain ⟨lead, w⟩ := p
  have hword : ∀ us, Follows src (pageMarks false (⟨lead, w⟩ :: ps)) us →
      FieldRules.dropSemis us = us := by
    intro us hus
    rw [pageMarks_first] at hus
    obtain ⟨t, r, rfl, ht, -⟩ := hus.exists_cons
    apply dropSemis_cons
    rw [ht.kind]
    exact w.isSemi_eq_false
  cases ends with
  | false =>
      rw [hword ts h]
      exact h
  | true =>
      by_cases hlead : lead.inline = true
      · rw [pageMarks_inline hlead] at h
        rw [hword ts h]
        exact h
      · cases lead with
        | space => exact absurd rfl hlead
        | joined => exact absurd rfl hlead
        | line doc =>
            obtain ⟨t, r, rfl, hsemi, hmore⟩ := h.exists_cons
            have hskip : FieldRules.dropSemis (t :: r) = FieldRules.dropSemis r :=
              List.dropWhile_cons_of_pos (by rw [hsemi.kind]; rfl)
            rw [hskip, hword r hmore]
            exact hmore

/-- So the first token that is no semicolon is that of the first word. -/
theorem Follows.exists_dropSemis {ends : Bool} {lead : Lead} {w : Word} {ps : List Placed}
    {ts : List Token} (h : Follows src (pageMarks ends (⟨lead, w⟩ :: ps)) ts) :
    ∃ t r, FieldRules.dropSemis ts = t :: r ∧ Marked src ⟨w.kind, docBodies lead.doc⟩ t ∧
      Follows src (pageMarks w.kind.endsStatement ps) r := by
  have hdrop := h.dropSemis
  rw [pageMarks_first] at hdrop
  exact hdrop.exists_cons

/-! Single tokens. -/

theorem parses_op {symbol : String} {doc : Option (List String)} {rest : List Mark} :
    Parses src (expectOp symbol) (⟨.op symbol, doc⟩ :: rest) rest fun _ => True := by
  intro ts h
  obtain ⟨t, r, rfl, ht, hr⟩ := h.exists_cons
  refine ⟨⟨t, r, t.span.stop, by simp⟩, ?_, trivial, hr⟩
  rw [expectOp, if_pos ht.kind]

theorem parses_ident (what : String) {name : String} {doc : Option (List String)}
    {rest : List Mark} :
    Parses src (expectIdent what) (⟨.ident name, doc⟩ :: rest) rest fun found =>
      found.name = name := by
  intro ts h
  obtain ⟨t, r, rfl, ht, hr⟩ := h.exists_cons
  refine ⟨⟨⟨name, t.span⟩, r, t.span.stop, by simp⟩, ?_, rfl, hr⟩
  have hkind : t.kind = .ident name := ht.kind
  simp only [expectIdent, hkind]

/-- Names with commas between them. -/
theorem parses_names (what : String) (lead : Lead) (first : Name) (more : List Name)
    {rest : List Placed} (hrest : nextMark (pageMarks true rest) ≠ .op ",") :
    Parses src (identList what) (pageMarks false (placedNames lead first more ++ rest))
      (pageMarks true rest) (SameNames (first :: more)) := by
  induction more generalizing lead first with
  | nil =>
      intro ts h
      rw [placedNames, List.cons_append, List.nil_append, pageMarks_first] at h
      obtain ⟨t, r, rfl, ht, hr⟩ := h.exists_cons
      have hkind : t.kind = .ident first.text := ht.kind
      have hnext := hr.nextKind_eq
      cases r with
      | nil =>
          refine ⟨⟨[⟨first.text, t.span⟩], [], t.span.stop, by simp⟩, ?_, rfl, hr⟩
          simp only [identList, hkind]
      | cons u us =>
          have hcomma : u.kind ≠ .op "," := by
            intro hu
            exact hrest (hnext.symm.trans hu)
          refine ⟨⟨[⟨first.text, t.span⟩], u :: us, t.span.stop, by simp⟩, ?_, rfl, hr⟩
          simp only [identList, hkind, if_neg hcomma]
  | cons second more ih =>
      intro ts h
      rw [placedNames, List.cons_append, List.cons_append, pageMarks_first] at h
      obtain ⟨t, us, rfl, ht, hus⟩ := h.exists_cons
      obtain ⟨u, r, rfl, hu, hr⟩ := hus.exists_cons
      have hkind : t.kind = .ident first.text := ht.kind
      have hcomma : u.kind = .op "," := hu.kind
      obtain ⟨names, hnames, hsame, hfollows⟩ := ih .space second r hr
      have hlt : names.rest.length < (t :: u :: r).length :=
        Nat.lt_succ_of_lt (Nat.lt_succ_of_lt names.lt)
      refine ⟨⟨⟨first.text, t.span⟩ :: names.value, names.rest, names.stop, hlt⟩, ?_, ?_,
        hfollows⟩
      · simp only [identList, hkind, if_pos hcomma, hnames, ok_bind]
        rfl
      · exact congrArg (first.text :: ·) hsame

theorem exists_placedNames (lead : Lead) (first : Name) (more : List Name) :
    ∃ ps, placedNames lead first more = ⟨lead, .ofName first⟩ :: ps := by
  cases more with
  | nil => exact ⟨[], rfl⟩
  | cons second more => exact ⟨_, rfl⟩

theorem sameDoc_of_marked {k : TokenKind} {doc : List DocLine} {t : Token}
    (h : Marked src ⟨k, docBodies doc⟩ t) : SameDoc doc (src.docOf t) := h.doc

/-! Skipping one token. -/

theorem skipUntil_stop {halts : TokenKind → Bool} {t : Token} {r : List Token}
    (hopens : t.kind.opens = false) (hhalts : halts t.kind = true) :
    skipUntil halts (t :: r) = .ok (.all (t :: r)) := by
  rw [skipUntil]
  simp [hopens, hhalts]

theorem skipUntil_pass {halts : TokenKind → Bool} {t : Token} {r : List Token} {left : Remaining r}
    (hopens : t.kind.opens = false) (hhalts : halts t.kind = false) (heof : t.kind ≠ .eof)
    (h : skipUntil halts r = .ok left) :
    skipUntil halts (t :: r) = .ok (left.afterToken t) := by
  rw [skipUntil]
  simp [hopens, hhalts, heof, h]

end FieldRules
