/-
What stands between tokens.  Laying out a text goes from one token to the next: blanks, line
ends and comments between them leave at most one semicolon and the comment groups that may
document the next token.
-/
import FieldRules.Proofs.Source.Lexemes
import FieldRules.Proofs.Text.Places
import Mathlib

namespace FieldRules

/-! One lexeme at a time. -/

namespace LayoutState

/-- What the layout remembers after one lexeme more. -/
def next (s : LayoutState) (x : Lexeme) : LayoutState :=
  match x.cls with
  | .blank => s.past x
  | .newline => { s.past x with ends := false }
  | .comment =>
      { s.past x with
        gap := addComment s.lastLine s.gap x, ends := s.ends && !x.chars.contains '\n' }
  | .token kind => s.afterToken kind x

/-- The tokens that one lexeme gives. -/
def given (s : LayoutState) (x : Lexeme) : List Token :=
  match x.cls with
  | .blank => []
  | .newline => s.semi x.start x.line
  | .comment => if x.chars.contains '\n' then s.semi x.start x.line else []
  | .token kind => [⟨kind, x.span, x.line, s.doc x.line⟩]

/-- The comment groups that a lexeme finishes: a token finishes those in front of it. -/
def finished (s : LayoutState) (x : Lexeme) : List CommentGroup :=
  match x.cls with
  | .blank | .newline | .comment => []
  | .token _ => s.gap

def after (s : LayoutState) (xs : List Lexeme) : LayoutState := xs.foldl next s

/-- The tokens that lexemes give after state `s`. -/
def tokensOf (s : LayoutState) : List Lexeme → List Token
  | [] => []
  | x :: xs => s.given x ++ (s.next x).tokensOf xs

/-- The comment groups that lexemes finish after state `s`. -/
def groupsOf (s : LayoutState) : List Lexeme → List CommentGroup
  | [] => []
  | x :: xs => s.finished x ++ (s.next x).groupsOf xs

@[simp] theorem after_nil (s : LayoutState) : s.after [] = s := rfl

@[simp] theorem after_cons (s : LayoutState) (x : Lexeme) (xs : List Lexeme) :
    s.after (x :: xs) = (s.next x).after xs := rfl

theorem after_append (s : LayoutState) (xs ys : List Lexeme) :
    s.after (xs ++ ys) = (s.after xs).after ys := List.foldl_append

theorem tokensOf_append (s : LayoutState) (xs ys : List Lexeme) :
    s.tokensOf (xs ++ ys) = s.tokensOf xs ++ (s.after xs).tokensOf ys := by
  induction xs generalizing s with
  | nil => rfl
  | cons x xs ih => simp [tokensOf, ih]

/-- Groups are counted when they are finished. -/
theorem closed_after (s : LayoutState) (xs : List Lexeme) :
    (s.after xs).closed = s.closed + (s.groupsOf xs).length := by
  induction xs generalizing s with
  | nil => rfl
  | cons x xs ih =>
      have hone : (s.next x).closed = s.closed + (s.finished x).length := by
        unfold next finished
        cases x.cls <;> rfl
      rw [after_cons, ih, hone, groupsOf, List.length_append, Nat.add_assoc]

theorem kind_of_mem_semi {s : LayoutState} {pos line : Nat} :
    ∀ t ∈ s.semi pos line, t.kind = .semi true := by
  unfold semi
  split <;> simp

theorem length_semi (s : LayoutState) (pos line : Nat) :
    (s.semi pos line).length = if s.ends then 1 else 0 := by
  unfold semi
  split <;> rfl

end LayoutState

theorem layout_cons (s : LayoutState) (x : Lexeme) (xs : List Lexeme) :
    layout s (x :: xs) =
      ⟨s.given x ++ (layout (s.next x) xs).tokens,
        s.finished x ++ (layout (s.next x) xs).groups⟩ := by
  unfold LayoutState.given LayoutState.next LayoutState.finished
  cases hcls : x.cls with
  | comment =>
      by_cases hbreak : '\n' ∈ x.chars
      · simp [layout, hcls, hbreak]
      · simp [layout, hcls, hbreak, LayoutState.past]
  | _ => simp [layout, hcls]

/-- Laying out goes on after what has been laid out. -/
theorem layout_append (s : LayoutState) (xs ys : List Lexeme) :
    layout s (xs ++ ys) =
      ⟨s.tokensOf xs ++ (layout (s.after xs) ys).tokens,
        s.groupsOf xs ++ (layout (s.after xs) ys).groups⟩ := by
  induction xs generalizing s with
  | nil => rfl
  | cons x xs ih => simp [layout_cons, ih, LayoutState.tokensOf, LayoutState.groupsOf]

/-! Texts of lexemes. -/

/-- The text of lexemes. -/
def charsOf (xs : List Lexeme) : List Char := (xs.map Lexeme.chars).flatten

@[simp] theorem charsOf_nil : charsOf [] = [] := rfl

@[simp] theorem charsOf_cons (x : Lexeme) (xs : List Lexeme) :
    charsOf (x :: xs) = x.chars ++ charsOf xs := rfl

@[simp] theorem charsOf_append (xs ys : List Lexeme) :
    charsOf (xs ++ ys) = charsOf xs ++ charsOf ys := by
  simp [charsOf]

theorem standAfter_append {before : List Char} {xs ys : List Lexeme} :
    StandAfter before (xs ++ ys) ↔
      StandAfter before xs ∧ StandAfter (before ++ charsOf xs) ys := by
  induction xs generalizing before with
  | nil => simp [StandAfter]
  | cons x xs ih => simp [StandAfter, ih, and_assoc]

theorem StandAfter.stop_eq {before : List Char} {xs : List Lexeme} {x : Lexeme}
    (h : StandAfter before (xs ++ [x])) : x.stop = utf8Length (before ++ charsOf (xs ++ [x])) := by
  obtain ⟨hstart, -⟩ := (standAfter_append.mp h).2
  rw [Lexeme.stop, hstart, ← utf8Length_append, charsOf_append]
  simp

/-- The layout stands where the lexemes end. -/
theorem pos_after {before : List Char} {xs : List Lexeme} {s : LayoutState}
    (h : StandAfter before xs) (hpos : s.pos = utf8Length before) :
    (s.after xs).pos = utf8Length (before ++ charsOf xs) := by
  induction xs generalizing before s with
  | nil => simpa using hpos
  | cons x xs ih =>
      obtain ⟨hstart, -, -, hrest⟩ := h
      have hnext : (s.next x).pos = utf8Length (before ++ x.chars) := by
        have hstop : (s.next x).pos = x.stop := by
          unfold LayoutState.next
          cases x.cls <;> rfl
        rw [hstop, Lexeme.stop, hstart, utf8Length_append]
      rw [LayoutState.after_cons, ih hrest hnext, charsOf_cons, List.append_assoc]

/-! Lexemes that are no tokens. -/

namespace Lexeme

/-- A lexeme that is no token. -/
def Fills (x : Lexeme) : Prop := ∀ kind, x.cls ≠ .token kind

/-- A blank holds no line feed, and a line end does. -/
def Breaks (x : Lexeme) : Prop :=
  (x.cls = .blank → '\n' ∉ x.chars) ∧ (x.cls = .newline → '\n' ∈ x.chars)

theorem breaks_of_ne {x : Lexeme} (hblank : x.cls ≠ .blank) (hnewline : x.cls ≠ .newline) :
    x.Breaks :=
  ⟨fun h => absurd h hblank, fun h => absurd h hnewline⟩

end Lexeme

theorem breaks_of_lexemeAt {pos more line : Nat} {c : Char} {cs : List Char} {cls : LexemeClass}
    (h : lexemeAt pos c cs = .ok (cls, more)) :
    Lexeme.Breaks ⟨cls, c :: cs.take more, pos, line⟩ := by
  unfold lexemeAt at h
  split at h
  · rename_i hblank
    cases h
    refine ⟨fun _ hmem => ?_, fun hcls => by simp at hcls⟩
    obtain rfl : '\n' = c := by simpa using hmem
    simp at hblank
  split at h
  · rename_i hline
    cases h
    exact ⟨fun hcls => by simp at hcls, fun _ => hline ▸ List.mem_cons_self⟩
  split at h
  · cases h
    exact Lexeme.breaks_of_ne (by simp) (by simp)
  split at h
  · split at h
    · cases h
      exact Lexeme.breaks_of_ne (by simp) (by simp)
    · cases h
  · cases hread : tokenAt pos c cs with
    | error e =>
        rw [hread] at h
        cases h
    | ok found =>
        rw [hread] at h
        cases h
        exact Lexeme.breaks_of_ne (by simp) (by simp)

theorem breaks_of_lexemesFrom {pos line : Nat} {cs : List Char} {xs : List Lexeme}
    (h : lexemesFrom pos line cs = .ok xs) : ∀ x ∈ xs, x.Breaks := by
  induction pos, line, cs using lexemesFrom.induct generalizing xs with
  | case1 pos line =>
      rw [lexemesFrom_nil] at h
      cases h
      exact List.forall_mem_nil _
  | case2 pos line c cs ih =>
      rw [lexemesFrom] at h
      obtain ⟨⟨cls, more⟩, hone, h⟩ := bind_eq_ok.mp h
      obtain ⟨rest, hrest, h⟩ := bind_eq_ok.mp h
      cases h
      exact List.forall_mem_cons.mpr ⟨breaks_of_lexemeAt hone, ih cls more hrest⟩

/-- In a text only line ends, comments and tokens hold line feeds. -/
theorem breaks_of_lexemes {cs : List Char} {xs : List Lexeme} (h : lexemes cs = .ok xs) :
    ∀ x ∈ xs, x.Breaks := by
  cases cs with
  | nil =>
      cases h
      exact List.forall_mem_nil _
  | cons c cs =>
      rw [lexemes] at h
      split at h
      · rename_i hmark
        obtain ⟨rest, hrest, h⟩ := bind_eq_ok.mp h
        cases h
        refine List.forall_mem_cons.mpr ⟨⟨fun _ => ?_, fun hcls => by simp at hcls⟩,
          breaks_of_lexemesFrom hrest⟩
        rw [hmark]
        decide
      · exact breaks_of_lexemesFrom h

/-- Lexemes between tokens. -/
def Filling (xs : List Lexeme) : Prop := ∀ x ∈ xs, x.Fills ∧ x.Breaks

namespace LayoutState

variable {s : LayoutState} {x : Lexeme} {xs : List Lexeme}

theorem given_of_fills (h : x.Fills) (hbreaks : x.Breaks) :
    s.given x = if '\n' ∈ x.chars then s.semi x.start x.line else [] := by
  unfold given
  cases hcls : x.cls with
  | blank => simp [hbreaks.1 hcls]
  | newline => simp [hbreaks.2 hcls]
  | comment => simp
  | token kind => exact absurd hcls (h kind)

theorem ends_next (h : x.Fills) (hbreaks : x.Breaks) :
    (s.next x).ends = (s.ends && !decide ('\n' ∈ x.chars)) := by
  unfold next
  cases hcls : x.cls with
  | blank => simp [hbreaks.1 hcls, past]
  | newline => simp [hbreaks.2 hcls]
  | comment => simp
  | token kind => exact absurd hcls (h kind)

theorem ends_after (h : Filling xs) :
    (s.after xs).ends = (s.ends && !decide ('\n' ∈ charsOf xs)) := by
  induction xs generalizing s with
  | nil => simp
  | cons x xs ih =>
      obtain ⟨⟨hfills, hbreaks⟩, hrest⟩ := List.forall_mem_cons.mp h
      rw [after_cons, ih hrest, ends_next hfills hbreaks]
      by_cases hx : '\n' ∈ x.chars <;> simp [hx]

/-- Between tokens only semicolons for line ends are given. -/
theorem kind_of_mem_tokensOf (h : Filling xs) : ∀ t ∈ s.tokensOf xs, t.kind = .semi true := by
  induction xs generalizing s with
  | nil => exact List.forall_mem_nil _
  | cons x xs ih =>
      obtain ⟨⟨hfills, hbreaks⟩, hrest⟩ := List.forall_mem_cons.mp h
      refine List.forall_mem_append.mpr ⟨?_, ih hrest⟩
      rw [given_of_fills hfills hbreaks]
      split
      · exact kind_of_mem_semi
      · exact List.forall_mem_nil _

/-- The first line feed gives a semicolon, if one is due, and no further one does. -/
theorem length_tokensOf (h : Filling xs) :
    (s.tokensOf xs).length = if s.ends = true ∧ '\n' ∈ charsOf xs then 1 else 0 := by
  induction xs generalizing s with
  | nil => simp [tokensOf]
  | cons x xs ih =>
      obtain ⟨⟨hfills, hbreaks⟩, hrest⟩ := List.forall_mem_cons.mp h
      rw [tokensOf, List.length_append, ih hrest, given_of_fills hfills hbreaks,
        ends_next hfills hbreaks]
      by_cases hx : '\n' ∈ x.chars
      · simp [hx, length_semi]
      · simp [hx]

theorem lastLine_after (h : Filling xs) : (s.after xs).lastLine = s.lastLine := by
  induction xs generalizing s with
  | nil => rfl
  | cons x xs ih =>
      obtain ⟨⟨hfills, -⟩, hrest⟩ := List.forall_mem_cons.mp h
      rw [after_cons, ih hrest]
      unfold next
      cases hcls : x.cls with
      | token kind => exact absurd hcls (hfills kind)
      | _ => rfl

/-- The comments are added to the gap one after the other. -/
theorem gap_after (h : Filling xs) :
    (s.after xs).gap =
      (xs.filter fun x => x.cls = .comment).foldl (addComment s.lastLine) s.gap := by
  induction xs generalizing s with
  | nil => rfl
  | cons x xs ih =>
      obtain ⟨⟨hfills, hbreaks⟩, hrest⟩ := List.forall_mem_cons.mp h
      have hone : Filling [x] := List.forall_mem_singleton.mpr ⟨hfills, hbreaks⟩
      have hlast := lastLine_after (s := s) hone
      rw [after_cons, after_nil] at hlast
      rw [after_cons, ih hrest, hlast, List.filter_cons]
      unfold next
      cases hcls : x.cls with
      | token kind => exact absurd hcls (hfills kind)
      | _ => simp [past]

end LayoutState

/-! From one token to the next. -/

namespace LayoutState

/-- The token that lexeme `x` gives. -/
def tokenFor (s : LayoutState) (kind : TokenKind) (x : Lexeme) : Token :=
  ⟨kind, x.span, x.line, s.doc x.line⟩

/-- The token for the end of the file. -/
def tokenForEnd (s : LayoutState) : Token := ⟨.eof, ⟨s.pos, s.pos⟩, s.line, none⟩

/-- Token `u` is laid out right after the tokens of `front`: it is one of the lexemes, or ends the
file. -/
inductive Gives (s : LayoutState) : List Lexeme → List Token → Token → Prop
  | eof (xs : List Lexeme) :
      Gives s xs (s.tokensOf xs ++ (s.after xs).semi (s.after xs).pos (s.after xs).line)
        (s.after xs).tokenForEnd
  | lexeme (xs : List Lexeme) {x : Lexeme} {kind : TokenKind} (h : x.cls = .token kind)
      (ys : List Lexeme) : Gives s (xs ++ x :: ys) (s.tokensOf xs) ((s.after xs).tokenFor kind x)

theorem Gives.cons {s : LayoutState} {x : Lexeme} {xs : List Lexeme} {front : List Token}
    {u : Token} (h : (s.next x).Gives xs front u) : s.Gives (x :: xs) (s.given x ++ front) u := by
  cases h with
  | eof xs =>
      rw [← List.append_assoc]
      exact .eof (x :: xs)
  | lexeme xs h ys => exact .lexeme (x :: xs) h ys

/-- Where a token stands that is no semicolon for a line end. -/
theorem gives_of_tokens_eq {s : LayoutState} {xs : List Lexeme} {front back : List Token}
    {u : Token} (h : (layout s xs).tokens = front ++ u :: back) (hu : u.kind ≠ .semi true)
    (hbreaks : ∀ x ∈ xs, x.Breaks) : s.Gives xs front u := by
  induction xs generalizing s front with
  | nil =>
      rw [layout] at h
      rcases List.eq_nil_or_concat back with rfl | ⟨more, last, rfl⟩
      · obtain ⟨rfl, hlast⟩ := List.append_inj' h rfl
        obtain rfl := List.singleton_inj.mp hlast
        exact .eof []
      · rw [List.concat_eq_append, ← List.cons_append, ← List.append_assoc] at h
        obtain ⟨hsemi, -⟩ := List.append_inj' h rfl
        have hmem : u ∈ s.semi s.pos s.line := by simp [hsemi]
        exact absurd (kind_of_mem_semi u hmem) hu
  | cons x xs ih =>
      obtain ⟨hx, hrest⟩ := List.forall_mem_cons.mp hbreaks
      rw [layout_cons] at h
      by_cases hfills : x.Fills
      · have hgiven : ∀ t ∈ s.given x, t.kind = .semi true := by
          have := kind_of_mem_tokensOf (s := s) (List.forall_mem_singleton.mpr ⟨hfills, hx⟩)
          simpa only [tokensOf, List.append_nil] using this
        rcases List.append_eq_append_iff.mp h with ⟨more, rfl, hmore⟩ | ⟨more, hfront, hmore⟩
        · exact (ih hmore hrest).cons
        · cases more with
          | nil =>
              rw [List.append_nil] at hfront
              have hnext : (s.next x).Gives xs [] u := ih hmore.symm hrest
              simpa only [hfront, List.append_nil] using hnext.cons
          | cons v more =>
              obtain ⟨rfl, -⟩ := List.cons.inj hmore
              exact absurd (hgiven u (by simp [hfront])) hu
      · obtain ⟨kind, hkind⟩ : ∃ kind, x.cls = .token kind := by
          simpa [Lexeme.Fills] using hfills
        have hgiven : s.given x = [s.tokenFor kind x] := by simp [given, hkind, tokenFor]
        rw [hgiven] at h
        cases front with
        | nil =>
            obtain ⟨rfl, -⟩ := List.cons.inj h
            exact .lexeme [] hkind xs
        | cons t front =>
            obtain ⟨rfl, hmore⟩ := List.cons.inj h
            have := (ih hmore hrest).cons
            rwa [hgiven] at this

end LayoutState

/-- Lexemes from the start of a text up to a token, or none. -/
inductive UpToToken : List Lexeme → Option Token → Prop
  | start : UpToToken [] none
  | token {xs : List Lexeme} {x : Lexeme} {kind : TokenKind} (h : x.cls = .token kind) :
      UpToToken (xs ++ [x]) (some ((LayoutState.initial.after xs).tokenFor kind x))

/-- Lexemes from a token on, laid out from state `s`; none if the token ends the file. -/
inductive FromToken (s : LayoutState) : List Lexeme → Token → Prop
  | eof : FromToken s [] s.tokenForEnd
  | token {x : Lexeme} {kind : TokenKind} (h : x.cls = .token kind) (hkind : kind ≠ .eof)
      (xs : List Lexeme) : FromToken s (x :: xs) (s.tokenFor kind x)

namespace UpToToken

variable {xs : List Lexeme} {previous : Option Token}

theorem exists_append (xs : List Lexeme) :
    ∃ read filling previous, xs = read ++ filling ∧ UpToToken read previous ∧
      ∀ x ∈ filling, x.Fills := by
  induction xs using List.reverseRecOn with
  | nil => exact ⟨[], [], none, rfl, .start, List.forall_mem_nil _⟩
  | append_singleton xs x ih =>
      by_cases hfills : x.Fills
      · obtain ⟨read, filling, previous, rfl, hread, hfilling⟩ := ih
        refine ⟨read, filling ++ [x], previous, List.append_assoc _ _ _, hread, ?_⟩
        exact List.forall_mem_append.mpr ⟨hfilling, List.forall_mem_singleton.mpr hfills⟩
      · obtain ⟨kind, hkind⟩ : ∃ kind, x.cls = .token kind := by
          simpa [Lexeme.Fills] using hfills
        exact ⟨xs ++ [x], [], _, (List.append_nil _).symm, .token hkind, List.forall_mem_nil _⟩

theorem tokensOf_none (h : UpToToken xs none) : LayoutState.initial.tokensOf xs = [] := by
  cases h
  rfl

theorem exists_tokensOf {t : Token} (h : UpToToken xs (some t)) :
    ∃ front, LayoutState.initial.tokensOf xs = front ++ [t] := by
  cases h with
  | @token xs x kind h =>
      refine ⟨LayoutState.initial.tokensOf xs, ?_⟩
      rw [LayoutState.tokensOf_append]
      simp [LayoutState.tokensOf, LayoutState.given, h, LayoutState.tokenFor]

/-- It is no semicolon for a line end. -/
theorem kind_ne {t : Token} (h : UpToToken xs (some t)) (hstand : StandAfter [] xs) :
    t.kind ≠ .semi true := by
  cases h with
  | token h =>
      obtain ⟨-, -, hfits, -⟩ := (standAfter_append.mp hstand).2
      rw [Lexeme.Fits, h] at hfits
      rintro rfl
      cases hfits.1

/-- Right after a token its own kind decides whether a line end finishes the statement. -/
theorem ends (h : UpToToken xs previous) :
    (LayoutState.initial.after xs).ends = previous.any fun t => t.kind.endsStatement := by
  cases h with
  | start => rfl
  | token h => simp [LayoutState.after_append, LayoutState.next, h, LayoutState.afterToken,
      LayoutState.tokenFor]

theorem gap (h : UpToToken xs previous) : (LayoutState.initial.after xs).gap = [] := by
  cases h with
  | start => rfl
  | token h => simp [LayoutState.after_append, LayoutState.next, h, LayoutState.afterToken]

/-- The lexemes reach to the end of the token. -/
theorem stop (h : UpToToken xs previous) (hstand : StandAfter [] xs) :
    previous.elim 0 (·.span.stop) = utf8Length (charsOf xs) := by
  cases h with
  | start => rfl
  | token h => exact hstand.stop_eq

theorem lastLine (h : UpToToken xs previous) {cs rest : List Char} (hcs : cs = charsOf xs ++ rest)
    (hstand : StandAfter [] xs) :
    (LayoutState.initial.after xs).lastLine = previous.map fun t => lineAt cs t.span.stop := by
  have hstop := h.stop hstand
  cases h with
  | start => rfl
  | @token xs x kind h =>
      obtain ⟨-, hline, -⟩ := (standAfter_append.mp hstand).2
      have hend : x.endLine = 1 + (charsOf (xs ++ [x])).count '\n' := by
        rw [List.nil_append] at hline
        rw [Lexeme.endLine, hline, charsOf_append, charsOf_cons, charsOf_nil, List.count_append,
          List.append_nil, Nat.add_assoc]
      have hlast : (LayoutState.initial.after (xs ++ [x])).lastLine = some x.endLine := by
        simp [LayoutState.after_append, LayoutState.next, h, LayoutState.afterToken]
      rw [hlast, hend, Option.map_some, hcs, ← lineAt_append (charsOf (xs ++ [x])) rest, ← hstop]
      rfl

end UpToToken

theorem FromToken.start {xs : List Lexeme} {s : LayoutState} {u : Token} {before : List Char}
    (h : FromToken s xs u) (hpos : s.pos = utf8Length before) (hstand : StandAfter before xs) :
    u.span.start = utf8Length before := by
  cases h with
  | eof => exact hpos
  | token h => exact hstand.1

/-- The lexemes of a text around the gap in front of token `u`: those up to the token before it,
those of the gap, and those from `u` on.  The gap gives a semicolon if a line ends there that
finishes a statement. -/
structure Gap (xs : List Lexeme) (front : List Token) (u : Token)
    (read filling rest : List Lexeme) (previous : Option Token) (semis : List Token) : Prop where
  parts : xs = read ++ (filling ++ rest)
  upTo : UpToToken read previous
  fills : Filling filling
  onward : FromToken (LayoutState.initial.after (read ++ filling)) rest u
  front : front = LayoutState.initial.tokensOf read ++ semis
  implicit : ∀ t ∈ semis, t.kind = .semi true
  length_semis : semis.length =
    if (previous.any fun t => t.kind.endsStatement) = true ∧
      (u.kind = .eof ∨ '\n' ∈ charsOf filling) then 1 else 0

theorem exists_lexemes_of_tokenize {text : String} {stream : TokenStream}
    (h : tokenize text = .ok stream) :
    ∃ xs, lexemes text.toList = .ok xs ∧ stream = layout .initial xs := by
  unfold tokenize at h
  cases hlexemes : lexemes text.toList with
  | error e =>
      rw [hlexemes] at h
      cases h
  | ok xs =>
      rw [hlexemes] at h
      cases h
      exact ⟨xs, rfl, rfl⟩

namespace Gap

variable {cs : List Char} {xs read filling rest : List Lexeme} {front semis : List Token}
  {u : Token} {previous : Option Token}

theorem standAfter_read (h : Gap xs front u read filling rest previous semis)
    (hstand : StandAfter [] xs) : StandAfter [] read := by
  rw [h.parts] at hstand
  exact (standAfter_append.mp hstand).1

/-- Where the token after the gap starts. -/
theorem start_eq (h : Gap xs front u read filling rest previous semis)
    (hstand : StandAfter [] xs) : u.span.start = utf8Length (charsOf (read ++ filling)) := by
  rw [h.parts, ← List.append_assoc] at hstand
  obtain ⟨hbefore, hafter⟩ := standAfter_append.mp hstand
  exact h.onward.start (pos_after hbefore rfl) hafter

/-- What stands between the tokens around the gap. -/
theorem slice_eq (h : Gap xs front u read filling rest previous semis)
    (hstand : StandAfter [] xs) :
    slice (charsOf xs) (previous.elim 0 (·.span.stop)) u.span.start = charsOf filling := by
  rw [h.upTo.stop (h.standAfter_read hstand), h.start_eq hstand, h.parts, charsOf_append,
    charsOf_append, charsOf_append, utf8Length_append, slice_append]

end Gap

/-- In front of every token that is no semicolon for a line end there is a gap. -/
theorem exists_gap {cs : List Char} {xs : List Lexeme} {front back : List Token} {u : Token}
    (h : lexemes cs = .ok xs) (htokens : (layout .initial xs).tokens = front ++ u :: back)
    (hu : u.kind ≠ .semi true) :
    ∃ read filling rest previous semis, Gap xs front u read filling rest previous semis := by
  have hbreaks := breaks_of_lexemes h
  obtain ⟨hstand, -⟩ := standAfter_lexemes h
  have hgives := LayoutState.gives_of_tokens_eq htokens hu hbreaks
  cases hgives with
  | eof xs =>
      obtain ⟨read, filling, previous, rfl, hread, hfills⟩ := UpToToken.exists_append xs
      have hfilling : Filling filling := fun x hx => ⟨hfills x hx, hbreaks x (by simp [hx])⟩
      rw [LayoutState.tokensOf_append, List.append_assoc]
      refine ⟨read, filling, [], previous, _, by simp, hread, hfilling, .eof, rfl, ?_, ?_⟩
      · exact List.forall_mem_append.mpr
          ⟨LayoutState.kind_of_mem_tokensOf hfilling, LayoutState.kind_of_mem_semi⟩
      · rw [List.length_append, LayoutState.length_tokensOf hfilling, LayoutState.length_semi,
          LayoutState.after_append, LayoutState.ends_after hfilling, hread.ends]
        by_cases hline : '\n' ∈ charsOf filling <;> simp [hline, LayoutState.tokenForEnd]
  | @lexeme ys x kind hx zs =>
      obtain ⟨read, filling, previous, rfl, hread, hfills⟩ := UpToToken.exists_append ys
      have hfilling : Filling filling := fun x hx => ⟨hfills x hx, hbreaks x (by simp [hx])⟩
      have hkind : kind ≠ .eof := by
        rintro rfl
        obtain ⟨-, -, hfits, -⟩ := (standAfter_append.mp hstand).2
        rw [Lexeme.Fits, hx] at hfits
        cases hfits.1
      rw [LayoutState.tokensOf_append]
      refine ⟨read, filling, x :: zs, previous, _, List.append_assoc _ _ _, hread, hfilling,
        .token hx hkind zs, rfl, LayoutState.kind_of_mem_tokensOf hfilling, ?_⟩
      rw [LayoutState.length_tokensOf hfilling, hread.ends]
      simp [LayoutState.tokenFor, hkind]

end FieldRules
