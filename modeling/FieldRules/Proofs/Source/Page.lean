/-
Pages: texts written word by word, with doc lines above some of the words.  The tokens
of a page are its words and the line ends that finish statements, and each word keeps
the doc lines that stand right above it.
-/
import FieldRules.Proofs.Source.Spelling
import FieldRules.Source.Reading
import FieldRules.Proofs.Outcome

namespace FieldRules

/-- A text on one line. -/
structure DocLine where
  text : String
  onLine : '\n' ∉ text.toList

namespace DocLine

/-- The line as a comment. -/
def chars (l : DocLine) : List Char := '/' :: '/' :: ' ' :: l.text.toList

/-- What a reader of the comment gets: the text without the white space around it. -/
def body (l : DocLine) : String := trimText l.text

theorem newline_not_mem_chars (l : DocLine) : '\n' ∉ l.chars := by
  intro h
  simp only [chars, List.mem_cons] at h
  rcases h with h | h | h | h
  · cases h
  · cases h
  · cases h
  · exact l.onLine h

end DocLine

/-- What stands before a word: the line end of the line above and doc lines, a blank, or
nothing. -/
inductive Lead where
  | line (doc : List DocLine)
  | space
  | joined

structure Placed where
  lead : Lead
  word : Word

/-- Doc lines, each a comment on its own line. -/
def docChars : List DocLine → List Char
  | [] => []
  | l :: ls => l.chars ++ '\n' :: docChars ls

/-- The text before a word.  Words that would run together get a blank between them. -/
def Lead.chars (previous : TokenKind) (first : Option Char) : Lead → List Char
  | line doc => '\n' :: docChars doc
  | space => [' ']
  | joined => if first.all (stopsAt previous) then [] else [' ']

/-- The text of words that follow a token, and the line end after them. -/
def pageChars (previous : TokenKind) : List Placed → List Char
  | [] => ['\n']
  | p :: ps =>
      p.lead.chars previous p.word.chars.head? ++ p.word.chars ++ pageChars p.word.kind ps

/-- A token on a page: its kind and the lines that document it. -/
structure Mark where
  kind : TokenKind
  doc : Option (List String)

/-- The bodies of doc lines, where there are some. -/
def docBodies : List DocLine → Option (List String)
  | [] => none
  | l :: ls => some ((l :: ls).map DocLine.body)

/-- The semicolon for a line end, where the word before it ends a statement. -/
def lineEnd (ends : Bool) : List Mark := if ends then [⟨.semi true, none⟩] else []

def Placed.marks (ends : Bool) (p : Placed) : List Mark :=
  match p.lead with
  | .line doc => lineEnd ends ++ [⟨p.word.kind, docBodies doc⟩]
  | .space | .joined => [⟨p.word.kind, none⟩]

/-- The tokens of words that follow a token; `ends` tells whether it ends a statement. -/
def pageMarks (ends : Bool) : List Placed → List Mark
  | [] => lineEnd ends ++ [⟨.eof, none⟩]
  | p :: ps => p.marks ends ++ pageMarks p.word.kind.endsStatement ps

/-- A token stands for a mark: it is of its kind, covers its spelling, and is documented
as the mark says. -/
structure Marked (src : SourceText) (m : Mark) (t : Token) : Prop where
  kind : t.kind = m.kind
  doc : (src.docOf t).map CommentGroup.lines = m.doc
  spelling : src.between t.span.start t.span.stop = m.kind.spelling

/-- Tokens stand for marks, one by one. -/
def Follows (src : SourceText) (ms : List Mark) (ts : List Token) : Prop :=
  List.Forall₂ (Marked src) ms ts

/-! Laying out a page. -/

/-- From state `s` the text is cut and laid out into the tokens of `ms`, whatever text and
groups stand before it. -/
def Lays (s : LayoutState) (cs : List Char) (ms : List Mark) : Prop :=
  ∃ xs, lexemesFrom s.pos s.line cs = .ok xs ∧
    ∀ before groups, utf8Length before = s.pos → groups.length = s.closed →
      Follows ⟨before ++ cs, groups ++ (layout s xs).groups⟩ ms (layout s xs).tokens

theorem lexemesFrom_cons {pos line : Nat} (c : Char) (cs : List Char) {rest : List Char}
    {cls : LexemeClass} {xs : List Lexeme}
    (hone : lexemeAt pos c (cs ++ rest) = .ok (cls, cs.length))
    (hmore : lexemesFrom (pos + utf8Length (c :: cs)) (line + (c :: cs).count '\n') rest = .ok xs) :
    lexemesFrom pos line (c :: cs ++ rest) = .ok (⟨cls, c :: cs, pos, line⟩ :: xs) := by
  rw [List.cons_append, lexemesFrom, hone]
  simp only [ok_bind, List.take_left, List.drop_left, Lexeme.stop, Lexeme.endLine, hmore]
  rfl

theorem lays_space {s : LayoutState} {cs : List Char} {ms : List Mark}
    (h : Lays { s with pos := s.pos + 1 } cs ms) : Lays s (' ' :: cs) ms := by
  obtain ⟨xs, hxs, hlay⟩ := h
  refine ⟨⟨.blank, [' '], s.pos, s.line⟩ :: xs, lexemesFrom_cons ' ' [] rfl hxs, ?_⟩
  intro before groups hbefore hgroups
  have hpos : utf8Length (before ++ [' ']) = s.pos + 1 := by
    rw [utf8Length_append, hbefore]
    rfl
  have := hlay (before ++ [' ']) groups hpos hgroups
  rw [List.append_assoc] at this
  exact this

theorem Marked.lineEnd {src : SourceText} {pos line : Nat} :
    Marked src ⟨.semi true, none⟩ ⟨.semi true, ⟨pos, pos⟩, line, none⟩ := by
  constructor
  · rfl
  · rfl
  · simp [SourceText.between, slice, TokenKind.spelling]

theorem follows_semi {src : SourceText} {s : LayoutState} {pos line : Nat} {ms : List Mark}
    {ts : List Token} (h : Follows src ms ts) :
    Follows src (lineEnd s.ends ++ ms) (s.semi pos line ++ ts) := by
  unfold lineEnd LayoutState.semi
  cases s.ends with
  | false => exact h
  | true => exact .cons .lineEnd h

theorem lays_newline {s : LayoutState} {cs : List Char} {ms : List Mark}
    (h : Lays { s with pos := s.pos + 1, line := s.line + 1, ends := false } cs ms) :
    Lays s ('\n' :: cs) (lineEnd s.ends ++ ms) := by
  obtain ⟨xs, hxs, hlay⟩ := h
  refine ⟨⟨.newline, ['\n'], s.pos, s.line⟩ :: xs, lexemesFrom_cons '\n' [] rfl hxs, ?_⟩
  intro before groups hbefore hgroups
  have hpos : utf8Length (before ++ ['\n']) = s.pos + 1 := by
    rw [utf8Length_append, hbefore]
    rfl
  have := hlay (before ++ ['\n']) groups hpos hgroups
  rw [List.append_assoc] at this
  exact follows_semi this

/-- A line end that ends no statement. -/
theorem lays_break {s : LayoutState} (hends : s.ends = false) {cs : List Char} {ms : List Mark}
    (h : Lays { s with pos := s.pos + 1, line := s.line + 1 } cs ms) : Lays s ('\n' :: cs) ms := by
  rw [hends] at h
  have := lays_newline h
  rwa [hends] at this

/-- The end of a page. -/
theorem lays_nil (s : LayoutState) : Lays s [] (lineEnd s.ends ++ [⟨.eof, none⟩]) := by
  refine ⟨[], lexemesFrom_nil s.pos s.line, ?_⟩
  intro before groups hbefore hgroups
  refine follows_semi (.cons ⟨rfl, rfl, ?_⟩ .nil)
  simp [SourceText.between, slice, TokenKind.spelling]

/-! Doc lines. -/

theorem DocLine.body_toComment (l : DocLine) (pos line : Nat) :
    (Lexeme.toComment ⟨.comment, l.chars, pos, line⟩).body = l.body := by
  have htext : Lexeme.commentText ⟨.comment, l.chars, pos, line⟩ =
      '/' :: '/' :: ' ' :: dropEndWhile (· == '\r') l.text.toList :=
    dropEndWhile_append_cons (c := ' ') (by decide) ['/', '/'] l.text.toList
  have hreturn : ∀ c, (c == '\r') = true → isBlank c = true := by
    intro c hc
    rw [eq_of_beq hc]
    decide
  rw [Lexeme.toComment, Comment.body, htext, String.toList_ofList, commentInner,
    trim_cons_blank (by decide), trim_dropEndWhile hreturn, body, trimText]

theorem lexemeAt_docLine (l : DocLine) (pos : Nat) (cs : List Char) :
    lexemeAt pos '/' ('/' :: ' ' :: l.text.toList ++ '\n' :: cs) =
      .ok (.comment, ('/' :: ' ' :: l.text.toList).length) := by
  have hline : ∀ c ∈ '/' :: ' ' :: l.text.toList, (c != '\n') = true := by
    intro c hc
    rw [bne_iff_ne]
    rintro rfl
    exact l.newline_not_mem_chars (List.mem_cons_of_mem _ hc)
  conv_rhs => rw [← takeWhile_append_stop ('\n' :: cs) hline (by simp)]
  rfl

theorem lays_docLine {s : LayoutState} (l : DocLine) {cs : List Char} {ms : List Mark}
    (h : Lays { s with pos := s.pos + utf8Length l.chars,
                       gap := addComment s.lastLine s.gap ⟨.comment, l.chars, s.pos, s.line⟩ }
      ('\n' :: cs) ms) :
    Lays s (l.chars ++ '\n' :: cs) ms := by
  obtain ⟨xs, hxs, hlay⟩ := h
  have hcount : l.chars.count '\n' = 0 := List.count_eq_zero.mpr l.newline_not_mem_chars
  have hcontains : l.chars.contains '\n' = false := by
    simpa using l.newline_not_mem_chars
  refine ⟨⟨.comment, l.chars, s.pos, s.line⟩ :: xs, ?_, ?_⟩
  · apply lexemesFrom_cons '/' _ (lexemeAt_docLine l s.pos cs)
    rw [show '/' :: '/' :: ' ' :: l.text.toList = l.chars from rfl, hcount]
    exact hxs
  · intro before groups hbefore hgroups
    have hpos : utf8Length (before ++ l.chars) = s.pos + utf8Length l.chars := by
      rw [utf8Length_append, hbefore]
    have := hlay (before ++ l.chars) groups hpos hgroups
    rw [List.append_assoc] at this
    simp only [layout, hcontains, LayoutState.past, Lexeme.stop, Lexeme.endLine, hcount]
    exact this

/-- What the comments of a gap say about a token on `line`. -/
inductive Documents (line : Nat) : List CommentGroup → Option (List String) → Prop
  | nothing : Documents line [] none
  | group (g : CommentGroup) (lone : g.trailing = false) (above : g.endLine + 1 = line) :
      Documents line [g] (some g.lines)

/-- A line that starts below the last token, with doc lines right above it. -/
structure Fresh (s : LayoutState) (doc : Option (List String)) : Prop where
  ends : s.ends = false
  below : ∀ line ∈ s.lastLine, line < s.line
  gap : Documents s.line s.gap doc

theorem Documents.addComment {last : Option Nat} {line pos : Nat} {gap : List CommentGroup}
    {doc : Option (List String)} (h : Documents line gap doc) (hlast : ∀ n ∈ last, n < line)
    (l : DocLine) :
    Documents (line + 1) (addComment last gap ⟨.comment, l.chars, pos, line⟩)
      (some (doc.getD [] ++ [l.body])) := by
  have hcount : l.chars.count '\n' = 0 := List.count_eq_zero.mpr l.newline_not_mem_chars
  cases h with
  | nothing =>
      have htrailing : (last == some line) = false := by
        cases last with
        | none => rfl
        | some n => simpa using (hlast n rfl).ne
      have hbody := l.body_toComment pos line
      have hgroup : Documents (line + 1) _ _ := .group
        (.single ⟨.comment, l.chars, pos, line⟩ (last == some line)) htrailing
        (by simp [CommentGroup.single, Lexeme.endLine, hcount])
      simpa [FieldRules.addComment, CommentGroup.lines, CommentGroup.single, hbody] using hgroup
  | group g lone above =>
      have hadjoins : g.adjoins line = true := by
        rw [CommentGroup.adjoins, lone]
        simp [above]
      have hbody := l.body_toComment pos line
      have hgroup : Documents (line + 1) _ _ := .group
        (g.extend ⟨.comment, l.chars, pos, line⟩) lone
        (by simp [CommentGroup.extend, Lexeme.endLine, hcount])
      simpa [FieldRules.addComment, hadjoins, CommentGroup.lines, CommentGroup.extend, hbody]
        using hgroup

/-- The lines that document what stands below `doc`, with more lines above it. -/
def gatherDocs (above : Option (List String)) (doc : List DocLine) : Option (List String) :=
  doc.foldl (fun lines l => some (lines.getD [] ++ [l.body])) above

theorem gatherDocs_some (lines : List String) (doc : List DocLine) :
    gatherDocs (some lines) doc = some (lines ++ doc.map DocLine.body) := by
  induction doc generalizing lines with
  | nil => simp [gatherDocs]
  | cons l ls ih =>
      have := ih (lines ++ [l.body])
      rw [List.append_assoc] at this
      exact this

theorem gatherDocs_none (doc : List DocLine) : gatherDocs none doc = docBodies doc := by
  cases doc with
  | nil => rfl
  | cons l ls => exact gatherDocs_some [l.body] ls

/-- Doc lines gather above the line after them. -/
theorem lays_docs {cs : List Char} {ms : List Mark} (doc : List DocLine) {s : LayoutState}
    {above : Option (List String)} (hs : Fresh s above)
    (h : ∀ s', Fresh s' (gatherDocs above doc) → Lays s' cs ms) :
    Lays s (docChars doc ++ cs) ms := by
  induction doc generalizing s above with
  | nil => exact h s hs
  | cons l ls ih =>
      rw [docChars, List.append_assoc, List.cons_append]
      apply lays_docLine
      apply lays_break
      · exact hs.ends
      · refine ih ⟨hs.ends, ?_, hs.gap.addComment hs.below l⟩ h
        intro line hline
        exact Nat.lt_succ_of_lt (hs.below line hline)

/-! Words. -/

/-- Right after a token on the current line. -/
structure Settled (s : LayoutState) (ends : Bool) : Prop where
  ends : s.ends = ends
  line : s.lastLine = some s.line
  gap : s.gap = []

theorem docOf_documents {s : LayoutState} {doc : Option (List String)} {chars : List Char}
    {groups more : List CommentGroup} {kind : TokenKind} {span : Span}
    (h : Documents s.line s.gap doc) (hgroups : groups.length = s.closed) :
    (SourceText.docOf ⟨chars, groups ++ (s.gap ++ more)⟩
      ⟨kind, span, s.line, s.doc s.line⟩).map CommentGroup.lines = doc := by
  unfold LayoutState.doc
  generalize s.gap = gap at *
  cases h with
  | nothing => rfl
  | group g lone above =>
      have hdocuments : g.documents s.line = true := by
        simp [CommentGroup.documents, lone, above]
      simp [SourceText.docOf, hdocuments, ← hgroups]

/-- A word is laid out as its token, with the lines that document it. -/
theorem lays_word {s : LayoutState} (w : Word) {doc : Option (List String)} {cs : List Char}
    {ms : List Mark} (hdoc : Documents s.line s.gap doc)
    (hstop : ∀ d ∈ cs.head?, stopsAt w.kind d = true)
    (h : ∀ s', Settled s' w.kind.endsStatement → Lays s' cs ms) :
    Lays s (w.chars ++ cs) (⟨w.kind, doc⟩ :: ms) := by
  obtain ⟨c, more, hchars, -⟩ := w.exists_chars
  obtain ⟨xs, hxs, hlay⟩ :=
    h (s.afterToken w.kind ⟨.token w.kind, w.chars, s.pos, s.line⟩) ⟨rfl, rfl, rfl⟩
  refine ⟨⟨.token w.kind, w.chars, s.pos, s.line⟩ :: xs, ?_, ?_⟩
  · rw [hchars]
    apply lexemesFrom_cons c more (w.lexemeAt_chars hchars hstop s.pos)
    rw [← hchars]
    exact hxs
  · intro before groups hbefore hgroups
    have hpos : utf8Length (before ++ w.chars) = s.pos + utf8Length w.chars := by
      rw [utf8Length_append, hbefore]
    have hclosed : (groups ++ s.gap).length = s.closed + s.gap.length := by
      rw [List.length_append, hgroups]
    have hrest := hlay (before ++ w.chars) (groups ++ s.gap) hpos hclosed
    rw [List.append_assoc, List.append_assoc] at hrest
    refine .cons ⟨rfl, docOf_documents hdoc hgroups, ?_⟩ hrest
    have hslice := slice_append before w.chars cs
    rw [hbefore] at hslice
    simp only [SourceText.between, Lexeme.span, Lexeme.stop, hslice]
    exact String.ofList_toList

/-- What comes after a word ends it. -/
theorem stopsAt_head_pageChars (w : Word) (ps : List Placed) :
    ∀ d ∈ (pageChars w.kind ps).head?, stopsAt w.kind d = true := by
  intro d hd
  cases ps with
  | nil =>
      cases hd
      exact stopsAt_blank w.kind (.inr rfl)
  | cons p ps =>
      obtain ⟨lead, word⟩ := p
      obtain ⟨c, cs, hchars, -⟩ := word.exists_chars
      rw [pageChars, hchars] at hd
      cases lead with
      | line doc =>
          cases hd
          exact stopsAt_blank w.kind (.inr rfl)
      | space =>
          cases hd
          exact stopsAt_blank w.kind (.inl rfl)
      | joined =>
          by_cases hstop : stopsAt w.kind c = true
          · simp [Lead.chars, hstop] at hd
            rwa [← hd]
          · simp [Lead.chars, hstop] at hd
            rw [← hd]
            exact stopsAt_blank w.kind (.inl rfl)

/-- A page is laid out as its marks. -/
theorem lays_page (w : Word) (ps : List Placed) {s : LayoutState}
    (hs : Settled s w.kind.endsStatement) :
    Lays s (pageChars w.kind ps) (pageMarks w.kind.endsStatement ps) := by
  induction ps generalizing w s with
  | nil =>
      rw [← hs.ends]
      exact lays_newline (lays_nil _)
  | cons p ps ih =>
      obtain ⟨lead, word⟩ := p
      have hstop := stopsAt_head_pageChars word ps
      have hgap : Documents s.line s.gap none := by
        rw [hs.gap]
        exact .nothing
      cases lead with
      | line doc =>
          have hbelow : ∀ line ∈ s.lastLine, line < s.line + 1 := by
            intro line hline
            rw [hs.line, Option.mem_some_iff] at hline
            exact hline ▸ Nat.lt_succ_self _
          have hclear : Documents (s.line + 1) s.gap none := by
            rw [hs.gap]
            exact .nothing
          simp only [pageChars, pageMarks, Placed.marks, Lead.chars, List.cons_append,
            List.append_assoc, ← hs.ends]
          apply lays_newline
          apply lays_docs doc ⟨rfl, hbelow, hclear⟩
          intro s' hs'
          rw [gatherDocs_none] at hs'
          exact lays_word word hs'.gap hstop fun s'' => ih word
      | space =>
          apply lays_space
          exact lays_word word hgap hstop fun s' => ih word
      | joined =>
          simp only [pageChars, pageMarks, Placed.marks, Lead.chars]
          split
          · exact lays_word word hgap hstop fun s' => ih word
          · apply lays_space
            exact lays_word word hgap hstop fun s' => ih word

/-- A text that starts with a word. -/
def page (first : Word) (ps : List Placed) : String :=
  String.ofList (first.chars ++ pageChars first.kind ps)

theorem tokenize_page (first : Word) (ps : List Placed)
    (hmark : first.chars.head? ≠ some byteOrderMark) :
    ∃ stream, tokenize (page first ps) = .ok stream ∧
      Follows ⟨(page first ps).toList, stream.groups⟩
        (⟨first.kind, none⟩ :: pageMarks first.kind.endsStatement ps) stream.tokens := by
  obtain ⟨c, cs, hchars, -⟩ := first.exists_chars
  have hfirst : c ≠ byteOrderMark := by
    rintro rfl
    rw [hchars] at hmark
    exact hmark rfl
  obtain ⟨xs, hxs, hlay⟩ := lays_word (s := .initial) first .nothing
    (stopsAt_head_pageChars first ps) fun s' => lays_page first ps
  have hlexemes : lexemes (page first ps).toList = .ok xs := by
    rw [page, String.toList_ofList, hchars, List.cons_append, lexemes, if_neg hfirst]
    rw [hchars] at hxs
    exact hxs
  refine ⟨layout .initial xs, ?_, ?_⟩
  · rw [tokenize, hlexemes]
    rfl
  · have := hlay [] [] rfl rfl
    rw [page, String.toList_ofList]
    exact this

end FieldRules
