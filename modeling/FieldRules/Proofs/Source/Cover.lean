/-
Tokenizing covers the text: tokens and comments are pieces of it, in order and apart, and only
white space and a byte order mark lie between them.
-/
import FieldRules.Proofs.Source.Lexemes
import FieldRules.Proofs.Text.Places
import Mathlib

namespace FieldRules

/-! Tokens and comments together. -/

/-- A token is the piece of the text at its span, well-formed by itself, or empty if it is not
written. -/
structure Token.StandsIn (cs : List Char) (t : Token) : Prop where
  cuts : t.span.Cuts cs
  line : t.line = lineAt cs t.span.start
  written : ∀ s, t.kind.written? = some s → slice cs t.span.start t.span.stop = s.toList
  empty : t.kind.written? = none → t.span.start = t.span.stop
  lexical : t.kind.Lexical

structure Comment.StandsIn (cs : List Char) (c : Comment) : Prop where
  cuts : c.span.Cuts cs
  text : CommentText (slice cs c.span.start c.span.stop) c.text

/-- A group has comments, and reaches from the line of the first to that of the last. -/
structure CommentGroup.StandsIn (cs : List Char) (g : CommentGroup) : Prop where
  startLine : ∃ first ∈ g.comments.head?, g.startLine = lineAt cs first.span.start
  endLine : ∃ last ∈ g.comments.getLast?, g.endLine = lineAt cs last.span.stop

/-- What a text has besides white space. -/
inductive Mention where
  | token (t : Token)
  | comment (c : Comment)

namespace Mention

def span : Mention → Span
  | token t => t.span
  | comment c => c.span

def token? : Mention → Option Token
  | token t => some t
  | comment _ => none

def comment? : Mention → Option Comment
  | token _ => none
  | comment c => some c

def StandsIn (cs : List Char) : Mention → Prop
  | token t => t.StandsIn cs
  | comment c => c.StandsIn cs

end Mention

/-- What is mentioned after `before`: in order, and with nothing but gaps between. -/
structure Tiles (cs before : List Char) (ms : List Mention) : Prop where
  ordered : ms.Pairwise fun a b => a.span.Before b.span
  after : ∀ m ∈ ms, utf8Length before ≤ m.span.start
  stands : ∀ m ∈ ms, m.StandsIn cs
  gaps : ∀ n, utf8Length before ≤ n → n < utf8Length cs →
    (∃ m ∈ ms, m.span.Contains n) ∨ IsByteOf IsGap cs n

theorem tiles_nil (cs : List Char) : Tiles cs cs [] where
  ordered := .nil
  after := List.forall_mem_nil _
  stands := List.forall_mem_nil _
  gaps _ hle hlt := absurd hle (Nat.not_le.mpr hlt)

theorem Tiles.gap {cs before after : List Char} {ms : List Mention} {c : Char}
    (h : Tiles cs (before ++ [c]) ms) (hcs : cs = before ++ c :: after) (hc : IsGap before c) :
    Tiles cs before ms where
  ordered := h.ordered
  after m hm := by
    have := h.after m hm
    rw [utf8Length_append] at this
    omega
  stands := h.stands
  gaps n hle hlt := by
    by_cases hin : n < utf8Length before + c.utf8Size
    · exact .inr ⟨before, c, after, hcs, hle, hin, hc⟩
    · apply h.gaps n _ hlt
      simp only [utf8Length_append, utf8Length_cons, utf8Length_nil]
      omega

/-- One mention more, right after `before`.  A mention that is not written is empty. -/
theorem Tiles.mention {cs before : List Char} {m : Mention} {ms : List Mention}
    (piece : List Char) (h : Tiles cs (before ++ piece) ms)
    (hspan : m.span = ⟨utf8Length before, utf8Length before + utf8Length piece⟩)
    (hm : m.StandsIn cs) : Tiles cs before (m :: ms) where
  ordered := by
    refine .cons ?_ h.ordered
    intro other hother
    have := h.after other hother
    rw [utf8Length_append] at this
    rwa [Span.Before, hspan]
  after := by
    intro other hother
    rcases List.mem_cons.mp hother with rfl | hother
    · rw [hspan]
    · have := h.after other hother
      rw [utf8Length_append] at this
      omega
  stands := List.forall_mem_cons.mpr ⟨hm, h.stands⟩
  gaps n hle hlt := by
    by_cases hin : n < utf8Length before + utf8Length piece
    · refine .inl ⟨m, List.mem_cons_self, ?_⟩
      rw [hspan]
      exact ⟨hle, hin⟩
    · rcases h.gaps n (by rw [utf8Length_append]; omega) hlt with ⟨other, hother, hn⟩ | hgap
      · exact .inl ⟨other, List.mem_cons_of_mem m hother, hn⟩
      · exact .inr hgap

theorem Token.standsIn_piece {cs before piece after : List Char} {t : Token}
    (hcs : cs = before ++ (piece ++ after))
    (hspan : t.span = ⟨utf8Length before, utf8Length before + utf8Length piece⟩)
    (hline : t.line = 1 + before.count '\n')
    (hwritten : t.kind.written? = some (String.ofList piece)) (hlexical : t.kind.Lexical) :
    t.StandsIn cs where
  lexical := hlexical
  cuts := by
    rw [hspan, hcs]
    exact Span.cuts_append before piece after
  line := by rw [hline, hspan, hcs, lineAt_append]
  written s hs := by
    rw [hwritten, Option.some.injEq] at hs
    rw [hspan, hcs, slice_append, ← hs, String.toList_ofList]
  empty hnone := by
    rw [hwritten] at hnone
    cases hnone

theorem Token.standsIn_empty {cs before after : List Char} {t : Token}
    (hcs : cs = before ++ after) (hspan : t.span = ⟨utf8Length before, utf8Length before⟩)
    (hline : t.line = 1 + before.count '\n') (hwritten : t.kind.written? = none) :
    t.StandsIn cs where
  lexical := by
    cases hkind : t.kind with
    | semi _ => trivial
    | eof => trivial
    | _ =>
        rw [hkind] at hwritten
        cases hwritten
  cuts := by
    rw [hspan, hcs]
    exact Span.cuts_empty (isBoundary_append before after)
  line := by rw [hline, hspan, hcs, lineAt_append]
  written s hs := by
    rw [hwritten] at hs
    cases hs
  empty _ := by rw [hspan]

/-- The semicolon for a line end, where one is due, stands between two pieces. -/
theorem Tiles.semi {cs before after : List Char} {ms : List Mention} {pos line : Nat}
    (h : Tiles cs before ms) (s : LayoutState) (hcs : cs = before ++ after)
    (hpos : pos = utf8Length before) (hline : line = 1 + before.count '\n') :
    Tiles cs before ((s.semi pos line).map .token ++ ms) := by
  unfold LayoutState.semi
  cases s.ends with
  | false => exact h
  | true =>
      refine Tiles.mention [] (by rwa [List.append_nil]) ?_ ?_
      · simp [Mention.span, hpos]
      · exact Token.standsIn_empty hcs (by simp [hpos]) hline rfl

@[simp] theorem Mention.token?_token (t : Token) : (Mention.token t).token? = some t := rfl

@[simp] theorem Mention.comment?_token (t : Token) : (Mention.token t).comment? = none := rfl

@[simp] theorem filterMap_token?_token (ts : List Token) :
    ts.filterMap (Mention.token? ∘ Mention.token) = ts := List.filterMap_some

@[simp] theorem filterMap_comment?_token (ts : List Token) :
    ts.filterMap (Mention.comment? ∘ Mention.token) = [] :=
  List.filterMap_eq_nil_iff.mpr fun _ _ => rfl

/-- The comments among lexemes. -/
def commentsIn (xs : List Lexeme) : List Comment :=
  (xs.filter fun x => x.cls = .comment).map Lexeme.toComment

theorem Lexeme.span_eq {before : List Char} {x : Lexeme} (h : x.start = utf8Length before) :
    x.span = ⟨utf8Length before, utf8Length before + utf8Length x.chars⟩ := by
  rw [span, stop, h]

/-- Tokens and comments of a layout are the mentions of the text, each in its order. -/
theorem layout_tiles {cs before : List Char} {xs : List Lexeme} {s : LayoutState}
    (hxs : StandAfter before xs) (hcs : cs = before ++ (xs.map Lexeme.chars).flatten)
    (hpos : s.pos = utf8Length before) (hline : s.line = 1 + before.count '\n') :
    ∃ ms, Tiles cs before ms ∧ ms.filterMap Mention.token? = (layout s xs).tokens ∧
      ms.filterMap Mention.comment? = commentsIn xs := by
  induction xs generalizing before s with
  | nil =>
      have hwhole : before = cs := (hcs.trans (List.append_nil before)).symm
      have hend : (Token.mk .eof ⟨s.pos, s.pos⟩ s.line none).StandsIn cs :=
        Token.standsIn_empty hcs (by rw [hpos]) hline rfl
      have hlast : Tiles cs before [.token ⟨.eof, ⟨s.pos, s.pos⟩, s.line, none⟩] := by
        refine Tiles.mention [] ?_ (by simp [Mention.span, hpos]) hend
        rw [List.append_nil, hwhole]
        exact tiles_nil cs
      refine ⟨_, hlast.semi s hcs hpos hline, ?_, ?_⟩
      · simp [Mention.token?, layout]
      · simp [Mention.comment?, commentsIn]
  | cons x xs ih =>
      obtain ⟨hstart, hxline, hfits, hrest⟩ := hxs
      have hwhole : cs = before ++ (x.chars ++ (xs.map Lexeme.chars).flatten) := hcs
      have hnext : cs = before ++ x.chars ++ (xs.map Lexeme.chars).flatten := by
        rw [hwhole, List.append_assoc]
      have hstop : x.stop = utf8Length (before ++ x.chars) := by
        rw [Lexeme.stop, hstart, utf8Length_append]
      have hend : x.endLine = 1 + (before ++ x.chars).count '\n' := by
        rw [Lexeme.endLine, hxline, List.count_append, Nat.add_assoc]
      unfold Lexeme.Fits at hfits
      cases hcls : x.cls with
      | blank =>
          rw [hcls] at hfits
          obtain ⟨c, hchars, hgap⟩ := hfits
          obtain ⟨ms, htiles, htokens, hcomments⟩ := ih (s := s.past x) hrest hnext hstop hend
          rw [hchars] at htiles hwhole
          refine ⟨ms, htiles.gap hwhole hgap, ?_, ?_⟩
          · simpa [layout, hcls] using htokens
          · simpa [commentsIn, hcls] using hcomments
      | newline =>
          rw [hcls] at hfits
          obtain ⟨ms, htiles, htokens, hcomments⟩ :=
            ih (s := { s.past x with ends := false }) hrest hnext hstop hend
          rw [hfits] at htiles hwhole
          have hgap : IsGap before '\n' := .inr (.inr (.inr (.inl rfl)))
          refine ⟨_, (htiles.gap hwhole hgap).semi s hwhole hstart hxline, ?_, ?_⟩
          · simp [htokens, layout, hcls]
          · simpa [commentsIn, hcls] using hcomments
      | comment =>
          rw [hcls] at hfits
          have hstands : (Mention.comment x.toComment).StandsIn cs := by
            constructor
            · rw [hwhole, Lexeme.toComment, Lexeme.span_eq hstart]
              exact Span.cuts_append _ _ _
            · rw [hwhole]
              simp only [Lexeme.toComment, Lexeme.span_eq hstart, slice_append]
              exact hfits
          have hcommentsOf : commentsIn (x :: xs) = x.toComment :: commentsIn xs := by
            simp [commentsIn, hcls]
          -- a comment that spans lines also ends the statement before it
          by_cases hbreak : x.chars.contains '\n' = true
          · obtain ⟨ms, htiles, htokens, hcomments⟩ := ih
              (s := { s.past x with gap := addComment s.lastLine s.gap x, ends := false })
              hrest hnext hstop hend
            have hmore :=
              htiles.mention _ (m := .comment x.toComment) (Lexeme.span_eq hstart) hstands
            refine ⟨_, hmore.semi s hwhole hstart hxline, ?_, ?_⟩
            · simp only [List.filterMap_append, List.filterMap_map, filterMap_token?_token,
                List.filterMap_cons, Mention.token?, htokens, layout, hcls, hbreak, if_true]
            · simp [Mention.comment?, hcomments, hcommentsOf]
          · obtain ⟨ms, htiles, htokens, hcomments⟩ := ih
              (s := { s.past x with gap := addComment s.lastLine s.gap x }) hrest hnext hstop hend
            have hmore :=
              htiles.mention _ (m := .comment x.toComment) (Lexeme.span_eq hstart) hstands
            refine ⟨_, hmore, ?_, ?_⟩
            · simp only [List.filterMap_cons, Mention.token?, htokens, layout, hcls, if_neg hbreak]
            · simp [Mention.comment?, hcomments, hcommentsOf]
      | token kind =>
          rw [hcls] at hfits
          obtain ⟨ms, htiles, htokens, hcomments⟩ :=
            ih (s := s.afterToken kind x) hrest hnext hstop hend
          have hstands : (Mention.token ⟨kind, x.span, x.line, s.doc x.line⟩).StandsIn cs :=
            Token.standsIn_piece hwhole (Lexeme.span_eq hstart) hxline hfits.1 hfits.2
          refine ⟨_, htiles.mention _ (m := .token ⟨kind, x.span, x.line, s.doc x.line⟩)
            (Lexeme.span_eq hstart) hstands, ?_, ?_⟩
          · simp [Mention.token?, htokens, layout, hcls]
          · simpa [List.filterMap_cons, Mention.comment?, commentsIn, hcls] using hcomments

/-! Comment groups. -/

theorem comments_addComment (last : Option Nat) (gap : List CommentGroup) (x : Lexeme) :
    (addComment last gap x).flatMap CommentGroup.comments =
      gap.flatMap CommentGroup.comments ++ [x.toComment] := by
  unfold addComment
  split
  · rename_i hnone
    rw [List.getLast?_eq_none_iff.mp hnone]
    rfl
  · rename_i g hlast
    obtain ⟨front, rfl⟩ := List.getLast?_eq_some_iff.mp hlast
    split
    · simp [CommentGroup.extend]
    · simp [CommentGroup.single]

/-- The groups hold all comments, in order. -/
theorem comments_layout (s : LayoutState) (xs : List Lexeme) :
    (layout s xs).groups.flatMap CommentGroup.comments =
      s.gap.flatMap CommentGroup.comments ++ commentsIn xs := by
  induction xs generalizing s with
  | nil => simp [layout, commentsIn]
  | cons x xs ih =>
      cases hcls : x.cls with
      | blank =>
          have := ih (s.past x)
          simpa [layout, hcls, commentsIn, LayoutState.past] using this
      | newline =>
          have := ih { s.past x with ends := false }
          simpa [layout, hcls, commentsIn, LayoutState.past] using this
      | comment =>
          have hgroups : (layout s (x :: xs)).groups.flatMap CommentGroup.comments =
              (addComment s.lastLine s.gap x).flatMap CommentGroup.comments ++ commentsIn xs := by
            by_cases hbreak : x.chars.contains '\n' = true
            · simp only [layout, hcls, if_pos hbreak, ih]
            · simp only [layout, hcls, if_neg hbreak, ih]
          rw [hgroups, comments_addComment]
          simp [commentsIn, hcls]
      | token kind =>
          have := ih (s.afterToken kind x)
          simpa [layout, hcls, commentsIn, LayoutState.afterToken] using this

/-- A lexeme reaches from the line of its start to that of its stop. -/
def Lexeme.Lined (cs : List Char) (x : Lexeme) : Prop :=
  x.line = lineAt cs x.start ∧ x.endLine = lineAt cs x.stop

theorem StandAfter.lined {cs before : List Char} {xs : List Lexeme} (h : StandAfter before xs)
    (hcs : cs = before ++ (xs.map Lexeme.chars).flatten) : ∀ x ∈ xs, x.Lined cs := by
  induction xs generalizing before with
  | nil => exact List.forall_mem_nil _
  | cons x xs ih =>
      obtain ⟨hstart, hline, -, hrest⟩ := h
      have hnext : cs = before ++ x.chars ++ (xs.map Lexeme.chars).flatten := by
        rw [hcs, List.append_assoc]
        rfl
      refine List.forall_mem_cons.mpr ⟨⟨?_, ?_⟩, ih hrest hnext⟩
      · rw [hline, hstart, hcs, lineAt_append]
      · rw [Lexeme.endLine, Lexeme.stop, hline, hstart, hnext, ← utf8Length_append, lineAt_append,
          List.count_append, Nat.add_assoc]

theorem standsIn_addComment {cs : List Char} {gap : List CommentGroup} {x : Lexeme}
    (last : Option Nat) (hx : x.Lined cs) (h : ∀ g ∈ gap, g.StandsIn cs) :
    ∀ g ∈ addComment last gap x, g.StandsIn cs := by
  have hsingle : ∀ trailing, (CommentGroup.single x trailing).StandsIn cs := fun _ =>
    ⟨⟨x.toComment, rfl, hx.1⟩, ⟨x.toComment, rfl, hx.2⟩⟩
  unfold addComment
  split
  · exact List.forall_mem_singleton.mpr (hsingle _)
  · rename_i g hlast
    obtain ⟨front, rfl⟩ := List.getLast?_eq_some_iff.mp hlast
    rw [List.forall_mem_append] at h
    split
    · rw [List.dropLast_concat, List.forall_mem_append]
      refine ⟨h.1, List.forall_mem_singleton.mpr ⟨?_, ?_⟩⟩
      · obtain ⟨first, hfirst, hline⟩ := (h.2 g (List.mem_singleton_self g)).startLine
        refine ⟨first, ?_, hline⟩
        simp only [CommentGroup.extend, List.head?_append, Option.mem_def] at hfirst ⊢
        rw [hfirst]
        rfl
      · exact ⟨x.toComment, by simp [CommentGroup.extend], hx.2⟩
    · rw [List.forall_mem_append]
      exact ⟨List.forall_mem_append.mpr h, List.forall_mem_singleton.mpr (hsingle _)⟩

theorem standsIn_groups {cs : List Char} {xs : List Lexeme} {s : LayoutState}
    (hxs : ∀ x ∈ xs, x.Lined cs) (hgap : ∀ g ∈ s.gap, g.StandsIn cs) :
    ∀ g ∈ (layout s xs).groups, g.StandsIn cs := by
  induction xs generalizing s with
  | nil => exact hgap
  | cons x xs ih =>
      obtain ⟨hx, hmore⟩ := List.forall_mem_cons.mp hxs
      cases hcls : x.cls with
      | blank =>
          have := ih (s := s.past x) hmore hgap
          simpa only [layout, hcls] using this
      | newline =>
          have := ih (s := { s.past x with ends := false }) hmore hgap
          simpa only [layout, hcls] using this
      | comment =>
          have hadd := standsIn_addComment s.lastLine hx hgap
          by_cases hbreak : x.chars.contains '\n' = true
          · simp only [layout, hcls, if_pos hbreak]
            exact ih hmore hadd
          · simp only [layout, hcls, if_neg hbreak]
            exact ih hmore hadd
      | token kind =>
          have := ih (s := s.afterToken kind x) hmore (List.forall_mem_nil _)
          simp only [layout, hcls]
          exact List.forall_mem_append.mpr ⟨hgap, this⟩

/-! The end of the file. -/

theorem ne_eof_of_mem_semi {s : LayoutState} {pos line : Nat} :
    ∀ t ∈ s.semi pos line, t.kind ≠ .eof := by
  unfold LayoutState.semi
  cases s.ends with
  | false => exact List.forall_mem_nil _
  | true => simp

/-- Only the last token ends the file, and it stands at the end of the text. -/
theorem exists_layout_eof {before : List Char} {xs : List Lexeme} {s : LayoutState}
    (hxs : StandAfter before xs) (hpos : s.pos = utf8Length before) :
    ∃ front eof, (layout s xs).tokens = front ++ [eof] ∧ (∀ t ∈ front, t.kind ≠ .eof) ∧
      eof.kind = .eof ∧ eof.span.start = utf8Length (before ++ (xs.map Lexeme.chars).flatten) := by
  induction xs generalizing before s with
  | nil =>
      refine ⟨s.semi s.pos s.line, _, rfl, ne_eof_of_mem_semi, rfl, ?_⟩
      rw [hpos]
      exact congrArg utf8Length (List.append_nil before).symm
  | cons x xs ih =>
      obtain ⟨hstart, -, hfits, hrest⟩ := hxs
      have hstop : x.stop = utf8Length (before ++ x.chars) := by
        rw [Lexeme.stop, hstart, utf8Length_append]
      rw [List.map_cons, List.flatten_cons, ← List.append_assoc]
      cases hcls : x.cls with
      | blank =>
          have := ih (s := s.past x) hrest hstop
          simpa only [layout, hcls] using this
      | newline =>
          obtain ⟨front, eof, htokens, hfront, heof⟩ :=
            ih (s := { s.past x with ends := false }) hrest hstop
          refine ⟨s.semi x.start x.line ++ front, eof, ?_, ?_, heof⟩
          · simp only [layout, hcls, htokens, List.append_assoc]
          · exact List.forall_mem_append.mpr ⟨ne_eof_of_mem_semi, hfront⟩
      | comment =>
          by_cases hbreak : x.chars.contains '\n' = true
          · obtain ⟨front, eof, htokens, hfront, heof⟩ := ih
              (s := { s.past x with gap := addComment s.lastLine s.gap x, ends := false })
              hrest hstop
            refine ⟨s.semi x.start x.line ++ front, eof, ?_, ?_, heof⟩
            · simp only [layout, hcls, if_pos hbreak, htokens, List.append_assoc]
            · exact List.forall_mem_append.mpr ⟨ne_eof_of_mem_semi, hfront⟩
          · obtain ⟨front, eof, htokens, hfront, heof⟩ :=
              ih (s := { s.past x with gap := addComment s.lastLine s.gap x }) hrest hstop
            exact ⟨front, eof, by simp only [layout, hcls, if_neg hbreak, htokens], hfront, heof⟩
      | token kind =>
          obtain ⟨front, eof, htokens, hfront, heof⟩ :=
            ih (s := s.afterToken kind x) hrest hstop
          have hkind : kind ≠ .eof := by
            rintro rfl
            rw [Lexeme.Fits, hcls] at hfits
            cases hfits.1
          refine ⟨⟨kind, x.span, x.line, s.doc x.line⟩ :: front, eof, ?_, ?_, heof⟩
          · simp only [layout, hcls, htokens, List.cons_append]
          · exact List.forall_mem_cons.mpr ⟨hkind, hfront⟩

/-! The whole text. -/

namespace TokenStream

/-- All comments, group by group. -/
def comments (s : TokenStream) : List Comment := s.groups.flatMap CommentGroup.comments

/-- Tokens and comments are pieces of the text, in order and apart, between them lie only
gaps, and lines are counted by line feeds. -/
structure Covers (s : TokenStream) (cs : List Char) : Prop where
  eof : ∃ front eof, s.tokens = front ++ [eof] ∧ (∀ t ∈ front, t.kind ≠ .eof) ∧
    eof.kind = .eof ∧ eof.span = ⟨utf8Length cs, utf8Length cs⟩
  tokens : ∀ t ∈ s.tokens, t.StandsIn cs
  comments : ∀ c ∈ s.comments, c.StandsIn cs
  groups : ∀ g ∈ s.groups, g.StandsIn cs
  tokensOrdered : s.tokens.Pairwise fun a b => a.span.Before b.span
  commentsOrdered : s.comments.Pairwise fun a b => a.span.Before b.span
  apart : ∀ t ∈ s.tokens, ∀ c ∈ s.comments, t.span.Before c.span ∨ c.span.Before t.span
  gaps : ∀ n < utf8Length cs, (∃ t ∈ s.tokens, t.span.Contains n) ∨
    (∃ c ∈ s.comments, c.span.Contains n) ∨ IsByteOf IsGap cs n

end TokenStream

theorem Mention.eq_of_token? {m : Mention} {t : Token} (h : m.token? = some t) : m = .token t := by
  cases m with
  | token u =>
      cases h
      rfl
  | comment c => cases h

theorem Mention.eq_of_comment? {m : Mention} {c : Comment} (h : m.comment? = some c) :
    m = .comment c := by
  cases m with
  | token t => cases h
  | comment d =>
      cases h
      rfl

theorem Mention.mem_of_token {ms : List Mention} {t : Token}
    (h : t ∈ ms.filterMap Mention.token?) : .token t ∈ ms := by
  obtain ⟨m, hm, ht⟩ := List.mem_filterMap.mp h
  exact Mention.eq_of_token? ht ▸ hm

theorem Mention.mem_of_comment {ms : List Mention} {c : Comment}
    (h : c ∈ ms.filterMap Mention.comment?) : .comment c ∈ ms := by
  obtain ⟨m, hm, hc⟩ := List.mem_filterMap.mp h
  exact Mention.eq_of_comment? hc ▸ hm

/-- The layout of the lexemes of a text covers the text. -/
theorem covers_layout {cs : List Char} {xs : List Lexeme} (h : lexemes cs = .ok xs) :
    (layout .initial xs).Covers cs := by
  obtain ⟨hstand, hflatten⟩ := standAfter_lexemes h
  have hcs : cs = [] ++ (xs.map Lexeme.chars).flatten := hflatten.symm
  obtain ⟨ms, htiles, htokens, hcomments⟩ :=
    layout_tiles (s := .initial) hstand hcs rfl rfl
  have hall : (layout .initial xs).comments = ms.filterMap Mention.comment? := by
    rw [hcomments, TokenStream.comments, comments_layout]
    rfl
  obtain ⟨front, eof, heof, hfront, hkind, hstart⟩ :=
    exists_layout_eof (s := .initial) hstand rfl
  rw [← hcs] at hstart
  have hstands : ∀ t ∈ (layout .initial xs).tokens, t.StandsIn cs := fun t ht =>
    htiles.stands _ (Mention.mem_of_token (htokens ▸ ht))
  refine ⟨⟨front, eof, heof, hfront, hkind, ?_⟩, hstands, ?_, ?_, ?_, ?_, ?_, ?_⟩
  · have hempty := (hstands eof (by simp [heof])).empty (by rw [hkind]; rfl)
    rw [hstart] at hempty
    obtain ⟨kind, ⟨start, stop⟩, line, doc⟩ := eof
    exact congrArg₂ Span.mk hstart hempty.symm
  · intro c hc
    exact htiles.stands _ (Mention.mem_of_comment (hall ▸ hc))
  · exact standsIn_groups (hstand.lined hcs) (List.forall_mem_nil _)
  · rw [← htokens, List.pairwise_filterMap]
    refine htiles.ordered.imp ?_
    intro a b hab t ht u hu
    rwa [Mention.eq_of_token? ht, Mention.eq_of_token? hu] at hab
  · rw [hall, List.pairwise_filterMap]
    refine htiles.ordered.imp ?_
    intro a b hab c hc d hd
    rwa [Mention.eq_of_comment? hc, Mention.eq_of_comment? hd] at hab
  · intro t ht c hc
    have heither : ms.Pairwise fun a b => a.span.Before b.span ∨ b.span.Before a.span :=
      htiles.ordered.imp Or.inl
    have : Std.Symm fun a b : Mention => a.span.Before b.span ∨ b.span.Before a.span :=
      ⟨fun _ _ => Or.symm⟩
    exact heither.forall (Mention.mem_of_token (htokens ▸ ht))
      (Mention.mem_of_comment (hall ▸ hc)) Mention.noConfusion
  · intro n hn
    rcases htiles.gaps n (Nat.zero_le n) hn with ⟨m, hm, hcontains⟩ | hgap
    · cases m with
      | token t =>
          exact .inl ⟨t, htokens ▸ List.mem_filterMap.mpr ⟨_, hm, rfl⟩, hcontains⟩
      | comment c =>
          exact .inr (.inl ⟨c, hall ▸ List.mem_filterMap.mpr ⟨_, hm, rfl⟩, hcontains⟩)
    · exact .inr (.inr hgap)

/-- Tokenizing loses and invents nothing. -/
theorem covers_of_tokenize {text : String} {stream : TokenStream}
    (h : tokenize text = .ok stream) : stream.Covers text.toList := by
  unfold tokenize at h
  cases hlexemes : lexemes text.toList with
  | error e =>
      rw [hlexemes] at h
      cases h
  | ok xs =>
      rw [hlexemes] at h
      cases h
      exact covers_layout hlexemes

theorem covers_of_tokenize_short :
    ∃ stream, tokenize "\ufeffx := `é\n` /* a\nb */ // c\r\n" = .ok stream ∧
      stream.Covers "\ufeffx := `é\n` /* a\nb */ // c\r\n".toList := by
  have h : (tokenize "\ufeffx := `é\n` /* a\nb */ // c\r\n").isOk = true := by cbv
  cases hread : tokenize "\ufeffx := `é\n` /* a\nb */ // c\r\n" with
  | error e =>
      rw [hread] at h
      cases h
  | ok stream => exact ⟨stream, rfl, covers_of_tokenize hread⟩

end FieldRules
