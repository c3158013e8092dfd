/-
Which comments document which token.  Comments between two tokens form groups by the lines on
which they stand, and a group documents the token right below it, unless it goes on along the
line of the token before.
-/
import FieldRules.Proofs.Source.Between
import FieldRules.Proofs.Source.Cover
import Mathlib.Data.List.SplitBy

namespace FieldRules

/-! Comments and lines. -/

namespace Comment

def startLine (cs : List Char) (c : Comment) : Nat := lineAt cs c.span.start

def endLine (cs : List Char) (c : Comment) : Nat := lineAt cs c.span.stop

/-- The second comment starts at most one line below the end of the first. -/
def near (cs : List Char) (c d : Comment) : Bool := d.startLine cs ≤ c.endLine cs + 1

end Comment

/-- Comments along a line: the first starts on it, each further one on the line where the one
before it ends. -/
def alongLine (cs : List Char) (line : Nat) : List Comment → List Comment
  | [] => []
  | c :: more => if c.startLine cs = line then c :: alongLine cs (c.endLine cs) more else []

/-- The groups that comments between two tokens form, and which of them is trailing; `line` is
the line where the first token ends. -/
def groupComments (cs : List Char) (line : Option Nat) (comments : List Comment) :
    List (Bool × List Comment) :=
  let trailing := line.elim [] fun line => alongLine cs line comments
  let others := (comments.drop trailing.length).splitBy (Comment.near cs)
  (if trailing = [] then [] else [(true, trailing)]) ++ others.map fun group => (false, group)

def CommentGroup.view (g : CommentGroup) : Bool × List Comment := (g.trailing, g.comments)

/-- The last of these tokens that is no semicolon for a line end. -/
def precedingToken? (ts : List Token) : Option Token :=
  (ts.filter fun t => t.kind ≠ .semi true).getLast?

namespace TokenStream

/-- The comments from the end of a token, or the start of the text, to the start of another. -/
def commentsBetween (s : TokenStream) (previous : Option Token) (t : Token) : List Comment :=
  s.comments.filter fun c =>
    previous.elim 0 (·.span.stop) ≤ c.span.start ∧ c.span.stop ≤ t.span.start

/-- The comments in front of token `t`, which follows those of `front`, form their groups, and
the group of the last one documents `t` exactly if it is not trailing and ends on the line above. -/
structure Attaches (s : TokenStream) (cs : List Char) (front : List Token) (t : Token) : Prop where
  grouped : ∃ earlier gap later, s.groups = earlier ++ (gap ++ later) ∧
    gap.map CommentGroup.view =
      groupComments cs ((precedingToken? front).map fun p => lineAt cs p.span.stop)
        (s.commentsBetween (precedingToken? front) t)
  doc : ∀ i, t.doc = some i ↔ ∃ last g,
    (s.commentsBetween (precedingToken? front) t).getLast? = some last ∧
      s.groups[i]? = some g ∧ last ∈ g.comments ∧ g.trailing = false ∧
      last.endLine cs + 1 = t.line

/-- So it is for every token in the text. -/
def Attached (s : TokenStream) (cs : List Char) : Prop :=
  ∀ front t back, s.tokens = front ++ t :: back → t.kind ≠ .semi true → t.kind ≠ .eof →
    s.Attaches cs front t

end TokenStream

/-! Adding comments to the groups of a gap. -/

section Adding

variable {cs : List Char} {x : Lexeme} {xs : List Lexeme} {last : Option Nat}

theorem Lexeme.Lined.startLine (h : x.Lined cs) : x.toComment.startLine cs = x.line := h.1.symm

theorem Lexeme.Lined.endLine_eq (h : x.Lined cs) : x.toComment.endLine cs = x.endLine := h.2.symm

theorem addComment_append (last : Option Nat) (gap : List CommentGroup) (g : CommentGroup)
    (x : Lexeme) :
    addComment last (gap ++ [g]) x =
      if g.adjoins x.line then gap ++ [g.extend x] else gap ++ [g] ++ [.single x false] := by
  simp [addComment]

/-- Every comment of the group is near to the one before it, and the group ends with the last. -/
structure CommentGroup.Runs (cs : List Char) (g : CommentGroup) : Prop where
  chain : g.comments.IsChain fun c d => Comment.near cs c d
  endLine : ∃ c, g.comments.getLast? = some c ∧ g.endLine = c.endLine cs

namespace CommentGroup.Runs

variable {g : CommentGroup}

theorem single (hx : x.Lined cs) (trailing : Bool) : (CommentGroup.single x trailing).Runs cs where
  chain := List.isChain_singleton _
  endLine := ⟨x.toComment, rfl, hx.endLine_eq.symm⟩

theorem adjoins_iff (h : g.Runs cs) (hx : x.Lined cs) (htrailing : g.trailing = false) :
    g.adjoins x.line = true ↔ ∀ c ∈ g.comments.getLast?, Comment.near cs c x.toComment = true := by
  obtain ⟨c, hlast, hline⟩ := h.endLine
  simp [CommentGroup.adjoins, htrailing, Comment.near, hx.startLine, hline, hlast]

theorem extend (h : g.Runs cs) (hx : x.Lined cs) (htrailing : g.trailing = false)
    (hadjoins : g.adjoins x.line = true) : (g.extend x).Runs cs where
  chain := by
    rw [CommentGroup.extend, List.isChain_append]
    refine ⟨h.chain, List.isChain_singleton _, ?_⟩
    intro c hc d hd
    obtain rfl : x.toComment = d := by simpa using hd
    exact (h.adjoins_iff hx htrailing).mp hadjoins c hc
  endLine := ⟨x.toComment, by simp [CommentGroup.extend], hx.endLine_eq.symm⟩

theorem splitBy_eq (h : g.Runs cs) : g.comments.splitBy (Comment.near cs) = [g.comments] := by
  obtain ⟨c, hlast, -⟩ := h.endLine
  refine List.splitBy_of_isChain ?_ h.chain
  intro hnil
  simp [hnil] at hlast

end CommentGroup.Runs

/-- The last group, where it is not trailing, goes on as far as comments are near to each other,
and so does each group after it. -/
theorem view_foldl_addComment {gap : List CommentGroup} {g : CommentGroup}
    (hxs : ∀ x ∈ xs, x.Lined cs) (htrailing : g.trailing = false) (hg : g.Runs cs) :
    (xs.foldl (addComment last) (gap ++ [g])).map CommentGroup.view =
      gap.map CommentGroup.view ++
        ((g.comments ++ xs.map Lexeme.toComment).splitBy (Comment.near cs)).map
          fun group => (false, group) := by
  induction xs generalizing gap g with
  | nil => simp [hg.splitBy_eq, CommentGroup.view, htrailing]
  | cons x xs ih =>
      obtain ⟨hx, hmore⟩ := List.forall_mem_cons.mp hxs
      rw [List.foldl_cons, addComment_append]
      by_cases h : g.adjoins x.line = true
      · rw [if_pos h, ih (g := g.extend x) hmore htrailing (hg.extend hx htrailing h)]
        simp [CommentGroup.extend]
      · obtain ⟨c, hlast, -⟩ := hg.endLine
        have hfar : ∀ d ∈ g.comments.getLast?, Comment.near cs d x.toComment = false := by
          simpa [hg.adjoins_iff hx htrailing, hlast] using h
        rw [if_neg h, ih hmore rfl (.single hx false), List.map_cons,
          List.splitBy_append_cons _ hfar, hg.splitBy_eq]
        simp [CommentGroup.view, htrailing, CommentGroup.single]

/-- A trailing group goes on along its line; after it other groups begin. -/
theorem view_foldl_addComment_trailing {g : CommentGroup} {along : List Comment}
    (hxs : ∀ x ∈ xs, x.Lined cs) (htrailing : g.trailing = true)
    (halong : alongLine cs g.endLine (xs.map Lexeme.toComment) = along) :
    (xs.foldl (addComment last) [g]).map CommentGroup.view =
      (true, g.comments ++ along) ::
        (((xs.map Lexeme.toComment).drop along.length).splitBy (Comment.near cs)).map
          fun group => (false, group) := by
  induction xs generalizing g along with
  | nil =>
      subst halong
      simp [alongLine, CommentGroup.view, htrailing]
  | cons x xs ih =>
      obtain ⟨hx, hmore⟩ := List.forall_mem_cons.mp hxs
      have hadd := addComment_append last [] g x
      rw [List.nil_append, List.nil_append] at hadd
      rw [List.map_cons, alongLine, hx.startLine, hx.endLine_eq] at halong
      rw [List.foldl_cons, hadd]
      by_cases h : x.line = g.endLine
      · have hadjoins : g.adjoins x.line = true := by simp [CommentGroup.adjoins, htrailing, h]
        rw [if_pos h] at halong
        rw [if_pos hadjoins, ih (g := g.extend x) hmore htrailing rfl, ← halong]
        simp [CommentGroup.extend]
      · have hadjoins : ¬ g.adjoins x.line = true := by simp [CommentGroup.adjoins, htrailing, h]
        rw [if_neg h] at halong
        rw [if_neg hadjoins, view_foldl_addComment hmore rfl (.single hx false), ← halong]
        simp [CommentGroup.single, CommentGroup.view, htrailing]

/-- The comments of a gap form their groups. -/
theorem view_foldl_addComment_nil (last : Option Nat) (hxs : ∀ x ∈ xs, x.Lined cs) :
    (xs.foldl (addComment last) []).map CommentGroup.view =
      groupComments cs last (xs.map Lexeme.toComment) := by
  cases xs with
  | nil => cases last <;> simp [groupComments, alongLine]
  | cons x xs =>
      obtain ⟨hx, hmore⟩ := List.forall_mem_cons.mp hxs
      have hfirst : addComment last [] x = [.single x (last == some x.line)] := rfl
      rw [List.foldl_cons, hfirst]
      by_cases h : last = some x.line
      · have htrailing : (last == some x.line) = true := by simp [h]
        rw [htrailing, view_foldl_addComment_trailing hmore rfl rfl, groupComments, h]
        simp [alongLine, hx.startLine, hx.endLine_eq, CommentGroup.single]
      · have htrailing : (last == some x.line) = false := by simpa using h
        have hnone : (last.elim [] fun line =>
            alongLine cs line ((x :: xs).map Lexeme.toComment)) = [] := by
          cases last with
          | none => rfl
          | some line =>
              have hne : ¬ x.line = line := by
                rintro rfl
                exact h rfl
              simp [alongLine, hx.startLine, hne]
        have hrun : (xs.foldl (addComment last) ([] ++ [.single x false])).map CommentGroup.view =
            _ := view_foldl_addComment hmore rfl (.single hx false)
        rw [List.nil_append] at hrun
        rw [htrailing, hrun, groupComments, hnone]
        simp [CommentGroup.single]

theorem comments_foldl_addComment (last : Option Nat) (gap : List CommentGroup)
    (xs : List Lexeme) :
    (xs.foldl (addComment last) gap).flatMap CommentGroup.comments =
      gap.flatMap CommentGroup.comments ++ xs.map Lexeme.toComment := by
  induction xs generalizing gap with
  | nil => simp
  | cons x xs ih => simp [ih, comments_addComment]

end Adding

/-! The comments of a gap. -/

theorem commentsIn_append (xs ys : List Lexeme) :
    commentsIn (xs ++ ys) = commentsIn xs ++ commentsIn ys := by
  simp [commentsIn]

theorem CommentText.utf8Length_pos {chars : List Char} {text : String}
    (h : CommentText chars text) : 0 < utf8Length chars := by
  cases h with
  | line => exact Nat.add_pos_left (Char.utf8Size_pos _) _
  | block => exact Nat.add_pos_left (Char.utf8Size_pos _) _

/-- Comments stand within the text that the lexemes make up, and none is empty. -/
theorem StandAfter.within {before : List Char} {xs : List Lexeme} (h : StandAfter before xs) :
    ∀ c ∈ commentsIn xs, utf8Length before ≤ c.span.start ∧ c.span.start < c.span.stop ∧
      c.span.stop ≤ utf8Length (before ++ charsOf xs) := by
  induction xs generalizing before with
  | nil => exact List.forall_mem_nil _
  | cons x xs ih =>
      obtain ⟨hstart, -, hfits, hrest⟩ := h
      have hmore := ih hrest
      intro c hc
      rw [← List.singleton_append, commentsIn_append, List.mem_append] at hc
      rcases hc with hc | hc
      · obtain ⟨hcls, rfl⟩ : x.cls = .comment ∧ x.toComment = c := by
          simpa [commentsIn] using hc
        have hpos : 0 < utf8Length x.chars := by
          rw [Lexeme.Fits, hcls] at hfits
          exact CommentText.utf8Length_pos hfits
        simp only [Lexeme.toComment, Lexeme.span, Lexeme.stop, charsOf_cons, utf8Length_append]
        omega
      · obtain ⟨hafter, hne, hend⟩ := hmore c hc
        simp only [charsOf_cons, utf8Length_append] at hafter hend ⊢
        omega

namespace Gap

variable {cs : List Char} {xs read filling rest : List Lexeme} {front semis : List Token}
  {u : Token}
  {previous : Option Token}

/-- The token before the gap is the last one in front of it. -/
theorem previous_eq (h : Gap xs front u read filling rest previous semis)
    (hstand : StandAfter [] xs) : precedingToken? front = previous := by
  have hsemis : semis.filter (fun t => t.kind ≠ .semi true) = [] := by
    simpa using h.implicit
  rw [precedingToken?, h.front, List.filter_append, hsemis, List.append_nil]
  cases previous with
  | none => rw [h.upTo.tokensOf_none]; rfl
  | some t =>
      obtain ⟨before, htokens⟩ := h.upTo.exists_tokensOf
      have hkind := h.upTo.kind_ne (h.standAfter_read hstand)
      simp [htokens, List.filter_append, hkind]

theorem rest_start (h : Gap xs front u read filling rest previous semis) (hu : u.kind ≠ .eof) :
    ∃ x kind more, rest = x :: more ∧ x.cls = .token kind ∧
      u = (LayoutState.initial.after (read ++ filling)).tokenFor kind x := by
  cases h.onward with
  | eof => exact absurd rfl hu
  | token hx _ more => exact ⟨_, _, more, rfl, hx, rfl⟩

/-- The comments between the tokens around the gap are those of the gap. -/
theorem commentsBetween_eq (h : Gap xs front u read filling rest previous semis)
    (hstand : StandAfter [] xs) (hu : u.kind ≠ .eof) :
    (layout .initial xs).commentsBetween previous u = commentsIn filling := by
  obtain ⟨x, kind, more, rfl, hx, -⟩ := h.rest_start hu
  have hall : (layout .initial xs).comments = commentsIn xs := by
    rw [TokenStream.comments, comments_layout]
    rfl
  have hstop := h.upTo.stop (h.standAfter_read hstand)
  have hstart := h.start_eq hstand
  rw [h.parts] at hstand
  obtain ⟨hread, hlater⟩ := standAfter_append.mp hstand
  obtain ⟨hfilling, hrest⟩ := standAfter_append.mp hlater
  rw [TokenStream.commentsBetween, hall, h.parts, commentsIn_append, commentsIn_append,
    List.filter_append, List.filter_append, hstop, hstart]
  have hbefore : (commentsIn read).filter (fun c => utf8Length (charsOf read) ≤ c.span.start ∧
      c.span.stop ≤ utf8Length (charsOf (read ++ filling))) = [] := by
    refine List.filter_eq_nil_iff.mpr fun c hc => ?_
    have := hread.within c hc
    simp only [List.nil_append] at this
    simp only [decide_eq_true_eq]
    omega
  have hafter : (commentsIn (x :: more)).filter (fun c => utf8Length (charsOf read) ≤ c.span.start ∧
      c.span.stop ≤ utf8Length (charsOf (read ++ filling))) = [] := by
    refine List.filter_eq_nil_iff.mpr fun c hc => ?_
    have := hrest.within c hc
    simp only [List.nil_append, ← charsOf_append] at this
    simp only [decide_eq_true_eq]
    omega
  have hinside : (commentsIn filling).filter (fun c => utf8Length (charsOf read) ≤ c.span.start ∧
      c.span.stop ≤ utf8Length (charsOf (read ++ filling))) = commentsIn filling := by
    refine List.filter_eq_self.mpr fun c hc => ?_
    have := hfilling.within c hc
    simp only [List.nil_append, ← charsOf_append] at this
    simp only [decide_eq_true_eq]
    omega
  rw [hbefore, hafter, hinside, List.nil_append, List.append_nil]

/-- The comments of the gap are in its groups, which stand after those in front of it. -/
theorem groups_eq (h : Gap xs front u read filling rest previous semis) (hu : u.kind ≠ .eof) :
    ∃ later, (layout .initial xs).groups =
      LayoutState.initial.groupsOf (read ++ filling) ++
        ((LayoutState.initial.after (read ++ filling)).gap ++ later) := by
  obtain ⟨x, kind, more, rfl, hx, -⟩ := h.rest_start hu
  rw [h.parts, ← List.append_assoc, layout_append, layout_cons]
  simp only [LayoutState.finished, hx]
  exact ⟨_, rfl⟩

theorem gap_eq (h : Gap xs front u read filling rest previous semis) (hcs : charsOf xs = cs)
    (hstand : StandAfter [] xs) :
    (LayoutState.initial.after (read ++ filling)).gap =
      (filling.filter fun x => x.cls = .comment).foldl
        (addComment (previous.map fun t => lineAt cs t.span.stop)) [] := by
  have hread : cs = charsOf read ++ charsOf (filling ++ rest) := by
    rw [← hcs, h.parts, charsOf_append]
  rw [LayoutState.after_append, LayoutState.gap_after h.fills, h.upTo.gap,
    h.upTo.lastLine hread (h.standAfter_read hstand)]

end Gap

theorem Comment.StandsIn.start_lt_stop {cs : List Char} {c : Comment} (h : c.StandsIn cs) :
    c.span.start < c.span.stop := by
  by_contra hle
  have hslice : slice cs c.span.start c.span.stop = [] := by
    rw [slice, Nat.sub_eq_zero_of_le (Nat.le_of_not_lt hle), takeBytes_zero]
  have hpos := h.text.utf8Length_pos
  rw [hslice] at hpos
  exact Nat.lt_irrefl 0 hpos

/-- A comment stands in one group only. -/
theorem TokenStream.Covers.index_unique {s : TokenStream} {cs : List Char} (h : s.Covers cs)
    {i j : Nat} {g g' : CommentGroup} {c : Comment} (hi : s.groups[i]? = some g)
    (hj : s.groups[j]? = some g') (hc : c ∈ g.comments) (hc' : c ∈ g'.comments) : i = j := by
  obtain ⟨hilt, rfl⟩ := List.getElem?_eq_some_iff.mp hi
  obtain ⟨hjlt, rfl⟩ := List.getElem?_eq_some_iff.mp hj
  have hordered := (List.pairwise_flatMap.mp h.commentsOrdered).2
  have hne : ¬ c.span.Before c.span := by
    have hmem : c ∈ s.comments := List.mem_flatMap.mpr ⟨_, List.getElem_mem hilt, hc⟩
    exact Nat.not_le.mpr (h.comments c hmem).start_lt_stop
  rcases Nat.lt_trichotomy i j with hlt | heq | hlt
  · exact absurd (List.pairwise_iff_getElem.mp hordered i j hilt hjlt hlt c hc c hc') hne
  · exact heq
  · exact absurd (List.pairwise_iff_getElem.mp hordered j i hjlt hilt hlt c hc' c hc) hne

/-- A token is documented by the group of the last comment in front of it. -/
theorem LayoutState.doc_eq_some_iff {cs : List Char} {stream : TokenStream} {s : LayoutState}
    {earlier later : List CommentGroup} (hcovers : stream.Covers cs)
    (hgroups : stream.groups = earlier ++ (s.gap ++ later)) (hclosed : s.closed = earlier.length)
    (line i : Nat) :
    s.doc line = some i ↔ ∃ last g, (s.gap.flatMap CommentGroup.comments).getLast? = some last ∧
      stream.groups[i]? = some g ∧ last ∈ g.comments ∧ g.trailing = false ∧
      last.endLine cs + 1 = line := by
  rcases List.eq_nil_or_concat s.gap with hnil | ⟨front, g, hgap⟩
  · simp [LayoutState.doc, hnil]
  · rw [List.concat_eq_append] at hgap
    rw [hgap] at hgroups
    have hindex : stream.groups[s.closed + front.length]? = some g := by
      simp [hgroups, hclosed]
    have hstands := hcovers.groups g (by simp [hgroups])
    obtain ⟨last, hlast, hline⟩ := hstands.endLine
    rw [Option.mem_def] at hlast
    have hmem : last ∈ g.comments := List.mem_of_getLast? hlast
    have hend : (s.gap.flatMap CommentGroup.comments).getLast? = some last := by
      simp [hgap, hlast]
    have hdocuments :
        g.documents line = true ↔ g.trailing = false ∧ last.endLine cs + 1 = line := by
      simp [CommentGroup.documents, hline, Comment.endLine]
    have hdoc : s.doc line = some i ↔ g.documents line = true ∧ s.closed + front.length = i := by
      simp [LayoutState.doc, hgap]
    rw [hdoc, hdocuments, hend]
    constructor
    · rintro ⟨⟨htrailing, habove⟩, rfl⟩
      exact ⟨last, g, rfl, hindex, hmem, htrailing, habove⟩
    · rintro ⟨last', g', hlast', hi, hmem', htrailing, habove⟩
      obtain rfl := Option.some.inj hlast'
      obtain rfl := hcovers.index_unique hindex hi hmem hmem'
      obtain rfl := Option.some.inj (hindex.symm.trans hi)
      exact ⟨⟨htrailing, habove⟩, rfl⟩

theorem attaches_layout {cs : List Char} {xs : List Lexeme} (hxs : lexemes cs = .ok xs)
    {front back : List Token} {t : Token}
    (htokens : (layout .initial xs).tokens = front ++ t :: back) (ht : t.kind ≠ .semi true)
    (heof : t.kind ≠ .eof) : (layout .initial xs).Attaches cs front t := by
  obtain ⟨hstand, hflatten⟩ := standAfter_lexemes hxs
  obtain ⟨read, filling, rest, previous, semis, hgap⟩ := exists_gap hxs htokens ht
  obtain ⟨later, hgroups⟩ := hgap.groups_eq heof
  have hprevious := hgap.previous_eq hstand
  have hcomments := hgap.commentsBetween_eq hstand heof
  have hadded := hgap.gap_eq hflatten hstand
  have hlined : ∀ x ∈ filling.filter fun x => x.cls = .comment, x.Lined cs := by
    intro x hx
    refine hstand.lined hflatten.symm x ?_
    rw [hgap.parts]
    simp [(List.mem_filter.mp hx).1]
  constructor
  · refine ⟨_, _, later, hgroups, ?_⟩
    rw [hprevious, hcomments, hadded, view_foldl_addComment_nil _ hlined]
    rfl
  · intro i
    obtain ⟨x, kind, more, -, -, rfl⟩ := hgap.rest_start heof
    have hclosed : (LayoutState.initial.after (read ++ filling)).closed =
        (LayoutState.initial.groupsOf (read ++ filling)).length := by
      rw [LayoutState.closed_after, LayoutState.initial, Nat.zero_add]
    have hall : (LayoutState.initial.after (read ++ filling)).gap.flatMap CommentGroup.comments =
        commentsIn filling := by
      rw [hadded, comments_foldl_addComment]
      rfl
    rw [hprevious, hcomments, ← hall]
    exact LayoutState.doc_eq_some_iff (covers_layout hxs) hgroups hclosed x.line i

/-- Comments attach to tokens by the lines on which they stand. -/
theorem attached_of_tokenize {text : String} {stream : TokenStream}
    (h : tokenize text = .ok stream) : stream.Attached text.toList := by
  obtain ⟨xs, hxs, rfl⟩ := exists_lexemes_of_tokenize h
  intro front t back htokens ht heof
  exact attaches_layout hxs htokens ht heof

theorem attached_of_tokenize_fields :
    ∃ stream, tokenize "a int // x\n// y\n/* z */\nb /* u */ c" = .ok stream ∧
      stream.tokens.map Token.doc = [none, none, none, some 1, none, none, none] ∧
      stream.groups.map (fun g => g.comments.length) = [1, 2, 1] ∧
      stream.Attached "a int // x\n// y\n/* z */\nb /* u */ c".toList := by
  have h : (tokenize "a int // x\n// y\n/* z */\nb /* u */ c").map (fun s =>
      (s.tokens.map Token.doc, s.groups.map fun g => g.comments.length)) =
      .ok ([none, none, none, some 1, none, none, none], [1, 2, 1]) := by cbv
  obtain ⟨stream, hread, hfound⟩ := map_eq_ok.mp h
  obtain ⟨hdocs, hgroups⟩ := Prod.mk.inj hfound
  exact ⟨stream, hread, hdocs, hgroups, attached_of_tokenize hread⟩

end FieldRules
