/-
Parsing undoes printing: the text of a file, read by the parser, gives the declarations
of the file again.
-/
import FieldRules.Proofs.Source.Specs

namespace FieldRules

variable {src : SourceText}

/-! Specs, alone and in groups. -/

section Specs

variable {α β : Type} {spec : Nat → (ts : List Token) → Except SourceError (Reading β ts.length)}
  {placed : Lead → α → List Placed} {same : Nat → List DocLine → α → β → Prop}

/-- A kind of spec that starts with a name and is read back. -/
structure SpecReadsBack (src : SourceText)
    (spec : Nat → (ts : List Token) → Except SourceError (Reading β ts.length))
    (placed : Lead → α → List Placed) (same : Nat → List DocLine → α → β → Prop) : Prop where
  starts : ∀ lead one, ∃ n ps, placed lead one = ⟨lead, .ofName n⟩ :: ps
  parses : ∀ index lead one rest, EndsLine rest →
    Parses src (spec index) (pageMarks false (placed lead one ++ rest)) (pageMarks true rest)
      (same index lead.doc one)

theorem typeSpec_readsBack (src : SourceText) :
    SpecReadsBack src (fun _ => typeSpec src) TypeSpecTerm.placed
      fun _ => TypeSpecTerm.Matches where
  starts _ s := ⟨s.name, _, rfl⟩
  parses _ lead s _ hrest := parses_typeSpec lead s hrest

theorem constSpec_readsBack (src : SourceText) :
    SpecReadsBack src (constSpec src) ConstSpecTerm.placed ConstSpecTerm.Matches where
  starts lead s := by
    obtain ⟨ps, hplaced⟩ := exists_placedNames lead s.first s.more
    refine ⟨s.first, ps ++ (placedType s.type ++ placedAssignment s.values), ?_⟩
    rw [ConstSpecTerm.placed, hplaced, List.cons_append]
  parses index lead s _ hrest := parses_constSpec index lead s hrest

theorem endsLine_group (hspec : SpecReadsBack src spec placed same)
    (all : List (List DocLine × α)) (w : Word) (rest : List Placed) :
    EndsLine (placedGroup placed all ++ ⟨.line [], w⟩ :: rest) := by
  cases all with
  | nil => exact endsLine_line [] w rest
  | cons one all =>
      obtain ⟨doc, one⟩ := one
      obtain ⟨n, ps, hplaced⟩ := hspec.starts (.line doc) one
      rw [placedGroup, hplaced]
      exact endsLine_line doc (.ofName n) _

/-- A group of specs is read back, up to its closing parenthesis. -/
theorem parses_specGroup (hspec : SpecReadsBack src spec placed same)
    (all : List (List DocLine × α)) (index : Nat) (ends : Bool) (hclose : ")" ∈ symbols)
    (rest : List Placed) :
    Parses src (specGroup spec index)
      (pageMarks ends (placedGroup placed all ++ ⟨.line [], .symbol ")" hclose⟩ :: rest))
      (pageMarks true rest) (groupMatches same index all) := by
  induction all generalizing index ends with
  | nil =>
      intro ts h
      rw [placedGroup, List.nil_append] at h
      obtain ⟨t, r, hcons, ht, hr⟩ := h.exists_dropSemis
      obtain ⟨lt, hread⟩ := specGroup_close hcons ht.kind
      exact ⟨_, hread, trivial, hr⟩
  | cons one all ih =>
      obtain ⟨doc, one⟩ := one
      intro ts h
      obtain ⟨n, ps, hplaced⟩ := hspec.starts (.line doc) one
      rw [placedGroup, List.append_assoc, hplaced, List.cons_append] at h
      have hdrop := h.dropSemis
      obtain ⟨t, r, hcons, ht, -⟩ := h.exists_dropSemis
      have hkind : t.kind ≠ .op ")" := by
        rw [ht.kind]
        exact nofun
      rw [hcons, ← List.cons_append, ← hplaced] at hdrop
      have hline := endsLine_group hspec all (.symbol ")" hclose) rest
      obtain ⟨found, hfound, hmatches, hr⟩ :=
        hspec.parses index (.line doc) one _ hline (t :: r) hdrop
      have hends : EndsTurn ")" found.rest := by
        rw [EndsTurn, hr.nextKind_eq, hline]
        rfl
      obtain ⟨more, hmore, hmorematches, hfollows⟩ := ih (index + 1) true found.rest hr
      obtain ⟨lt, hread⟩ := specGroup_spec hcons hkind hfound hends hmore
      exact ⟨_, hread, ⟨hmatches, hmorematches⟩, hfollows⟩

theorem parses_specs (hspec : SpecReadsBack src spec placed same) (s : SpecTerms α)
    {rest : List Placed} (hrest : EndsLine rest) :
    Parses src (specs spec) (pageMarks true (s.placed placed ++ rest)) (pageMarks true rest)
      fun found => s.Matches same found.1 found.2 := by
  intro ts h
  cases s with
  | single one =>
      obtain ⟨n, ps, hplaced⟩ := hspec.starts .space one
      have hfollows : Follows src (pageMarks false (placed .space one ++ rest)) ts := by
        rw [SpecTerms.placed, hplaced] at h
        rw [hplaced]
        exact h
      obtain ⟨found, hfound, hmatches, hr⟩ := hspec.parses 0 .space one rest hrest ts hfollows
      refine ⟨⟨(false, [found.value]), found.rest, found.stop, found.lt⟩, ?_,
        ⟨rfl, found.value, rfl, hmatches⟩, hr⟩
      rw [hplaced] at hfollows
      obtain ⟨t, r, rfl, ht, -⟩ := hfollows.exists_cons
      have hkind : t.kind ≠ .op "(" := by
        rw [ht.kind]
        exact nofun
      simp only [specs, if_neg hkind, hfound, ok_bind]
      rfl
  | group all =>
      rw [SpecTerms.placed, List.cons_append, pageMarks_space, List.append_assoc, List.cons_append,
        List.nil_append] at h
      obtain ⟨t, r, rfl, ht, hr⟩ := h.exists_cons
      have hkind : t.kind = .op "(" := ht.kind
      obtain ⟨found, hfound, hmatches, hfollows⟩ :=
        parses_specGroup hspec all 0 false (by decide) rest r hr
      refine ⟨⟨(true, found.value), found.rest, found.stop, Nat.lt_succ_of_lt found.lt⟩, ?_,
        ⟨rfl, hmatches⟩, hfollows⟩
      simp only [specs, if_pos hkind, hfound, ok_bind]
      rfl

end Specs

/-! Declarations. -/

theorem endsLine_decls (decls : List DeclTerm) : EndsLine (decls.flatMap DeclTerm.placed) := by
  cases decls with
  | nil => exact endsLine_nil
  | cons decl decls =>
      cases decl with
      | type doc specs => exact endsLine_line doc _ _
      | const doc specs => exact endsLine_line doc _ _

/-- The end of a page. -/
theorem declarations_nil {ends : Bool} {ts : List Token}
    (h : Follows src (pageMarks ends []) ts) : declarations src ts = .ok [] := by
  have heof : ∀ t : Token, t.kind = .eof → dropSemis [t] = [t] := by
    intro t ht
    apply dropSemis_cons
    rw [ht]
    rfl
  cases ends with
  | false =>
      obtain ⟨t, r, rfl, ht, hr⟩ := h.exists_cons
      cases hr
      exact declarations_eof (heof t ht.kind) ht.kind
  | true =>
      obtain ⟨semi, r, rfl, hsemi, hr⟩ := h.exists_cons
      obtain ⟨t, s, rfl, ht, hs⟩ := hr.exists_cons
      cases hs
      have hskip : dropSemis [semi, t] = dropSemis [t] :=
        List.dropWhile_cons_of_pos (by rw [hsemi.kind]; rfl)
      exact declarations_eof (hskip.trans (heof t ht.kind)) ht.kind

/-- The declarations of a page are read back, in order. -/
theorem declarations_written (decls : List DeclTerm) {ends : Bool} {ts : List Token}
    (h : Follows src (pageMarks ends (decls.flatMap DeclTerm.placed)) ts) :
    ∃ found, declarations src ts = .ok found ∧ List.Forall₂ DeclTerm.Matches decls found := by
  induction decls generalizing ends ts with
  | nil => exact ⟨[], declarations_nil h, .nil⟩
  | cons decl decls ih =>
      have hline := endsLine_decls decls
      rw [List.flatMap_cons] at h
      cases decl with
      | type doc written =>
          rw [DeclTerm.placed, List.cons_append] at h
          obtain ⟨t, r, hcons, ht, hr⟩ := h.exists_dropSemis
          obtain ⟨all, hall, hmatches, hrest⟩ :=
            parses_specs (typeSpec_readsBack src) written hline r hr
          obtain ⟨more, hmore, hmorematches⟩ := ih hrest
          exact ⟨_, declarations_type hcons ht.kind hall hmore,
            .cons ⟨sameDoc_of_marked ht, hmatches⟩ hmorematches⟩
      | const doc written =>
          rw [DeclTerm.placed, List.cons_append] at h
          obtain ⟨t, r, hcons, ht, hr⟩ := h.exists_dropSemis
          obtain ⟨all, hall, hmatches, hrest⟩ :=
            parses_specs (constSpec_readsBack src) written hline r hr
          obtain ⟨more, hmore, hmorematches⟩ := ih hrest
          exact ⟨_, declarations_const hcons ht.kind hall hmore,
            .cons ⟨sameDoc_of_marked ht, hmatches⟩ hmorematches⟩

/-- Parsing undoes printing: the text of a file is read, and gives its declarations. -/
theorem FileTerm.parseSource_text (f : FileTerm) :
    ∃ found, parseSource f.text = .ok found ∧ f.Matches found := by
  obtain ⟨stream, hstream, hfollows⟩ := tokenize_page (.keyword "package" (by decide))
    (⟨.space, .ofName f.package⟩ :: f.decls.flatMap DeclTerm.placed) (by decide)
  rw [pageMarks_space] at hfollows
  have hdrop : dropSemis stream.tokens = stream.tokens := by
    obtain ⟨t, r, hcons, ht, -⟩ := hfollows.exists_cons
    rw [hcons]
    apply dropSemis_cons
    rw [ht.kind]
    rfl
  rw [← hdrop] at hfollows
  have hnext : nextKind (dropSemis stream.tokens) = .ident "package" := hfollows.nextKind_eq
  obtain ⟨keyword, hkeyword, -, hr⟩ := parses_ident "package clause" _ hfollows
  obtain ⟨package, hpackage, hname, hr⟩ := parses_ident "package name" keyword.rest hr
  obtain ⟨decls, hdecls, hmatches⟩ := declarations_written f.decls hr
  refine ⟨⟨package.value, decls, stream.groups⟩, ?_, hname, hmatches⟩
  rw [parseSource, FileTerm.text, hstream]
  simp only [ok_bind, parseTokens, if_pos hnext, hkeyword, hpackage, hdecls]
  rfl

example :
    FileTerm.text ⟨⟨"notes", rfl, by decide⟩,
      [.type [⟨"A note.", by decide⟩] (.single ⟨⟨"Note", rfl, by decide⟩, none, false,
        .struct [.named [] ⟨"Tags", rfl, by decide⟩ [] (.slice (.pointer (.named
          ⟨some ⟨"tag", rfl, by decide⟩, ⟨"Tag", rfl, by decide⟩⟩))) none]⟩)]⟩ =
      "package notes\n// A note.\ntype Note struct \x7b\nTags []*tag.Tag\n\x7d\n" := rfl

end FieldRules
