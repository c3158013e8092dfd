/-
The readers of types are safe: they leave the end of the file ahead, and the type they give
stands in the text.
-/
import FieldRules.Proofs.Source.Readers

namespace FieldRules

variable {src : SourceText} {ts rest : List Token} {t : Token} {stop : Nat}

/-- The comment groups of a text are slices of it. -/
def SourceText.Sound (src : SourceText) : Prop :=
  ∀ g ∈ src.groups, ∀ c ∈ g.comments, c.StandsIn src.chars

theorem SourceText.Sound.docOf (h : src.Sound) (t : Token) :
    DocStandsIn src.chars (src.docOf t) := by
  intro g hg
  obtain ⟨i, -, hi⟩ := Option.bind_eq_some_iff.mp hg
  exact h g (List.mem_of_getElem? hi)

theorem SourceText.Sound.docOf_head? (h : src.Sound) (ts : List Token) :
    DocStandsIn src.chars (ts.head?.bind src.docOf) := by
  cases ts with
  | nil => simp [DocStandsIn]
  | cons t ts => exact h.docOf t

/-- What is cut out of the text is kept as it stands. -/
theorem isExcerpt_between {span : Span} (h : span.Cuts src.chars) :
    IsExcerpt src.chars (src.between span.start span.stop) span := ⟨h, String.toList_ofList⟩

theorem Ahead.excerpt (h : Ahead src.chars (t :: ts)) (hrest : Reaches (t :: ts) rest stop) :
    IsExcerpt src.chars (src.between t.span.start stop) ⟨t.span.start, stop⟩ :=
  isExcerpt_between (h.cuts hrest)

theorem namedType_settles (h : Ahead src.chars ts) :
    Settles src.chars (Takes ts (TypeExpr.StandsIn src.chars)) (namedType src ts) := by
  obtain ⟨t, r, rfl⟩ := List.exists_cons_of_ne_nil h.ne_nil
  unfold namedType
  refine (expectIdent_settles _ h).bind ?_
  rintro first ⟨hfirst, hstands, u, hu, hspan⟩
  obtain rfl : t = u := Option.some.inj hu
  extract_lets hlt finish
  -- Both ways of writing the name go on with the arguments of an instance.
  have hfinish : ∀ named, Takes (t :: r) (TypeExpr.StandsIn src.chars) named →
      Settles src.chars (Takes (t :: r) (TypeExpr.StandsIn src.chars)) (finish named) := by
    rintro named ⟨hnamed, hnamedStands⟩
    have hrest := h.reaches hnamed
    unfold finish
    dsimp only
    split
    · rename_i hnil
      exact absurd hnil hrest.ne_nil
    · rename_i u us hcons
      split
      · rename_i hu
        have hopens : u.kind.opens = true := by
          rw [hu]
          decide
        rw [hcons] at hnamed hrest
        refine (skipClosed_opens hrest hopens).bind ?_
        rintro inside ⟨hinside, -⟩
        have hall := hnamed.trans (hinside.cons u)
        refine ⟨hall, ?_⟩
        rw [← hspan]
        exact h.excerpt hall
      · exact ⟨hnamed, hnamedStands⟩
  split
  · refine (expectOp_settles _ (h.reaches hfirst)).bind ?_
    rintro dot ⟨hdot, -⟩
    have hpoint := hfirst.trans hdot
    refine (expectIdent_settles _ (h.reaches hpoint)).bind ?_
    rintro name ⟨hname, hnameStands, u, hu, hnameSpan⟩
    refine hfinish _ ⟨hpoint.trans hname, hstands, hnameStands, ?_⟩
    obtain ⟨us, hrest⟩ := List.head?_eq_some_iff.mp hu
    rw [hrest] at hpoint
    rw [← hspan, ← hnameSpan]
    exact h.cover_cuts (hpoint.passes.1.subset List.mem_cons_self)
  · exact hfinish _ ⟨hfirst, hstands⟩

theorem withTag_reads {n : Nat} {doc : Option CommentGroup}
    {line : Reading (List Ident × TypeExpr) n} (h : Ahead src.chars ts)
    (hdoc : DocStandsIn src.chars doc)
    (hline : Takes ts (fun found => (∀ i ∈ found.1, i.StandsIn src.chars) ∧
      found.2.StandsIn src.chars) line) :
    Takes ts (FieldLine.StandsIn src.chars) (withTag doc line) := by
  obtain ⟨hreaches, hnames, htype⟩ := hline
  have hrest := h.reaches hreaches
  unfold withTag
  split
  · rename_i hnil
    exact absurd hnil hrest.ne_nil
  · rename_i t r hcons
    rw [hcons] at hreaches hrest
    split
    · rename_i tag htag
      have htail := hrest.tail_ne_nil (ne_eof_of_literal htag)
      exact ⟨hreaches.trans (.one htail), hdoc, hnames, htype⟩
    · exact ⟨hreaches, hdoc, hnames, htype⟩

mutual

theorem parseType_settles (hsrc : src.Sound) : ∀ ts : List Token, Ahead src.chars ts →
    Settles src.chars (Takes ts (TypeExpr.StandsIn src.chars)) (parseType src ts)
  | [], h => absurd rfl h.ne_nil
  | t :: r, h => by
    unfold parseType
    dsimp only
    split
    · rename_i word hword
      have htail := h.tail (ne_eof_of_ident hword)
      have hfirst : Reaches (t :: r) r t.span.stop := .one htail.ne_nil
      split
      · -- a struct
        refine (expectOp_settles _ htail).bind ?_
        rintro opening ⟨hopening, -⟩
        have := opening.lt
        refine (structFields_settles hsrc opening.rest (htail.reaches hopening)).bind ?_
        rintro fields ⟨hfields, hstands⟩
        have hall := hfirst.trans (hopening.trans hfields)
        exact ⟨hall, hstands, h.cuts hall⟩
      split
      · -- a map
        refine (expectOp_settles _ htail).bind ?_
        rintro opening ⟨hopening, -⟩
        have := opening.lt
        have hkey := htail.reaches hopening
        refine (parseType_settles hsrc opening.rest hkey).bind ?_
        rintro key ⟨hkeyReaches, hkeyStands⟩
        have := key.lt
        have hclosing := hkey.reaches hkeyReaches
        refine (expectOp_settles _ hclosing).bind ?_
        rintro closing ⟨hclosingReaches, -⟩
        have := closing.lt
        refine (parseType_settles hsrc closing.rest (hclosing.reaches hclosingReaches)).bind ?_
        rintro value ⟨hvalue, hvalueStands⟩
        have hall := hfirst.trans (hopening.trans (hkeyReaches.trans (hclosingReaches.trans hvalue)))
        exact ⟨hall, hkeyStands, hvalueStands, h.cuts hall⟩
      split
      · -- an interface
        refine (expectOp_settles _ htail).bind ?_
        rintro opening ⟨hopening, hstands⟩
        refine (skipClosed_settles hstands (htail.reaches hopening)).bind ?_
        rintro inside ⟨hinside, -⟩
        have hall := hfirst.trans (hopening.trans hinside)
        exact ⟨hall, h.excerpt hall⟩
      split
      · -- a function
        refine (skipSignature_settles hsrc r htail).bind ?_
        rintro signature ⟨hsignature, -⟩
        have hall := hfirst.trans hsignature
        exact ⟨hall, h.excerpt hall⟩
      split
      · -- a channel, perhaps with an arrow
        have hinner : ∀ us, us.length ≤ r.length → Ahead src.chars us →
            Settles src.chars (Takes us (TypeExpr.StandsIn src.chars)) (parseType src us) :=
          fun us hle hus => parseType_settles hsrc us hus
        split
        · exact absurd rfl htail.ne_nil
        · rename_i u v
          split
          · rename_i harrow
            have helem := htail.tail (ne_eof_of_op harrow)
            refine (hinner v (by simp) helem).bind ?_
            rintro elem ⟨helemReaches, -⟩
            have hall := hfirst.trans (helemReaches.cons u)
            exact ⟨hall, h.excerpt hall⟩
          · refine (hinner (u :: v) le_rfl htail).bind ?_
            rintro elem ⟨helemReaches, -⟩
            have hall := hfirst.trans helemReaches
            exact ⟨hall, h.excerpt hall⟩
      · exact namedType_settles h
    · rename_i symbol hsymbol
      have htail := h.tail (ne_eof_of_op hsymbol)
      have hfirst : Reaches (t :: r) r t.span.stop := .one htail.ne_nil
      split
      · -- a pointer
        refine (parseType_settles hsrc r htail).bind ?_
        rintro elem ⟨helem, hstands⟩
        have hall := hfirst.trans helem
        exact ⟨hall, hstands, h.cuts hall⟩
      split
      · -- a slice or an array, whose length is kept as it stands
        split
        · refine (expectOp_settles _ htail).bind ?_
          rintro closing ⟨hclosing, -⟩
          have := closing.lt
          refine (parseType_settles hsrc closing.rest (htail.reaches hclosing)).bind ?_
          rintro elem ⟨helem, hstands⟩
          have hall := hfirst.trans (hclosing.trans helem)
          exact ⟨hall, hstands, h.cuts hall⟩
        · rename_i hfilled
          refine (skipUntil_settles _ htail).bind ?_
          rintro ⟨rest, hle⟩ (hpasses : Passes r rest)
          dsimp only
          split
          · rename_i hclosed
            have hrest := htail.passes hpasses
            refine (expectOp_settles _ hrest).bind ?_
            rintro closing ⟨hclosing, -⟩
            have := closing.lt
            refine (parseType_settles hsrc closing.rest (hrest.reaches hclosing)).bind ?_
            rintro elem ⟨helem, hstands⟩
            have hall := hfirst.trans (hpasses.reaches (hclosing.trans helem))
            refine ⟨hall, ⟨?_, hstands, h.cuts hall⟩⟩
            obtain ⟨last, hlast⟩ := hpasses.exists_last (by
              rintro rfl
              exact hfilled hclosed)
            obtain ⟨u, v, rfl⟩ := List.exists_cons_of_ne_nil htail.ne_nil
            rw [hlast]
            exact ⟨_, htail.excerpt (hpasses.reaches_last hlast)⟩
          · exact (htail.passes hpasses).locates_unexpected _
      split
      · -- a channel to receive from
        split
        · refine (expectIdent_settles _ htail).bind ?_
          rintro word ⟨hword, -⟩
          have := word.lt
          refine (parseType_settles hsrc word.rest (htail.reaches hword)).bind ?_
          rintro elem ⟨helem, -⟩
          have hall := hfirst.trans (hword.trans helem)
          exact ⟨hall, h.excerpt hall⟩
        · exact htail.locates_unexpected _
      split
      · -- a type in parentheses
        refine (parseType_settles hsrc r htail).bind ?_
        rintro inner ⟨hinner, hstands⟩
        refine (expectOp_settles _ (htail.reaches hinner)).bind ?_
        rintro closing ⟨hclosing, -⟩
        exact ⟨hfirst.trans (hinner.trans hclosing), hstands⟩
      · exact h.locates_unexpected _
    · exact h.locates_unexpected _
termination_by ts => (ts.length, 0)
decreasing_by
  all_goals
    apply Prod.Lex.left
    simp only [List.length_cons]
    omega

theorem skipSignature_settles (hsrc : src.Sound) (ts : List Token) (h : Ahead src.chars ts) :
    Settles src.chars (Takes ts fun _ => True) (skipSignature src ts) := by
  unfold skipSignature
  refine (expectOp_settles _ h).bind ?_
  rintro opening ⟨hopening, hstands⟩
  have hafter := h.reaches hopening
  refine (skipClosed_settles hstands hafter).bind ?_
  rintro inside ⟨hinside, -⟩
  have hparams := hopening.trans hinside
  have hrest := h.reaches hparams
  have hlt := opening.lt
  have hlt' := inside.lt
  dsimp only
  split
  · rename_i hnil
    exact absurd hnil hrest.ne_nil
  · rename_i t r hcons
    rw [hcons] at hparams hrest
    have hlen : (t :: r).length < opening.rest.length := hcons ▸ hlt'
    split
    · rename_i ht
      have hopens : t.kind.opens = true := by
        rw [ht]
        decide
      refine (skipClosed_opens hrest hopens).bind ?_
      rintro results ⟨hresults, -⟩
      exact ⟨hparams.trans (hresults.cons t), trivial⟩
    split
    · refine (parseType_settles hsrc (t :: r) hrest).bind ?_
      rintro result ⟨hresult, -⟩
      exact ⟨hparams.trans hresult, trivial⟩
    · exact ⟨hparams, trivial⟩
termination_by (ts.length, 0)
decreasing_by
  apply Prod.Lex.left
  omega

theorem structFields_settles (hsrc : src.Sound) (ts : List Token) (h : Ahead src.chars ts) :
    Settles src.chars (Takes ts (fieldsStandIn src.chars)) (structFields src ts) := by
  have hsemis := length_dropSemis_le ts
  have hpasses := h.passes_dropSemis
  have hlines := h.passes hpasses
  rw [structFields]
  split
  · rename_i hnil
    exact absurd hnil hlines.ne_nil
  · rename_i t r hcons
    have hlen : (t :: r).length ≤ ts.length := hcons ▸ hsemis
    rw [hcons] at hpasses hlines
    split
    · rename_i hclosing
      have hend := hlines.tail_ne_nil (ne_eof_of_op hclosing)
      exact ⟨hpasses.reaches (.one hend), trivial⟩
    · refine (fieldLine_settles hsrc (t :: r) hlines).bind ?_
      rintro field ⟨hfield, hfieldStands⟩
      have hlt := field.lt
      have hrest := hlines.reaches hfield
      dsimp only
      split
      · refine (structFields_settles hsrc field.rest hrest).bind ?_
        rintro more ⟨hmore, hmoreStand⟩
        exact ⟨hpasses.reaches (hfield.trans hmore), hfieldStands, hmoreStand⟩
      · exact hrest.locates_unexpected _
termination_by (ts.length, 2)
decreasing_by
  · rcases Nat.lt_or_eq_of_le hlen with hlt | heq
    · exact Prod.Lex.left _ _ hlt
    · rw [heq]
      exact Prod.Lex.right _ (by omega)
  · apply Prod.Lex.left
    omega

theorem fieldLine_settles (hsrc : src.Sound) (ts : List Token) (h : Ahead src.chars ts) :
    Settles src.chars (Takes ts (FieldLine.StandsIn src.chars)) (fieldLine src ts) := by
  have hdoc := hsrc.docOf_head? ts
  unfold fieldLine
  dsimp only
  split
  · refine (parseType_settles hsrc ts h).bind ?_
    rintro type ⟨htype, hstands⟩
    exact withTag_reads h hdoc ⟨htype, by simp, hstands⟩
  split
  · refine (identList_settles _ h).bind ?_
    rintro names ⟨hnames, hnamesStand⟩
    have hlt := names.lt
    refine (parseType_settles hsrc names.rest (h.reaches hnames)).bind ?_
    rintro type ⟨htype, hstands⟩
    exact withTag_reads h hdoc ⟨hnames.trans htype, hnamesStand, hstands⟩
  · exact h.locates_unexpected _
termination_by (ts.length, 1)
decreasing_by
  · apply Prod.Lex.left
    omega
  · exact Prod.Lex.right _ (by omega)

end

end FieldRules
