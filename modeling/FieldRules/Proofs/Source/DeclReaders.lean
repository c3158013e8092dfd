/-
The readers of declarations are safe, and so is reading a whole text: it gives a tree whose
places are slices of the text, or an error that names one.
-/
import FieldRules.Proofs.Source.TypeReaders

namespace FieldRules

variable {α : Type} {cs : List Char} {src : SourceText} {ts rest tokens : List Token}

/-! Constants. -/

/-- An expression stands at the slice from its first token to its last. -/
theorem constExpr_standsIn {first last : Token} (h : Ahead src.chars ts) (htokens : tokens <+: ts)
    (hfirst : tokens.head? = some first) (hlast : tokens.getLast? = some last) :
    (constExpr src first last tokens).StandsIn src.chars := by
  obtain ⟨more, rfl⟩ := List.head?_eq_some_iff.mp hfirst
  obtain ⟨rest, rfl⟩ := htokens
  rw [List.cons_append] at h
  have hmem : last ∈ first :: more := List.mem_of_getLast? hlast
  have hspan := h.cover_cuts (u := last) (List.mem_append_left rest hmem)
  have hverbatim := isExcerpt_between hspan
  unfold constExpr
  dsimp only
  split
  · rename_i name hkinds
    obtain ⟨hkind, rfl⟩ : first.kind = .ident name ∧ more = [] := by simpa using hkinds
    obtain rfl : first = last := Option.some.inj hlast
    rw [Span.cover, Nat.min_self, Nat.max_self]
    exact h.ident hkind
  · rename_i kind spelling hkinds
    obtain ⟨hkind, rfl⟩ : first.kind = .literal kind spelling ∧ more = [] := by
      simpa using hkinds
    have hlexical := h.head.lexical
    rw [hkind] at hlexical
    exact ⟨.inl hlexical, hspan⟩
  · rename_i sign kind spelling hkinds
    split
    · rename_i hsigned
      simp only [Bool.and_eq_true, Bool.or_eq_true, decide_eq_true_eq] at hsigned
      obtain ⟨hkind, u, rfl, hu⟩ : first.kind = .op sign ∧
          ∃ u, more = [u] ∧ u.kind = .literal kind spelling := by
        simpa [List.map_eq_cons_iff] using hkinds
      have hlexical := (h.stands u (by simp)).lexical
      rw [hu] at hlexical
      refine ⟨?_, hspan⟩
      split
      · exact .inr ⟨hsigned.2, spelling, hlexical, rfl⟩
      · exact .inl hlexical
    · exact hverbatim
  · exact hverbatim

theorem exprList_settles : ∀ ts : List Token, Ahead src.chars ts →
    Settles src.chars (Takes ts fun values => ∀ v ∈ values, v.StandsIn src.chars)
      (exprList src ts) := by
  intro ts h
  unfold exprList
  refine (skipUntil_settles _ h).bind ?_
  rintro ⟨rest, hle⟩ (hpasses : Passes ts rest)
  have hrest := h.passes hpasses
  dsimp only
  split
  · rename_i first last hfirst hlast
    have hone := constExpr_standsIn h (List.take_prefix _ _) hfirst hlast
    have hreaches := hpasses.reaches_last hlast
    have hlt := length_lt_of_head?_take hfirst hle
    split
    · exact absurd rfl hrest.ne_nil
    · rename_i t r
      split
      · rename_i hcomma
        have hmore := hrest.tail (ne_eof_of_op hcomma)
        have : r.length < ts.length := Nat.lt_of_succ_lt hlt
        refine (exprList_settles r hmore).bind ?_
        rintro more ⟨hmoreReaches, hall⟩
        exact ⟨hreaches.trans (hmoreReaches.cons t), List.forall_mem_cons.mpr ⟨hone, hall⟩⟩
      · exact ⟨hreaches, List.forall_mem_singleton.mpr hone⟩
  · exact h.locates_unexpected _
termination_by ts => ts.length

theorem typeAfter_settles (hsrc : src.Sound) (h : Ahead src.chars ts)
    {names : Reading (List Ident) ts.length} (hnames : Takes ts (fun _ => True) names) :
    Settles src.chars (Takes ts fun type => ∀ t ∈ type, t.StandsIn src.chars)
      (typeAfter src names) := by
  unfold typeAfter
  dsimp only
  split
  · exact ⟨hnames.1, by simp⟩
  · refine (parseType_settles hsrc names.rest (h.reaches hnames.1)).bind ?_
    rintro type ⟨htype, hstands⟩
    exact ⟨hnames.1.trans htype, by simpa using hstands⟩

theorem valuesAfter_settles (h : Ahead src.chars ts) {before : Reading α ts.length}
    (hbefore : Takes ts (fun _ => True) before) :
    Settles src.chars (Takes ts fun values => ∀ v ∈ values, v.StandsIn src.chars)
      (valuesAfter src before) := by
  have hreaches := hbefore.1
  have hrest := h.reaches hreaches
  unfold valuesAfter
  split
  · rename_i hnil
    exact absurd hnil hrest.ne_nil
  · rename_i t r hcons
    rw [hcons] at hreaches hrest
    split
    · rename_i hequals
      refine (exprList_settles r (hrest.tail (ne_eof_of_op hequals))).bind ?_
      rintro values ⟨hvalues, hstand⟩
      exact ⟨hreaches.trans (hvalues.cons t), hstand⟩
    · exact ⟨hreaches, List.forall_mem_nil _⟩

theorem constSpec_settles (hsrc : src.Sound) (index : Nat) (h : Ahead src.chars ts) :
    Settles src.chars (Takes ts (ConstSpec.StandsIn src.chars)) (constSpec src index ts) := by
  unfold constSpec
  refine (identList_settles _ h).bind ?_
  rintro names ⟨hnames, hnamesStand⟩
  refine (typeAfter_settles hsrc h ⟨hnames, trivial⟩).bind ?_
  rintro typed ⟨htyped, htypeStands⟩
  refine (valuesAfter_settles h ⟨htyped, trivial⟩).bind ?_
  rintro values ⟨hvalues, hvaluesStand⟩
  exact ⟨hvalues, hsrc.docOf_head? ts, hnamesStand, htypeStands, hvaluesStand⟩

/-! Types. -/

theorem Ahead.passes_equals (h : Ahead cs ts) :
    Passes ts (if nextKind ts = .op "=" then ts.tail else ts) := by
  split
  · obtain ⟨t, r, rfl⟩ := List.exists_cons_of_ne_nil h.ne_nil
    rename_i ht
    exact h.passes_tail (ne_eof_of_op ht)
  · exact .refl h.ne_nil

theorem typeSpec_settles (hsrc : src.Sound) (h : Ahead src.chars ts) :
    Settles src.chars (Takes ts (TypeSpec.StandsIn src.chars)) (typeSpec src ts) := by
  unfold typeSpec
  refine (expectIdent_settles _ h).bind ?_
  rintro name ⟨hname, hnameStands, -⟩
  refine (skipTypeParams_settles (h.reaches hname)).bind ?_
  rintro ⟨generic, rest, hle⟩ (hpasses : Passes name.rest rest)
  have hrest := (h.reaches hname).passes hpasses
  have hequals := hrest.passes_equals
  dsimp only
  refine (parseType_settles hsrc _ (hrest.passes hequals)).bind ?_
  rintro type ⟨htype, hstands⟩
  exact ⟨hname.trans (hpasses.reaches (hequals.reaches htype)),
    hsrc.docOf_head? ts, hnameStands, hstands⟩

/-! Groups. -/

section Specs

variable {P : α → Prop} {spec : Nat → (ts : List Token) → Except SourceError (Reading α ts.length)}

theorem specGroup_settles
    (hspec : ∀ index ts, Ahead cs ts → Settles cs (Takes ts P) (spec index ts)) :
    ∀ (index : Nat) (ts : List Token), Ahead cs ts →
      Settles cs (Takes ts fun all => ∀ a ∈ all, P a) (specGroup spec index ts) := by
  intro index ts h
  have hsemis := length_dropSemis_le ts
  have hpasses := h.passes_dropSemis
  have hspecs := h.passes hpasses
  unfold specGroup
  split
  · rename_i hnil
    exact absurd hnil hspecs.ne_nil
  · rename_i t r hcons
    have hlen : (t :: r).length ≤ ts.length := hcons ▸ hsemis
    rw [hcons] at hpasses hspecs
    split
    · rename_i hclosing
      have hend := hspecs.tail_ne_nil (ne_eof_of_op hclosing)
      exact ⟨hpasses.reaches (.one hend), List.forall_mem_nil _⟩
    · refine (hspec index (t :: r) hspecs).bind ?_
      rintro one ⟨hone, hstands⟩
      have hlt := one.lt
      have hrest := hspecs.reaches hone
      dsimp only
      split
      · refine (specGroup_settles hspec (index + 1) one.rest hrest).bind ?_
        rintro more ⟨hmore, hall⟩
        exact ⟨hpasses.reaches (hone.trans hmore), List.forall_mem_cons.mpr ⟨hstands, hall⟩⟩
      · exact hrest.locates_unexpected _
termination_by _ ts => ts.length

theorem specs_settles
    (hspec : ∀ index ts, Ahead cs ts → Settles cs (Takes ts P) (spec index ts))
    (h : Ahead cs ts) :
    Settles cs (Takes ts fun all => ∀ a ∈ all.2, P a) (specs spec ts) := by
  unfold specs
  split
  · exact absurd rfl h.ne_nil
  · rename_i t r
    split
    · rename_i hgroup
      have hopening := h.tail (ne_eof_of_op hgroup)
      refine (specGroup_settles hspec 0 r hopening).bind ?_
      rintro all ⟨hall, hstand⟩
      exact ⟨hall.cons t, hstand⟩
    · refine (hspec 0 (t :: r) h).bind ?_
      rintro one ⟨hone, hstands⟩
      exact ⟨hone, List.forall_mem_singleton.mpr hstands⟩

end Specs

/-! The file. -/

theorem declarations_settles (hsrc : src.Sound) : ∀ ts : List Token, Ahead src.chars ts →
    Settles src.chars (fun decls => ∀ d ∈ decls, d.StandsIn src.chars) (declarations src ts) := by
  intro ts h
  have hsemis := length_dropSemis_le ts
  have hfirst := h.passes h.passes_dropSemis
  unfold declarations
  split
  · exact List.forall_mem_nil _
  · rename_i t r hcons
    have hlen : (t :: r).length ≤ ts.length := hcons ▸ hsemis
    have hshort : r.length < ts.length := hlen
    rw [hcons] at hfirst
    split
    · exact List.forall_mem_nil _
    · rename_i word hword
      have htail := hfirst.tail (ne_eof_of_ident hword)
      split
      · refine (skipDeclaration_settles htail).bind ?_
        rintro ⟨rest, hle⟩ (hpasses : Passes r rest)
        exact declarations_settles hsrc rest (htail.passes hpasses)
      split
      · refine (skipFunction_settles false htail).bind ?_
        rintro ⟨rest, hle⟩ (hpasses : Passes r rest)
        exact declarations_settles hsrc rest (htail.passes hpasses)
      split
      · refine (specs_settles (fun _ ts => typeSpec_settles hsrc) htail).bind ?_
        rintro all ⟨hall, hstand⟩
        have hlt := all.lt
        refine (declarations_settles hsrc all.rest (htail.reaches hall)).bind ?_
        intro more hmore
        exact List.forall_mem_cons.mpr ⟨⟨hsrc.docOf t, hstand⟩, hmore⟩
      split
      · refine (specs_settles (fun index ts => constSpec_settles hsrc index) htail).bind ?_
        rintro all ⟨hall, hstand⟩
        have hlt := all.lt
        refine (declarations_settles hsrc all.rest (htail.reaches hall)).bind ?_
        intro more hmore
        exact List.forall_mem_cons.mpr ⟨⟨hsrc.docOf t, hstand⟩, hmore⟩
      · exact hfirst.locates_unexpected _
    · exact hfirst.locates_unexpected _
termination_by ts => ts.length

theorem parseTokens_settles (hsrc : src.Sound) (h : Ahead src.chars ts) :
    Settles src.chars (SourceFile.StandsIn src.chars) (parseTokens src ts) := by
  have hfirst := h.passes h.passes_dropSemis
  unfold parseTokens
  dsimp only
  split
  · refine (expectIdent_settles _ hfirst).bind ?_
    rintro keyword ⟨hkeyword, -⟩
    have hpackage := hfirst.reaches hkeyword
    refine (expectIdent_settles _ hpackage).bind ?_
    rintro package ⟨hreaches, hstands, -⟩
    refine (declarations_settles hsrc _ (hpackage.reaches hreaches)).bind ?_
    intro decls hdecls
    exact ⟨hstands, hdecls, hsrc⟩
  · exact hfirst.locates_unexpected _

theorem TokenStream.Covers.sound {text : String} {stream : TokenStream}
    (h : stream.Covers text.toList) : SourceText.Sound ⟨text.toList, stream.groups⟩ :=
  fun g hg c hc => h.comments c (List.mem_flatMap.mpr ⟨g, hg, hc⟩)

/-- Reading a text gives a tree that stands in it, or an error that names a slice of it. -/
theorem parseSource_settles (text : String) :
    Settles text.toList (SourceFile.StandsIn text.toList) (parseSource text) :=
  (settles_tokenize text).bind fun _ hcovers => parseTokens_settles hcovers.sound hcovers.ahead

end FieldRules
