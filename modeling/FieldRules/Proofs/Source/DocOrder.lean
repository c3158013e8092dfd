/-
The order of documentation.  The groups that document the lines of structs stand in the text in
the order of the lines, for a reader never goes back.
-/
import FieldRules.Proofs.Source.DeclReaders

namespace FieldRules

variable {src : SourceText} {ts rest : List Token}

/-! What documents the lines of structs. -/

/-- The groups above the lines of a struct. -/
def TypeExpr.lineDocs : TypeExpr → List CommentGroup
  | struct lines _ => lines.flatMap fun f => f.doc.toList
  | _ => []

def Decl.lineDocs : Decl → List CommentGroup
  | type d => d.specs.flatMap fun s => s.type.lineDocs
  | const _ => []

/-- The groups that document these tokens. -/
def SourceText.docsOf (src : SourceText) (ts : List Token) : List CommentGroup :=
  ts.flatMap fun t => (src.docOf t).toList

/-- Going on from `ts` to `rest` a reader has found these groups, in their order. -/
structure Gathers (src : SourceText) (ts : List Token) (docs : List CommentGroup)
    (rest : List Token) : Prop where
  passes : Passes ts rest
  docs : (docs ++ src.docsOf rest).Sublist (src.docsOf ts)

theorem Gathers.trans {docs more : List CommentGroup} {mid : List Token}
    (h : Gathers src ts docs mid) (hmore : Gathers src mid more rest) :
    Gathers src ts (docs ++ more) rest := by
  refine ⟨h.passes.trans hmore.passes, ?_⟩
  rw [List.append_assoc]
  exact (hmore.docs.append_left docs).trans h.docs

/-- What is passed need not be documented. -/
theorem Passes.gathers (h : Passes ts rest) : Gathers src ts [] rest := by
  refine ⟨h, ?_⟩
  obtain ⟨⟨used, rfl⟩, -⟩ := h
  unfold SourceText.docsOf
  rw [List.nil_append, List.flatMap_append]
  exact List.sublist_append_right _ _

theorem Passes.gathers_trans {docs : List CommentGroup} {mid : List Token} (h : Passes ts mid)
    (hmore : Gathers src mid docs rest) : Gathers src ts docs rest := h.gathers.trans hmore

theorem Gathers.passing {docs : List CommentGroup} {mid : List Token} (h : Gathers src ts docs mid)
    (hmore : Passes mid rest) : Gathers src ts docs rest := by
  have := h.trans hmore.gathers
  rwa [List.append_nil] at this

theorem Settles.of_ok {α : Type} {cs : List Char} {Q : α → Prop} {x : Except SourceError α} {a : α}
    (h : Settles cs Q x) (hx : x = .ok a) : Q a := by
  rwa [hx] at h

/-! Lines. -/

theorem withTag_doc {n : Nat} (doc : Option CommentGroup)
    (line : Reading (List Ident × TypeExpr) n) : (withTag doc line).value.doc = doc := by
  unfold withTag
  split
  · rfl
  · split <;> rfl

theorem doc_of_fieldLine {line : Reading FieldLine ts.length} (h : fieldLine src ts = .ok line) :
    line.value.doc = ts.head?.bind src.docOf := by
  unfold fieldLine at h
  dsimp only at h
  split at h
  · obtain ⟨type, -, h⟩ := bind_eq_ok.mp h
    cases h
    exact withTag_doc _ _
  split at h
  · obtain ⟨names, -, h⟩ := bind_eq_ok.mp h
    obtain ⟨type, -, h⟩ := bind_eq_ok.mp h
    cases h
    exact withTag_doc _ _
  · cases h

theorem fieldLine_gathers (hsrc : src.Sound) (h : Ahead src.chars ts)
    {line : Reading FieldLine ts.length} (hread : fieldLine src ts = .ok line) :
    Gathers src ts line.value.doc.toList line.rest := by
  obtain ⟨hreaches, -⟩ := (fieldLine_settles hsrc ts h).of_ok hread
  refine ⟨hreaches.passes, ?_⟩
  obtain ⟨front, last, htokens, -, hne⟩ := hreaches
  rw [doc_of_fieldLine hread]
  generalize line.rest = left at htokens hne
  subst htokens
  cases front with
  | nil => exact List.Sublist.refl _
  | cons t used =>
      have hpasses : Passes (used ++ last :: left) left := ⟨⟨used ++ [last], by simp⟩, hne⟩
      exact hpasses.gathers.docs.append_left (src.docOf t).toList

theorem structFields_gathers (hsrc : src.Sound) (ts : List Token) (h : Ahead src.chars ts)
    {fields : Reading (List FieldLine) ts.length} (hread : structFields src ts = .ok fields) :
    Gathers src ts (fields.value.flatMap fun f => f.doc.toList) fields.rest := by
  have hpasses := h.passes_dropSemis
  have hsemis := length_dropSemis_le ts
  rw [structFields] at hread
  split at hread
  · cases hread
  · rename_i t r hcons
    rw [hcons] at hpasses
    have hlines := h.passes hpasses
    have hlen : (t :: r).length ≤ ts.length := hcons ▸ hsemis
    split at hread
    · rename_i hclosing
      cases hread
      exact (hpasses.trans (hlines.passes_tail (ne_eof_of_op hclosing))).gathers
    · obtain ⟨field, hfield, hread⟩ := bind_eq_ok.mp hread
      split at hread
      · obtain ⟨more, hmore, hread⟩ := bind_eq_ok.mp hread
        cases hread
        have hlt := field.lt
        have hone := fieldLine_gathers hsrc hlines hfield
        have hrest := structFields_gathers hsrc _ (hlines.passes hone.passes) hmore
        exact hpasses.gathers_trans (hone.trans hrest)
      · cases hread
termination_by ts.length

/-! Types. -/

theorem namedType_lineDocs {type : Reading TypeExpr ts.length} (h : namedType src ts = .ok type) :
    type.value.lineDocs = [] := by
  unfold namedType at h
  obtain ⟨first, -, h⟩ := bind_eq_ok.mp h
  extract_lets hlt finish at h
  have hfinish : ∀ named : Reading TypeExpr ts.length, named.value.lineDocs = [] →
      finish named = .ok type → type.value.lineDocs = [] := by
    intro named hnamed hread
    unfold finish at hread
    dsimp only at hread
    split at hread
    · cases hread
      exact hnamed
    split at hread
    · obtain ⟨inside, -, hread⟩ := bind_eq_ok.mp hread
      cases hread
      rfl
    · cases hread
      exact hnamed
  split at h
  · obtain ⟨dot, -, h⟩ := bind_eq_ok.mp h
    obtain ⟨name, -, h⟩ := bind_eq_ok.mp h
    exact hfinish _ rfl h
  · exact hfinish _ rfl h

/-- Only a struct has lines, also in parentheses. -/
theorem parseType_eq_ok {t : Token} {r : List Token} {type : Reading TypeExpr (t :: r).length}
    (h : parseType src (t :: r) = .ok type) :
    type.value.lineDocs = [] ∨
      (∃ opening fields, t.kind = .ident "struct" ∧ expectOp "\x7b" r = .ok opening ∧
        structFields src opening.rest = .ok fields ∧ type.rest = fields.rest ∧
        type.value.lineDocs = fields.value.flatMap fun f => f.doc.toList) ∨
      ∃ inner closing, t.kind = .op "(" ∧ parseType src r = .ok inner ∧
        expectOp ")" inner.rest = .ok closing ∧ type.rest = closing.rest ∧
        type.value = inner.value := by
  unfold parseType at h
  dsimp only at h
  split at h
  · rename_i word hword
    split at h
    · rename_i hstruct
      obtain ⟨opening, hopening, h⟩ := bind_eq_ok.mp h
      obtain ⟨fields, hfields, h⟩ := bind_eq_ok.mp h
      cases h
      exact .inr (.inl ⟨opening, fields, hstruct ▸ hword, hopening, hfields, rfl, rfl⟩)
    split at h
    · obtain ⟨opening, -, h⟩ := bind_eq_ok.mp h
      obtain ⟨key, -, h⟩ := bind_eq_ok.mp h
      obtain ⟨closing, -, h⟩ := bind_eq_ok.mp h
      obtain ⟨value, -, h⟩ := bind_eq_ok.mp h
      cases h
      exact .inl rfl
    split at h
    · obtain ⟨opening, -, h⟩ := bind_eq_ok.mp h
      obtain ⟨inside, -, h⟩ := bind_eq_ok.mp h
      cases h
      exact .inl rfl
    split at h
    · obtain ⟨signature, -, h⟩ := bind_eq_ok.mp h
      cases h
      exact .inl rfl
    split at h
    · split at h
      · cases h
      split at h
      · obtain ⟨elem, -, h⟩ := bind_eq_ok.mp h
        cases h
        exact .inl rfl
      · obtain ⟨elem, -, h⟩ := bind_eq_ok.mp h
        cases h
        exact .inl rfl
    · exact .inl (namedType_lineDocs h)
  · rename_i symbol hsymbol
    split at h
    · obtain ⟨elem, -, h⟩ := bind_eq_ok.mp h
      cases h
      exact .inl rfl
    split at h
    · split at h
      · obtain ⟨closing, -, h⟩ := bind_eq_ok.mp h
        obtain ⟨elem, -, h⟩ := bind_eq_ok.mp h
        cases h
        exact .inl rfl
      · obtain ⟨⟨rest, hle⟩, -, h⟩ := bind_eq_ok.mp h
        dsimp only at h
        split at h
        · obtain ⟨closing, -, h⟩ := bind_eq_ok.mp h
          obtain ⟨elem, -, h⟩ := bind_eq_ok.mp h
          cases h
          exact .inl rfl
        · cases h
    split at h
    · split at h
      · obtain ⟨word, -, h⟩ := bind_eq_ok.mp h
        obtain ⟨elem, -, h⟩ := bind_eq_ok.mp h
        cases h
        exact .inl rfl
      · cases h
    split at h
    · rename_i hparen
      obtain ⟨inner, hinner, h⟩ := bind_eq_ok.mp h
      obtain ⟨closing, hclosing, h⟩ := bind_eq_ok.mp h
      cases h
      exact .inr (.inr ⟨inner, closing, hparen ▸ hsymbol, hinner, hclosing, rfl, rfl⟩)
    · cases h
  · cases h

theorem parseType_gathers (hsrc : src.Sound) : ∀ (ts : List Token), Ahead src.chars ts →
    ∀ type : Reading TypeExpr ts.length, parseType src ts = .ok type →
      Gathers src ts type.value.lineDocs type.rest
  | [], h, _, _ => absurd rfl h.ne_nil
  | t :: r, h, type, hread => by
      rcases parseType_eq_ok hread with hnil |
        ⟨opening, fields, ht, hopening, hfields, hrest, hdocs⟩ |
        ⟨inner, closing, ht, hinner, hclosing, hrest, hvalue⟩
      · rw [hnil]
        exact ((parseType_settles hsrc _ h).of_ok hread).1.passes.gathers
      · have htail := h.tail (ne_eof_of_ident ht)
        have hfirst := ((expectOp_settles _ htail).of_ok hopening).1.passes
        rw [hdocs, hrest]
        exact ((h.passes_tail (ne_eof_of_ident ht)).trans hfirst).gathers_trans
          (structFields_gathers hsrc _ (htail.passes hfirst) hfields)
      · have htail := h.tail (ne_eof_of_op ht)
        have hone := parseType_gathers hsrc r htail inner hinner
        have hlast := ((expectOp_settles _ (htail.passes hone.passes)).of_ok hclosing).1.passes
        rw [hvalue, hrest]
        exact ((h.passes_tail (ne_eof_of_op ht)).gathers_trans hone).passing hlast

/-! Declarations. -/

theorem typeSpec_gathers (hsrc : src.Sound) (h : Ahead src.chars ts)
    {spec : Reading TypeSpec ts.length} (hread : typeSpec src ts = .ok spec) :
    Gathers src ts spec.value.type.lineDocs spec.rest := by
  unfold typeSpec at hread
  obtain ⟨name, hname, hread⟩ := bind_eq_ok.mp hread
  obtain ⟨⟨generic, params, hle⟩, hparams, hread⟩ := bind_eq_ok.mp hread
  obtain ⟨type, htype, hread⟩ := bind_eq_ok.mp hread
  cases hread
  have hfirst := ((expectIdent_settles _ h).of_ok hname).1.passes
  have hafter := h.passes hfirst
  have hskipped : Passes name.rest params := (skipTypeParams_settles hafter).of_ok hparams
  have hrest := hafter.passes hskipped
  have hequals := hrest.passes_equals
  have hone := parseType_gathers hsrc _ (hrest.passes hequals) type htype
  exact (hfirst.trans (hskipped.trans hequals)).gathers_trans hone

section Specs

variable {α : Type} (docs : α → List CommentGroup)
  {spec : Nat → (ts : List Token) → Except SourceError (Reading α ts.length)}

theorem specGroup_gathers
    (hspec : ∀ index ts, Ahead src.chars ts → ∀ one, spec index ts = .ok one →
      Gathers src ts (docs one.value) one.rest)
    (index : Nat) (ts : List Token) (h : Ahead src.chars ts) {all : Reading (List α) ts.length}
    (hread : specGroup spec index ts = .ok all) :
    Gathers src ts (all.value.flatMap docs) all.rest := by
  have hpasses := h.passes_dropSemis
  have hsemis := length_dropSemis_le ts
  unfold specGroup at hread
  split at hread
  · cases hread
  · rename_i t r hcons
    rw [hcons] at hpasses
    have hspecs := h.passes hpasses
    have hlen : (t :: r).length ≤ ts.length := hcons ▸ hsemis
    split at hread
    · rename_i hclosing
      cases hread
      exact (hpasses.trans (hspecs.passes_tail (ne_eof_of_op hclosing))).gathers
    · obtain ⟨one, hone, hread⟩ := bind_eq_ok.mp hread
      split at hread
      · obtain ⟨more, hmore, hread⟩ := bind_eq_ok.mp hread
        cases hread
        have hlt := one.lt
        have hfirst := hspec index _ hspecs one hone
        have hrest := specGroup_gathers hspec _ _ (hspecs.passes hfirst.passes) hmore
        exact hpasses.gathers_trans (hfirst.trans hrest)
      · cases hread
termination_by ts.length

theorem specs_gathers
    (hspec : ∀ index ts, Ahead src.chars ts → ∀ one, spec index ts = .ok one →
      Gathers src ts (docs one.value) one.rest)
    (h : Ahead src.chars ts) {all : Reading (Bool × List α) ts.length}
    (hread : specs spec ts = .ok all) : Gathers src ts (all.value.2.flatMap docs) all.rest := by
  unfold specs at hread
  split at hread
  · exact absurd rfl h.ne_nil
  · rename_i t r
    split at hread
    · rename_i hgroup
      obtain ⟨found, hfound, hread⟩ := bind_eq_ok.mp hread
      cases hread
      exact (h.passes_tail (ne_eof_of_op hgroup)).gathers_trans
        (specGroup_gathers docs hspec 0 r (h.tail (ne_eof_of_op hgroup)) hfound)
    · obtain ⟨one, hone, hread⟩ := bind_eq_ok.mp hread
      cases hread
      have := hspec 0 _ h one hone
      simpa using this

end Specs

theorem declarations_gathers (hsrc : src.Sound) (ts : List Token) (h : Ahead src.chars ts)
    {decls : List Decl} (hread : declarations src ts = .ok decls) :
    (decls.flatMap Decl.lineDocs).Sublist (src.docsOf ts) := by
  have hsemis := length_dropSemis_le ts
  have hfirst := h.passes_dropSemis
  unfold declarations at hread
  split at hread
  · cases hread
    exact List.nil_sublist _
  · rename_i t r hcons
    have hlen : (t :: r).length ≤ ts.length := hcons ▸ hsemis
    have hshort : r.length < ts.length := hlen
    rw [hcons] at hfirst
    have hdecls := h.passes hfirst
    split at hread
    · cases hread
      exact List.nil_sublist _
    · rename_i word hword
      have htail := hdecls.tail (ne_eof_of_ident hword)
      have hkeyword : Passes ts r := hfirst.trans (hdecls.passes_tail (ne_eof_of_ident hword))
      split at hread
      · obtain ⟨⟨rest, hle⟩, hskip, hread⟩ := bind_eq_ok.mp hread
        have hpasses : Passes r rest := (skipDeclaration_settles htail).of_ok hskip
        exact (declarations_gathers hsrc rest (htail.passes hpasses) hread).trans
          (hkeyword.trans hpasses).gathers.docs
      split at hread
      · obtain ⟨⟨rest, hle⟩, hskip, hread⟩ := bind_eq_ok.mp hread
        have hpasses : Passes r rest := (skipFunction_settles false htail).of_ok hskip
        exact (declarations_gathers hsrc rest (htail.passes hpasses) hread).trans
          (hkeyword.trans hpasses).gathers.docs
      split at hread
      · obtain ⟨all, hall, hread⟩ := bind_eq_ok.mp hread
        obtain ⟨more, hmore, hread⟩ := bind_eq_ok.mp hread
        cases hread
        have hlt := all.lt
        have hspecs := specs_gathers (fun s => s.type.lineDocs)
          (fun _ _ hahead _ hone => typeSpec_gathers hsrc hahead hone) htail hall
        have hrest := declarations_gathers hsrc _ (htail.passes hspecs.passes) hmore
        exact (hrest.append_left _).trans (hkeyword.gathers_trans hspecs).docs
      split at hread
      · obtain ⟨all, hall, hread⟩ := bind_eq_ok.mp hread
        obtain ⟨more, hmore, hread⟩ := bind_eq_ok.mp hread
        cases hread
        have hlt := all.lt
        have hpasses :=
          ((specs_settles (fun index _ => constSpec_settles hsrc index) htail).of_ok hall).1.passes
        have hrest := declarations_gathers hsrc _ (htail.passes hpasses) hmore
        exact hrest.trans (hkeyword.trans hpasses).gathers.docs
      · cases hread
    · cases hread
termination_by ts.length

theorem parseTokens_gathers (hsrc : src.Sound) (h : Ahead src.chars ts) {f : SourceFile}
    (hread : parseTokens src ts = .ok f) :
    f.groups = src.groups ∧ (f.decls.flatMap Decl.lineDocs).Sublist (src.docsOf ts) := by
  have hsemis := h.passes_dropSemis
  have hfirst := h.passes hsemis
  unfold parseTokens at hread
  dsimp only at hread
  split at hread
  · obtain ⟨keyword, hkeyword, hread⟩ := bind_eq_ok.mp hread
    obtain ⟨package, hpackage, hread⟩ := bind_eq_ok.mp hread
    obtain ⟨decls, hdecls, hread⟩ := bind_eq_ok.mp hread
    cases hread
    have hword := ((expectIdent_settles _ hfirst).of_ok hkeyword).1.passes
    have hname := ((expectIdent_settles _ (hfirst.passes hword)).of_ok hpackage).1.passes
    have hpasses := hword.trans hname
    exact ⟨rfl, (declarations_gathers hsrc _ (hfirst.passes hpasses) hdecls).trans
      (hsemis.trans hpasses).gathers.docs⟩
  · cases hread

/-! Tokens. -/

theorem docsOf_semi (s : LayoutState) (pos line : Nat) (ts : List Token) :
    src.docsOf (s.semi pos line ++ ts) = src.docsOf ts := by
  unfold LayoutState.semi
  split <;> rfl

/-- A token is documented by the last group in front of it, if by any. -/
theorem docOf_layout (chars : List Char) (s : LayoutState) {before : List CommentGroup}
    (hbefore : before.length = s.closed) (later : List CommentGroup) {t : Token} {line : Nat}
    (ht : t.doc = s.doc line) :
    (SourceText.docOf ⟨chars, before ++ (s.gap ++ later)⟩ t).toList.Sublist s.gap := by
  rcases List.eq_nil_or_concat s.gap with hnil | ⟨front, g, hgap⟩
  · simp [SourceText.docOf, ht, LayoutState.doc, hnil]
  · rw [List.concat_eq_append] at hgap
    have hindex : (before ++ (s.gap ++ later))[s.closed + front.length]? = some g := by
      simp [hgap, hbefore]
    by_cases hdoc : g.documents line = true
    · have hlast : s.doc line = some (s.closed + front.length) := by
        simp [LayoutState.doc, hgap, hdoc]
      rw [SourceText.docOf, ht, hlast, Option.bind_some, hindex, hgap]
      exact List.sublist_append_right _ _
    · simp [SourceText.docOf, ht, LayoutState.doc, hgap, hdoc]

/-- Tokens have their groups in order, no two the same. -/
theorem docsOf_layout (chars : List Char) (xs : List Lexeme) (s : LayoutState)
    (before : List CommentGroup) (hbefore : before.length = s.closed) :
    (SourceText.docsOf ⟨chars, before ++ (layout s xs).groups⟩ (layout s xs).tokens).Sublist
      (layout s xs).groups := by
  induction xs generalizing s before with
  | nil =>
      rw [layout, docsOf_semi]
      exact List.nil_sublist _
  | cons x xs ih =>
      cases hcls : x.cls with
      | blank =>
          simp only [layout, hcls]
          exact ih (s.past x) before hbefore
      | newline =>
          simp only [layout, hcls, docsOf_semi]
          exact ih { s.past x with ends := false } before hbefore
      | comment =>
          by_cases hbreak : x.chars.contains '\n' = true
          · simp only [layout, hcls, if_pos hbreak, docsOf_semi]
            exact ih { s.past x with gap := addComment s.lastLine s.gap x, ends := false } before
              hbefore
          · simp only [layout, hcls, if_neg hbreak]
            exact ih { s.past x with gap := addComment s.lastLine s.gap x } before hbefore
      | token kind =>
          have hrest := ih (s.afterToken kind x) (before ++ s.gap) (by
            rw [List.length_append, hbefore]
            rfl)
          simp only [layout, hcls]
          rw [List.append_assoc] at hrest
          exact (docOf_layout chars s hbefore _ rfl).append hrest

/-- The groups above the lines of structs stand among the groups of the text, in the order of the
lines, and their comments one after the other. -/
theorem lineDocs_of_parseSource {text : String} {f : SourceFile} (h : parseSource text = .ok f) :
    (f.decls.flatMap Decl.lineDocs).Sublist f.groups ∧
      (f.groups.flatMap CommentGroup.comments).Pairwise fun c d => c.span.Before d.span := by
  unfold parseSource at h
  obtain ⟨stream, hstream, h⟩ := bind_eq_ok.mp h
  have hcovers : stream.Covers text.toList := (settles_tokenize text).of_ok hstream
  obtain ⟨xs, -, rfl⟩ := map_eq_ok.mp hstream
  obtain ⟨hgroups, hdocs⟩ := parseTokens_gathers hcovers.sound hcovers.ahead h
  rw [hgroups]
  exact ⟨hdocs.trans (docsOf_layout _ xs .initial [] rfl), hcovers.commentsOrdered⟩

end FieldRules
