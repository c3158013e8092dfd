/-
Reading fields back, and with them structs, so that every type is read back.
-/
import FieldRules.Proofs.Source.Types
import FieldRules.Proofs.Source.Steps

namespace FieldRules

variable {src : SourceText}

/-- The parser makes a written field again, where its line ends after it. -/
def FieldReadsBack (src : SourceText) (f : FieldTerm) : Prop :=
  ∀ rest, EndsLine rest →
    Parses src (fieldLine src) (pageMarks false (f.placed ++ rest)) (pageMarks true rest) f.Matches

/-- So it makes the fields of a struct, up to the closing brace. -/
def FieldsReadBack (src : SourceText) (fields : List FieldTerm) : Prop :=
  ∀ ends rest (hbrace : "\x7d" ∈ symbols),
    Parses src (structFields src)
      (pageMarks ends (placedFields fields ++ ⟨.line [], .symbol "\x7d" hbrace⟩ :: rest))
      (pageMarks true rest) (fieldsMatch fields)

theorem withTag_written {n : Nat} (doc : Option CommentGroup)
    (line : Reading (List Ident × TypeExpr) n) (tag : Option TagTerm) {rest : List Placed}
    (hrest : EndsLine rest) (h : Follows src (pageMarks true (placedTag tag ++ rest)) line.rest) :
    (withTag doc line).value = ⟨doc, line.value.1, line.value.2, tag.map TagTerm.spelling⟩ ∧
      Follows src (pageMarks true rest) (withTag doc line).rest := by
  unfold withTag
  cases tag with
  | none =>
      rw [placedTag, List.nil_append] at h
      have hnext := h.nextKind_eq
      rw [hrest] at hnext
      split
      · rename_i hnil
        rw [hnil] at hnext
        cases hnext
      · rename_i t r hcons
        rw [hcons] at hnext h
        have hkind : t.kind = .semi true := hnext
        simp only [hkind]
        exact ⟨rfl, h⟩
  | some tag =>
      obtain ⟨t, r, hcons, ht, hr⟩ := h.exists_cons
      have hkind : t.kind = .literal .str tag.spelling := ht.kind
      split
      · rename_i hnil
        rw [hnil] at hcons
        cases hcons
      · rename_i u v hcons'
        obtain ⟨rfl, rfl⟩ := List.cons.inj (hcons'.symm.trans hcons)
        simp only [hkind]
        exact ⟨rfl, hr⟩

/-- A tag goes on with no type, and neither does the end of the line. -/
theorem endsType_tag (tag : Option TagTerm) {rest : List Placed} (h : EndsLine rest) :
    EndsType (placedTag tag ++ rest) := by
  cases tag with
  | none => exact h.endsType
  | some tag => exact ⟨nofun, nofun⟩

/-! Embedded fields. -/

/-- The type of an embedded field, as any type is written. -/
def EmbeddedTerm.type (e : EmbeddedTerm) : TypeTerm :=
  if e.pointer then .pointer (.named e.name) else .named e.name

theorem EmbeddedTerm.placed_eq (e : EmbeddedTerm) (lead : Lead) :
    e.placed lead = e.type.placed lead := by
  unfold EmbeddedTerm.placed EmbeddedTerm.type
  split
  · rw [TypeTerm.placed, TypeTerm.placed]
  · rw [TypeTerm.placed]

theorem EmbeddedTerm.matches_of_type {e : EmbeddedTerm} {found : TypeExpr}
    (h : e.type.Matches found) : e.Matches found := by
  obtain ⟨pointer, name⟩ := e
  cases pointer with
  | false =>
      cases found with
      | named package n => exact ⟨rfl, h⟩
      | _ => exact h.elim
  | true =>
      cases found with
      | pointer elem span =>
          cases elem with
          | named package n => exact ⟨rfl, h⟩
          | _ => exact h.elim
      | _ => exact h.elim

theorem readsBack_embedded (e : EmbeddedTerm) : ReadsBack src e.type := by
  unfold EmbeddedTerm.type
  split
  · exact readsBack_pointer (readsBack_named e.name)
  · exact readsBack_named e.name

/-- After the name of an embedded field comes the end of the line or a tag. -/
theorem startsEmbedded_last {t : Token} {r : List Token} {name : String} (tag : Option TagTerm)
    {rest : List Placed} (hrest : EndsLine rest) (hkind : t.kind = .ident name)
    (h : Follows src (pageMarks true (placedTag tag ++ rest)) r) :
    startsEmbedded (t :: r) = true := by
  have hnext := h.nextKind_eq
  cases tag with
  | none =>
      rw [placedTag, List.nil_append, hrest] at hnext
      simp only [startsEmbedded, hkind, hnext]
  | some tag =>
      have hnext : nextKind r = .literal .str tag.spelling := hnext
      simp only [startsEmbedded, hkind, hnext]

theorem startsEmbedded_written (e : EmbeddedTerm) (lead : Lead) (tag : Option TagTerm)
    {rest : List Placed} (hrest : EndsLine rest) {ts : List Token}
    (h : Follows src (pageMarks false (e.placed lead ++ (placedTag tag ++ rest))) ts) :
    startsEmbedded ts = true := by
  obtain ⟨pointer, package, name⟩ := e
  cases pointer with
  | true =>
      rw [EmbeddedTerm.placed, if_pos rfl, List.cons_append, pageMarks_first] at h
      obtain ⟨t, r, rfl, ht, -⟩ := h.exists_cons
      have hkind : t.kind = .op "*" := ht.kind
      simp [startsEmbedded, hkind]
  | false =>
      rw [EmbeddedTerm.placed, if_neg Bool.false_ne_true] at h
      cases package with
      | none =>
          rw [TypeName.placed, List.cons_append, List.nil_append, pageMarks_first] at h
          obtain ⟨t, r, rfl, ht, hr⟩ := h.exists_cons
          exact startsEmbedded_last tag hrest ht.kind hr
      | some package =>
          rw [TypeName.placed, List.cons_append, List.cons_append, pageMarks_first,
            pageMarks_close] at h
          obtain ⟨t, r, rfl, ht, hr⟩ := h.exists_cons
          have hkind : t.kind = .ident package.text := ht.kind
          have hpoint : nextKind r = .op "." := hr.nextKind_eq
          simp [startsEmbedded, hkind, hpoint]

theorem fieldReadsBack_embedded (doc : List DocLine) (e : EmbeddedTerm) (tag : Option TagTerm) :
    FieldReadsBack src (.embedded doc e tag) := by
  intro rest hrest ts h
  rw [FieldTerm.placed, List.append_assoc] at h
  have hstarts := startsEmbedded_written e (.line doc) tag hrest h
  rw [e.placed_eq] at h
  obtain ⟨type, htype, hmatches, hr⟩ :=
    readsBack_embedded e (.line doc) _ (endsType_tag tag hrest) ts h
  obtain ⟨w, ps, hplaced, -⟩ := e.type.exists_placed (.line doc)
  rw [hplaced, List.cons_append, pageMarks_first] at h
  obtain ⟨t, more, rfl, ht, -⟩ := h.exists_cons
  obtain ⟨hvalue, hfollows⟩ := withTag_written (src.docOf t)
    ⟨([], type.value), type.rest, type.stop, type.lt⟩ tag hrest hr
  refine ⟨withTag (src.docOf t) ⟨([], type.value), type.rest, type.stop, type.lt⟩, ?_, ?_,
    hfollows⟩
  · rw [fieldLine]
    simp only [hstarts, if_true, htype, ok_bind, pure_eq_ok]
    rfl
  · rw [hvalue]
    exact ⟨sameDoc_of_marked ht, rfl, EmbeddedTerm.matches_of_type hmatches, rfl⟩

/-! Fields with names. -/

/-- What comes after the names of a field. -/
theorem startsResult_type (t : TypeTerm) (rest : List Placed) :
    startsResult (nextMark (pageMarks true (t.placed .space ++ rest))) = true := by
  obtain ⟨w, ps, hplaced, hstart⟩ := t.exists_placed .space
  rw [hplaced]
  exact hstart

theorem startsEmbedded_names {doc : List DocLine} (first : Name) (more : List Name)
    {rest : List Placed} (hrest : startsResult (nextMark (pageMarks true rest)) = true)
    {ts : List Token}
    (h : Follows src (pageMarks false (placedNames (.line doc) first more ++ rest)) ts) :
    startsEmbedded ts = false := by
  cases more with
  | nil =>
      rw [placedNames, List.cons_append, List.nil_append, pageMarks_first] at h
      obtain ⟨t, r, rfl, ht, hr⟩ := h.exists_cons
      have hkind : t.kind = .ident first.text := ht.kind
      have hnext : nextKind r = nextMark (pageMarks true rest) := hr.nextKind_eq
      simp only [startsEmbedded, hkind, hnext]
      generalize nextMark (pageMarks true rest) = k at hrest
      cases k with
      | ident name => rfl
      | op symbol =>
          have hsymbol : symbol = "*" ∨ symbol = "[" ∨ symbol = "<-" := by
            simpa [startsResult] using hrest
          rcases hsymbol with rfl | rfl | rfl <;> rfl
      | _ => cases hrest
  | cons second more =>
      rw [placedNames, List.cons_append, List.cons_append, pageMarks_first, pageMarks_close] at h
      obtain ⟨t, r, rfl, ht, hr⟩ := h.exists_cons
      have hkind : t.kind = .ident first.text := ht.kind
      have hcomma : nextKind r = .op "," := hr.nextKind_eq
      simp [startsEmbedded, hkind, hcomma]

theorem ne_comma_of_startsResult {k : TokenKind} (h : startsResult k = true) : k ≠ .op "," := by
  rintro rfl
  cases h

theorem fieldReadsBack_named (doc : List DocLine) (first : Name) (more : List Name)
    {type : TypeTerm} (tag : Option TagTerm) (htype : ReadsBack src type) :
    FieldReadsBack src (.named doc first more type tag) := by
  intro rest hrest ts h
  rw [FieldTerm.placed, List.append_assoc, List.append_assoc] at h
  have hstart := startsResult_type type (placedTag tag ++ rest)
  have hstarts := startsEmbedded_names first more hstart h
  obtain ⟨names, hnames, hsame, hr⟩ := parses_names "field name" (.line doc) first more
    (ne_comma_of_startsResult hstart) ts h
  rw [type.pageMarks_placed rfl] at hr
  obtain ⟨found, hfound, hmatches, hr⟩ :=
    htype .space _ (endsType_tag tag hrest) names.rest hr
  obtain ⟨ps, hplaced⟩ := exists_placedNames (.line doc) first more
  rw [hplaced, List.cons_append, pageMarks_first] at h
  have hname : nextKind ts = .ident first.text := h.nextKind_eq
  obtain ⟨t, us, rfl, ht, -⟩ := h.exists_cons
  have hlt := Nat.lt_trans found.lt names.lt
  obtain ⟨hvalue, hfollows⟩ := withTag_written (src.docOf t)
    ⟨(names.value, found.value), found.rest, found.stop, hlt⟩ tag hrest hr
  refine ⟨withTag (src.docOf t) ⟨(names.value, found.value), found.rest, found.stop, hlt⟩, ?_, ?_,
    hfollows⟩
  · rw [fieldLine]
    simp only [hstarts, Bool.false_eq_true, if_false, hname, hnames, hfound, ok_bind, pure_eq_ok]
    rfl
  · rw [hvalue]
    exact ⟨sameDoc_of_marked ht, hsame, hmatches, rfl⟩

/-! Structs. -/

/-- A field starts a line with a name or a star. -/
theorem FieldTerm.exists_placed (f : FieldTerm) :
    ∃ doc w ps, f.placed = ⟨.line doc, w⟩ :: ps ∧ w.kind ≠ .op "\x7d" := by
  cases f with
  | named doc first more type tag =>
      obtain ⟨ps, hplaced⟩ := exists_placedNames (.line doc) first more
      refine ⟨doc, .ofName first, ps ++ (type.placed .space ++ placedTag tag), ?_, nofun⟩
      rw [FieldTerm.placed, hplaced]
      rfl
  | embedded doc e tag =>
      obtain ⟨w, ps, hplaced, hstart⟩ := e.type.exists_placed (.line doc)
      refine ⟨doc, w, ps ++ placedTag tag, ?_, ?_⟩
      · rw [FieldTerm.placed, e.placed_eq, hplaced]
        rfl
      · intro hw
        rw [hw] at hstart
        cases hstart

theorem endsLine_fields (fields : List FieldTerm) (w : Word) (rest : List Placed) :
    EndsLine (placedFields fields ++ ⟨.line [], w⟩ :: rest) := by
  cases fields with
  | nil => exact endsLine_line [] w rest
  | cons field fields =>
      obtain ⟨doc, u, ps, hplaced, -⟩ := field.exists_placed
      rw [placedFields, hplaced]
      exact endsLine_line doc u _

theorem fieldsReadBack_nil : FieldsReadBack src [] := by
  intro ends rest hbrace ts h
  rw [placedFields, List.nil_append] at h
  obtain ⟨t, r, hcons, ht, hr⟩ := h.exists_dropSemis
  obtain ⟨lt, hread⟩ := structFields_close hcons ht.kind
  exact ⟨_, hread, trivial, hr⟩

theorem fieldsReadBack_cons {field : FieldTerm} {fields : List FieldTerm}
    (hfield : FieldReadsBack src field) (hfields : FieldsReadBack src fields) :
    FieldsReadBack src (field :: fields) := by
  intro ends rest hbrace ts h
  obtain ⟨doc, w, ps, hplaced, hword⟩ := field.exists_placed
  rw [placedFields, List.append_assoc, hplaced, List.cons_append] at h
  have hdrop := h.dropSemis
  obtain ⟨t, r, hcons, ht, -⟩ := h.exists_dropSemis
  have hkind : t.kind ≠ .op "\x7d" := by
    rw [ht.kind]
    exact hword
  rw [hcons, ← List.cons_append, ← hplaced] at hdrop
  have hline := endsLine_fields fields (.symbol "\x7d" hbrace) rest
  obtain ⟨found, hfound, hmatches, hr⟩ := hfield _ hline (t :: r) hdrop
  have hends : EndsTurn "\x7d" found.rest := by
    rw [EndsTurn, hr.nextKind_eq, hline]
    rfl
  obtain ⟨more, hmore, hmorematches, hfollows⟩ := hfields true rest hbrace found.rest hr
  obtain ⟨lt, hread⟩ := structFields_field hcons hkind hfound hends hmore
  exact ⟨_, hread, ⟨hmatches, hmorematches⟩, hfollows⟩

theorem readsBack_struct {fields : List FieldTerm} (h : FieldsReadBack src fields) :
    ReadsBack src (.struct fields) := by
  intro lead rest hrest ts hts
  rw [TypeTerm.placed, List.cons_append, List.cons_append, List.append_assoc, List.cons_append,
    List.nil_append, pageMarks_first] at hts
  obtain ⟨t, r, rfl, ht, hr⟩ := hts.exists_cons
  have hkind : t.kind = .ident "struct" := ht.kind
  rw [pageMarks_space] at hr
  obtain ⟨opening, hopening, -, hr⟩ := parses_op r hr
  obtain ⟨found, hfound, hmatches, hfollows⟩ := h false rest (by decide) opening.rest hr
  refine ⟨⟨.struct found.value ⟨t.span.start, found.stop⟩, found.rest, found.stop,
    Nat.lt_succ_of_lt (Nat.lt_trans found.lt opening.lt)⟩, ?_, hmatches, hfollows⟩
  rw [parseType.eq_def]
  simp only [hkind, if_true, hopening, hfound, ok_bind]
  rfl

mutual

/-- Every written type is read back. -/
theorem TypeTerm.readsBack (src : SourceText) : (t : TypeTerm) → ReadsBack src t
  | .named name => readsBack_named name
  | .pointer elem => readsBack_pointer (elem.readsBack src)
  | .slice elem => readsBack_slice (elem.readsBack src)
  | .array length elem => readsBack_array length (elem.readsBack src)
  | .map key value => readsBack_map (key.readsBack src) (value.readsBack src)
  | .struct fields => readsBack_struct (fieldsReadBack src fields)

theorem FieldTerm.readsBack (src : SourceText) : (f : FieldTerm) → FieldReadsBack src f
  | .named doc first more type tag => fieldReadsBack_named doc first more tag (type.readsBack src)
  | .embedded doc type tag => fieldReadsBack_embedded doc type tag

theorem fieldsReadBack (src : SourceText) : (fields : List FieldTerm) → FieldsReadBack src fields
  | [] => fieldsReadBack_nil
  | field :: fields => fieldsReadBack_cons (field.readsBack src) (fieldsReadBack src fields)

end

end FieldRules
