/-
The fields of structs, named and embedded.  A line that embeds an instance of a generic type by
its name alone is taken for a field of an array type and refused, with all that it stands in; all
other lines are read, each by its own tokens.
-/
import FieldRules.Proofs.Source.Marks
import FieldRules.Proofs.Source.TypeForms

namespace FieldRules

variable {src : SourceText} {rest ts left : List Token}

/-! What a type starts with. -/

def startsType : TokenKind → Bool
  | .ident _ => true
  | .op symbol => symbol ∈ ["*", "[", "<-", "("]
  | _ => false

theorem NameToken.startsType (n : NameToken) (rest : List Token) :
    startsType (nextKind (n.token :: rest)) = true := by
  rw [nextKind, n.kind_eq]
  rfl

theorem TypeNameTokens.startsType (t : TypeNameTokens) (rest : List Token) :
    startsType (nextKind (t.tokens ++ rest)) = true := by
  obtain ⟨package, name, arguments⟩ := t
  cases package with
  | none => exact name.startsType _
  | some qualifier => exact qualifier.1.startsType _

theorem Bracketed.startsType (a : Bracketed) (rest : List Token) :
    startsType (nextKind (a.tokens ++ rest)) = true := by
  change FieldRules.startsType a.opening.token.kind = true
  rw [a.opening.kind_eq]
  decide

theorem IsType.startsType {clean : Bool} (h : IsType clean ts) (rest : List Token) :
    startsType (nextKind (ts ++ rest)) = true := by
  cases h with
  | name t => exact t.startsType rest
  | pointer first | slice first | receive first | parens first | map first | struct first
  | interface first | func first | funcResults first | funcResult first | chan first
  | send first =>
      change FieldRules.startsType first.token.kind = true
      rw [first.kind_eq]
      decide
  | array length =>
      rw [List.append_assoc]
      exact length.startsType _

theorem ne_op_of_startsType {k : TokenKind} (h : startsType k = true) {symbol : String}
    (hsymbol : startsType (.op symbol) = false) : k ≠ .op symbol := by
  rintro rfl
  rw [hsymbol] at h
  cases h

/-- A type without a parenthesis in front of it may be the result of a function. -/
theorem startsResult_of_startsType {k : TokenKind} (h : startsType k = true)
    (hparen : k ≠ .op "(") : startsResult k = true := by
  cases k with
  | op symbol =>
      simp only [startsType, List.mem_cons, List.not_mem_nil, or_false, decide_eq_true_eq] at h
      rcases h with rfl | rfl | rfl | rfl
      · decide
      · decide
      · decide
      · exact absurd rfl hparen
  | ident name => rfl
  | _ => cases h

/-! Tags. -/

/-- A tag or the end of the line or of the struct stands behind the type of a line. -/
theorem nextKind_tag (tag : Option TagToken) (h : EndsTurn "\x7d" left) :
    (∃ implicit, nextKind (tagTokens tag ++ left) = .semi implicit) ∨
      nextKind (tagTokens tag ++ left) = .op "\x7d" ∨
      ∃ text, nextKind (tagTokens tag ++ left) = .literal .str text := by
  cases tag with
  | none =>
      change (∃ implicit, nextKind left = .semi implicit) ∨ nextKind left = .op "\x7d" ∨
        ∃ text, nextKind left = .literal .str text
      rcases Bool.or_eq_true_iff.mp h with hsemi | hclosing
      · cases hkind : nextKind left with
        | semi implicit => exact .inl ⟨implicit, rfl⟩
        | _ =>
            rw [hkind] at hsemi
            cases hsemi
      · exact .inr (.inl (of_decide_eq_true hclosing))
  | some tag => exact .inr (.inr ⟨tag.text, tag.kind_eq⟩)

theorem afterType_tag (tag : Option TagToken) (h : EndsTurn "\x7d" left) :
    AfterType (tagTokens tag ++ left) := by
  unfold AfterType
  rcases nextKind_tag tag h with ⟨implicit, hkind⟩ | hkind | ⟨text, hkind⟩
  · rw [hkind]
    rfl
  · rw [hkind]
    decide
  · rw [hkind]
    rfl

theorem withTag_tag {n : Nat} (doc : Option CommentGroup) (names : List Ident) (type : TypeExpr)
    (tag : Option TagToken) (h : EndsTurn "\x7d" left) (stop : Nat) (lt) :
    ∃ stop' lt',
      withTag doc (⟨(names, type), tagTokens tag ++ left, stop, lt⟩ : Reading _ n) =
        ⟨⟨doc, names, type, tag.map TagToken.text⟩, left, stop', lt'⟩ := by
  cases tag with
  | none =>
      refine ⟨stop, lt, ?_⟩
      cases left with
      | nil => cases h
      | cons t r =>
          change withTag doc ⟨(names, type), t :: r, stop, lt⟩ = ⟨_, t :: r, stop, lt⟩
          simp only [EndsTurn, nextKind, Bool.or_eq_true] at h
          cases hkind : t.kind with
          | literal kind text => simp [hkind, TokenKind.isSemi] at h
          | _ => simp only [withTag, hkind, Option.map_none]
  | some tag =>
      refine ⟨tag.token.span.stop, Nat.lt_of_succ_lt lt, ?_⟩
      change withTag doc ⟨(names, type), tag.token :: left, stop, lt⟩ = _
      simp only [withTag, tag.kind_eq, Option.map_some]

/-! Lines with names. -/

theorem identList_names (what : String) (first : NameToken)
    (more : List (SymbolToken "," × NameToken)) {r : List Token} (hnext : nextKind r ≠ .op ",") :
    ∃ stop lt, identList what (first.token :: (namesAfter more ++ r)) =
      .ok ⟨(first :: more.map Prod.snd).map NameToken.ident, r, stop, lt⟩ := by
  induction more generalizing first with
  | nil =>
      refine ⟨first.token.span.stop, Nat.lt_succ_self _, ?_⟩
      change identList what (first.token :: r) = _
      cases r with
      | nil =>
          simp only [identList, first.kind_eq]
          rfl
      | cons u rest =>
          have hkind : u.kind ≠ .op "," := hnext
          simp only [identList, first.kind_eq, if_neg hkind]
          rfl
  | cons one more ih =>
      obtain ⟨comma, name⟩ := one
      obtain ⟨stop, lt, hmore⟩ := ih name
      refine ⟨stop, Nat.lt_succ_of_lt (Nat.lt_succ_of_lt lt), ?_⟩
      change identList what (first.token :: comma.token :: name.token ::
        (namesAfter more ++ r)) = _
      simp only [identList, first.kind_eq, comma.kind_eq, if_true, hmore, ok_bind]
      rfl

/-! Lines alone. -/

theorem StructLine.startsType (line : StructLine) (rest : List Token) :
    startsType (nextKind (line.tokens ++ rest)) = true := by
  cases line with
  | named first more type tag => exact first.startsType _
  | embedded e =>
      obtain ⟨star, type, tag⟩ := e
      cases star with
      | none =>
          rw [tokens, List.append_assoc]
          exact type.startsType _
      | some star =>
          change FieldRules.startsType star.token.kind = true
          rw [star.kind_eq]
          decide

theorem StructLine.exists_cons (line : StructLine) :
    ∃ t r, line.tokens = t :: r ∧ FieldRules.startsType t.kind = true := by
  have hstarts := line.startsType []
  rw [List.append_nil] at hstarts
  cases htokens : line.tokens with
  | nil =>
      rw [htokens] at hstarts
      cases hstarts
  | cons t r =>
      rw [htokens] at hstarts
      exact ⟨t, r, rfl, hstarts⟩

theorem StructLine.head?_tokens_append (line : StructLine) (left : List Token) :
    (line.tokens ++ left).head? = line.tokens.head? := by
  obtain ⟨t, r, htokens, -⟩ := line.exists_cons
  rw [htokens]
  rfl

/-- The field that a line is, where its type is read as the given one. -/
def StructLine.field (src : SourceText) (line : StructLine) (type : TypeExpr) : FieldLine :=
  ⟨line.tokens.head?.bind src.docOf, line.names.map NameToken.ident, type,
    line.tag.map TagToken.text⟩

/-- What stands behind a line on its own. -/
def newline : Token := ⟨.semi true, ⟨0, 0⟩, 1, none⟩

/-- The field that the tokens of a line alone give, with nothing but the end of the line behind
its type. -/
def StructLine.read? (src : SourceText) (line : StructLine) : Option FieldLine :=
  match parseType src (line.typeTokens ++ [newline]) with
  | .ok type => some (line.field src type.value)
  | .error _ => none

/-- A line is read whatever follows it, as it is alone. -/
structure LineReads (src : SourceText) (line : StructLine) (field : FieldLine) : Prop where
  alone : line.read? src = some field
  reads : ∀ left, EndsTurn "\x7d" left →
    ∃ stop lt, fieldLine src (line.tokens ++ left) = .ok ⟨field, left, stop, lt⟩

/-- A line is refused whatever follows it. -/
def LineFails (src : SourceText) (line : StructLine) : Prop :=
  ∀ left, EndsTurn "\x7d" left → ∃ e, fieldLine src (line.tokens ++ left) = .error e

theorem StructLine.read?_eq {line : StructLine} {v : TypeExpr} {stop : Nat}
    (h : ReadsType src line.typeTokens v stop) : line.read? src = some (line.field src v) := by
  obtain ⟨lt, hread⟩ := h [newline] rfl
  rw [read?, hread]

/-- A name in front of a comma or of a type is not embedded. -/
theorem startsEmbedded_name (n : NameToken) {r : List Token}
    (h : nextKind r = .op "," ∨ startsType (nextKind r) = true) :
    startsEmbedded (n.token :: r) = false := by
  simp only [startsEmbedded, n.kind_eq]
  rcases h with hcomma | hstarts
  · rw [hcomma]
    decide
  · cases hkind : nextKind r with
    | op symbol =>
        rw [hkind] at hstarts
        simp only [startsType, List.mem_cons, List.not_mem_nil, or_false, decide_eq_true_eq]
          at hstarts
        rcases hstarts with rfl | rfl | rfl | rfl <;> decide
    | ident name => rfl
    | semi implicit =>
        rw [hkind] at hstarts
        cases hstarts
    | literal kind text =>
        rw [hkind] at hstarts
        cases hstarts
    | eof => rfl

section Named

variable (first : NameToken) (more : List (SymbolToken "," × NameToken)) (tag : Option TagToken)
  {type : List Token}

theorem named_tokens_append (left : List Token) :
    (StructLine.named first more type tag).tokens ++ left =
      first.token :: (namesAfter more ++ (type ++ (tagTokens tag ++ left))) := by
  simp [StructLine.tokens, StructLine.namesTokens, StructLine.typeTokens, StructLine.tag]

theorem startsEmbedded_listed {r : List Token} (hstarts : startsType (nextKind r) = true) :
    startsEmbedded (first.token :: (namesAfter more ++ r)) = false := by
  apply startsEmbedded_name first
  cases more with
  | nil => exact .inr hstarts
  | cons one more => exact .inl one.1.kind_eq

theorem named_reads (hstarts : ∀ rest, startsType (nextKind (type ++ rest)) = true)
    {v : TypeExpr} {stop : Nat} (h : ReadsType src type v stop) :
    LineReads src (.named first more type tag)
      ((StructLine.named first more type tag).field src v) where
  alone := StructLine.read?_eq h
  reads left hleft := by
    have hnext := hstarts (tagTokens tag ++ left)
    obtain ⟨namesStop, namesLt, hnames⟩ := identList_names "field name" first more
      (ne_op_of_startsType hnext (by decide))
    obtain ⟨typeLt, hread⟩ := h _ (afterType_tag tag hleft)
    obtain ⟨stop', lt', htag⟩ := withTag_tag (src.docOf first.token)
      ((first :: more.map Prod.snd).map NameToken.ident) v tag hleft stop
      (Nat.lt_trans typeLt namesLt)
    rw [named_tokens_append]
    refine ⟨stop', lt', ?_⟩
    rw [fieldLine.eq_def]
    simp only [startsEmbedded_listed first more hnext, Bool.false_eq_true, if_false, nextKind,
      first.kind_eq]
    rw [hnames, ok_bind, hread]
    exact congrArg Except.ok htag

/-- A line is refused where what stands behind its names is no type. -/
theorem fieldLine_error {r : List Token} (hnext : startsType (nextKind r) = true)
    {e : SourceError} (herror : parseType src r = .error e) :
    fieldLine src (first.token :: (namesAfter more ++ r)) = .error e := by
  obtain ⟨stop, lt, hnames⟩ := identList_names "field name" first more
    (ne_op_of_startsType hnext (by decide))
  rw [fieldLine.eq_def]
  simp only [startsEmbedded_listed first more hnext, Bool.false_eq_true, if_false, nextKind,
    first.kind_eq]
  rw [hnames, ok_bind, herror]
  rfl

theorem named_fails (hstarts : ∀ rest, startsType (nextKind (type ++ rest)) = true)
    (h : ∀ rest, AfterType rest → ∃ e, parseType src (type ++ rest) = .error e) :
    LineFails src (.named first more type tag) := by
  intro left hleft
  obtain ⟨e, herror⟩ := h _ (afterType_tag tag hleft)
  refine ⟨e, ?_⟩
  rw [named_tokens_append]
  exact fieldLine_error first more (hstarts _) herror

end Named

/-! Embedded lines. -/

section Embedded

variable (e : Embedding)

theorem embedded_tokens_append (left : List Token) :
    (StructLine.embedded e).tokens ++ left =
      (StructLine.embedded e).typeTokens ++ (tagTokens e.tag ++ left) := by
  simp [StructLine.tokens, StructLine.namesTokens, StructLine.tag]

/-- What is embedded is a type in all forms. -/
theorem Embedding.reads (src : SourceText) :
    ∃ v stop, ReadsType src (StructLine.embedded e).typeTokens v stop := by
  obtain ⟨star, type, tag⟩ := e
  obtain ⟨v, stop, hreads⟩ := type.reads src
  cases star with
  | none => exact ⟨v, stop, hreads⟩
  | some star =>
      refine ⟨.pointer v ⟨star.token.span.start, stop⟩, stop, fun rest hrest => ?_⟩
      obtain ⟨lt, hread⟩ := hreads rest hrest
      exact (wraps_pointer star).ok v rest stop lt hread

theorem startsEmbedded_alone (n : NameToken) (tag : Option TagToken)
    (hleft : EndsTurn "\x7d" left) :
    startsEmbedded (n.token :: (tagTokens tag ++ left)) = true := by
  simp only [startsEmbedded, n.kind_eq]
  rcases nextKind_tag tag hleft with ⟨implicit, hkind⟩ | hkind | ⟨text, hkind⟩
  · rw [hkind]
  · rw [hkind]
    decide
  · rw [hkind]

/-- The look at the first two tokens finds all embedded types, other than bare instances. -/
theorem startsEmbedded_of_not_bare (h : e.isBare = false) (hleft : EndsTurn "\x7d" left) :
    startsEmbedded ((StructLine.embedded e).typeTokens ++ (tagTokens e.tag ++ left)) = true := by
  obtain ⟨star, ⟨package, name, arguments⟩, tag⟩ := e
  cases star with
  | some star =>
      change startsEmbedded (star.token :: _) = true
      simp only [startsEmbedded, star.kind_eq]
      rfl
  | none =>
      cases package with
      | some qualifier =>
          obtain ⟨package, dot⟩ := qualifier
          change startsEmbedded (package.token :: dot.token :: _) = true
          simp only [startsEmbedded, package.kind_eq, nextKind, dot.kind_eq]
          rfl
      | none =>
          cases arguments with
          | none => exact startsEmbedded_alone name tag hleft
          | some arguments => cases h

theorem embedded_reads (h : e.isBare = false) : ∃ field, LineReads src (.embedded e) field := by
  obtain ⟨v, stop, hreads⟩ := e.reads src
  refine ⟨(StructLine.embedded e).field src v, StructLine.read?_eq hreads, fun left hleft => ?_⟩
  obtain ⟨lt, hread⟩ := hreads _ (afterType_tag e.tag hleft)
  have hdoc := (StructLine.embedded e).head?_tokens_append left
  rw [embedded_tokens_append] at hdoc ⊢
  obtain ⟨stop', lt', htag⟩ :=
    withTag_tag ((StructLine.embedded e).tokens.head?.bind src.docOf) [] v e.tag hleft stop lt
  refine ⟨stop', lt', ?_⟩
  rw [fieldLine.eq_def]
  simp only [startsEmbedded_of_not_bare e h hleft, if_true, hdoc]
  rw [hread]
  exact congrArg Except.ok htag

/-- A bare instance is taken for a field with an array type, of which only the length is there. -/
theorem embedded_fails (h : e.isBare = true) : LineFails src (.embedded e) := by
  intro left hleft
  obtain ⟨star, ⟨package, name, arguments⟩, tag⟩ := e
  obtain ⟨rfl, rfl, hsome⟩ : star = none ∧ package = none ∧ arguments.isSome = true := by
    simpa [Embedding.isBare, and_assoc] using h
  obtain ⟨length, rfl⟩ := Option.isSome_iff_exists.mp hsome
  obtain ⟨e, helem⟩ : ∃ e, parseType src (tagTokens tag ++ left) = .error e :=
    (afterType_tag tag hleft).parseType_error
  refine ⟨e, ?_⟩
  rw [embedded_tokens_append]
  exact fieldLine_error name [] (length.startsType _) ((wraps_array length).error e helem)

end Embedded

/-! Lines. -/

/-- Clean lines are read, and others are refused. -/
def LineOutcome (src : SourceText) : (clean : Bool) → StructLine → Prop
  | true, line => ∃ field, LineReads src line field
  | false, line => LineFails src line

/-- Some line is refused, and the lines before it are read. -/
inductive LinesFail (src : SourceText) : List StructLine → Prop
  | first {line : StructLine} {lines : List StructLine} (hline : LineFails src line) :
      LinesFail src (line :: lines)
  | later {line : StructLine} {lines : List StructLine} {field : FieldLine}
      (hline : LineReads src line field) (hlines : LinesFail src lines) :
      LinesFail src (line :: lines)

def LinesOutcome (src : SourceText) : (clean : Bool) → List StructLine → Prop
  | true, lines => ∃ fields, List.Forall₂ (LineReads src) lines fields
  | false, lines => LinesFail src lines

theorem LineOutcome.cons {clean clean' : Bool} {line : StructLine} {lines : List StructLine}
    (hline : LineOutcome src clean line) (hlines : LinesOutcome src clean' lines) :
    LinesOutcome src (clean && clean') (line :: lines) := by
  cases clean with
  | false => exact .first hline
  | true =>
      obtain ⟨field, hfield⟩ := hline
      cases clean' with
      | false => exact .later hfield hlines
      | true =>
          obtain ⟨fields, hfields⟩ := hlines
          exact ⟨field :: fields, .cons hfield hfields⟩

theorem TypeOutcome.named {clean : Bool} {type : List Token} (h : TypeOutcome src clean type)
    (htype : IsType clean type) (first : NameToken) (more : List (SymbolToken "," × NameToken))
    (tag : Option TagToken) : LineOutcome src clean (.named first more type tag) := by
  cases clean with
  | true =>
      obtain ⟨v, stop, hreads⟩ := h
      exact ⟨_, named_reads first more tag htype.startsType hreads⟩
  | false => exact named_fails first more tag htype.startsType h

theorem Embedding.outcome (e : Embedding) : LineOutcome src (!e.isBare) (.embedded e) := by
  cases hbare : e.isBare with
  | false => exact embedded_reads e hbare
  | true => exact embedded_fails e hbare

/-! Structs. -/

theorem dropSemis_semi {semi : Token} (h : semi.kind.isSemi = true) (ts : List Token) :
    dropSemis (semi :: ts) = dropSemis ts := by
  simp only [dropSemis, List.dropWhile_cons, h, if_true]

theorem isSemi_of_startsType {k : TokenKind} (h : startsType k = true) : k.isSemi = false := by
  cases k with
  | semi implicit => cases h
  | _ => rfl

theorem dropSemis_closing (closing : SymbolToken "\x7d") (rest : List Token) :
    dropSemis (closing.token :: rest) = closing.token :: rest :=
  dropSemis_cons (by rw [closing.kind_eq]; rfl) rest

section Fields

variable {line : StructLine} {ts : List Token}

/-- A line that comes next is no semicolon and no closing brace. -/
theorem dropSemis_line (h : dropSemis ts = dropSemis (line.tokens ++ left)) :
    ∃ t r, line.tokens ++ left = t :: r ∧ dropSemis ts = t :: r ∧ t.kind ≠ .op "\x7d" := by
  obtain ⟨t, r, htokens, hstarts⟩ := line.exists_cons
  rw [htokens, List.cons_append, dropSemis_cons (isSemi_of_startsType hstarts)] at h
  exact ⟨t, r ++ left, by rw [htokens, List.cons_append], h,
    ne_op_of_startsType hstarts (by decide)⟩

/-- A line that is read is the first of the fields. -/
theorem structFields_line {field : FieldLine} (hline : LineReads src line field)
    (hleft : EndsTurn "\x7d" left) (hts : dropSemis ts = dropSemis (line.tokens ++ left))
    {fields : List FieldLine} {stop : Nat} {lt}
    (hmore : structFields src left = .ok ⟨fields, rest, stop, lt⟩) :
    ∃ lt', structFields src ts = .ok ⟨field :: fields, rest, stop, lt'⟩ := by
  obtain ⟨t, r, htokens, hdrop, hclosing⟩ := dropSemis_line hts
  have hread := hline.reads left hleft
  rw [htokens] at hread
  obtain ⟨stop', lt', hread⟩ := hread
  exact structFields_field hdrop hclosing hread hleft hmore

theorem structFields_line_fails (hline : LineFails src line) (hleft : EndsTurn "\x7d" left)
    (hts : dropSemis ts = dropSemis (line.tokens ++ left)) :
    ∃ e, structFields src ts = .error e := by
  obtain ⟨t, r, htokens, hdrop, hclosing⟩ := dropSemis_line hts
  obtain ⟨e, herror⟩ := hline left hleft
  rw [htokens] at herror
  exact ⟨e, structFields_error hdrop hclosing herror⟩

theorem structFields_later_fails {field : FieldLine} (hline : LineReads src line field)
    (hleft : EndsTurn "\x7d" left) (hts : dropSemis ts = dropSemis (line.tokens ++ left))
    (hmore : ∃ e, structFields src left = .error e) : ∃ e, structFields src ts = .error e := by
  obtain ⟨t, r, htokens, hdrop, hclosing⟩ := dropSemis_line hts
  have hread := hline.reads left hleft
  rw [htokens] at hread
  obtain ⟨stop', lt', hread⟩ := hread
  obtain ⟨e, herror⟩ := hmore
  exact ⟨e, structFields_more_error hdrop hclosing hread hleft herror⟩

end Fields

section Body

variable {lines : List StructLine} {body : List Token} (closing : SymbolToken "\x7d")

theorem endsTurn_closing (rest : List Token) : EndsTurn "\x7d" (closing.token :: rest) := by
  change (closing.token.kind.isSemi || decide (closing.token.kind = .op "\x7d")) = true
  rw [closing.kind_eq]
  decide

theorem endsTurn_semi {semi : Token} (h : semi.kind.isSemi = true) (ts : List Token) :
    EndsTurn "\x7d" (semi :: ts) := by
  change (semi.kind.isSemi || _) = true
  rw [h, Bool.true_or]

/-- The fields of lines that are all read. -/
theorem structFields_reads (hbody : LaidOut lines body) (rest : List Token)
    {fields : List FieldLine} (h : List.Forall₂ (LineReads src) lines fields) {ts : List Token}
    (hts : dropSemis ts = dropSemis (body ++ closing.token :: rest)) :
    ∃ lt, structFields src ts = .ok ⟨fields, rest, closing.token.span.stop, lt⟩ := by
  induction hbody generalizing fields ts with
  | nil =>
      cases h
      rw [List.nil_append, dropSemis_closing] at hts
      exact structFields_close hts closing.kind_eq
  | last line =>
      obtain - | ⟨hline, hnil⟩ := h
      cases hnil
      obtain ⟨lt, hclose⟩ : ∃ lt, structFields src (closing.token :: rest) =
          .ok ⟨[], rest, closing.token.span.stop, lt⟩ :=
        structFields_close (dropSemis_closing closing rest) closing.kind_eq
      exact structFields_line hline (endsTurn_closing closing rest) hts hclose
  | cons line hsemi hlines ih =>
      obtain - | ⟨hline, hmore⟩ := h
      rw [List.append_assoc, List.cons_append] at hts
      obtain ⟨lt, hread⟩ := ih hmore (dropSemis_semi hsemi _)
      exact structFields_line hline (endsTurn_semi hsemi _) hts hread

theorem structFields_fails (hbody : LaidOut lines body) (rest : List Token)
    (h : LinesFail src lines) {ts : List Token}
    (hts : dropSemis ts = dropSemis (body ++ closing.token :: rest)) :
    ∃ e, structFields src ts = .error e := by
  induction hbody generalizing ts with
  | nil => cases h
  | last line =>
      cases h with
      | first hline => exact structFields_line_fails hline (endsTurn_closing closing rest) hts
      | later _ hnil => cases hnil
  | cons line hsemi hlines ih =>
      rw [List.append_assoc, List.cons_append] at hts
      cases h with
      | first hline => exact structFields_line_fails hline (endsTurn_semi hsemi _) hts
      | later hline hmore =>
          exact structFields_later_fails hline (endsTurn_semi hsemi _) hts
            (ih hmore (dropSemis_semi hsemi _))

end Body

/-! Types. -/

section Struct

variable (word : KeywordToken "struct") (opening : SymbolToken "\x7b")

theorem parseType_struct {ts : List Token} {fields : List FieldLine} {stop : Nat} {lt}
    (h : structFields src ts = .ok ⟨fields, rest, stop, lt⟩) :
    ∃ lt', parseType src (word.token :: opening.token :: ts) =
      .ok ⟨.struct fields ⟨word.token.span.start, stop⟩, rest, stop, lt'⟩ := by
  refine ⟨Nat.lt_succ_of_lt (Nat.lt_succ_of_lt lt), ?_⟩
  rw [parseType.eq_def]
  simp only [word.kind_eq, if_true, expectOp_symbol, h, ok_bind]
  rfl

theorem parseType_struct_error {ts : List Token} {e : SourceError}
    (h : structFields src ts = .error e) :
    parseType src (word.token :: opening.token :: ts) = .error e := by
  rw [parseType.eq_def]
  simp only [word.kind_eq, if_true, expectOp_symbol, h, ok_bind, error_bind]

variable {lines : List StructLine} {body : List Token} (closing : SymbolToken "\x7d")

theorem struct_reads (hbody : LaidOut lines body) {fields : List FieldLine}
    (h : List.Forall₂ (LineReads src) lines fields) (rest : List Token) :
    ∃ lt, parseType src (word.token :: opening.token :: (body ++ closing.token :: rest)) =
      .ok ⟨.struct fields ⟨word.token.span.start, closing.token.span.stop⟩, rest,
        closing.token.span.stop, lt⟩ := by
  obtain ⟨lt, hread⟩ := structFields_reads closing hbody rest h rfl
  exact parseType_struct word opening hread

theorem struct_fails (hbody : LaidOut lines body) (h : LinesFail src lines) (rest : List Token) :
    ∃ e, parseType src (word.token :: opening.token :: (body ++ closing.token :: rest)) =
      .error e := by
  obtain ⟨e, herror⟩ := structFields_fails closing hbody rest h rfl
  exact ⟨e, parseType_struct_error word opening herror⟩

theorem outcome_struct {clean : Bool} (hbody : LaidOut lines body)
    (h : LinesOutcome src clean lines) :
    TypeOutcome src clean (word.token :: opening.token :: (body ++ [closing.token])) := by
  have happend : ∀ rest, word.token :: opening.token :: (body ++ [closing.token]) ++ rest =
      word.token :: opening.token :: (body ++ closing.token :: rest) := by simp
  cases clean with
  | true =>
      obtain ⟨fields, hfields⟩ := h
      refine ⟨.struct fields ⟨word.token.span.start, closing.token.span.stop⟩,
        closing.token.span.stop, fun rest _ => ?_⟩
      rw [happend]
      exact struct_reads word opening closing hbody hfields rest
  | false =>
      intro rest _
      rw [happend]
      exact struct_fails word opening closing hbody h rest

end Struct

section Ends

variable {clean : Bool}

theorem IsType.ne_nil (htype : IsType clean ts) : ts ≠ [] := by
  rintro rfl
  cases htype.startsType []

theorem IsType.nextKind_append (htype : IsType clean ts) (rest : List Token) :
    nextKind (ts ++ rest) = nextKind ts := by
  obtain ⟨t, r, rfl⟩ := List.exists_cons_of_ne_nil htype.ne_nil
  rfl

theorem outcome_array (length : Bracketed) (h : TypeOutcome src clean ts) :
    TypeOutcome src clean (length.tokens ++ ts) := by
  apply h.wrap
  intro rest _
  rw [List.append_assoc]
  exact wraps_array length

theorem outcome_funcResult (word : KeywordToken "func") (parameters : Delimited "(" ")")
    (htype : IsType clean ts) (hparen : nextKind ts ≠ .op "(") (h : TypeOutcome src clean ts) :
    TypeOutcome src clean (word.token :: (parameters.tokens ++ ts)) := by
  apply h.wrap
  intro rest _
  have hnext : nextKind (ts ++ rest) ≠ .op "(" := by rwa [htype.nextKind_append]
  rw [List.cons_append, List.append_assoc]
  exact wraps_funcResult word parameters hnext
    (startsResult_of_startsType (htype.startsType rest) hnext)

theorem outcome_chan (word : KeywordToken "chan") (htype : IsType clean ts)
    (harrow : nextKind ts ≠ .op "<-") (h : TypeOutcome src clean ts) :
    TypeOutcome src clean (word.token :: ts) := by
  apply h.wrap
  intro rest _
  exact wraps_chan word (List.append_ne_nil_of_left_ne_nil htype.ne_nil rest)
    (by rwa [htype.nextKind_append])

end Ends

mutual

/-- Clean types are read, and others are refused. -/
theorem IsType.outcome {clean : Bool} {ts : List Token} :
    IsType clean ts → TypeOutcome src clean ts
  | .name t => t.reads src
  | .pointer star helem => helem.outcome.wrap fun _ _ => wraps_pointer star
  | .slice opening closing helem => helem.outcome.wrap fun _ _ => wraps_slice opening closing
  | .array length helem => outcome_array length helem.outcome
  | .map word opening closing hkey hvalue =>
      outcome_map word opening closing hkey.outcome hvalue.outcome
  | .struct word opening closing hlines hbody =>
      outcome_struct word opening closing hbody hlines.outcome
  | .interface word body => reads_interface word body
  | .func word parameters => reads_func word parameters
  | .funcResults word parameters results => reads_funcResults word parameters results
  | .funcResult word parameters hresult hparen =>
      outcome_funcResult word parameters hresult hparen hresult.outcome
  | .chan word helem harrow => outcome_chan word helem harrow helem.outcome
  | .send word arrow helem => helem.outcome.wrap fun _ _ => wraps_send word arrow
  | .receive arrow word helem => helem.outcome.wrap fun _ _ => wraps_receive arrow word
  | .parens opening closing hinner => outcome_parens opening closing hinner.outcome

theorem AreLines.outcome {clean : Bool} {lines : List StructLine} :
    AreLines clean lines → LinesOutcome src clean lines
  | .nil => ⟨[], .nil⟩
  | .named first more tag htype hlines =>
      (htype.outcome.named htype first more tag).cons hlines.outcome
  | .embedded e hlines => e.outcome.cons hlines.outcome

end

/-! What structs are read as. -/

/-- What is read for a line has its names. -/
theorem LineReads.embedded_eq {line : StructLine} {field : FieldLine}
    (h : LineReads src line field) : field.embedded = line.isEmbedded := by
  have halone := h.alone
  rw [StructLine.read?] at halone
  split at halone
  · cases halone
    cases line <;> rfl
  · cases halone

theorem reads_alone {lines : List StructLine} {fields : List FieldLine}
    (h : List.Forall₂ (LineReads src) lines fields) :
    fields.map some = lines.map (StructLine.read? src) := by
  induction h with
  | nil => rfl
  | cons hline _ ih => rw [List.map_cons, List.map_cons, hline.alone, ih]

theorem reads_embedded {lines : List StructLine} {fields : List FieldLine}
    (h : List.Forall₂ (LineReads src) lines fields) :
    fields.map FieldLine.embedded = lines.map StructLine.isEmbedded := by
  induction h with
  | nil => rfl
  | cons hline _ ih => rw [List.map_cons, List.map_cons, hline.embedded_eq, ih]

/-- Without the embedded lines, the named ones are read as with them. -/
theorem reads_filter {lines : List StructLine} {fields : List FieldLine}
    (h : List.Forall₂ (LineReads src) lines fields) :
    List.Forall₂ (LineReads src) (lines.filter fun line => !line.isEmbedded)
      (fields.filter fun field => !field.embedded) := by
  induction h with
  | nil => exact .nil
  | @cons line field _ _ hline _ ih =>
      rw [List.filter_cons, List.filter_cons, hline.embedded_eq]
      split
      · exact .cons hline ih
      · exact ih

/-- A struct of named and embedded fields is read exactly if, inside of it, no instance of a generic
type is embedded by its name alone.  It then has the field of each line, as the line alone gives it,
with names for all but the embedded ones; and the named fields are those of the struct without
the embedded lines. -/
theorem parseType_struct_ok_iff (src : SourceText) {clean : Bool} {lines : List StructLine}
    {body : List Token} (hlines : AreLines clean lines) (hbody : LaidOut lines body)
    (word : KeywordToken "struct") (opening : SymbolToken "\x7b")
    (closing : SymbolToken "\x7d") (rest : List Token) :
    ((∃ read, parseType src (word.token :: opening.token :: (body ++ closing.token :: rest)) =
      .ok read) ↔ clean = true) ∧
    ∀ read, parseType src (word.token :: opening.token :: (body ++ closing.token :: rest)) =
        .ok read →
      read.rest = rest ∧ ∃ fields span, read.value = .struct fields span ∧
        fields.map some = lines.map (StructLine.read? src) ∧
        fields.map FieldLine.embedded = lines.map StructLine.isEmbedded ∧
        ∀ named, LaidOut (lines.filter fun line => !line.isEmbedded) named →
          ∃ alone span', parseType src
              (word.token :: opening.token :: (named ++ closing.token :: rest)) = .ok alone ∧
            alone.value = .struct (fields.filter fun field => !field.embedded) span' := by
  have houtcome : LinesOutcome src clean lines := hlines.outcome
  cases clean with
  | false =>
      obtain ⟨e, herror⟩ := struct_fails word opening closing hbody houtcome rest
      rw [herror]
      exact ⟨⟨nofun, nofun⟩, nofun⟩
  | true =>
      obtain ⟨fields, hfields⟩ := houtcome
      obtain ⟨lt, hread⟩ := struct_reads word opening closing hbody hfields rest
      rw [hread]
      refine ⟨⟨fun _ => rfl, fun _ => ⟨_, rfl⟩⟩, ?_⟩
      rintro _ ⟨⟩
      refine ⟨rfl, fields, _, rfl, reads_alone hfields, reads_embedded hfields, ?_⟩
      intro named hnamed
      obtain ⟨lt', hread'⟩ := struct_reads word opening closing hnamed (reads_filter hfields) rest
      exact ⟨_, _, hread', rfl⟩

/-! A struct with an embedded instance, behind a star and bare. -/

def SymbolToken.plain (symbol : String) : SymbolToken symbol := ⟨⟨.op symbol, ⟨0, 0⟩, 1, none⟩, rfl⟩

def KeywordToken.plain (word : String) : KeywordToken word := ⟨⟨.ident word, ⟨0, 0⟩, 1, none⟩, rfl⟩

def nameToken (name : String) (plain : name ∉ keywords) : NameToken :=
  ⟨⟨.ident name, ⟨0, 0⟩, 1, none⟩, name, rfl, plain⟩

/-- An instance of a type that has one type parameter. -/
def baseOfInt : TypeNameTokens where
  package := none
  name := nameToken "Base" (by decide)
  arguments := some {
    opening := .plain "["
    inside := [(nameToken "int" (by decide)).token]
    level := by decide
    closing := .plain "]"
    nonempty := List.cons_ne_nil _ _
    unbroken := by decide }

def baseLine (star : Option (SymbolToken "*")) : StructLine := .embedded ⟨star, baseOfInt, none⟩

/-- A name and its type. -/
def nameLine : StructLine :=
  .named (nameToken "Name" (by decide)) []
    (TypeNameTokens.tokens ⟨none, nameToken "string" (by decide), none⟩) none

def baseThenName (star : Option (SymbolToken "*")) : List Token :=
  (baseLine star).tokens ++ newline :: nameLine.tokens

theorem parseType_struct_ok_iff_pointer :
    AreLines true [baseLine (some (.plain "*")), nameLine] ∧
    LaidOut [baseLine (some (.plain "*")), nameLine] (baseThenName (some (.plain "*"))) ∧
    ∃ read fields span,
      parseType ⟨[], []⟩ ((KeywordToken.plain "struct").token :: (SymbolToken.plain "\x7b").token ::
        (baseThenName (some (.plain "*")) ++ (SymbolToken.plain "\x7d").token :: [newline])) =
          .ok read ∧
      read.rest = [newline] ∧ read.value = .struct fields span ∧
      fields.map FieldLine.embedded = [true, false] := by
  have hlines : AreLines true [baseLine (some (.plain "*")), nameLine] :=
    .embedded ⟨some (.plain "*"), baseOfInt, none⟩ (.named _ [] none (.name _) .nil)
  have hbody : LaidOut [baseLine (some (.plain "*")), nameLine]
      (baseThenName (some (.plain "*"))) := .cons _ rfl (.last _)
  obtain ⟨hread, hfields⟩ := parseType_struct_ok_iff ⟨[], []⟩ hlines hbody
    (.plain "struct") (.plain "\x7b") (.plain "\x7d") [newline]
  obtain ⟨read, hread⟩ := hread.mpr rfl
  obtain ⟨hrest, fields, span, hvalue, -, hembedded, -⟩ := hfields read hread
  exact ⟨hlines, hbody, read, fields, span, hread, hrest, hvalue, hembedded⟩

/-- The lines of this struct are read alone, and the struct is not. -/
theorem parseType_struct_refuses_bare :
    LaidOut [baseLine none, nameLine] (baseThenName none) ∧
    (baseLine none).isEmbedded = true ∧ nameLine.isEmbedded = false ∧
    (∃ field, (baseLine none).read? ⟨[], []⟩ = some field) ∧
    (∃ field, nameLine.read? ⟨[], []⟩ = some field) ∧
    parseType ⟨[], []⟩ ((KeywordToken.plain "struct").token :: (SymbolToken.plain "\x7b").token ::
      (baseThenName none ++ (SymbolToken.plain "\x7d").token :: [newline])) =
        .error (.unexpectedToken "type" "newline" ⟨0, 0⟩) := by
  obtain ⟨base, stop, hbase⟩ := (Embedding.mk none baseOfInt none).reads ⟨[], []⟩
  obtain ⟨string, stop', hstring⟩ := TypeNameTokens.reads ⟨[], []⟩
    ⟨none, nameToken "string" (by decide), none⟩
  have hname : nameLine.read? ⟨[], []⟩ = some (nameLine.field ⟨[], []⟩ string) :=
    StructLine.read?_eq hstring
  exact ⟨.cons _ rfl (.last _), rfl, rfl, ⟨_, StructLine.read?_eq hbase⟩, ⟨_, hname⟩,
    by cbv⟩

end FieldRules
