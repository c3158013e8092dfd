/-
Reading specs back: type specs, constant specs with their values, and groups of specs.
-/
import FieldRules.Proofs.Source.Fields

namespace FieldRules

variable {src : SourceText}

/-! Values. -/

theorem opens_eq_false_of_endsExpr {k : TokenKind} (h : endsExpr k = true) : k.opens = false := by
  by_contra hopens
  have hopens : k.opens = true := by simpa using hopens
  have hcloses := TokenKind.closes_eq_false_of_opens hopens
  cases k with
  | op symbol =>
      have hcomma : symbol = "," := by simpa [endsExpr, hcloses, TokenKind.isSemi] using h
      subst hcomma
      cases hopens
  | _ => cases hopens

/-- A token that may stand in a value. -/
structure InExpr (k : TokenKind) : Prop where
  opens : k.opens = false
  goesOn : endsExpr k = false
  notEof : k ≠ .eof

theorem Word.inExpr_of_not_op (w : Word) (h : ∀ symbol, w.kind ≠ .op symbol) : InExpr w.kind := by
  obtain ⟨kind, hword⟩ := w
  cases kind with
  | ident name => exact ⟨rfl, rfl, nofun⟩
  | literal kind spelling => exact ⟨rfl, rfl, nofun⟩
  | op symbol => exact absurd rfl (h symbol)
  | semi _ => exact hword.elim
  | eof => exact hword.elim

/-- The tokens of an expression: those that are skipped up to its end. -/
structure Expression (ts tokens left : List Token) (first last : Token) : Prop where
  split : ts = tokens ++ left
  skip : ∃ h, skipUntil endsExpr ts = .ok ⟨left, h⟩
  first : tokens.head? = some first
  last : tokens.getLast? = some last

theorem expression_one {t : Token} {left : List Token} (ht : InExpr t.kind)
    (hleft : skipUntil endsExpr left = .ok (.all left)) : Expression (t :: left) [t] left t t where
  split := rfl
  skip := ⟨_, skipUntil_pass ht.opens ht.goesOn ht.notEof hleft⟩
  first := rfl
  last := rfl

theorem expression_two {t u : Token} {left : List Token} (ht : InExpr t.kind) (hu : InExpr u.kind)
    (hleft : skipUntil endsExpr left = .ok (.all left)) :
    Expression (t :: u :: left) [t, u] left t u where
  split := rfl
  skip := ⟨_, skipUntil_pass ht.opens ht.goesOn ht.notEof
    (skipUntil_pass hu.opens hu.goesOn hu.notEof hleft)⟩
  first := rfl
  last := rfl

/-- The parser finds the tokens of a written value, and makes the value from them. -/
theorem exists_expression (v : ValueTerm) (lead : Lead) {rest : List Placed}
    (hrest : endsExpr (nextMark (pageMarks true rest)) = true) {ts : List Token}
    (h : Follows src (pageMarks false (v.placed lead ++ rest)) ts) :
    ∃ tokens left first last, Expression ts tokens left first last ∧
      v.Matches (constExpr src first last tokens) ∧ Follows src (pageMarks true rest) left := by
  have hstop : ∀ left, Follows src (pageMarks true rest) left →
      skipUntil endsExpr left = .ok (.all left) := by
    intro left hleft
    have hnext := hleft.nextKind_eq
    rw [← hnext] at hrest
    cases left with
    | nil => cases hrest
    | cons t r => exact skipUntil_stop (opens_eq_false_of_endsExpr hrest) hrest
  cases v with
  | name n =>
      rw [ValueTerm.placed, List.cons_append, List.nil_append, pageMarks_first] at h
      obtain ⟨t, left, rfl, ht, hleft⟩ := h.exists_cons
      have hkind : t.kind = .ident n.text := ht.kind
      have hin : InExpr t.kind := ht.kind ▸ (Word.ofName n).inExpr_of_not_op nofun
      refine ⟨[t], left, t, t, expression_one hin (hstop left hleft), ?_, hleft⟩
      simp only [constExpr, List.map_cons, List.map_nil, hkind]
      rfl
  | literal l =>
      rw [ValueTerm.placed, List.cons_append, List.nil_append, pageMarks_first] at h
      obtain ⟨t, left, rfl, ht, hleft⟩ := h.exists_cons
      have hkind : t.kind = .literal l.kind l.spelling := ht.kind
      have hin : InExpr t.kind := ht.kind ▸ l.word.inExpr_of_not_op nofun
      refine ⟨[t], left, t, t, expression_one hin (hstop left hleft), ?_, hleft⟩
      simp only [constExpr, List.map_cons, List.map_nil, hkind]
      exact ⟨rfl, rfl⟩
  | negated l number =>
      rw [ValueTerm.placed, List.cons_append, List.cons_append, List.nil_append,
        pageMarks_first] at h
      obtain ⟨t, us, rfl, ht, hus⟩ := h.exists_cons
      obtain ⟨u, left, rfl, hu, hleft⟩ := hus.exists_cons
      have hsign : t.kind = .op "-" := ht.kind
      have hkind : u.kind = .literal l.kind l.spelling := hu.kind
      have htin : InExpr t.kind := hsign ▸ ⟨rfl, rfl, nofun⟩
      have huin : InExpr u.kind := hu.kind ▸ l.word.inExpr_of_not_op nofun
      refine ⟨[t, u], left, t, u, expression_two htin huin (hstop left hleft), ?_, hleft⟩
      have hnumber : (l.kind = .int || l.kind = .float) = true := by
        simpa using number
      simp only [constExpr, List.map_cons, List.map_nil, hsign, hkind, hnumber]
      exact ⟨rfl, rfl⟩

namespace Expression

variable {ts tokens left : List Token} {first last : Token}

theorem take_eq (h : Expression ts tokens left first last) :
    ts.take (ts.length - left.length) = tokens := by
  rw [h.split, List.length_append, Nat.add_sub_cancel, List.take_left]

/-- The last of the expressions. -/
theorem exprList_end (h : Expression ts tokens left first last)
    (hcomma : nextKind left ≠ .op ",") :
    ∃ lt, exprList src ts = .ok ⟨[constExpr src first last tokens], left, last.span.stop, lt⟩ := by
  obtain ⟨hle, hskip⟩ := h.skip
  have hfirst := h.first
  rw [← h.take_eq] at hfirst
  refine ⟨length_lt_of_head?_take hfirst hle, ?_⟩
  rw [exprList]
  simp only [hskip, ok_bind, h.take_eq]
  split
  · rename_i first' last' hfirst' hlast'
    obtain rfl := Option.some.inj (hfirst.symm.trans hfirst')
    obtain rfl := Option.some.inj (h.last.symm.trans hlast')
    split
    · rfl
    · exact if_neg hcomma
  · rename_i hnone
    exact (hnone first last hfirst h.last).elim

/-- An expression with more after a comma. -/
theorem exprList_comma {t : Token} {r : List Token}
    (h : Expression ts tokens (t :: r) first last) (hcomma : t.kind = .op ",")
    {more : Reading (List ConstExpr) r.length} (hmore : exprList src r = .ok more) :
    ∃ lt, exprList src ts =
      .ok ⟨constExpr src first last tokens :: more.value, more.rest, more.stop, lt⟩ := by
  obtain ⟨hle, hskip⟩ := h.skip
  have hfirst := h.first
  rw [← h.take_eq] at hfirst
  have hlt := length_lt_of_head?_take hfirst hle
  refine ⟨Nat.lt_trans more.lt (Nat.lt_of_succ_lt hlt), ?_⟩
  rw [exprList]
  simp only [hskip, ok_bind, h.take_eq]
  split
  · rename_i first' last' hfirst' hlast'
    obtain rfl := Option.some.inj (hfirst.symm.trans hfirst')
    obtain rfl := Option.some.inj (h.last.symm.trans hlast')
    simp only [if_pos hcomma, hmore, ok_bind]
    rfl
  · rename_i hnone
    exact (hnone first last hfirst h.last).elim

end Expression

/-- Values with commas between them are read back. -/
theorem parses_values (first : ValueTerm) (more : List ValueTerm) {rest : List Placed}
    (hrest : EndsLine rest) :
    Parses src (exprList src) (pageMarks false (placedValues first more ++ rest))
      (pageMarks true rest) (List.Forall₂ ValueTerm.Matches (first :: more)) := by
  induction more generalizing first with
  | nil =>
      intro ts h
      have hends : endsExpr (nextMark (pageMarks true rest)) = true := by
        rw [hrest]
        rfl
      obtain ⟨tokens, left, u, v, hexpr, hmatches, hleft⟩ := exists_expression first .space hends h
      have hcomma : nextKind left ≠ .op "," := by
        rw [hleft.nextKind_eq, hrest]
        exact nofun
      obtain ⟨lt, hread⟩ := hexpr.exprList_end hcomma
      exact ⟨_, hread, .cons hmatches .nil, hleft⟩
  | cons second more ih =>
      intro ts h
      rw [placedValues, List.append_assoc, List.cons_append] at h
      obtain ⟨tokens, left, u, v, hexpr, hmatches, hleft⟩ := exists_expression first .space rfl h
      rw [pageMarks_close] at hleft
      obtain ⟨t, r, rfl, ht, hr⟩ := hleft.exists_cons
      have hinline : pageMarks (TokenKind.op ",").endsStatement (placedValues second more ++ rest) =
          pageMarks false (placedValues second more ++ rest) := rfl
      rw [hinline] at hr
      obtain ⟨values, hvalues, hsame, hfollows⟩ := ih second r hr
      obtain ⟨lt, hread⟩ := hexpr.exprList_comma ht.kind hvalues
      exact ⟨_, hread, .cons hmatches hsame, hfollows⟩

/-! Type specs. -/

theorem skipClosed_two (opening : Token) (r : List Token) {t u v : Token}
    (ht : ∃ name, t.kind = .ident name) (hu : ∃ name, u.kind = .ident name) (hv : v.kind = .op "]") :
    ∃ h, skipClosed opening (t :: u :: v :: r) = .ok ⟨(), r, v.span.stop, h⟩ := by
  obtain ⟨first, ht⟩ := ht
  obtain ⟨second, hu⟩ := hu
  have hclosing : closing? 0 (t :: u :: v :: r) = some (v, r) := by
    simp [closing?, ht, hu, hv, TokenKind.opens, TokenKind.closes]
  refine ⟨length_closing?_lt hclosing, ?_⟩
  unfold skipClosed
  split
  · rename_i w s hfound
    obtain ⟨rfl, rfl⟩ := Prod.mk.inj (Option.some.inj (hclosing.symm.trans hfound))
    rfl
  · rename_i hnone
    rw [hclosing] at hnone
    cases hnone

/-- A bracket that starts a type starts no type parameters. -/
theorem startsTypeParams_type (t : TypeTerm) {rest : List Placed} {u : Token} {r : List Token}
    (h : Follows src (pageMarks true (t.placed .space ++ rest)) (u :: r)) (hu : u.kind = .op "[") :
    startsTypeParams r = false := by
  have hfirst := h.nextKind_eq
  have hother : ∀ k, nextMark (pageMarks true (t.placed .space ++ rest)) = k → k ≠ .op "[" →
      startsTypeParams r = false := by
    rintro k rfl hne
    exact absurd (hfirst.symm.trans hu) hne
  cases t with
  | named name =>
      obtain ⟨n, ps, hplaced⟩ := name.exists_placed .space
      rw [TypeTerm.placed, hplaced] at hother
      apply hother (.ident n.text) rfl
      intro hkind
      cases hkind
  | pointer elem =>
      rw [TypeTerm.placed] at hother
      exact hother (.op "*") rfl (by decide)
  | map key value =>
      rw [TypeTerm.placed] at hother
      exact hother (.ident "map") rfl (by decide)
  | struct fields =>
      rw [TypeTerm.placed] at hother
      exact hother (.ident "struct") rfl (by decide)
  | slice elem =>
      rw [TypeTerm.placed] at h
      obtain ⟨v, s, hcons, hv, hs⟩ := h.exists_cons
      obtain ⟨rfl, rfl⟩ := List.cons.inj hcons
      have hnext : nextKind r = .op "]" := hs.nextKind_eq
      simp [startsTypeParams, hnext]
  | array length elem =>
      rw [TypeTerm.placed] at h
      obtain ⟨v, s, hcons, hv, hs⟩ := h.exists_cons
      obtain ⟨rfl, rfl⟩ := List.cons.inj hcons
      obtain ⟨w, x, rfl, hw, hx⟩ := hs.exists_cons
      have hwkind : w.kind = length.word.kind := hw.kind
      have hnext : nextKind x = .op "]" := hx.nextKind_eq
      rcases length.kind_eq with ⟨name, hname⟩ | ⟨spelling, hspelling⟩
      · have hfirst : nextKind (w :: x) = .ident name := hwkind.trans hname
        simp [startsTypeParams, hfirst, hnext]
      · have hfirst : nextKind (w :: x) = .literal .int spelling := hwkind.trans hspelling
        simp [startsTypeParams, hfirst]

theorem skipTypeParams_none (aliased : Bool) (type : TypeTerm) {rest : List Placed}
    {ts : List Token}
    (h : Follows src (pageMarks true (placedEquals aliased ++ (type.placed .space ++ rest))) ts) :
    skipTypeParams ts = .ok (false, .all ts) := by
  cases ts with
  | nil => rfl
  | cons t r =>
      have hno : (t.kind = .op "[" && startsTypeParams r) = false := by
        by_cases hkind : t.kind = .op "["
        · cases aliased with
          | false => simp [startsTypeParams_type type h hkind]
          | true =>
              have hnext : t.kind = .op "=" := h.nextKind_eq
              rw [hkind] at hnext
              exact absurd hnext (by decide)
        · simp [hkind]
      rw [skipTypeParams, hno]
      rfl

theorem skipTypeParams_some (param : Name) {rest : List Placed} {ts : List Token}
    (h : Follows src (pageMarks true (placedParam (some param) ++ rest)) ts) :
    ∃ left, skipTypeParams ts = .ok (true, left) ∧ Follows src (pageMarks true rest) left.1 := by
  rw [placedParam, List.cons_append, List.cons_append, List.cons_append, List.cons_append,
    List.nil_append, pageMarks_close] at h
  obtain ⟨t, r, rfl, ht, hr⟩ := h.exists_cons
  obtain ⟨u, s, rfl, hu, hs⟩ := hr.exists_cons
  obtain ⟨v, x, rfl, hv, hx⟩ := hs.exists_cons
  obtain ⟨w, y, rfl, hw, hy⟩ := hx.exists_cons
  have hukind : u.kind = .ident param.text := hu.kind
  have hvkind : v.kind = .ident "any" := hv.kind
  obtain ⟨hlt, hskip⟩ := skipClosed_two t y ⟨_, hukind⟩ ⟨_, hvkind⟩ hw.kind
  have hyes : (t.kind = .op "[" && startsTypeParams (u :: v :: w :: y)) = true := by
    simp [startsTypeParams, nextKind, hukind, hvkind, ht.kind]
  refine ⟨⟨y, Nat.le_succ_of_le (Nat.le_of_lt hlt)⟩, ?_, hy⟩
  rw [skipTypeParams, if_pos hyes]
  simp only [hskip, ok_bind]
  rfl

/-- The equals sign of an alias is passed over, and nothing else. -/
theorem equals_written (aliased : Bool) (type : TypeTerm) {rest : List Placed} {ts : List Token}
    (h : Follows src (pageMarks true (placedEquals aliased ++ (type.placed .space ++ rest))) ts) :
    decide (nextKind ts = .op "=") = aliased ∧
      Follows src (pageMarks false (type.placed .space ++ rest))
        (if nextKind ts = .op "=" then ts.tail else ts) := by
  cases aliased with
  | true =>
      rw [placedEquals, if_pos rfl, List.cons_append, List.nil_append, pageMarks_space] at h
      obtain ⟨t, r, rfl, ht, hr⟩ := h.exists_cons
      have hequals : nextKind (t :: r) = .op "=" := ht.kind
      rw [type.pageMarks_placed rfl] at hr
      rw [if_pos hequals]
      exact ⟨decide_eq_true hequals, hr⟩
  | false =>
      have hequals : nextKind ts ≠ .op "=" := by
        intro hequals
        have hstart := startsResult_type type rest
        have hnext : nextKind ts = nextMark (pageMarks true (type.placed .space ++ rest)) :=
          h.nextKind_eq
        rw [← hnext, hequals] at hstart
        cases hstart
      rw [if_neg hequals, ← type.pageMarks_placed rfl true]
      exact ⟨decide_eq_false hequals, h⟩

/-- A type spec is read back. -/
theorem parses_typeSpec (lead : Lead) (s : TypeSpecTerm) {rest : List Placed}
    (hrest : EndsLine rest) :
    Parses src (typeSpec src) (pageMarks false (s.placed lead ++ rest)) (pageMarks true rest)
      (TypeSpecTerm.Matches lead.doc s) := by
  obtain ⟨n, param, aliased, type⟩ := s
  intro ts h
  rw [TypeSpecTerm.placed, List.cons_append, pageMarks_first, List.append_assoc,
    List.append_assoc] at h
  have hdoc : SameDoc lead.doc (ts.head?.bind src.docOf) := by
    obtain ⟨t, r, rfl, ht, -⟩ := h.exists_cons
    exact ht.doc
  obtain ⟨name, hname, hsame, hr⟩ := parses_ident "type name" ts h
  obtain ⟨left, hleft, hr⟩ : ∃ left, skipTypeParams name.rest = .ok (param.isSome, left) ∧
      Follows src (pageMarks true (placedEquals aliased ++ (type.placed .space ++ rest)))
        left.1 := by
    cases param with
    | none => exact ⟨_, skipTypeParams_none aliased type hr, hr⟩
    | some param => exact skipTypeParams_some param hr
  obtain ⟨hequals, hr⟩ := equals_written aliased type hr
  obtain ⟨found, hfound, hmatches, hfollows⟩ :=
    type.readsBack src .space rest hrest.endsType _ hr
  have hlt : found.rest.length < ts.length := by
    have := found.lt
    have := left.2
    have := name.lt
    have : (if nextKind left.1 = .op "=" then left.1.tail else left.1).length ≤ left.1.length := by
      split
      · simp
      · exact Nat.le_refl _
    omega
  refine ⟨⟨⟨ts.head?.bind src.docOf, name.value, param.isSome, aliased, found.value⟩, found.rest,
    found.stop, hlt⟩, ?_, ⟨hdoc, hsame, rfl, rfl, hmatches⟩, hfollows⟩
  rw [typeSpec]
  obtain ⟨left, hle⟩ := left
  simp only [hname, ok_bind, hleft, hfound, hequals]
  rfl
/-! Constant specs. -/

/-- What comes after the names of a constant without a type. -/
theorem nextMark_assignment (values : List ValueTerm) {rest : List Placed} (hrest : EndsLine rest) :
    nextMark (pageMarks true (placedAssignment values ++ rest)) = .op "=" ∨
      nextMark (pageMarks true (placedAssignment values ++ rest)) = .semi true := by
  cases values with
  | nil => exact .inr hrest
  | cons first more => exact .inl rfl

theorem typeAfter_written {n : Nat} {names : Reading (List Ident) n} (type : Option TypeTerm)
    (values : List ValueTerm) {rest : List Placed} (hrest : EndsLine rest)
    (h : Follows src (pageMarks true (placedType type ++ (placedAssignment values ++ rest)))
      names.rest) :
    ∃ typed, typeAfter src names = .ok typed ∧ Option.Rel TypeTerm.Matches type typed.value ∧
      Follows src (pageMarks true (placedAssignment values ++ rest)) typed.rest := by
  have hassignment := nextMark_assignment values hrest
  have hnext := h.nextKind_eq
  cases type with
  | none =>
      rw [placedType, List.nil_append] at hnext h
      have huntyped : (nextKind names.rest = .op "=" || nextKind names.rest = .op ")" ||
          (nextKind names.rest).isSemi) = true := by
        rw [hnext]
        rcases hassignment with hkind | hkind
        · rw [hkind]
          decide
        · rw [hkind]
          decide
      refine ⟨⟨none, names.rest, names.stop, names.lt⟩, ?_, .none, h⟩
      rw [typeAfter, if_pos huntyped]
  | some type =>
      have hstart := startsResult_type type (placedAssignment values ++ rest)
      have hends : EndsType (placedAssignment values ++ rest) := by
        rcases hassignment with hkind | hkind
        · rw [EndsType, hkind]
          exact ⟨by decide, by decide⟩
        · rw [EndsType, hkind]
          exact ⟨by decide, by decide⟩
      have htyped : (nextKind names.rest = .op "=" || nextKind names.rest = .op ")" ||
          (nextKind names.rest).isSemi) = false := by
        rw [placedType] at hnext
        rw [← hnext] at hstart
        generalize nextKind names.rest = k at hstart
        cases k with
        | ident name => rfl
        | op symbol =>
            have hsymbol : symbol = "*" ∨ symbol = "[" ∨ symbol = "<-" := by
              simpa [startsResult] using hstart
            rcases hsymbol with rfl | rfl | rfl <;> decide
        | _ => cases hstart
      rw [placedType, type.pageMarks_placed rfl] at h
      obtain ⟨found, hfound, hmatches, hfollows⟩ :=
        type.readsBack src .space _ hends names.rest h
      refine ⟨⟨some found.value, found.rest, found.stop, Nat.lt_trans found.lt names.lt⟩, ?_,
        .some hmatches, hfollows⟩
      rw [typeAfter, htyped]
      simp only [Bool.false_eq_true, if_false, hfound, ok_bind]
      rfl

theorem valuesAfter_written {α : Type} {n : Nat} {before : Reading α n} (values : List ValueTerm)
    {rest : List Placed} (hrest : EndsLine rest)
    (h : Follows src (pageMarks true (placedAssignment values ++ rest)) before.rest) :
    ∃ found, valuesAfter src before = .ok found ∧
      List.Forall₂ ValueTerm.Matches values found.value ∧
      Follows src (pageMarks true rest) found.rest := by
  obtain ⟨value, left, stop, hlt⟩ := before
  cases values with
  | nil =>
      rw [placedAssignment, List.nil_append] at h
      have hnext : nextKind left = .semi true := h.nextKind_eq.trans hrest
      refine ⟨⟨[], left, stop, hlt⟩, ?_, .nil, h⟩
      cases left with
      | nil => rfl
      | cons t r =>
          have hkind : t.kind ≠ .op "=" := by
            intro hkind
            rw [nextKind, hkind] at hnext
            cases hnext
          exact if_neg hkind
  | cons first more =>
      rw [placedAssignment, List.cons_append, pageMarks_space] at h
      obtain ⟨t, r, hcons, ht, hr⟩ := h.exists_cons
      have hcons : left = t :: r := hcons
      subst hcons
      obtain ⟨found, hfound, hmatches, hfollows⟩ := parses_values first more hrest r hr
      refine ⟨⟨found.value, found.rest, found.stop,
        Nat.lt_trans found.lt (Nat.lt_of_succ_lt hlt)⟩, ?_, hmatches, hfollows⟩
      have hkind : t.kind = .op "=" := ht.kind
      simp only [valuesAfter, if_pos hkind, hfound, ok_bind]
      rfl

/-- A constant spec is read back. -/
theorem parses_constSpec (index : Nat) (lead : Lead) (s : ConstSpecTerm) {rest : List Placed}
    (hrest : EndsLine rest) :
    Parses src (constSpec src index) (pageMarks false (s.placed lead ++ rest))
      (pageMarks true rest) (ConstSpecTerm.Matches index lead.doc s) := by
  obtain ⟨first, more, type, values⟩ := s
  intro ts h
  rw [ConstSpecTerm.placed, List.append_assoc, List.append_assoc] at h
  have hcomma : nextMark (pageMarks true
      (placedType type ++ (placedAssignment values ++ rest))) ≠ .op "," := by
    cases type with
    | some type => exact ne_comma_of_startsResult (startsResult_type type _)
    | none =>
        rcases nextMark_assignment values hrest with hkind | hkind
        · rw [placedType, List.nil_append, hkind]
          decide
        · rw [placedType, List.nil_append, hkind]
          decide
  obtain ⟨names, hnames, hsame, hr⟩ :=
    parses_names "constant name" lead first more hcomma ts h
  obtain ⟨typed, htyped, hrel, hr⟩ := typeAfter_written type values hrest hr
  obtain ⟨found, hfound, hmatches, hfollows⟩ := valuesAfter_written values hrest hr
  have hdoc : SameDoc lead.doc (ts.head?.bind src.docOf) := by
    obtain ⟨ps, hplaced⟩ := exists_placedNames lead first more
    rw [hplaced, List.cons_append, pageMarks_first] at h
    obtain ⟨t, r, rfl, ht, -⟩ := h.exists_cons
    exact ht.doc
  refine ⟨⟨⟨ts.head?.bind src.docOf, index, names.value, typed.value, found.value⟩, found.rest,
    found.stop, found.lt⟩, ?_, ⟨hdoc, rfl, hsame, hrel, hmatches⟩, hfollows⟩
  simp only [constSpec, hnames, htyped, hfound, ok_bind]
  rfl

end FieldRules
