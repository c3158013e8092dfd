/-
Reading types back: from the tokens of a type on a page the parser makes the type again,
and leaves the tokens of what comes after it.  Structs wait for their fields.
-/
import FieldRules.Proofs.Source.Marks

namespace FieldRules

variable {src : SourceText}

/-- A type name is read back, if nothing goes on with it. -/
theorem parses_typeName (lead : Lead) (t : TypeName) {rest : List Placed} (hrest : EndsType rest) :
    Parses src (namedType src) (pageMarks false (t.placed lead ++ rest)) (pageMarks true rest)
      (TypeTerm.named t).Matches := by
  obtain ⟨package, name⟩ := t
  intro ts h
  cases package with
  | none =>
      rw [TypeName.placed, List.cons_append, List.nil_append, pageMarks_first] at h
      obtain ⟨first, hfirst, hname, hr⟩ := parses_ident "type name" ts h
      have hpoint : nextKind first.rest ≠ .op "." := hr.nextKind_eq ▸ hrest.1
      have hbracket : nextKind first.rest ≠ .op "[" := hr.nextKind_eq ▸ hrest.2
      refine ⟨⟨.named none first.value, first.rest, first.stop, first.lt⟩, ?_, ⟨rfl, hname⟩, hr⟩
      simp only [namedType, hfirst, ok_bind, if_neg hpoint, pure_eq_ok]
      split
      · rfl
      · rename_i t r heq
        rw [heq] at hbracket
        exact if_neg hbracket
  | some package =>
      rw [TypeName.placed, List.cons_append, pageMarks_first] at h
      obtain ⟨first, hfirst, hpackage, hdot⟩ := parses_ident "type name" ts h
      have hpoint : nextKind first.rest = .op "." := hdot.nextKind_eq
      obtain ⟨dot, hreaddot, -, hident⟩ := parses_op first.rest hdot
      obtain ⟨second, hsecond, hname, hr⟩ := parses_ident "type name" dot.rest hident
      have hbracket : nextKind second.rest ≠ .op "[" := hr.nextKind_eq ▸ hrest.2
      have hlt : second.rest.length < ts.length :=
        Nat.lt_trans second.lt (Nat.lt_trans dot.lt first.lt)
      refine ⟨⟨.named (some first.value) second.value, second.rest, second.stop, hlt⟩, ?_,
        ⟨congrArg some hpackage, hname⟩, hr⟩
      simp only [namedType, hfirst, ok_bind, if_pos hpoint, hreaddot, hsecond, pure_eq_ok]
      split
      · rfl
      · rename_i t r heq
        rw [heq] at hbracket
        exact if_neg hbracket

theorem Name.ne_keyword (n : Name) (word : String) (h : word ∈ keywords) : n.text ≠ word := by
  rintro rfl
  exact n.plain h

theorem parseType_name {t : Token} {r : List Token} {n : Name} (h : t.kind = .ident n.text) :
    parseType src (t :: r) = namedType src (t :: r) := by
  rw [parseType.eq_def]
  simp only [h, if_neg (n.ne_keyword "struct" (by decide)),
    if_neg (n.ne_keyword "map" (by decide)),
    if_neg (n.ne_keyword "interface" (by decide)),
    if_neg (n.ne_keyword "func" (by decide)),
    if_neg (n.ne_keyword "chan" (by decide))]

theorem TypeName.exists_placed (t : TypeName) (lead : Lead) :
    ∃ n ps, t.placed lead = ⟨lead, .ofName n⟩ :: ps := by
  obtain ⟨package, name⟩ := t
  cases package with
  | none => exact ⟨name, [], rfl⟩
  | some package => exact ⟨package, _, rfl⟩

/-- The parser makes a written type again. -/
def ReadsBack (src : SourceText) (t : TypeTerm) : Prop :=
  ∀ lead rest, EndsType rest →
    Parses src (parseType src) (pageMarks false (t.placed lead ++ rest)) (pageMarks true rest)
      t.Matches

theorem readsBack_named (name : TypeName) : ReadsBack src (.named name) := by
  intro lead rest hrest ts h
  obtain ⟨r, hread, hmatches, hfollows⟩ := parses_typeName lead name hrest ts h
  refine ⟨r, ?_, hmatches, hfollows⟩
  obtain ⟨n, ps, hplaced⟩ := name.exists_placed lead
  rw [TypeTerm.placed, hplaced, List.cons_append, pageMarks_first] at h
  obtain ⟨t, more, rfl, ht, -⟩ := h.exists_cons
  rw [parseType_name ht.kind, hread]

theorem TypeTerm.exists_placed (t : TypeTerm) (lead : Lead) :
    ∃ w ps, t.placed lead = ⟨lead, w⟩ :: ps ∧ startsResult w.kind = true := by
  cases t with
  | named name =>
      obtain ⟨n, ps, hplaced⟩ := name.exists_placed lead
      exact ⟨.ofName n, ps, hplaced, rfl⟩
  | _ => exact ⟨_, _, by rw [TypeTerm.placed], rfl⟩

/-- A type on the line of the word before it is marked the same after any word. -/
theorem TypeTerm.pageMarks_placed (t : TypeTerm) {lead : Lead} (h : lead.inline = true)
    (ends : Bool) (rest : List Placed) :
    pageMarks ends (t.placed lead ++ rest) = pageMarks false (t.placed lead ++ rest) := by
  obtain ⟨w, ps, hplaced, -⟩ := t.exists_placed lead
  rw [hplaced]
  exact pageMarks_inline h ends w (ps ++ rest)

theorem readsBack_pointer {elem : TypeTerm} (helem : ReadsBack src elem) :
    ReadsBack src (.pointer elem) := by
  intro lead rest hrest ts h
  rw [TypeTerm.placed, List.cons_append, pageMarks_first] at h
  obtain ⟨t, r, rfl, ht, hr⟩ := h.exists_cons
  have hkind : t.kind = .op "*" := ht.kind
  rw [elem.pageMarks_placed rfl] at hr
  obtain ⟨found, hfound, hmatches, hfollows⟩ := helem .joined rest hrest r hr
  refine ⟨⟨.pointer found.value ⟨t.span.start, found.stop⟩, found.rest, found.stop,
    Nat.lt_succ_of_lt found.lt⟩, ?_, hmatches, hfollows⟩
  rw [parseType.eq_def]
  simp only [hkind, if_true, hfound, ok_bind]
  rfl

theorem readsBack_slice {elem : TypeTerm} (helem : ReadsBack src elem) :
    ReadsBack src (.slice elem) := by
  intro lead rest hrest ts h
  rw [TypeTerm.placed, List.cons_append, List.cons_append, pageMarks_first, pageMarks_close] at h
  obtain ⟨t, r, rfl, ht, hr⟩ := h.exists_cons
  have hkind : t.kind = .op "[" := ht.kind
  have hnext : nextKind r = .op "]" := hr.nextKind_eq
  obtain ⟨closing, hclosing, -, hr⟩ := parses_op r hr
  rw [elem.pageMarks_placed rfl] at hr
  obtain ⟨found, hfound, hmatches, hfollows⟩ := helem .joined rest hrest closing.rest hr
  refine ⟨⟨.slice found.value ⟨t.span.start, found.stop⟩, found.rest, found.stop,
    Nat.lt_succ_of_lt (Nat.lt_trans found.lt closing.lt)⟩, ?_, hmatches, hfollows⟩
  rw [parseType.eq_def]
  simp only [hkind, String.reduceEq, if_true, if_false, hnext, hclosing, hfound, ok_bind]
  rfl

theorem readsBack_map {key value : TypeTerm} (hkey : ReadsBack src key)
    (hvalue : ReadsBack src value) : ReadsBack src (.map key value) := by
  intro lead rest hrest ts h
  rw [TypeTerm.placed, List.cons_append, List.cons_append, List.append_assoc, List.cons_append,
    pageMarks_first, pageMarks_close] at h
  obtain ⟨t, r, rfl, ht, hr⟩ := h.exists_cons
  have hkind : t.kind = .ident "map" := ht.kind
  obtain ⟨opening, hopening, -, hr⟩ := parses_op r hr
  rw [key.pageMarks_placed rfl] at hr
  obtain ⟨k, hk, hkmatches, hr⟩ := hkey .joined _ (endsType_bracket _ _) opening.rest hr
  rw [pageMarks_close] at hr
  obtain ⟨closing, hclosing, -, hr⟩ := parses_op k.rest hr
  rw [value.pageMarks_placed rfl] at hr
  obtain ⟨v, hv, hvmatches, hfollows⟩ := hvalue .joined rest hrest closing.rest hr
  refine ⟨⟨.map k.value v.value ⟨t.span.start, v.stop⟩, v.rest, v.stop,
    Nat.lt_succ_of_lt (Nat.lt_trans v.lt (Nat.lt_trans closing.lt
      (Nat.lt_trans k.lt opening.lt)))⟩, ?_, ⟨hkmatches, hvmatches⟩, hfollows⟩
  rw [parseType.eq_def]
  simp only [hkind, String.reduceEq, if_true, if_false, hopening, hk, hclosing, hv, ok_bind]
  rfl

theorem LengthTerm.kind_eq (l : LengthTerm) :
    (∃ name, l.word.kind = .ident name) ∨ ∃ spelling, l.word.kind = .literal .int spelling := by
  cases l with
  | name n => exact .inl ⟨n.text, rfl⟩
  | literal spelling _ => exact .inr ⟨spelling, rfl⟩

theorem readsBack_array {elem : TypeTerm} (length : LengthTerm) (helem : ReadsBack src elem) :
    ReadsBack src (.array length elem) := by
  intro lead rest hrest ts h
  rw [TypeTerm.placed, List.cons_append, List.cons_append, List.cons_append, pageMarks_first] at h
  obtain ⟨t, r, rfl, ht, hr⟩ := h.exists_cons
  have hkind : t.kind = .op "[" := ht.kind
  obtain ⟨u, v, rfl, hu, hv⟩ := hr.exists_cons
  have hukind : u.kind = length.word.kind := hu.kind
  have hnext : nextKind v = .op "]" := hv.nextKind_eq
  obtain ⟨w, x, rfl, hw, -⟩ := hv.exists_cons
  have hwkind : w.kind = .op "]" := hw.kind
  have hother : u.kind.opens = false ∧ u.kind.isSemi = false ∧ u.kind ≠ .op "]" ∧
      u.kind ≠ .eof := by
    rw [hukind]
    rcases length.kind_eq with ⟨name, hname⟩ | ⟨spelling, hspelling⟩
    · rw [hname]
      exact ⟨rfl, rfl, nofun, nofun⟩
    · rw [hspelling]
      exact ⟨rfl, rfl, nofun, nofun⟩
  obtain ⟨hopens, hsemi, hbracket, heof⟩ := hother
  have hskip : skipUntil (fun k => k.isSemi || k = .op "]") (u :: w :: x) =
      .ok (Remaining.afterToken (.all (w :: x)) u) := by
    apply skipUntil_pass hopens
    · simp [hsemi, hbracket]
    · exact heof
    · exact skipUntil_stop (by rw [hwkind]; decide) (by simp [hwkind])
  obtain ⟨closing, hclosing, -, hr⟩ := parses_op (w :: x) hv
  rw [elem.pageMarks_placed rfl] at hr
  obtain ⟨found, hfound, hmatches, hfollows⟩ := helem .joined rest hrest closing.rest hr
  have hlt : found.rest.length < (t :: u :: w :: x).length := by
    have := Nat.lt_trans found.lt closing.lt
    simp only [List.length_cons] at this ⊢
    omega
  refine ⟨⟨.array length.word.kind.spelling found.value ⟨t.span.start, found.stop⟩, found.rest,
    found.stop, hlt⟩, ?_, ⟨rfl, hmatches⟩, hfollows⟩
  have hspelling : src.between u.span.start u.span.stop = length.word.kind.spelling := hu.spelling
  rw [parseType.eq_def]
  simp [hkind, hbracket, nextKind, hskip, Remaining.afterToken, Remaining.all, hwkind, hclosing,
    hfound, hspelling]

end FieldRules
