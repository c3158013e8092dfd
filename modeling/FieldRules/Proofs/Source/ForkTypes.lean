/-
Types in two files that are the same up to a semicolon.
-/
import FieldRules.Proofs.Source.Fork

namespace FieldRules

/-! Named types in two steps. -/

/-- A name with the package before it, when the first word of it has been read. -/
def qualified {n : Nat} (first : Reading Ident n) : Except SourceError (Reading TypeExpr n) :=
  if nextKind first.rest = .op "." then do
    let dot ← expectOp "." first.rest
    let name ← expectIdent "type name" dot.rest
    return ⟨.named (some first.value) name.value, name.rest, name.stop,
      Nat.lt_trans name.lt (Nat.lt_trans dot.lt first.lt)⟩
  else return ⟨.named none first.value, first.rest, first.stop, first.lt⟩

/-- A named type with the arguments after it, where it has some. -/
def withArguments (src : SourceText) (start : Nat) {n : Nat} (named : Reading TypeExpr n) :
    Except SourceError (Reading TypeExpr n) :=
  match hr : named.rest with
  | [] => return named
  | t :: r =>
      have hlen : (t :: r).length < n := hr ▸ named.lt
      if t.kind = .op "[" then do
        let inside ← skipClosed t r
        return ⟨.verbatim (src.between start inside.stop) ⟨start, inside.stop⟩, inside.rest,
          inside.stop, Nat.lt_trans inside.lt (Nat.lt_of_succ_lt hlen)⟩
      else return named

theorem namedType_eq (src : SourceText) (ts : List Token) :
    namedType src ts = (do
      let first ← expectIdent "type name" ts
      let named ← qualified first
      withArguments src first.value.span.start named) := by
  unfold namedType qualified
  cases expectIdent "type name" ts with
  | error e => rfl
  | ok first =>
      simp only [ok_bind]
      split
      · cases expectOp "." first.rest with
        | error e => rfl
        | ok dot =>
            simp only [ok_bind]
            cases expectIdent "type name" dot.rest <;> rfl
      · rfl

theorem length_withArguments_le {src : SourceText} {start n : Nat} {named one : Reading TypeExpr n}
    (h : withArguments src start named = .ok one) : one.rest.length ≤ named.rest.length := by
  unfold withArguments at h
  split at h
  · cases h
    exact Nat.le_refl _
  · rename_i t r hr
    split at h
    · obtain ⟨inside, -, h⟩ := bind_eq_ok.mp h
      cases h
      have hlength : named.rest.length = r.length + 1 := congrArg List.length hr
      rw [hlength]
      exact Nat.le_succ_of_le (Nat.le_of_lt inside.lt)
    · cases h
      exact Nat.le_refl _

theorem length_withTag_le {n : Nat} (doc : Option CommentGroup)
    (line : Reading (List Ident × TypeExpr) n) :
    (withTag doc line).rest.length ≤ line.rest.length := by
  obtain ⟨value, left, stop, hlt⟩ := line
  unfold withTag
  cases left with
  | nil => exact Nat.le_refl _
  | cons t r =>
      dsimp only
      split
      · exact Nat.le_succ _
      · exact Nat.le_refl _

theorem length_qualified_le {n : Nat} {first : Reading Ident n} {one : Reading TypeExpr n}
    (h : qualified first = .ok one) : one.rest.length ≤ first.rest.length := by
  unfold qualified at h
  split at h
  · obtain ⟨dot, -, h⟩ := bind_eq_ok.mp h
    obtain ⟨name, -, h⟩ := bind_eq_ok.mp h
    cases h
    exact Nat.le_of_lt (Nat.lt_trans name.lt dot.lt)
  · cases h
    exact Nat.le_refl _

namespace Fork

variable {f : Fork} {src : SourceText} {ts us rest : List Token} {n m : Nat}

/-- The line of an embedded field is told by tokens in front of the semicolon. -/
theorem startsEmbedded_eq (h : f.Splits ts us) : startsEmbedded us = startsEmbedded ts := by
  cases h with
  | semi =>
      obtain ⟨implicit, hkind⟩ := f.exists_kind
      simp only [startsEmbedded, hkind]
  | cons t h => simp only [startsEmbedded, h.nextKind_eq]

theorem qualified_agrees {first : Reading Ident n} {lt : rest.length < m}
    (h : f.Splits first.rest rest) :
    f.Agrees (qualified first) (qualified ⟨first.value, rest, first.stop, lt⟩) := by
  intro one hone hunread
  unfold qualified at hone ⊢
  dsimp only
  rw [h.nextKind_eq]
  by_cases hpoint : nextKind first.rest = .op "."
  · rw [if_pos hpoint] at hone
    obtain ⟨dot, hdot, hone⟩ := bind_eq_ok.mp hone
    obtain ⟨name, hname, hone⟩ := bind_eq_ok.mp hone
    cases hone
    obtain ⟨_, _, hs, hdot'⟩ := expectOp_agrees _ h hdot (Nat.lt_trans hunread name.lt)
    obtain ⟨left, _, hs, hname'⟩ := expectIdent_agrees _ hs hname hunread
    refine ⟨left, by omega, hs, ?_⟩
    simp only [if_pos hpoint, hdot', hname', ok_bind]
    rfl
  · rw [if_neg hpoint] at hone
    cases hone
    exact ⟨rest, lt, h, if_neg hpoint⟩

theorem withArguments_agrees {start : Nat} {named : Reading TypeExpr n} {lt : rest.length < m}
    (h : f.Splits named.rest rest) :
    f.Agrees (withArguments src start named)
      (withArguments src start ⟨named.value, rest, named.stop, lt⟩) := by
  intro one hone hunread
  unfold withArguments at hone
  split at hone
  · rename_i hnil
    exact absurd hnil h.ne_nil
  · rename_i t r hcons
    rw [hcons] at h
    obtain ⟨r', rfl⟩ := h.head
    unfold withArguments
    by_cases hopen : t.kind = .op "["
    · rw [if_pos hopen] at hone
      obtain ⟨inside, hinside, hone⟩ := bind_eq_ok.mp hone
      cases hone
      obtain ⟨_, hr, hs⟩ := h.tail (Nat.le_of_lt inside.lt) hunread
      cases hr
      obtain ⟨left, hlt, hs, hinside'⟩ := skipClosed_agrees t hs hinside hunread
      refine ⟨left, Nat.lt_trans hlt (Nat.lt_of_succ_lt lt), hs, ?_⟩
      simp only [if_pos hopen, hinside', ok_bind]
      rfl
    · rw [if_neg hopen] at hone
      cases hone
      refine ⟨t :: r', lt, hcons ▸ h, ?_⟩
      simp only [if_neg hopen]
      rfl

theorem namedType_agrees (src : SourceText) (h : f.Splits ts us) :
    f.Agrees (namedType src ts) (namedType src us) := by
  intro one hone hunread
  rw [namedType_eq] at hone ⊢
  obtain ⟨first, hfirst, hone⟩ := bind_eq_ok.mp hone
  obtain ⟨named, hnamed, hone⟩ := bind_eq_ok.mp hone
  have hnamedUnread : f.Unread named.rest :=
    Nat.lt_of_lt_of_le hunread (length_withArguments_le hone)
  have hfirstUnread := Nat.lt_of_lt_of_le hnamedUnread (length_qualified_le hnamed)
  obtain ⟨_, _, hs, hfirst'⟩ := expectIdent_agrees _ h hfirst hfirstUnread
  obtain ⟨_, _, hs, hnamed'⟩ := qualified_agrees hs hnamed hnamedUnread
  obtain ⟨rest, lt, hs, hone'⟩ := withArguments_agrees hs hone hunread
  exact ⟨rest, lt, hs, by rw [hfirst', ok_bind, hnamed', ok_bind, hone']⟩

theorem withTag_agrees {doc : Option CommentGroup} {line : Reading (List Ident × TypeExpr) n}
    {lt : rest.length < m} (h : f.Splits line.rest rest) :
    f.Agrees (.ok (withTag doc line)) (.ok (withTag doc ⟨line.value, rest, line.stop, lt⟩)) := by
  intro one hone hunread
  obtain rfl := Except.ok.inj hone
  obtain ⟨value, left, stop, hlt⟩ := line
  obtain ⟨t, r, rfl⟩ := List.exists_cons_of_ne_nil h.ne_nil
  obtain ⟨r', rfl⟩ := h.head
  unfold withTag at hunread ⊢
  dsimp only at hunread ⊢
  split at hunread
  · dsimp only at hunread
    obtain ⟨_, hr, hs⟩ := h.tail (Nat.le_refl _) hunread
    cases hr
    exact ⟨r', Nat.lt_of_succ_lt lt, hs, rfl⟩
  · exact ⟨t :: r', lt, h, rfl⟩

/-! Types by their first token. -/

/-- Lists of fewer than `n` tokens are read alike. -/
def AgreesBelow (f : Fork) {α : Type} (n : Nat)
    (reader : (ts : List Token) → Except SourceError (Reading α ts.length)) : Prop :=
  ∀ ts us : List Token, ts.length < n → f.Splits ts us → f.Agrees (reader ts) (reader us)

section FirstToken

variable {t : Token} {r r' : List Token}

theorem parseType_struct_agrees (ht : t.kind = .ident "struct") (hr : f.Splits r r')
    (hfields : f.AgreesBelow (t :: r).length (structFields src)) :
    f.Agrees (parseType src (t :: r)) (parseType src (t :: r')) := by
  intro one hone hunread
  unfold parseType at hone ⊢
  simp only [ht, if_true] at hone ⊢
  obtain ⟨opening, hopening, hone⟩ := bind_eq_ok.mp hone
  obtain ⟨fields, hread, hone⟩ := bind_eq_ok.mp hone
  cases hone
  have hopeningUnread : f.Unread opening.rest := Nat.lt_trans hunread fields.lt
  obtain ⟨_, _, hs, hopening'⟩ := expectOp_agrees _ hr hopening hopeningUnread
  obtain ⟨rest, _, hs, hread'⟩ := hfields _ _ (Nat.lt_succ_of_lt opening.lt) hs hread hunread
  refine ⟨rest, by simp only [List.length_cons]; omega, hs, ?_⟩
  simp only [hopening', hread', ok_bind]
  rfl

theorem parseType_map_agrees (ht : t.kind = .ident "map") (hr : f.Splits r r')
    (htypes : f.AgreesBelow (t :: r).length (parseType src)) :
    f.Agrees (parseType src (t :: r)) (parseType src (t :: r')) := by
  intro one hone hunread
  unfold parseType at hone ⊢
  simp only [ht, String.reduceEq, if_false, if_true] at hone ⊢
  obtain ⟨opening, hopening, hone⟩ := bind_eq_ok.mp hone
  obtain ⟨key, hkey, hone⟩ := bind_eq_ok.mp hone
  obtain ⟨closing, hclosing, hone⟩ := bind_eq_ok.mp hone
  obtain ⟨value, hvalue, hone⟩ := bind_eq_ok.mp hone
  cases hone
  have hopeningLt : opening.rest.length < (t :: r).length := Nat.lt_succ_of_lt opening.lt
  have hclosingLt : closing.rest.length < (t :: r).length :=
    Nat.lt_trans (Nat.lt_trans closing.lt key.lt) hopeningLt
  have hclosingUnread : f.Unread closing.rest := Nat.lt_trans hunread value.lt
  have hkeyUnread : f.Unread key.rest := Nat.lt_trans hclosingUnread closing.lt
  have hopeningUnread : f.Unread opening.rest := Nat.lt_trans hkeyUnread key.lt
  obtain ⟨_, _, hs, hopening'⟩ := expectOp_agrees _ hr hopening hopeningUnread
  obtain ⟨_, _, hs, hkey'⟩ := htypes _ _ hopeningLt hs hkey hkeyUnread
  obtain ⟨_, _, hs, hclosing'⟩ := expectOp_agrees _ hs hclosing hclosingUnread
  obtain ⟨rest, _, hs, hvalue'⟩ := htypes _ _ hclosingLt hs hvalue hunread
  refine ⟨rest, by simp only [List.length_cons]; omega, hs, ?_⟩
  simp only [hopening', hkey', hclosing', hvalue', ok_bind]
  rfl

theorem parseType_interface_agrees (ht : t.kind = .ident "interface") (hr : f.Splits r r') :
    f.Agrees (parseType src (t :: r)) (parseType src (t :: r')) := by
  intro one hone hunread
  unfold parseType at hone ⊢
  simp only [ht, String.reduceEq, if_false, if_true] at hone ⊢
  obtain ⟨opening, hopening, hone⟩ := bind_eq_ok.mp hone
  obtain ⟨inside, hinside, hone⟩ := bind_eq_ok.mp hone
  cases hone
  have hopeningUnread : f.Unread opening.rest := Nat.lt_trans hunread inside.lt
  obtain ⟨_, _, hs, hopening'⟩ := expectOp_agrees _ hr hopening hopeningUnread
  obtain ⟨rest, _, hs, hinside'⟩ := skipClosed_agrees _ hs hinside hunread
  refine ⟨rest, by simp only [List.length_cons]; omega, hs, ?_⟩
  simp only [hopening', hinside', ok_bind]
  rfl

theorem parseType_func_agrees (ht : t.kind = .ident "func") (hr : f.Splits r r')
    (hsignatures : f.AgreesBelow (t :: r).length (skipSignature src)) :
    f.Agrees (parseType src (t :: r)) (parseType src (t :: r')) := by
  intro one hone hunread
  unfold parseType at hone ⊢
  simp only [ht, String.reduceEq, if_false, if_true] at hone ⊢
  obtain ⟨signature, hsignature, hone⟩ := bind_eq_ok.mp hone
  cases hone
  obtain ⟨rest, lt, hs, hsignature'⟩ :=
    hsignatures _ _ (Nat.lt_succ_self _) hr hsignature hunread
  refine ⟨rest, Nat.lt_succ_of_lt lt, hs, ?_⟩
  simp only [hsignature', ok_bind]
  rfl

theorem parseType_chan_agrees (ht : t.kind = .ident "chan") (hr : f.Splits r r')
    (htypes : f.AgreesBelow (t :: r).length (parseType src)) :
    f.Agrees (parseType src (t :: r)) (parseType src (t :: r')) := by
  intro one hone hunread
  unfold parseType at hone ⊢
  simp only [ht, String.reduceEq, if_false, if_true] at hone ⊢
  obtain ⟨u, v, rfl⟩ := List.exists_cons_of_ne_nil hr.ne_nil
  obtain ⟨v', rfl⟩ := hr.head
  dsimp only at hone ⊢
  by_cases harrow : u.kind = .op "<-"
  · rw [if_pos harrow] at hone ⊢
    obtain ⟨elem, helem, hone⟩ := bind_eq_ok.mp hone
    cases hone
    obtain ⟨_, hv, hs⟩ := hr.tail (Nat.le_of_lt elem.lt) hunread
    cases hv
    obtain ⟨rest, _, hs, helem'⟩ :=
      htypes v _ (Nat.lt_succ_of_lt (Nat.lt_succ_self _)) hs helem hunread
    refine ⟨rest, by simp only [List.length_cons]; omega, hs, ?_⟩
    simp only [helem', ok_bind]
    rfl
  · rw [if_neg harrow] at hone ⊢
    obtain ⟨elem, helem, hone⟩ := bind_eq_ok.mp hone
    cases hone
    obtain ⟨rest, lt, hs, helem'⟩ :=
      htypes (u :: v) _ (Nat.lt_succ_self _) hr helem hunread
    refine ⟨rest, Nat.lt_succ_of_lt lt, hs, ?_⟩
    simp only [helem', ok_bind]
    rfl

theorem parseType_pointer_agrees (ht : t.kind = .op "*") (hr : f.Splits r r')
    (htypes : f.AgreesBelow (t :: r).length (parseType src)) :
    f.Agrees (parseType src (t :: r)) (parseType src (t :: r')) := by
  intro one hone hunread
  unfold parseType at hone ⊢
  simp only [ht, if_true] at hone ⊢
  obtain ⟨elem, helem, hone⟩ := bind_eq_ok.mp hone
  cases hone
  obtain ⟨rest, lt, hs, helem'⟩ := htypes _ _ (Nat.lt_succ_self _) hr helem hunread
  refine ⟨rest, Nat.lt_succ_of_lt lt, hs, ?_⟩
  simp only [helem', ok_bind]
  rfl

/-- A slice, or an array with the tokens of its length kept as they stand. -/
theorem parseType_bracket_agrees (ht : t.kind = .op "[") (hr : f.Splits r r')
    (htypes : f.AgreesBelow (t :: r).length (parseType src)) :
    f.Agrees (parseType src (t :: r)) (parseType src (t :: r')) := by
  intro one hone hunread
  unfold parseType at hone ⊢
  simp only [ht, String.reduceEq, if_false, if_true] at hone ⊢
  rw [hr.nextKind_eq]
  by_cases hslice : nextKind r = .op "]"
  · rw [if_pos hslice] at hone ⊢
    obtain ⟨closing, hclosing, hone⟩ := bind_eq_ok.mp hone
    obtain ⟨elem, helem, hone⟩ := bind_eq_ok.mp hone
    cases hone
    have hclosingUnread : f.Unread closing.rest := Nat.lt_trans hunread elem.lt
    obtain ⟨_, _, hs, hclosing'⟩ := expectOp_agrees _ hr hclosing hclosingUnread
    obtain ⟨rest, _, hs, helem'⟩ := htypes _ _ (Nat.lt_succ_of_lt closing.lt) hs helem hunread
    refine ⟨rest, by simp only [List.length_cons]; omega, hs, ?_⟩
    simp only [hclosing', helem', ok_bind]
    rfl
  · rw [if_neg hslice] at hone ⊢
    obtain ⟨⟨left, hle⟩, hleft, hone⟩ := bind_eq_ok.mp hone
    dsimp only at hone
    by_cases hclosed : nextKind left = .op "]"
    · rw [if_pos hclosed] at hone
      obtain ⟨closing, hclosing, hone⟩ := bind_eq_ok.mp hone
      obtain ⟨elem, helem, hone⟩ := bind_eq_ok.mp hone
      cases hone
      have hclosingLt : closing.rest.length < (t :: r).length :=
        Nat.lt_succ_of_lt (Nat.lt_of_lt_of_le closing.lt hle)
      have hclosingUnread : f.Unread closing.rest := Nat.lt_trans hunread elem.lt
      obtain ⟨left', _, hsplits, hleft'⟩ :=
        skipUntil_alike _ hr hleft (Nat.lt_trans hclosingUnread closing.lt)
      obtain ⟨_, _, hs, hclosing'⟩ := expectOp_agrees _ hsplits hclosing hclosingUnread
      obtain ⟨rest, _, hs, helem'⟩ := htypes _ _ hclosingLt hs helem hunread
      refine ⟨rest, by simp only [List.length_cons]; omega, hs, ?_⟩
      simp only [hleft', ok_bind, hsplits.nextKind_eq, if_pos hclosed, hclosing', helem',
        hr.take_eq hsplits, hr.head?_eq]
      rfl
    · rw [if_neg hclosed] at hone
      cases hone

/-- A channel to receive from. -/
theorem parseType_receive_agrees (ht : t.kind = .op "<-") (hr : f.Splits r r')
    (htypes : f.AgreesBelow (t :: r).length (parseType src)) :
    f.Agrees (parseType src (t :: r)) (parseType src (t :: r')) := by
  intro one hone hunread
  unfold parseType at hone ⊢
  simp only [ht, String.reduceEq, if_false, if_true] at hone ⊢
  rw [hr.nextKind_eq]
  by_cases hword : nextKind r = .ident "chan"
  · rw [if_pos hword] at hone ⊢
    obtain ⟨word, hread, hone⟩ := bind_eq_ok.mp hone
    obtain ⟨elem, helem, hone⟩ := bind_eq_ok.mp hone
    cases hone
    have hwordUnread : f.Unread word.rest := Nat.lt_trans hunread elem.lt
    obtain ⟨_, _, hs, hread'⟩ := expectIdent_agrees _ hr hread hwordUnread
    obtain ⟨rest, _, hs, helem'⟩ := htypes _ _ (Nat.lt_succ_of_lt word.lt) hs helem hunread
    refine ⟨rest, by simp only [List.length_cons]; omega, hs, ?_⟩
    simp only [hread', helem', ok_bind]
    rfl
  · rw [if_neg hword] at hone
    cases hone

theorem parseType_parens_agrees (ht : t.kind = .op "(") (hr : f.Splits r r')
    (htypes : f.AgreesBelow (t :: r).length (parseType src)) :
    f.Agrees (parseType src (t :: r)) (parseType src (t :: r')) := by
  intro one hone hunread
  unfold parseType at hone ⊢
  simp only [ht, String.reduceEq, if_false, if_true] at hone ⊢
  obtain ⟨inner, hinner, hone⟩ := bind_eq_ok.mp hone
  obtain ⟨closing, hclosing, hone⟩ := bind_eq_ok.mp hone
  cases hone
  have hinnerUnread : f.Unread inner.rest := Nat.lt_trans hunread closing.lt
  obtain ⟨_, _, hs, hinner'⟩ := htypes _ _ (Nat.lt_succ_self _) hr hinner hinnerUnread
  obtain ⟨rest, _, hs, hclosing'⟩ := expectOp_agrees _ hs hclosing hunread
  refine ⟨rest, by simp only [List.length_cons]; omega, hs, ?_⟩
  simp only [hinner', hclosing', ok_bind]
  rfl

end FirstToken

/-! All types. -/

mutual

theorem parseType_agrees (src : SourceText) : ∀ ts us : List Token, f.Splits ts us →
    f.Agrees (parseType src ts) (parseType src us)
  | [], _, h => absurd rfl h.ne_nil
  | t :: r, us, h => by
    intro one hone hunread
    obtain ⟨r', rfl, hr⟩ := h.tail (Nat.le_of_lt_succ one.lt) hunread
    have htypes : f.AgreesBelow (t :: r).length (parseType src) :=
      fun vs vs' hlt => parseType_agrees src vs vs'
    have hfields : f.AgreesBelow (t :: r).length (structFields src) :=
      fun vs vs' hlt => structFields_agrees src vs vs'
    have hsignatures : f.AgreesBelow (t :: r).length (skipSignature src) :=
      fun vs vs' hlt => skipSignature_agrees src vs vs'
    cases ht : t.kind with
    | ident word =>
        by_cases hstruct : word = "struct"
        · exact parseType_struct_agrees (hstruct ▸ ht) hr hfields hone hunread
        by_cases hmap : word = "map"
        · exact parseType_map_agrees (hmap ▸ ht) hr htypes hone hunread
        by_cases hinterface : word = "interface"
        · exact parseType_interface_agrees (hinterface ▸ ht) hr hone hunread
        by_cases hfunc : word = "func"
        · exact parseType_func_agrees (hfunc ▸ ht) hr hsignatures hone hunread
        by_cases hchan : word = "chan"
        · exact parseType_chan_agrees (hchan ▸ ht) hr htypes hone hunread
        unfold parseType at hone ⊢
        simp only [ht, if_neg hstruct, if_neg hmap, if_neg hinterface, if_neg hfunc,
          if_neg hchan] at hone ⊢
        exact namedType_agrees src (.cons t hr) hone hunread
    | op symbol =>
        by_cases hpointer : symbol = "*"
        · exact parseType_pointer_agrees (hpointer ▸ ht) hr htypes hone hunread
        by_cases hbracket : symbol = "["
        · exact parseType_bracket_agrees (hbracket ▸ ht) hr htypes hone hunread
        by_cases hreceive : symbol = "<-"
        · exact parseType_receive_agrees (hreceive ▸ ht) hr htypes hone hunread
        by_cases hparen : symbol = "("
        · exact parseType_parens_agrees (hparen ▸ ht) hr htypes hone hunread
        unfold parseType at hone
        simp only [ht, if_neg hpointer, if_neg hbracket, if_neg hreceive, if_neg hparen] at hone
        cases hone
    | _ =>
        unfold parseType at hone
        simp only [ht] at hone
        cases hone
termination_by ts => (ts.length, 0)
decreasing_by
  all_goals
    apply Prod.Lex.left
    assumption

theorem skipSignature_agrees (src : SourceText) (ts us : List Token) (h : f.Splits ts us) :
    f.Agrees (skipSignature src ts) (skipSignature src us) := by
  intro one hone hunread
  unfold skipSignature at hone ⊢
  obtain ⟨opening, hopening, hone⟩ := bind_eq_ok.mp hone
  obtain ⟨inside, hinside, hone⟩ := bind_eq_ok.mp hone
  have hlt := opening.lt
  have hlt' := inside.lt
  -- the parameters are skipped alike, whatever comes after them
  have hparams : f.Unread inside.rest → ∃ opening' : Reading Token us.length, ∃ left lt,
      expectOp "(" us = .ok opening' ∧
        skipClosed opening'.value opening'.rest = .ok ⟨(), left, inside.stop, lt⟩ ∧
        f.Splits inside.rest left := by
    intro hinsideUnread
    obtain ⟨_, _, hs, hopening'⟩ := expectOp_agrees _ h hopening (Nat.lt_trans hinsideUnread hlt')
    obtain ⟨left, lt, hs, hinside'⟩ := skipClosed_agrees _ hs hinside hinsideUnread
    exact ⟨_, left, lt, hopening', hinside', hs⟩
  dsimp only at hone
  split at hone
  · cases hone
    exact absurd hunread (Nat.not_lt_zero _)
  · rename_i t r hcons
    have hlen : (t :: r).length < opening.rest.length := hcons ▸ hlt'
    rw [hcons] at hparams
    by_cases hgroup : t.kind = .op "("
    · rw [if_pos hgroup] at hone
      obtain ⟨results, hresults, hone⟩ := bind_eq_ok.mp hone
      cases hone
      obtain ⟨opening', left, lt, hopening', hinside', hs⟩ :=
        hparams (Nat.lt_succ_of_lt (Nat.lt_trans hunread results.lt))
      obtain ⟨r', rfl, hr⟩ := hs.tail (Nat.le_of_lt results.lt) hunread
      obtain ⟨rest, _, hs, hresults'⟩ := skipClosed_agrees t hr hresults hunread
      have hltOpening := opening'.lt
      refine ⟨rest, by simp only [List.length_cons] at lt; omega, hs, ?_⟩
      simp only [hopening', hinside', ok_bind, if_pos hgroup, hresults']
      rfl
    rw [if_neg hgroup] at hone
    by_cases hstarts : startsResult t.kind = true
    · rw [if_pos hstarts] at hone
      obtain ⟨result, hresult, hone⟩ := bind_eq_ok.mp hone
      cases hone
      obtain ⟨opening', left, lt, hopening', hinside', hs⟩ :=
        hparams (Nat.lt_trans hunread result.lt)
      obtain ⟨r', rfl⟩ := hs.head
      obtain ⟨rest, _, hs, hresult'⟩ := parseType_agrees src (t :: r) _ hs hresult hunread
      have hltOpening := opening'.lt
      refine ⟨rest, by omega, hs, ?_⟩
      simp only [hopening', hinside', ok_bind, if_neg hgroup, if_pos hstarts, hresult']
      rfl
    rw [if_neg hstarts] at hone
    cases hone
    obtain ⟨opening', left, lt, hopening', hinside', hs⟩ := hparams hunread
    obtain ⟨r', rfl⟩ := hs.head
    have hltOpening := opening'.lt
    refine ⟨t :: r', by omega, hs, ?_⟩
    simp only [hopening', hinside', ok_bind, if_neg hgroup, if_neg hstarts]
    rfl
termination_by (ts.length, 0)
decreasing_by
  apply Prod.Lex.left
  omega

theorem structFields_agrees (src : SourceText) (ts us : List Token) (h : f.Splits ts us) :
    f.Agrees (structFields src ts) (structFields src us) := by
  intro one hone hunread
  have hsemis := length_dropSemis_le ts
  rw [structFields] at hone
  split at hone
  · cases hone
  · rename_i t r hcons
    have hlen : (t :: r).length ≤ ts.length := hcons ▸ hsemis
    by_cases hclosing : t.kind = .op "\x7d"
    · rw [if_pos hclosing] at hone
      cases hone
      obtain ⟨r', hcons', hr⟩ := h.dropSemis_eq hcons hunread
      obtain ⟨lt, hone'⟩ := structFields_close hcons' hclosing
      exact ⟨r', lt, hr, hone'⟩
    · rw [if_neg hclosing] at hone
      obtain ⟨field, hfield, hone⟩ := bind_eq_ok.mp hone
      dsimp only at hone
      by_cases hends : EndsTurn "\x7d" field.rest
      · unfold EndsTurn at hends
        rw [if_pos hends] at hone
        obtain ⟨more, hmore, hone⟩ := bind_eq_ok.mp hone
        cases hone
        have hlt := field.lt
        have hfieldUnread : f.Unread field.rest := Nat.lt_trans hunread more.lt
        obtain ⟨r', hcons', hr⟩ :=
          h.dropSemis_eq hcons (Nat.lt_of_lt_of_le hfieldUnread (Nat.le_of_lt_succ hlt))
        obtain ⟨_, _, hs, hfield'⟩ := fieldLine_agrees src _ _ (.cons t hr) hfield hfieldUnread
        obtain ⟨rest, _, hs', hmore'⟩ := structFields_agrees src _ _ hs hmore hunread
        have hends' : EndsTurn "\x7d" _ := hs.nextKind_eq ▸ hends
        obtain ⟨lt, hone'⟩ := structFields_field hcons' hclosing hfield' hends' hmore'
        exact ⟨rest, lt, hs', hone'⟩
      · unfold EndsTurn at hends
        rw [if_neg hends] at hone
        cases hone
termination_by (ts.length, 2)
decreasing_by
  · rcases Nat.lt_or_eq_of_le hlen with hlt | heq
    · exact Prod.Lex.left _ _ hlt
    · rw [heq]
      exact Prod.Lex.right _ (by omega)
  · apply Prod.Lex.left
    omega

theorem fieldLine_agrees (src : SourceText) (ts us : List Token) (h : f.Splits ts us) :
    f.Agrees (fieldLine src ts) (fieldLine src us) := by
  intro one hone hunread
  unfold fieldLine at hone ⊢
  dsimp only at hone ⊢
  rw [h.nextKind_eq, h.head?_eq]
  rw [startsEmbedded_eq h]
  by_cases hstarts : startsEmbedded ts = true
  · rw [if_pos hstarts] at hone ⊢
    obtain ⟨type, htype, hone⟩ := bind_eq_ok.mp hone
    obtain ⟨line, hline, hone⟩ := bind_eq_ok.mp hone
    cases hline
    cases hone
    have htypeUnread : f.Unread type.rest := Nat.lt_of_lt_of_le hunread (length_withTag_le _ _)
    obtain ⟨_, _, hs, htype'⟩ := parseType_agrees src ts us h htype htypeUnread
    obtain ⟨rest, lt, hs, hone'⟩ := withTag_agrees hs rfl hunread
    refine ⟨rest, lt, hs, ?_⟩
    rw [htype', ok_bind]
    exact hone'
  · rw [if_neg hstarts] at hone ⊢
    split at hone
    · obtain ⟨names, hnames, hone⟩ := bind_eq_ok.mp hone
      obtain ⟨type, htype, hone⟩ := bind_eq_ok.mp hone
      obtain ⟨line, hline, hone⟩ := bind_eq_ok.mp hone
      cases hline
      cases hone
      have hlt := names.lt
      have htypeUnread : f.Unread type.rest := Nat.lt_of_lt_of_le hunread (length_withTag_le _ _)
      have hnamesUnread : f.Unread names.rest := Nat.lt_trans htypeUnread type.lt
      obtain ⟨_, _, hs, hnames'⟩ := identList_agrees _ h hnames hnamesUnread
      obtain ⟨_, _, hs, htype'⟩ := parseType_agrees src _ _ hs htype htypeUnread
      obtain ⟨rest, lt, hs, hone'⟩ := withTag_agrees hs rfl hunread
      refine ⟨rest, lt, hs, ?_⟩
      rw [hnames', ok_bind, htype', ok_bind]
      exact hone'
    · cases hone
termination_by (ts.length, 1)
decreasing_by
  · exact Prod.Lex.right _ (by omega)
  · apply Prod.Lex.left
    omega

end

end Fork

end FieldRules
