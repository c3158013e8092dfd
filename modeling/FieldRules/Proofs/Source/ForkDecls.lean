/-
Declarations in two files that are the same up to a semicolon.
-/
import FieldRules.Proofs.Source.ForkTypes

namespace FieldRules

theorem length_typeAfter_le {src : SourceText} {n : Nat} {names : Reading (List Ident) n}
    {one : Reading (Option TypeExpr) n} (h : typeAfter src names = .ok one) :
    one.rest.length ≤ names.rest.length := by
  unfold typeAfter at h
  dsimp only at h
  split at h
  · cases h
    exact Nat.le_refl _
  · obtain ⟨type, -, h⟩ := bind_eq_ok.mp h
    cases h
    exact Nat.le_of_lt type.lt

theorem length_valuesAfter_le {α : Type} {src : SourceText} {n : Nat} {before : Reading α n}
    {one : Reading (List ConstExpr) n} (h : valuesAfter src before = .ok one) :
    one.rest.length ≤ before.rest.length := by
  unfold valuesAfter at h
  split at h
  · cases h
    exact Nat.zero_le _
  · rename_i t r hr
    have hlength : before.rest.length = r.length + 1 := congrArg List.length hr
    rw [hlength]
    split at h
    · obtain ⟨values, -, h⟩ := bind_eq_ok.mp h
      cases h
      exact Nat.le_succ_of_le (Nat.le_of_lt values.lt)
    · cases h
      exact Nat.le_refl _

namespace Fork

variable {f : Fork} {src : SourceText} {ts us rest : List Token} {n m : Nat}

/-! Types. -/

/-- Type parameters are told by tokens in front of the semicolon. -/
theorem startsTypeParams_eq (h : f.Splits ts us) : startsTypeParams us = startsTypeParams ts := by
  cases h with
  | semi =>
      obtain ⟨implicit, hkind⟩ := f.exists_kind
      simp only [startsTypeParams, nextKind, hkind]
  | cons t h =>
      rw [startsTypeParams, startsTypeParams, List.tail_cons, List.tail_cons, h.nextKind_eq]
      rfl

theorem skipTypeParams_alike (h : f.Splits ts us) {generic : Bool} {left : Remaining ts}
    (hone : skipTypeParams ts = .ok (generic, left)) (hunread : f.Unread left.1) :
    ∃ rest le, f.Splits left.1 rest ∧ skipTypeParams us = .ok (generic, ⟨rest, le⟩) := by
  obtain ⟨t, r, rfl⟩ := List.exists_cons_of_ne_nil h.ne_nil
  unfold skipTypeParams at hone ⊢
  dsimp only at hone
  by_cases hopen : t.kind = .op "["
  · obtain ⟨r', rfl, hr⟩ := h.tail_of_kind (by rw [hopen]; rfl)
    dsimp only
    rw [startsTypeParams_eq hr]
    by_cases hparams : (t.kind = .op "[" && startsTypeParams r) = true
    · rw [if_pos hparams] at hone ⊢
      obtain ⟨inside, hinside, hone⟩ := bind_eq_ok.mp hone
      cases hone
      obtain ⟨rest, _, hs, hinside'⟩ := skipClosed_agrees t hr hinside hunread
      refine ⟨rest, by simp only [List.length_cons]; omega, hs, ?_⟩
      rw [hinside']
      rfl
    · rw [if_neg hparams] at hone ⊢
      cases hone
      exact ⟨t :: r', Nat.le_refl _, h, rfl⟩
  · have hnone : ∀ v, ¬ (t.kind = .op "[" && startsTypeParams v) = true := by simp [hopen]
    rw [if_neg (hnone r)] at hone
    cases hone
    obtain ⟨r', rfl⟩ := h.head
    exact ⟨t :: r', Nat.le_refl _, h, if_neg (hnone r')⟩

theorem length_afterEquals_le (ts : List Token) :
    (if nextKind ts = .op "=" then ts.tail else ts).length ≤ ts.length := by
  split
  · simp
  · exact Nat.le_refl _

theorem afterEquals_splits (h : f.Splits ts us) :
    f.Splits (if nextKind ts = .op "=" then ts.tail else ts)
      (if nextKind us = .op "=" then us.tail else us) := by
  rw [h.nextKind_eq]
  by_cases hequals : nextKind ts = .op "="
  · rw [if_pos hequals, if_pos hequals]
    obtain ⟨t, r, rfl⟩ := List.exists_cons_of_ne_nil h.ne_nil
    have ht : t.kind.isSemi = false := by
      rw [show t.kind = .op "=" from hequals]
      rfl
    obtain ⟨r', rfl, hr⟩ := h.tail_of_kind ht
    exact hr
  · rwa [if_neg hequals, if_neg hequals]

theorem typeSpec_agrees (src : SourceText) (h : f.Splits ts us) :
    f.Agrees (typeSpec src ts) (typeSpec src us) := by
  intro one hone hunread
  unfold typeSpec at hone ⊢
  obtain ⟨name, hname, hone⟩ := bind_eq_ok.mp hone
  obtain ⟨⟨generic, left, hle⟩, hleft, hone⟩ := bind_eq_ok.mp hone
  obtain ⟨type, htype, hone⟩ := bind_eq_ok.mp hone
  cases hone
  have hleftUnread : f.Unread left :=
    Nat.lt_of_lt_of_le (Nat.lt_trans hunread type.lt) (length_afterEquals_le left)
  obtain ⟨_, _, hs, hname'⟩ := expectIdent_agrees _ h hname (Nat.lt_of_lt_of_le hleftUnread hle)
  obtain ⟨left', _, hs, hleft'⟩ := skipTypeParams_alike hs hleft hleftUnread
  obtain ⟨rest, lt, hrest, htype'⟩ :=
    parseType_agrees src _ _ (afterEquals_splits hs) htype hunread
  have hlt := Nat.lt_of_lt_of_le lt (length_afterEquals_le left')
  refine ⟨rest, by omega, hrest, ?_⟩
  rw [hname', ok_bind, hleft', ok_bind]
  dsimp only
  rw [htype', h.head?_eq, ok_bind]
  simp only [hs.nextKind_eq]
  rfl

/-! Constants. -/

theorem exprList_agrees (src : SourceText) : ∀ ts us : List Token, f.Splits ts us →
    f.Agrees (exprList src ts) (exprList src us) := by
  intro ts us h one hone hunread
  unfold exprList at hone ⊢
  obtain ⟨⟨left, hle⟩, hleft, hone⟩ := bind_eq_ok.mp hone
  dsimp only at hone
  split at hone
  · rename_i first last hfirst hlast
    have hlt := length_lt_of_head?_take hfirst hle
    split at hone
    · cases hone
      exact absurd hunread (Nat.not_lt_zero _)
    · rename_i t r
      have hleftUnread : f.Unread (t :: r) := by
        split at hone
        · obtain ⟨more, -, hone⟩ := bind_eq_ok.mp hone
          cases hone
          exact Nat.lt_succ_of_lt (Nat.lt_trans hunread more.lt)
        · cases hone
          exact hunread
      obtain ⟨left', hle', hs, hleft'⟩ := skipUntil_alike _ h hleft hleftUnread
      obtain ⟨r', rfl⟩ := hs.head
      rw [← h.take_eq hs] at hfirst hlast
      have hlt' := length_lt_of_head?_take hfirst hle'
      rw [hleft', ok_bind]
      dsimp only
      split
      · rename_i first' last' hfirst' hlast'
        obtain rfl := Option.some.inj (hfirst.symm.trans hfirst')
        obtain rfl := Option.some.inj (hlast.symm.trans hlast')
        by_cases hcomma : t.kind = .op ","
        · rw [if_pos hcomma] at hone
          obtain ⟨more, hmore, hone⟩ := bind_eq_ok.mp hone
          cases hone
          obtain ⟨_, heq, hr⟩ := hs.tail (Nat.le_of_lt more.lt) hunread
          cases heq
          obtain ⟨rest, lt, hrest, hmore'⟩ := exprList_agrees src r _ hr hmore hunread
          refine ⟨rest, Nat.lt_trans lt (Nat.lt_of_succ_lt hlt'), hrest, ?_⟩
          simp only [if_pos hcomma, hmore', ok_bind, h.take_eq hs]
          rfl
        · rw [if_neg hcomma] at hone
          cases hone
          refine ⟨t :: r', hlt', hs, ?_⟩
          simp only [if_neg hcomma, h.take_eq hs]
          rfl
      · rename_i hnone
        exact (hnone first last hfirst hlast).elim
  · cases hone
termination_by ts => ts.length

theorem typeAfter_agrees {names : Reading (List Ident) n} {lt : rest.length < m}
    (h : f.Splits names.rest rest) :
    f.Agrees (typeAfter src names) (typeAfter src ⟨names.value, rest, names.stop, lt⟩) := by
  intro one hone hunread
  unfold typeAfter at hone ⊢
  dsimp only at hone ⊢
  rw [h.nextKind_eq]
  generalize hnone : (nextKind names.rest = .op "=" || nextKind names.rest = .op ")" ||
    (nextKind names.rest).isSemi : Bool) = none at hone ⊢
  cases none with
  | true =>
      cases hone
      exact ⟨rest, lt, h, rfl⟩
  | false =>
      obtain ⟨type, htype, hone⟩ := bind_eq_ok.mp hone
      cases hone
      obtain ⟨left, _, hs, htype'⟩ := parseType_agrees src _ _ h htype hunread
      refine ⟨left, by omega, hs, ?_⟩
      simp only [htype', ok_bind, if_neg Bool.false_ne_true]
      rfl

theorem valuesAfter_agrees {α : Type} {before : Reading α n} {lt : rest.length < m}
    (h : f.Splits before.rest rest) :
    f.Agrees (valuesAfter src before) (valuesAfter src ⟨before.value, rest, before.stop, lt⟩) := by
  intro one hone hunread
  unfold valuesAfter at hone
  split at hone
  · rename_i hnil
    exact absurd hnil h.ne_nil
  · rename_i t r hcons
    rw [hcons] at h
    unfold valuesAfter
    by_cases hequals : t.kind = .op "="
    · rw [if_pos hequals] at hone
      obtain ⟨values, hvalues, hone⟩ := bind_eq_ok.mp hone
      cases hone
      obtain ⟨r', rfl, hs⟩ := h.tail (Nat.le_of_lt values.lt) hunread
      obtain ⟨left, hlt, hs, hvalues'⟩ := exprList_agrees src _ _ hs hvalues hunread
      refine ⟨left, Nat.lt_trans hlt (Nat.lt_of_succ_lt lt), hs, ?_⟩
      simp only [if_pos hequals, hvalues', ok_bind]
      rfl
    · rw [if_neg hequals] at hone
      cases hone
      obtain ⟨r', rfl⟩ := h.head
      refine ⟨t :: r', lt, h, ?_⟩
      simp only [if_neg hequals]

theorem constSpec_agrees (src : SourceText) (index : Nat) (h : f.Splits ts us) :
    f.Agrees (constSpec src index ts) (constSpec src index us) := by
  intro one hone hunread
  unfold constSpec at hone ⊢
  obtain ⟨names, hnames, hone⟩ := bind_eq_ok.mp hone
  obtain ⟨typed, htyped, hone⟩ := bind_eq_ok.mp hone
  obtain ⟨values, hvalues, hone⟩ := bind_eq_ok.mp hone
  cases hone
  have htypedUnread : f.Unread typed.rest :=
    Nat.lt_of_lt_of_le hunread (length_valuesAfter_le hvalues)
  have hnamesUnread := Nat.lt_of_lt_of_le htypedUnread (length_typeAfter_le htyped)
  obtain ⟨_, _, hs, hnames'⟩ := identList_agrees _ h hnames hnamesUnread
  obtain ⟨_, _, hs, htyped'⟩ := typeAfter_agrees hs htyped htypedUnread
  obtain ⟨rest, lt, hs, hvalues'⟩ := valuesAfter_agrees hs hvalues hunread
  refine ⟨rest, lt, hs, ?_⟩
  rw [hnames', ok_bind, htyped', ok_bind, hvalues', h.head?_eq]
  rfl

/-! Groups. -/

section Group

variable {α : Type} {spec : Nat → (ts : List Token) → Except SourceError (Reading α ts.length)}

theorem specGroup_agrees
    (hspec : ∀ index ts us, f.Splits ts us → f.Agrees (spec index ts) (spec index us)) :
    ∀ (index : Nat) (ts us : List Token), f.Splits ts us →
      f.Agrees (specGroup spec index ts) (specGroup spec index us) := by
  intro index ts us h one hone hunread
  have hsemis := length_dropSemis_le ts
  rw [specGroup] at hone
  split at hone
  · cases hone
  · rename_i t r hcons
    have hlen : (t :: r).length ≤ ts.length := hcons ▸ hsemis
    by_cases hclosing : t.kind = .op ")"
    · rw [if_pos hclosing] at hone
      cases hone
      obtain ⟨r', hcons', hr⟩ := h.dropSemis_eq hcons hunread
      have hclose : ∃ lt, specGroup spec index us = .ok ⟨[], r', t.span.stop, lt⟩ :=
        specGroup_close hcons' hclosing
      obtain ⟨lt, hone'⟩ := hclose
      exact ⟨r', lt, hr, hone'⟩
    · rw [if_neg hclosing] at hone
      obtain ⟨first, hfirst, hone⟩ := bind_eq_ok.mp hone
      dsimp only at hone
      by_cases hends : EndsTurn ")" first.rest
      · unfold EndsTurn at hends
        rw [if_pos hends] at hone
        obtain ⟨more, hmore, hone⟩ := bind_eq_ok.mp hone
        cases hone
        have hlt := first.lt
        have hfirstUnread : f.Unread first.rest := Nat.lt_trans hunread more.lt
        obtain ⟨r', hcons', hr⟩ :=
          h.dropSemis_eq hcons (Nat.lt_of_lt_of_le hfirstUnread (Nat.le_of_lt_succ hlt))
        obtain ⟨_, _, hs, hfirst'⟩ := hspec index _ _ (.cons t hr) hfirst hfirstUnread
        obtain ⟨rest, _, hs', hmore'⟩ :=
          specGroup_agrees hspec (index + 1) _ _ hs hmore hunread
        have hends' : EndsTurn ")" _ := hs.nextKind_eq ▸ hends
        obtain ⟨lt, hone'⟩ := specGroup_spec hcons' hclosing hfirst' hends' hmore'
        exact ⟨rest, lt, hs', hone'⟩
      · unfold EndsTurn at hends
        rw [if_neg hends] at hone
        cases hone
termination_by _ ts => ts.length

theorem specs_agrees
    (hspec : ∀ index ts us, f.Splits ts us → f.Agrees (spec index ts) (spec index us))
    (h : f.Splits ts us) : f.Agrees (specs spec ts) (specs spec us) := by
  intro one hone hunread
  obtain ⟨t, r, r', rfl, rfl, hr⟩ := h.exists_cons one.lt hunread
  unfold specs at hone ⊢
  dsimp only at hone ⊢
  by_cases hgroup : t.kind = .op "("
  · rw [if_pos hgroup] at hone ⊢
    obtain ⟨all, hall, hone⟩ := bind_eq_ok.mp hone
    cases hone
    obtain ⟨rest, lt, hs, hall'⟩ := specGroup_agrees hspec 0 _ _ hr hall hunread
    refine ⟨rest, Nat.lt_succ_of_lt lt, hs, ?_⟩
    rw [hall']
    rfl
  · rw [if_neg hgroup] at hone ⊢
    obtain ⟨first, hfirst, hone⟩ := bind_eq_ok.mp hone
    cases hone
    obtain ⟨rest, lt, hs, hfirst'⟩ := hspec 0 _ _ h hfirst hunread
    refine ⟨rest, lt, hs, ?_⟩
    rw [hfirst']
    rfl

end Group

/-! Declarations that are skipped. -/

theorem skipDeclaration_alike (h : f.Splits ts us) :
    f.SkipsAlike (skipDeclaration ts) (skipDeclaration us) := by
  intro left hleft hunread
  obtain ⟨t, r, rfl⟩ := List.exists_cons_of_ne_nil h.ne_nil
  obtain ⟨r', rfl⟩ := h.head
  unfold skipDeclaration at hleft ⊢
  dsimp only at hleft ⊢
  by_cases hgroup : t.kind = .op "("
  · rw [if_pos hgroup] at hleft ⊢
    obtain ⟨inside, hinside, hleft⟩ := bind_eq_ok.mp hleft
    cases hleft
    obtain ⟨_, heq, hr⟩ := h.tail (Nat.le_of_lt inside.lt) hunread
    cases heq
    obtain ⟨rest, lt, hs, hinside'⟩ := skipClosed_agrees t hr hinside hunread
    refine ⟨rest, Nat.le_succ_of_le (Nat.le_of_lt lt), hs, ?_⟩
    rw [hinside']
    rfl
  · rw [if_neg hgroup] at hleft ⊢
    exact skipUntil_alike _ h hleft hunread

theorem skipFunction_alike (typeWord : Bool) (h : f.Splits ts us) :
    f.SkipsAlike (skipFunction typeWord ts) (skipFunction typeWord us) := by
  intro left hleft hunread
  induction typeWord, ts using skipFunction.induct generalizing us with
  | case1 => exact absurd rfl h.ne_nil
  | case2 typeWord t r hbody =>
      rw [skipFunction, if_pos hbody] at hleft
      obtain ⟨body, hread, hleft⟩ := bind_eq_ok.mp hleft
      cases hleft
      obtain ⟨r', rfl, hr⟩ := h.tail (Nat.le_of_lt body.lt) hunread
      obtain ⟨rest, lt, hs, hread'⟩ := skipClosed_agrees t hr hread hunread
      refine ⟨rest, Nat.le_succ_of_le (Nat.le_of_lt lt), hs, ?_⟩
      rw [skipFunction, if_pos hbody, hread']
      rfl
  | case3 typeWord t r hbody hopens ih =>
      rw [skipFunction, if_neg hbody, if_pos hopens] at hleft
      obtain ⟨inside, hinside, hleft⟩ := bind_eq_ok.mp hleft
      obtain ⟨⟨more, hle⟩, hmore, hleft⟩ := bind_eq_ok.mp hleft
      cases hleft
      have hkept : f.Unread inside.rest := Nat.lt_of_lt_of_le hunread hle
      obtain ⟨r', rfl, hr⟩ := h.tail (Nat.le_of_lt inside.lt) hkept
      obtain ⟨after, lt, hs, hinside'⟩ := skipClosed_agrees t hr hinside hkept
      obtain ⟨rest, le, hs, hmore'⟩ := ih inside hs hmore hunread
      refine ⟨rest, Nat.le_succ_of_le (Nat.le_trans le (Nat.le_of_lt lt)), hs, ?_⟩
      rw [skipFunction, if_neg hbody, if_pos hopens, hinside', ok_bind, hmore']
      rfl
  | case4 typeWord t r hbody hopens hend =>
      rw [skipFunction, if_neg hbody, if_neg hopens, if_pos hend] at hleft
      cases hleft
      obtain ⟨r', rfl⟩ := h.head
      refine ⟨t :: r', Nat.le_refl _, h, ?_⟩
      rw [skipFunction, if_neg hbody, if_neg hopens, if_pos hend]
      rfl
  | case5 typeWord t r hbody hopens hend ih =>
      rw [skipFunction, if_neg hbody, if_neg hopens, if_neg hend] at hleft
      obtain ⟨⟨more, hle⟩, hmore, hleft⟩ := bind_eq_ok.mp hleft
      cases hleft
      obtain ⟨r', rfl, hr⟩ := h.tail hle hunread
      obtain ⟨rest, le, hs, hmore'⟩ := ih hr hmore hunread
      refine ⟨rest, Nat.le_succ_of_le le, hs, ?_⟩
      rw [skipFunction, if_neg hbody, if_neg hopens, if_neg hend, hmore']
      rfl

end Fork

end FieldRules
