/-
Two files that are the same up to a semicolon.  A reader that leaves the semicolon unread gives
the same in both: it never looks behind it.
-/
import FieldRules.Proofs.Source.Steps
import FieldRules.Source.Parser

namespace FieldRules

/-- A semicolon, and two ways in which a file may go on behind it. -/
structure Fork where
  semi : Token
  isSemi : semi.kind.isSemi = true
  first : List Token
  second : List Token

namespace Fork

variable {f : Fork}

theorem exists_kind (f : Fork) : ∃ implicit, f.semi.kind = .semi implicit := by
  have hsemi := f.isSemi
  cases hkind : f.semi.kind with
  | semi implicit => exact ⟨implicit, rfl⟩
  | _ =>
      rw [hkind] at hsemi
      cases hsemi

/-- Two lists that are the same up to the semicolon and go on behind it in the two ways. -/
inductive Splits (f : Fork) : List Token → List Token → Prop
  | semi : f.Splits (f.semi :: f.first) (f.semi :: f.second)
  | cons (t : Token) {ts us : List Token} (h : f.Splits ts us) : f.Splits (t :: ts) (t :: us)

/-- The semicolon is among the tokens that are left. -/
def Unread (f : Fork) (rest : List Token) : Prop := f.first.length < rest.length

/-- If the first reader leaves the semicolon, the second gives the same and leaves the same up
to the semicolon. -/
def Agrees (f : Fork) {α : Type} {n m : Nat} (x : Except SourceError (Reading α n))
    (y : Except SourceError (Reading α m)) : Prop :=
  ∀ ⦃one⦄, x = .ok one → f.Unread one.rest →
    ∃ rest lt, f.Splits one.rest rest ∧ y = .ok ⟨one.value, rest, one.stop, lt⟩

/-- The same for readers that only skip. -/
def SkipsAlike (f : Fork) {ts us : List Token} (x : Except SourceError (Remaining ts))
    (y : Except SourceError (Remaining us)) : Prop :=
  ∀ ⦃left⦄, x = .ok left → f.Unread left.1 → ∃ rest le, f.Splits left.1 rest ∧ y = .ok ⟨rest, le⟩

namespace Splits

variable {ts us : List Token}

theorem exists_append (h : f.Splits ts us) :
    ∃ front, ts = front ++ f.semi :: f.first ∧ us = front ++ f.semi :: f.second := by
  induction h with
  | semi => exact ⟨[], rfl, rfl⟩
  | cons t _ ih =>
      obtain ⟨front, rfl, rfl⟩ := ih
      exact ⟨t :: front, rfl, rfl⟩

theorem append (f : Fork) (front : List Token) :
    f.Splits (front ++ f.semi :: f.first) (front ++ f.semi :: f.second) := by
  induction front with
  | nil => exact .semi
  | cons t front ih => exact .cons t ih

theorem nextKind_eq (h : f.Splits ts us) : nextKind us = nextKind ts := by
  cases h <;> rfl

theorem ne_nil (h : f.Splits ts us) : ts ≠ [] := by
  cases h <;> nofun

theorem head?_eq (h : f.Splits ts us) : us.head? = ts.head? := by
  cases h <;> rfl

/-- The next token is the same, also if it is the semicolon. -/
theorem head {t : Token} (h : f.Splits (t :: ts) us) : ∃ us', us = t :: us' := by
  cases h with
  | semi => exact ⟨f.second, rfl⟩
  | cons _ h => exact ⟨_, rfl⟩

/-- Another token than a semicolon stands in front of the semicolon. -/
theorem tail_of_kind {t : Token} (h : f.Splits (t :: ts) us) (ht : t.kind.isSemi = false) :
    ∃ us', us = t :: us' ∧ f.Splits ts us' := by
  cases h with
  | semi =>
      rw [f.isSemi] at ht
      cases ht
  | cons _ h => exact ⟨_, rfl, h⟩

/-- A token that was read stands in front of the semicolon. -/
theorem tail {t : Token} {rest : List Token} (h : f.Splits (t :: ts) us)
    (hrest : rest.length ≤ ts.length) (hunread : f.Unread rest) :
    ∃ us', us = t :: us' ∧ f.Splits ts us' := by
  cases h with
  | semi => exact absurd hunread (Nat.not_lt.mpr hrest)
  | cons _ h => exact ⟨_, rfl, h⟩

theorem exists_cons {rest : List Token} (h : f.Splits ts us) (hrest : rest.length < ts.length)
    (hunread : f.Unread rest) : ∃ t r r', ts = t :: r ∧ us = t :: r' ∧ f.Splits r r' := by
  obtain ⟨t, r, rfl⟩ := List.exists_cons_of_ne_nil h.ne_nil
  obtain ⟨r', rfl, hr⟩ := h.tail (Nat.le_of_lt_succ hrest) hunread
  exact ⟨t, r, r', rfl, rfl, hr⟩

/-- What was read in front of the same rest is the same. -/
theorem take_eq (h : f.Splits ts us) {rest rest' : List Token} (hrest : f.Splits rest rest') :
    us.take (us.length - rest'.length) = ts.take (ts.length - rest.length) := by
  obtain ⟨front, rfl, rfl⟩ := h.exists_append
  obtain ⟨back, rfl, rfl⟩ := hrest.exists_append
  have hfirst : (front ++ f.semi :: f.first).length - (back ++ f.semi :: f.first).length =
      front.length - back.length := by
    rw [List.length_append, List.length_append, Nat.add_sub_add_right]
  have hsecond : (front ++ f.semi :: f.second).length - (back ++ f.semi :: f.second).length =
      front.length - back.length := by
    rw [List.length_append, List.length_append, Nat.add_sub_add_right]
  rw [hfirst, hsecond, List.take_append_of_le_length (Nat.sub_le _ _),
    List.take_append_of_le_length (Nat.sub_le _ _)]

/-- Semicolons in front of a token that is read before the fork are dropped in both. -/
theorem dropSemis_eq (h : f.Splits ts us) {t : Token} {r : List Token}
    (hdrop : dropSemis ts = t :: r) (hunread : f.Unread r) :
    ∃ r', dropSemis us = t :: r' ∧ f.Splits r r' := by
  induction h with
  | semi =>
      have hle : (t :: r).length ≤ f.first.length := by
        rw [← hdrop, dropSemis, List.dropWhile_cons_of_pos (by exact f.isSemi)]
        exact length_dropSemis_le f.first
      exact absurd hunread (Nat.not_lt.mpr (Nat.le_of_succ_le hle))
  | @cons u ts us h ih =>
      by_cases hsemi : u.kind.isSemi = true
      · rw [dropSemis, List.dropWhile_cons_of_pos (by exact hsemi)] at hdrop ⊢
        exact ih hdrop
      · rw [dropSemis, List.dropWhile_cons_of_neg (by exact hsemi)] at hdrop ⊢
        obtain ⟨rfl, rfl⟩ := List.cons.inj hdrop
        exact ⟨us, rfl, h⟩

end Splits

/-! Small readers. -/

section Small

variable {ts us : List Token}

theorem expectOp_agrees (symbol : String) (h : f.Splits ts us) :
    f.Agrees (expectOp symbol ts) (expectOp symbol us) := by
  intro one hone hunread
  obtain ⟨t, r, r', rfl, rfl, hr⟩ := h.exists_cons one.lt hunread
  unfold expectOp at hone ⊢
  dsimp only at hone ⊢
  split at hone
  · rename_i ht
    cases hone
    exact ⟨r', Nat.lt_succ_self _, hr, if_pos ht⟩
  · cases hone

theorem expectIdent_agrees (what : String) (h : f.Splits ts us) :
    f.Agrees (expectIdent what ts) (expectIdent what us) := by
  intro one hone hunread
  obtain ⟨t, r, r', rfl, rfl, hr⟩ := h.exists_cons one.lt hunread
  unfold expectIdent at hone ⊢
  dsimp only at hone ⊢
  split at hone
  · rename_i name ht
    cases hone
    exact ⟨r', Nat.lt_succ_self _, hr, rfl⟩
  · cases hone

theorem identList_agrees (what : String) (h : f.Splits ts us) :
    f.Agrees (identList what ts) (identList what us) := by
  intro one hone hunread
  induction ts using identList.induct generalizing us with
  | case1 => cases hone
  | case2 t name ht =>
      rw [identList] at hone
      simp only [ht] at hone
      cases hone
      exact absurd hunread (Nat.not_lt_zero _)
  | case3 t name ht u rest hcomma ih =>
      rw [identList] at hone
      simp only [ht, if_pos hcomma] at hone
      obtain ⟨more, hmore, hone⟩ := bind_eq_ok.mp hone
      cases hone
      have hlt := more.lt
      obtain ⟨_, rfl, hr⟩ := h.tail (Nat.le_succ_of_le (Nat.le_of_lt hlt)) hunread
      obtain ⟨_, rfl, hrest⟩ := hr.tail (Nat.le_of_lt hlt) hunread
      obtain ⟨left, lt, hleft, hmore'⟩ := ih hrest hmore hunread
      refine ⟨left, Nat.lt_succ_of_lt (Nat.lt_succ_of_lt lt), hleft, ?_⟩
      rw [identList]
      simp only [ht, if_pos hcomma, hmore']
      rfl
  | case4 t name ht u rest hcomma =>
      rw [identList] at hone
      simp only [ht, if_neg hcomma] at hone
      cases hone
      obtain ⟨r', rfl, hr⟩ := h.tail (Nat.le_refl _) hunread
      obtain ⟨rest', rfl⟩ := hr.head
      refine ⟨u :: rest', Nat.lt_succ_self _, hr, ?_⟩
      rw [identList]
      simp only [ht, if_neg hcomma]
  | case5 t r hkind =>
      rw [identList] at hone
      split at hone
      · rename_i name ht
        exact absurd ht (hkind name)
      · cases hone

theorem closing?_splits (h : f.Splits ts us) {depth : Nat} {t : Token} {r : List Token}
    (hclosing : closing? depth ts = some (t, r)) (hunread : f.Unread r) :
    ∃ r', closing? depth us = some (t, r') ∧ f.Splits r r' := by
  induction h generalizing depth with
  | semi =>
      have hlt := length_closing?_lt hclosing
      exact absurd hunread (Nat.not_lt.mpr (Nat.le_of_lt_succ hlt))
  | @cons u ts us h ih =>
      unfold closing? at hclosing ⊢
      split at hclosing
      · rename_i hopens
        rw [if_pos hopens]
        exact ih hclosing
      rename_i hopens
      rw [if_neg hopens]
      split at hclosing
      · rename_i hcloses
        rw [if_pos hcloses]
        cases depth with
        | zero =>
            cases hclosing
            exact ⟨us, rfl, h⟩
        | succ inner => exact ih hclosing
      rename_i hcloses
      rw [if_neg hcloses]
      split at hclosing
      · cases hclosing
      · rename_i heof
        rw [if_neg heof]
        exact ih hclosing

theorem skipClosed_agrees (opening : Token) (h : f.Splits ts us) :
    f.Agrees (skipClosed opening ts) (skipClosed opening us) := by
  intro one hone hunread
  unfold skipClosed at hone
  split at hone
  · rename_i t r hclosing
    cases hone
    obtain ⟨r', hclosing', hr⟩ := closing?_splits h hclosing hunread
    obtain ⟨lt, hone'⟩ := skipClosed_of_closing? opening hclosing'
    exact ⟨r', lt, hr, hone'⟩
  · cases hone

theorem skipUntil_alike (halts : TokenKind → Bool) (h : f.Splits ts us) :
    f.SkipsAlike (skipUntil halts ts) (skipUntil halts us) := by
  intro left hleft hunread
  induction ts using skipUntil.induct halts generalizing us with
  | case1 => exact absurd rfl h.ne_nil
  | case2 t r hopens ih =>
      rw [skipUntil, if_pos hopens] at hleft
      obtain ⟨inside, hinside, hleft⟩ := bind_eq_ok.mp hleft
      obtain ⟨more, hmore, hleft⟩ := bind_eq_ok.mp hleft
      cases hleft
      have hlt := inside.lt
      have hle := more.2
      have hkept : f.Unread inside.rest := Nat.lt_of_lt_of_le hunread hle
      obtain ⟨r', rfl, hr⟩ := h.tail (Nat.le_of_lt hlt) hkept
      obtain ⟨after, lt, hafter, hinside'⟩ := skipClosed_agrees t hr hinside hkept
      obtain ⟨rest, le, hrest, hmore'⟩ := ih inside hafter hmore hunread
      refine ⟨rest, Nat.le_succ_of_le (Nat.le_trans le (Nat.le_of_lt lt)), hrest, ?_⟩
      rw [skipUntil, if_pos hopens, hinside', ok_bind, hmore']
      rfl
  | case3 t r hopens hhalts =>
      rw [skipUntil, if_neg hopens, if_pos hhalts] at hleft
      cases hleft
      obtain ⟨r', rfl⟩ := h.head
      refine ⟨t :: r', Nat.le_refl _, h, ?_⟩
      rw [skipUntil, if_neg hopens, if_pos hhalts]
      rfl
  | case4 t r hopens hhalts ih =>
      rw [skipUntil, if_neg hopens, if_neg hhalts] at hleft
      obtain ⟨more, hmore, hleft⟩ := bind_eq_ok.mp hleft
      cases hleft
      obtain ⟨r', rfl, hr⟩ := h.tail more.2 hunread
      obtain ⟨rest, le, hrest, hmore'⟩ := ih hr hmore hunread
      refine ⟨rest, Nat.le_succ_of_le le, hrest, ?_⟩
      rw [skipUntil, if_neg hopens, if_neg hhalts, hmore']
      rfl

end Small

end Fork

end FieldRules
