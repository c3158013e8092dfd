/-
The small readers are safe: single tokens, names, and parts that are skipped.  Each leaves the
end of the file ahead, or gives an error that names a slice of the text.
-/
import FieldRules.Proofs.Source.Cursor

namespace FieldRules

variable {α : Type} {cs : List Char} {src : SourceText} {ts : List Token}

/-- What was read has property `P`, and the reading reaches as far as it says. -/
def Takes (ts : List Token) (P : α → Prop) {n : Nat} (r : Reading α n) : Prop :=
  Reaches ts r.rest r.stop ∧ P r.value

theorem Takes.mono {P Q : α → Prop} {n : Nat} {r : Reading α n} (h : Takes ts P r)
    (himp : ∀ a, P a → Q a) : Takes ts Q r := ⟨h.1, himp _ h.2⟩

theorem Ahead.ident {t : Token} {name : String} (h : Ahead cs (t :: ts))
    (ht : t.kind = .ident name) : Ident.StandsIn cs ⟨name, t.span⟩ where
  cuts := h.head.cuts
  text := (h.head.written name (by rw [ht]; rfl)).symm
  isIdentifier := by
    have := h.head.lexical
    rwa [ht] at this

theorem expectOp_settles (symbol : String) (h : Ahead cs ts) :
    Settles cs (Takes ts fun t => t.StandsIn cs) (expectOp symbol ts) := by
  unfold expectOp
  split
  · exact absurd rfl h.ne_nil
  · rename_i t r
    split
    · rename_i ht
      exact ⟨.one (h.tail_ne_nil (ne_eof_of_op ht)), h.head⟩
    · exact h.locates_unexpected _

theorem expectIdent_settles (what : String) (h : Ahead cs ts) :
    Settles cs (Takes ts fun i => i.StandsIn cs ∧ ∃ t ∈ ts.head?, t.span = i.span)
      (expectIdent what ts) := by
  unfold expectIdent
  split
  · exact absurd rfl h.ne_nil
  · rename_i t r
    split
    · rename_i name ht
      exact ⟨.one (h.tail_ne_nil (ne_eof_of_ident ht)), h.ident ht, t, rfl, rfl⟩
    · exact h.locates_unexpected _

theorem identList_settles (what : String) (h : Ahead cs ts) :
    Settles cs (Takes ts fun names => ∀ i ∈ names, i.StandsIn cs) (identList what ts) := by
  induction ts using identList.induct with
  | case1 => exact absurd rfl h.ne_nil
  | case2 t name ht =>
      have := h.tail_ne_nil (ne_eof_of_ident ht)
      exact absurd rfl this
  | case3 t name ht u rest hcomma ih =>
      have hnames := h.tail (ne_eof_of_ident ht)
      have hmore := hnames.tail (ne_eof_of_op hcomma)
      rw [identList]
      simp only [ht, if_pos hcomma]
      refine (ih hmore).bind ?_
      rintro more ⟨hreaches, hall⟩
      exact ⟨(hreaches.cons u).cons t, List.forall_mem_cons.mpr ⟨h.ident ht, hall⟩⟩
  | case4 t name ht u rest hcomma =>
      rw [identList]
      simp only [ht, if_neg hcomma]
      exact ⟨.one (by simp), List.forall_mem_singleton.mpr (h.ident ht)⟩
  | case5 t r hkind =>
      rw [identList]
      split
      · rename_i name ht
        exact absurd ht (hkind name)
      · exact h.locates_unexpected _

/-! Skipping. -/

/-- What closes a part is reached before the end of the file. -/
theorem reaches_of_closing? {depth : Nat} {t : Token} {r : List Token} (h : Ahead cs ts)
    (hclosing : closing? depth ts = some (t, r)) : Reaches ts r t.span.stop := by
  induction ts generalizing depth with
  | nil => cases hclosing
  | cons u us ih =>
      unfold closing? at hclosing
      split at hclosing
      · rename_i hopens
        exact (ih (h.tail (ne_eof_of_opens hopens)) hclosing).cons u
      split at hclosing
      · rename_i hcloses
        split at hclosing
        · cases hclosing
          exact .one (h.tail_ne_nil (ne_eof_of_closes hcloses))
        · exact (ih (h.tail (ne_eof_of_closes hcloses)) hclosing).cons u
      split at hclosing
      · cases hclosing
      · rename_i heof
        exact (ih (h.tail heof) hclosing).cons u

theorem skipClosed_settles {opening : Token} (hopening : opening.StandsIn cs) (h : Ahead cs ts) :
    Settles cs (Takes ts fun _ => True) (skipClosed opening ts) := by
  unfold skipClosed
  split
  · rename_i t r hclosing
    exact ⟨reaches_of_closing? h hclosing, trivial⟩
  · exact ⟨opening.span, _, rfl, hopening.cuts⟩

/-- A delimited part is skipped from its first token on. -/
theorem skipClosed_opens {t : Token} (h : Ahead cs (t :: ts)) (hopens : t.kind.opens = true) :
    Settles cs (Takes ts fun _ => True) (skipClosed t ts) :=
  skipClosed_settles h.head (h.tail (ne_eof_of_opens hopens))

theorem skipUntil_settles (halts : TokenKind → Bool) (h : Ahead cs ts) :
    Settles cs (fun left => Passes ts left.1) (skipUntil halts ts) := by
  induction ts using skipUntil.induct halts with
  | case1 => exact absurd rfl h.ne_nil
  | case2 t r hopens ih =>
      rw [skipUntil, if_pos hopens]
      refine (skipClosed_opens h hopens).bind ?_
      rintro inside ⟨hreaches, -⟩
      have hrest := h.reaches (hreaches.cons t)
      refine (ih inside hrest).bind ?_
      intro left hleft
      exact (hreaches.cons t).passes.trans hleft
  | case3 t r hopens hhalts =>
      rw [skipUntil, if_neg hopens, if_pos hhalts]
      exact .refl h.ne_nil
  | case4 t r hopens hhalts ih =>
      rw [skipUntil, if_neg hopens, if_neg hhalts]
      have heof : t.kind ≠ .eof := by
        intro heof
        simp [heof] at hhalts
      refine (ih (h.tail heof)).bind ?_
      intro left hleft
      exact hleft.cons t

theorem skipDeclaration_settles (h : Ahead cs ts) :
    Settles cs (fun left => Passes ts left.1) (skipDeclaration ts) := by
  unfold skipDeclaration
  split
  · exact absurd rfl h.ne_nil
  · rename_i t r
    split
    · rename_i ht
      have hopens : t.kind.opens = true := by
        rw [ht]
        decide
      refine (skipClosed_opens h hopens).bind ?_
      rintro inside ⟨hreaches, -⟩
      exact (hreaches.cons t).passes
    · exact skipUntil_settles _ h

theorem skipFunction_settles (typeWord : Bool) (h : Ahead cs ts) :
    Settles cs (fun left => Passes ts left.1) (skipFunction typeWord ts) := by
  induction typeWord, ts using skipFunction.induct with
  | case1 => exact absurd rfl h.ne_nil
  | case2 typeWord t r hbody =>
      have hopens : t.kind.opens = true := by
        simp only [Bool.and_eq_true, decide_eq_true_eq] at hbody
        rw [hbody.1]
        decide
      rw [skipFunction, if_pos hbody]
      refine (skipClosed_opens h hopens).bind ?_
      rintro body ⟨hreaches, -⟩
      exact (hreaches.cons t).passes
  | case3 typeWord t r hbody hopens ih =>
      rw [skipFunction, if_neg hbody, if_pos hopens]
      refine (skipClosed_opens h hopens).bind ?_
      rintro inside ⟨hreaches, -⟩
      have hrest := h.reaches (hreaches.cons t)
      refine (ih inside hrest).bind ?_
      rintro ⟨left, hle⟩ hleft
      exact (hreaches.cons t).passes.trans hleft
  | case4 typeWord t r hbody hopens hend =>
      rw [skipFunction, if_neg hbody, if_neg hopens, if_pos hend]
      exact .refl h.ne_nil
  | case5 typeWord t r hbody hopens hend ih =>
      rw [skipFunction, if_neg hbody, if_neg hopens, if_neg hend]
      have heof : t.kind ≠ .eof := by
        intro heof
        simp [heof] at hend
      refine (ih (h.tail heof)).bind ?_
      rintro ⟨left, hle⟩ hleft
      exact hleft.cons t

theorem skipTypeParams_settles (h : Ahead cs ts) :
    Settles cs (fun found => Passes ts found.2.1) (skipTypeParams ts) := by
  unfold skipTypeParams
  split
  · exact absurd rfl h.ne_nil
  · rename_i t r
    split
    · rename_i ht
      have hopens : t.kind.opens = true := by
        simp only [Bool.and_eq_true, decide_eq_true_eq] at ht
        rw [ht.1]
        decide
      refine (skipClosed_opens h hopens).bind ?_
      rintro inside ⟨hreaches, -⟩
      exact (hreaches.cons t).passes
    · exact .refl h.ne_nil

end FieldRules
