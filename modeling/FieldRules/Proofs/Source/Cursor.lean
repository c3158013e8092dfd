/-
Where a reader stands: never past the token that ends the file.  What it has read reaches from
one token to another, so every slice it takes is one of the text.
-/
import FieldRules.Proofs.Source.Faults
import FieldRules.Proofs.Source.Trees
import FieldRules.Source.Parser

namespace FieldRules

variable {cs : List Char} {ts rest : List Token} {t : Token} {stop : Nat}

/-- Tokens of the text in order, and only the last ends the file. -/
structure Ahead (cs : List Char) (ts : List Token) : Prop where
  stands : ∀ t ∈ ts, t.StandsIn cs
  ordered : ts.Pairwise fun a b => a.span.Before b.span
  ne_nil : ts ≠ []
  eof : ∀ t r, t :: r <:+ ts → (t.kind = .eof ↔ r = [])

/-- Going on from `ts` a reader stands at `rest`, and the end of the file is still ahead. -/
def Passes (ts rest : List Token) : Prop := rest <:+ ts ∧ rest ≠ []

/-- Going on from `ts` a reader has used tokens, the last of which ends at `stop`, and stands at
`rest`, with the end of the file still ahead. -/
def Reaches (ts rest : List Token) (stop : Nat) : Prop :=
  ∃ front last, ts = front ++ last :: rest ∧ stop = last.span.stop ∧ rest ≠ []

theorem TokenStream.Covers.ahead {s : TokenStream} (h : s.Covers cs) : Ahead cs s.tokens := by
  obtain ⟨front, eof, htokens, hfront, hkind, -⟩ := h.eof
  refine ⟨h.tokens, h.tokensOrdered, by simp [htokens], ?_⟩
  rintro t r ⟨used, hused⟩
  rw [htokens] at hused
  rcases List.eq_nil_or_concat r with rfl | ⟨init, last, rfl⟩
  · obtain ⟨-, ht⟩ := List.append_inj' hused rfl
    cases ht
    simpa using hkind
  · rw [List.concat_eq_append, ← List.cons_append, ← List.append_assoc] at hused
    obtain ⟨hinit, -⟩ := List.append_inj' hused rfl
    have ht : t.kind ≠ .eof := hfront t (by simp [← hinit])
    simp [ht]

theorem Passes.refl (h : ts ≠ []) : Passes ts ts := ⟨List.suffix_refl ts, h⟩

theorem Passes.trans {more : List Token} (h : Passes ts rest) (hmore : Passes rest more) :
    Passes ts more := ⟨hmore.1.trans h.1, hmore.2⟩

theorem Passes.cons (h : Passes ts rest) (t : Token) : Passes (t :: ts) rest :=
  ⟨h.1.trans (List.suffix_cons t ts), h.2⟩

theorem Reaches.passes (h : Reaches ts rest stop) : Passes ts rest := by
  obtain ⟨front, last, rfl, -, hrest⟩ := h
  exact ⟨(List.suffix_cons last rest).trans (List.suffix_append front _), hrest⟩

theorem Reaches.one (h : ts ≠ []) : Reaches (t :: ts) ts t.span.stop := ⟨[], t, rfl, rfl, h⟩

theorem Passes.reaches {more : List Token} (h : Passes ts rest) (hmore : Reaches rest more stop) :
    Reaches ts more stop := by
  obtain ⟨⟨used, rfl⟩, -⟩ := h
  obtain ⟨front, last, rfl, hstop⟩ := hmore
  exact ⟨used ++ front, last, (List.append_assoc _ _ _).symm, hstop⟩

theorem Reaches.cons (h : Reaches ts rest stop) (t : Token) : Reaches (t :: ts) rest stop :=
  Passes.reaches ⟨List.suffix_cons t ts, by
    obtain ⟨front, last, rfl, -⟩ := h
    simp⟩ h

theorem Reaches.trans {more : List Token} {stop' : Nat} (h : Reaches ts rest stop)
    (hmore : Reaches rest more stop') : Reaches ts more stop' := h.passes.reaches hmore

theorem Passes.reaches_last (h : Passes ts rest)
    (hlast : (ts.take (ts.length - rest.length)).getLast? = some t) :
    Reaches ts rest t.span.stop := by
  obtain ⟨⟨front, rfl⟩, hrest⟩ := h
  rw [List.length_append, Nat.add_sub_cancel, List.take_left] at hlast
  obtain ⟨init, rfl⟩ := List.getLast?_eq_some_iff.mp hlast
  exact ⟨init, t, by simp, rfl, hrest⟩

/-- What was passed has a last token, unless nothing was passed. -/
theorem Passes.exists_last (h : Passes ts rest) (hne : rest ≠ ts) :
    ∃ last, (ts.take (ts.length - rest.length)).getLast? = some last := by
  obtain ⟨⟨front, rfl⟩, -⟩ := h
  rw [List.length_append, Nat.add_sub_cancel, List.take_left]
  refine ⟨_, List.getLast?_eq_some_getLast ?_⟩
  rintro rfl
  exact hne rfl

theorem ne_eof_of_isSemi (h : t.kind.isSemi = true) : t.kind ≠ .eof := by
  intro heof
  rw [heof] at h
  cases h

theorem ne_eof_of_op {symbol : String} (h : t.kind = .op symbol) : t.kind ≠ .eof := by simp [h]

theorem ne_eof_of_ident {name : String} (h : t.kind = .ident name) : t.kind ≠ .eof := by simp [h]

theorem ne_eof_of_literal {kind : LiteralKind} {spelling : String}
    (h : t.kind = .literal kind spelling) : t.kind ≠ .eof := by simp [h]

theorem ne_eof_of_opens (h : t.kind.opens = true) : t.kind ≠ .eof := by
  intro heof
  rw [heof] at h
  cases h

theorem ne_eof_of_closes (h : t.kind.closes = true) : t.kind ≠ .eof := by
  intro heof
  rw [heof] at h
  cases h

namespace Ahead

theorem passes (h : Ahead cs ts) (hrest : Passes ts rest) : Ahead cs rest where
  stands t ht := h.stands t (hrest.1.subset ht)
  ordered := h.ordered.sublist hrest.1.sublist
  ne_nil := hrest.2
  eof t r hr := h.eof t r (hr.trans hrest.1)

/-- A token that does not end the file has one after it. -/
theorem tail_ne_nil (h : Ahead cs (t :: ts)) (ht : t.kind ≠ .eof) : ts ≠ [] := fun hnil =>
  ht ((h.eof t ts (List.suffix_refl _)).mpr hnil)

theorem passes_tail (h : Ahead cs (t :: ts)) (ht : t.kind ≠ .eof) : Passes (t :: ts) ts :=
  ⟨List.suffix_cons t ts, h.tail_ne_nil ht⟩

theorem tail (h : Ahead cs (t :: ts)) (ht : t.kind ≠ .eof) : Ahead cs ts :=
  h.passes (h.passes_tail ht)

theorem reaches (h : Ahead cs ts) (hrest : Reaches ts rest stop) : Ahead cs rest :=
  h.passes hrest.passes

theorem head (h : Ahead cs (t :: ts)) : t.StandsIn cs := h.stands t List.mem_cons_self

/-- What was read, from the first token on, is a slice of the text. -/
theorem cuts (h : Ahead cs (t :: ts)) (hrest : Reaches (t :: ts) rest stop) :
    Span.Cuts ⟨t.span.start, stop⟩ cs := by
  obtain ⟨front, last, htokens, rfl, -⟩ := hrest
  have hlast : last ∈ t :: ts := by simp [htokens]
  refine h.head.cuts.through (h.stands last hlast).cuts ?_
  cases front with
  | nil =>
      cases htokens
      exact h.head.cuts.ordered
  | cons u us =>
      obtain ⟨rfl, rfl⟩ := List.cons.inj htokens
      have hbefore := (List.pairwise_cons.mp h.ordered).1 last (by simp)
      exact h.head.cuts.ordered.trans (Nat.le_trans hbefore (h.stands last hlast).cuts.ordered)

/-- From one token to itself or a later one there is one slice. -/
theorem cover_cuts {u : Token} (h : Ahead cs (t :: ts)) (hu : u ∈ t :: ts) :
    (t.span.cover u.span).Cuts cs := by
  have hfirst := h.head.cuts
  have hlast := (h.stands u hu).cuts
  rcases List.mem_cons.mp hu with rfl | hlater
  · rwa [Span.cover, Nat.min_self, Nat.max_self]
  · have hbefore : t.span.stop ≤ u.span.start := (List.pairwise_cons.mp h.ordered).1 u hlater
    have hle := hfirst.ordered.trans hbefore
    rw [Span.cover, Nat.min_eq_left hle, Nat.max_eq_right (hbefore.trans hlast.ordered)]
    exact hfirst.through hlast (hle.trans hlast.ordered)

theorem locates_unexpected (h : Ahead cs ts) (expected : String) :
    (unexpected expected ts).Locates cs := by
  cases ts with
  | nil => exact absurd rfl h.ne_nil
  | cons t ts => exact ⟨t.span, _, rfl, h.head.cuts⟩

theorem passes_dropSemis (h : Ahead cs ts) : Passes ts (dropSemis ts) := by
  induction ts with
  | nil => exact absurd rfl h.ne_nil
  | cons t ts ih =>
      by_cases hsemi : t.kind.isSemi = true
      · rw [dropSemis, List.dropWhile_cons_of_pos (by exact hsemi)]
        exact (ih (h.tail (ne_eof_of_isSemi hsemi))).cons t
      · rw [dropSemis, List.dropWhile_cons_of_neg (by exact hsemi)]
        exact .refl h.ne_nil

end Ahead

end FieldRules
