/-
The loops of the parser, one turn at a time: what each does about the first token that is
no semicolon, and how it goes on after what it has read.
-/
import FieldRules.Source.Parser
import FieldRules.Proofs.Outcome

namespace FieldRules

variable {src : SourceText} {ts r : List Token} {t : Token}

/-- A semicolon or the closing delimiter follows. -/
def EndsTurn (closing : String) (left : List Token) : Prop :=
  ((nextKind left).isSemi || nextKind left = .op closing) = true

theorem length_le_of_dropSemis (h : dropSemis ts = t :: r) : (t :: r).length ≤ ts.length :=
  h ▸ length_dropSemis_le ts

theorem skipClosed_of_closing? (opening : Token) (h : closing? 0 ts = some (t, r)) :
    ∃ lt, skipClosed opening ts = .ok ⟨(), r, t.span.stop, lt⟩ := by
  refine ⟨length_closing?_lt h, ?_⟩
  unfold skipClosed
  split
  · rename_i u v hfound
    obtain ⟨rfl, rfl⟩ := Prod.mk.inj (Option.some.inj (hfound.symm.trans h))
    rfl
  · rename_i hnone
    cases hnone.symm.trans h

/-! The fields of a struct. -/

theorem structFields_close (h : dropSemis ts = t :: r) (ht : t.kind = .op "\x7d") :
    ∃ lt, structFields src ts = .ok ⟨[], r, t.span.stop, lt⟩ := by
  refine ⟨length_le_of_dropSemis h, ?_⟩
  rw [structFields.eq_def]
  split
  · rename_i hnil
    rw [hnil] at h
    cases h
  · rename_i u v hcons
    obtain ⟨rfl, rfl⟩ := List.cons.inj (hcons.symm.trans h)
    simp only [ht, if_true]

theorem structFields_field (h : dropSemis ts = t :: r) (ht : t.kind ≠ .op "\x7d")
    {field : Reading FieldLine (t :: r).length} (hfield : fieldLine src (t :: r) = .ok field)
    (hends : EndsTurn "\x7d" field.rest) {more : Reading (List FieldLine) field.rest.length}
    (hmore : structFields src field.rest = .ok more) :
    ∃ lt, structFields src ts = .ok ⟨field.value :: more.value, more.rest, more.stop, lt⟩ := by
  refine ⟨Nat.lt_trans more.lt (Nat.lt_of_lt_of_le field.lt (length_le_of_dropSemis h)), ?_⟩
  rw [structFields.eq_def]
  split
  · rename_i hnil
    rw [hnil] at h
    cases h
  · rename_i u v hcons
    obtain ⟨rfl, rfl⟩ := List.cons.inj (hcons.symm.trans h)
    unfold EndsTurn at hends
    simp only [if_neg ht, hfield, ok_bind, if_pos hends, hmore]
    rfl

theorem structFields_error (h : dropSemis ts = t :: r) (ht : t.kind ≠ .op "\x7d") {e : SourceError}
    (hfield : fieldLine src (t :: r) = .error e) : structFields src ts = .error e := by
  rw [structFields.eq_def]
  split
  · rename_i hnil
    rw [hnil] at h
    cases h
  · rename_i u v hcons
    obtain ⟨rfl, rfl⟩ := List.cons.inj (hcons.symm.trans h)
    simp only [if_neg ht, hfield, error_bind]

theorem structFields_more_error (h : dropSemis ts = t :: r) (ht : t.kind ≠ .op "\x7d")
    {field : Reading FieldLine (t :: r).length} (hfield : fieldLine src (t :: r) = .ok field)
    (hends : EndsTurn "\x7d" field.rest) {e : SourceError}
    (hmore : structFields src field.rest = .error e) : structFields src ts = .error e := by
  rw [structFields.eq_def]
  split
  · rename_i hnil
    rw [hnil] at h
    cases h
  · rename_i u v hcons
    obtain ⟨rfl, rfl⟩ := List.cons.inj (hcons.symm.trans h)
    unfold EndsTurn at hends
    simp only [if_neg ht, hfield, ok_bind, if_pos hends, hmore, error_bind]

/-! The specs of a group. -/

section Group

variable {α : Type} {spec : Nat → (ts : List Token) → Except SourceError (Reading α ts.length)}
  {index : Nat}

theorem specGroup_close (h : dropSemis ts = t :: r) (ht : t.kind = .op ")") :
    ∃ lt, specGroup spec index ts = .ok ⟨[], r, t.span.stop, lt⟩ := by
  refine ⟨length_le_of_dropSemis h, ?_⟩
  rw [specGroup]
  split
  · rename_i hnil
    rw [hnil] at h
    cases h
  · rename_i u v hcons
    obtain ⟨rfl, rfl⟩ := List.cons.inj (hcons.symm.trans h)
    simp only [ht, if_true]

theorem specGroup_spec (h : dropSemis ts = t :: r) (ht : t.kind ≠ .op ")")
    {one : Reading α (t :: r).length} (hone : spec index (t :: r) = .ok one)
    (hends : EndsTurn ")" one.rest) {more : Reading (List α) one.rest.length}
    (hmore : specGroup spec (index + 1) one.rest = .ok more) :
    ∃ lt, specGroup spec index ts = .ok ⟨one.value :: more.value, more.rest, more.stop, lt⟩ := by
  refine ⟨Nat.lt_trans more.lt (Nat.lt_of_lt_of_le one.lt (length_le_of_dropSemis h)), ?_⟩
  rw [specGroup]
  split
  · rename_i hnil
    rw [hnil] at h
    cases h
  · rename_i u v hcons
    obtain ⟨rfl, rfl⟩ := List.cons.inj (hcons.symm.trans h)
    unfold EndsTurn at hends
    simp only [if_neg ht, hone, ok_bind, if_pos hends, hmore]
    rfl

end Group

/-! The declarations of a file. -/

theorem declarations_eof (h : dropSemis ts = t :: r) (ht : t.kind = .eof) :
    declarations src ts = .ok [] := by
  rw [declarations]
  split
  · rfl
  · rename_i u v hcons
    obtain ⟨rfl, rfl⟩ := List.cons.inj (hcons.symm.trans h)
    simp only [ht]

section Declarations

variable {more : List Decl}

theorem declarations_type (h : dropSemis ts = t :: r) (ht : t.kind = .ident "type")
    {all : Reading (Bool × List TypeSpec) r.length}
    (hall : specs (fun _ => typeSpec src) r = .ok all)
    (hmore : declarations src all.rest = .ok more) :
    declarations src ts = .ok (.type ⟨src.docOf t, all.value.1, all.value.2⟩ :: more) := by
  rw [declarations]
  split
  · rename_i hnil
    rw [hnil] at h
    cases h
  · rename_i u v hcons
    obtain ⟨rfl, rfl⟩ := List.cons.inj (hcons.symm.trans h)
    simp [ht, hall, hmore]

theorem declarations_const (h : dropSemis ts = t :: r) (ht : t.kind = .ident "const")
    {all : Reading (Bool × List ConstSpec) r.length}
    (hall : specs (constSpec src) r = .ok all)
    (hmore : declarations src all.rest = .ok more) :
    declarations src ts = .ok (.const ⟨src.docOf t, all.value.1, all.value.2⟩ :: more) := by
  rw [declarations]
  split
  · rename_i hnil
    rw [hnil] at h
    cases h
  · rename_i u v hcons
    obtain ⟨rfl, rfl⟩ := List.cons.inj (hcons.symm.trans h)
    simp [ht, hall, hmore]

end Declarations

end FieldRules
