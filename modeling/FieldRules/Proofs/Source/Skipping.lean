/-
Declarations that are skipped, by the depth of their delimiters.  Whatever follows them is left as
it stands.
-/
import FieldRules.Proofs.Source.Balanced
import FieldRules.Proofs.Source.Fork

namespace FieldRules

/-! Depth. -/

/-- How many delimiters are open after these tokens, if `depth` are open before them.  There is no
answer if one is closed that is not open, or if the file ends among the tokens.  Delimiters are
told apart only as opening and closing. -/
def depthAfter? (depth : Nat) : List Token → Option Nat
  | [] => some depth
  | t :: r =>
      if t.kind.opens then depthAfter? (depth + 1) r
      else if t.kind.closes then
        match depth with
        | 0 => none
        | inner + 1 => depthAfter? inner r
      else if t.kind = .eof then none
      else depthAfter? depth r

/-- What is opened among these tokens is closed among them, and nothing else is. -/
def Level (ts : List Token) : Prop := depthAfter? 0 ts = some 0

instance : DecidablePred Level := fun _ => inferInstanceAs (Decidable (_ = _))

section Depth

variable {t closing : Token} {ts us inside rest : List Token} {depth inner : Nat}

theorem depthAfter?_opens (h : t.kind.opens = true) (depth : Nat) (ts : List Token) :
    depthAfter? depth (t :: ts) = depthAfter? (depth + 1) ts := by
  rw [depthAfter?.eq_def]
  simp [h]

theorem depthAfter?_closes (h : t.kind.closes = true) (depth : Nat) (ts : List Token) :
    depthAfter? (depth + 1) (t :: ts) = depthAfter? depth ts := by
  rw [depthAfter?.eq_def]
  simp [h, opens_eq_false_of_closes h]

theorem depthAfter?_pass (hopens : t.kind.opens = false) (hcloses : t.kind.closes = false)
    (heof : t.kind ≠ .eof) (depth : Nat) (ts : List Token) :
    depthAfter? depth (t :: ts) = depthAfter? depth ts := by
  rw [depthAfter?.eq_def]
  simp [hopens, hcloses, heof]

/-- A token at some depth opens, closes what is open, or changes nothing. -/
theorem depthAfter?_cases (h : depthAfter? depth (t :: ts) = some inner) :
    t.kind.opens = true ∨ (t.kind.closes = true ∧ ∃ outer, depth = outer + 1) ∨
      (t.kind.opens = false ∧ t.kind.closes = false ∧ t.kind ≠ .eof) := by
  cases hopens : t.kind.opens with
  | true => exact .inl rfl
  | false =>
      refine .inr ?_
      rw [depthAfter?.eq_def] at h
      simp only [hopens, Bool.false_eq_true, if_false] at h
      split at h
      · rename_i hcloses
        refine .inl ⟨hcloses, ?_⟩
        cases depth with
        | zero => cases h
        | succ outer => exact ⟨outer, rfl⟩
      split at h
      · cases h
      · rename_i hcloses heof
        exact .inr ⟨rfl, by simpa using hcloses, heof⟩

theorem depthAfter?_append (h : depthAfter? depth ts = some inner) (us : List Token) :
    depthAfter? depth (ts ++ us) = depthAfter? inner us := by
  induction ts generalizing depth with
  | nil =>
      cases h
      rfl
  | cons t ts ih =>
      rw [List.cons_append]
      rcases depthAfter?_cases h with hopens | ⟨hcloses, outer, rfl⟩ | ⟨hopens, hcloses, heof⟩
      · rw [depthAfter?_opens hopens] at h ⊢
        exact ih h
      · rw [depthAfter?_closes hcloses] at h ⊢
        exact ih h
      · rw [depthAfter?_pass hopens hcloses heof] at h ⊢
        exact ih h

/-- The closing delimiter is looked for with the same depth. -/
theorem closing?_append (h : depthAfter? depth ts = some inner) (us : List Token) :
    closing? depth (ts ++ us) = closing? inner us := by
  induction ts generalizing depth with
  | nil =>
      cases h
      rfl
  | cons t ts ih =>
      rw [List.cons_append]
      rcases depthAfter?_cases h with hopens | ⟨hcloses, outer, rfl⟩ | ⟨hopens, hcloses, heof⟩
      · rw [depthAfter?_opens hopens] at h
        rw [closing?_opens hopens, ih h]
      · rw [depthAfter?_closes hcloses] at h
        rw [closing?_closes hcloses, ih h]
      · rw [depthAfter?_pass hopens hcloses heof] at h
        rw [closing?_pass hopens hcloses heof, ih h]

/-- What is open is closed by the first delimiter that is too much. -/
theorem exists_closing (h : depthAfter? (depth + 1) ts = some 0) :
    ∃ inside closing rest, ts = inside ++ closing :: rest ∧ depthAfter? depth inside = some 0 ∧
      closing.kind.closes = true ∧ Level rest := by
  induction ts generalizing depth with
  | nil => cases h
  | cons t ts ih =>
      rcases depthAfter?_cases h with hopens | ⟨hcloses, -, -⟩ | ⟨hopens, hcloses, heof⟩
      · rw [depthAfter?_opens hopens] at h
        obtain ⟨inside, closing, rest, rfl, hinside, hclosing, hrest⟩ := ih h
        exact ⟨t :: inside, closing, rest, rfl, by rwa [depthAfter?_opens hopens], hclosing, hrest⟩
      · rw [depthAfter?_closes hcloses] at h
        cases depth with
        | zero => exact ⟨[], t, ts, rfl, rfl, hcloses, h⟩
        | succ depth =>
            obtain ⟨inside, closing, rest, rfl, hinside, hclosing, hrest⟩ := ih h
            exact ⟨t :: inside, closing, rest, rfl, by rwa [depthAfter?_closes hcloses], hclosing,
              hrest⟩
      · rw [depthAfter?_pass hopens hcloses heof] at h
        obtain ⟨inside, closing, rest, rfl, hinside, hclosing, hrest⟩ := ih h
        exact ⟨t :: inside, closing, rest, rfl, by rwa [depthAfter?_pass hopens hcloses heof],
          hclosing, hrest⟩

theorem Level.append (h : Level ts) (hmore : Level us) : Level (ts ++ us) := by
  rw [Level, depthAfter?_append h]
  exact hmore

theorem Level.of_append (h : Level ts) (hall : Level (ts ++ us)) : Level us := by
  rwa [Level, depthAfter?_append h] at hall

theorem depthAfter?_add (h : depthAfter? depth ts = some inner) (more : Nat) :
    depthAfter? (depth + more) ts = some (inner + more) := by
  induction ts generalizing depth with
  | nil =>
      cases h
      rfl
  | cons t ts ih =>
      rcases depthAfter?_cases h with hopens | ⟨hcloses, outer, rfl⟩ | ⟨hopens, hcloses, heof⟩
      · rw [depthAfter?_opens hopens] at h ⊢
        rw [Nat.add_right_comm]
        exact ih h
      · rw [depthAfter?_closes hcloses] at h
        rw [Nat.add_right_comm, depthAfter?_closes hcloses]
        exact ih h
      · rw [depthAfter?_pass hopens hcloses heof] at h ⊢
        exact ih h

theorem level_enclosed (hopens : t.kind.opens = true) (hinside : Level inside)
    (hcloses : closing.kind.closes = true) : Level (t :: (inside ++ [closing])) := by
  rw [Level, depthAfter?_opens hopens, depthAfter?_append (depthAfter?_add hinside 1)]
  exact depthAfter?_closes hcloses 0 []

/-- The first token of what is level opens a part of it, or stands alone. -/
theorem Level.cases_cons (h : Level (t :: ts)) :
    (t.kind.opens = true ∧ ∃ inside closing rest, ts = inside ++ closing :: rest ∧ Level inside ∧
      closing.kind.closes = true) ∨
    (t.kind.opens = false ∧ t.kind ≠ .eof ∧ Level [t]) := by
  rcases depthAfter?_cases h with hopens | ⟨-, _, hdepth⟩ | ⟨hopens, hcloses, heof⟩
  · rw [Level, depthAfter?_opens hopens] at h
    obtain ⟨inside, closing, rest, hts, hinside, hclosing, -⟩ := exists_closing h
    exact .inl ⟨hopens, inside, closing, rest, hts, hinside, hclosing⟩
  · cases hdepth
  · refine .inr ⟨hopens, heof, ?_⟩
    rw [Level, depthAfter?_pass hopens hcloses heof]
    rfl

theorem skipClosed_level (opening : Token) (hinside : Level inside)
    (hclosing : closing.kind.closes = true) (rest : List Token) :
    ∃ lt, skipClosed opening (inside ++ closing :: rest) =
      .ok ⟨(), rest, closing.span.stop, lt⟩ := by
  refine skipClosed_of_closing? opening ?_
  rw [closing?_append hinside]
  exact closing?_found hclosing

end Depth

/-! What stands on one line. -/

/-- Tokens that are level, with no semicolon outside of all delimiters. -/
structure Unbroken (ts : List Token) : Prop where
  level : Level ts
  noSemi : ∀ front t back, ts = front ++ t :: back → Level front → t.kind.isSemi = false

/-- Tokens of a list with those before them, by their places. -/
theorem forall_split_iff {ts : List Token} {P : List Token → Token → Prop} :
    (∀ front t back, ts = front ++ t :: back → P front t) ↔
      ∀ i, (h : i < ts.length) → P (ts.take i) ts[i] := by
  constructor
  · intro h i hi
    refine h (ts.take i) ts[i] (ts.drop (i + 1)) ?_
    rw [← List.drop_eq_getElem_cons hi, List.take_append_drop]
  · rintro h front t back rfl
    simpa using h front.length (by simp)

instance : DecidablePred Unbroken := fun ts =>
  decidable_of_iff
    (Level ts ∧ ∀ i, (h : i < ts.length) → Level (ts.take i) → ts[i].kind.isSemi = false)
    ⟨fun h => ⟨h.1, forall_split_iff.mpr h.2⟩, fun h => ⟨h.level, forall_split_iff.mp h.noSemi⟩⟩

theorem Unbroken.of_append (front : List Token) {ts : List Token} (h : Unbroken (front ++ ts))
    (hfront : Level front) : Unbroken ts where
  level := hfront.of_append h.level
  noSemi before t back hts hbefore := by
    refine h.noSemi (front ++ before) t back ?_ (hfront.append hbefore)
    rw [hts, List.append_assoc]

theorem closes_eq_false_of_level {t : Token} (hopens : t.kind.opens = false) (h : Level [t]) :
    t.kind.closes = false := by
  rcases depthAfter?_cases h with hopen | ⟨-, _, hdepth⟩ | ⟨-, hcloses, -⟩
  · rw [hopens] at hopen
    cases hopen
  · cases hdepth
  · exact hcloses

/-- What halts only at semicolons and at closing delimiters passes over unbroken tokens. -/
theorem skipUntil_of_unbroken {halts : TokenKind → Bool}
    (hpass : ∀ k : TokenKind, k.isSemi = false → k.closes = false → halts k = false)
    {last : Token} (hopens : last.kind.opens = false) (hlast : halts last.kind = true)
    (rest : List Token) : ∀ ts : List Token, Unbroken ts →
      ∃ le, skipUntil halts (ts ++ last :: rest) = .ok ⟨last :: rest, le⟩
  | [], _ => ⟨Nat.le_refl _, skipUntil_stop hopens hlast⟩
  | t :: r, h => by
      rcases h.level.cases_cons with ⟨hopening, inside, closing, more, rfl, hinside, hclosing⟩ |
        ⟨hother, heof, hone⟩
      · have hmore : Unbroken more := by
          refine .of_append (t :: (inside ++ [closing])) ?_ (level_enclosed hopening hinside hclosing)
          simpa using h
        obtain ⟨le, hskip⟩ := skipUntil_of_unbroken hpass hopens hlast rest more hmore
        obtain ⟨lt, hclosed⟩ := skipClosed_level t hinside hclosing (more ++ last :: rest)
        rw [List.cons_append, List.append_assoc, List.cons_append, skipUntil, if_pos hopening,
          hclosed, ok_bind, hskip]
        exact ⟨_, rfl⟩
      · have hr : Unbroken r := .of_append [t] h hone
        obtain ⟨le, hskip⟩ := skipUntil_of_unbroken hpass hopens hlast rest r hr
        have hsemi : t.kind.isSemi = false := h.noSemi [] t r rfl rfl
        have hcloses := closes_eq_false_of_level hother hone
        exact ⟨_, skipUntil_pass hother (hpass t.kind hsemi hcloses) heof hskip⟩
termination_by ts => ts.length

theorem skipUntil_unbroken {last : Token} (hlast : last.kind.isSemi = true) (rest ts : List Token)
    (h : Unbroken ts) :
    ∃ le, skipUntil endsDeclaration (ts ++ last :: rest) = .ok ⟨last :: rest, le⟩ := by
  have hopens : last.kind.opens = false := by
    cases hkind : last.kind <;> simp [hkind, TokenKind.isSemi, TokenKind.opens] at hlast ⊢
  exact skipUntil_of_unbroken (fun _ hsemi _ => hsemi) hopens hlast rest ts h

/-! Functions. -/

/-- Whether the last of these tokens starts a type in braces; `typeWord` tells it of the token
before them. -/
def endsInTypeWord (typeWord : Bool) (ts : List Token) : Bool :=
  ts.getLast?.elim typeWord fun t => isTypeWord t.kind

theorem endsInTypeWord_append (typeWord : Bool) (ts us : List Token) :
    endsInTypeWord typeWord (ts ++ us) = endsInTypeWord (endsInTypeWord typeWord ts) us := by
  unfold endsInTypeWord
  rw [List.getLast?_append]
  cases us.getLast? <;> simp

/-- The head of a function: on one line, and with braces only for types. -/
structure Header (typeWord : Bool) (ts : List Token) : Prop extends Unbroken ts where
  braces : ∀ front t back, ts = front ++ t :: back → Level front → t.kind = .op "\x7b" →
    endsInTypeWord typeWord front = true

instance (typeWord : Bool) : DecidablePred (Header typeWord) := fun ts =>
  decidable_of_iff
    (Unbroken ts ∧ ∀ i, (h : i < ts.length) → Level (ts.take i) → ts[i].kind = .op "\x7b" →
      endsInTypeWord typeWord (ts.take i) = true)
    ⟨fun h => ⟨h.1, forall_split_iff.mpr h.2⟩,
      fun h => ⟨h.toUnbroken, forall_split_iff.mp h.braces⟩⟩

theorem Header.of_append {typeWord : Bool} (front : List Token) {ts : List Token}
    (h : Header typeWord (front ++ ts)) (hfront : Level front) :
    Header (endsInTypeWord typeWord front) ts where
  toUnbroken := h.toUnbroken.of_append front hfront
  braces before t back hts hbefore ht := by
    rw [← endsInTypeWord_append]
    refine h.braces (front ++ before) t back ?_ (hfront.append hbefore) ht
    rw [hts, List.append_assoc]

theorem isTypeWord_of_closes {k : TokenKind} (h : k.closes = true) : isTypeWord k = false := by
  cases k with
  | op symbol => rfl
  | _ => cases h

theorem skipFunction_header {opening closing : Token} {inside : List Token}
    (hopening : opening.kind = .op "\x7b") (hinside : Level inside)
    (hclosing : closing.kind.closes = true) (rest : List Token) :
    ∀ (typeWord : Bool) (ts : List Token), Header typeWord ts →
      endsInTypeWord typeWord ts = false →
      ∃ le, skipFunction typeWord (ts ++ opening :: (inside ++ closing :: rest)) = .ok ⟨rest, le⟩
  | typeWord, [], _, hend => by
      obtain rfl : typeWord = false := hend
      obtain ⟨lt, hclosed⟩ := skipClosed_level opening hinside hclosing rest
      rw [List.nil_append, skipFunction, if_pos (by simp [hopening]), hclosed]
      exact ⟨_, rfl⟩
  | typeWord, t :: r, h, hend => by
      rcases h.level.cases_cons with ⟨hopens, within, last, more, rfl, hwithin, hlast⟩ |
        ⟨hopens, heof, hone⟩
      · -- a brace here belongs to a type, so it is skipped like any other delimiter
        have hbody : ¬ (t.kind = .op "\x7b" && !typeWord) = true := by
          simp only [Bool.and_eq_true, decide_eq_true_eq, Bool.not_eq_true', not_and]
          intro ht hword
          have := h.braces [] t _ rfl rfl ht
          rw [hword] at this
          cases this
        have hword : endsInTypeWord typeWord (t :: (within ++ [last])) = false := by
          rw [← List.cons_append, endsInTypeWord_append]
          exact isTypeWord_of_closes hlast
        have hsplit : t :: (within ++ last :: more) = t :: (within ++ [last]) ++ more := by simp
        rw [hsplit] at h hend
        have hmore := h.of_append _ (level_enclosed hopens hwithin hlast)
        rw [endsInTypeWord_append, hword] at hend
        rw [hword] at hmore
        obtain ⟨le, hskip⟩ :=
          skipFunction_header hopening hinside hclosing rest false more hmore hend
        obtain ⟨lt, hclosed⟩ :=
          skipClosed_level t hwithin hlast (more ++ opening :: (inside ++ closing :: rest))
        rw [List.cons_append, List.append_assoc, List.cons_append, skipFunction, if_neg hbody,
          if_pos hopens, hclosed, ok_bind, hskip]
        exact ⟨_, rfl⟩
      · have hbody : ¬ (t.kind = .op "\x7b" && !typeWord) = true := by
          intro hbody
          simp only [Bool.and_eq_true, decide_eq_true_eq] at hbody
          rw [hbody.1] at hopens
          cases hopens
        have hsemi : t.kind.isSemi = false := h.noSemi [] t r rfl rfl
        have hr : Header (endsInTypeWord typeWord [t]) r := h.of_append [t] hone
        rw [← List.singleton_append, endsInTypeWord_append] at hend
        obtain ⟨le, hskip⟩ := skipFunction_header hopening hinside hclosing rest _ r hr hend
        have hpass : skipFunction (isTypeWord t.kind)
            (r ++ opening :: (inside ++ closing :: rest)) = .ok ⟨rest, le⟩ := hskip
        rw [List.cons_append, skipFunction, if_neg hbody, if_neg (by simp [hopens]),
          if_neg (by simp [hsemi, heof]), hpass]
        exact ⟨_, rfl⟩
termination_by _ ts => ts.length

end FieldRules
