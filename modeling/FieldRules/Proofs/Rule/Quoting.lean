/-
Values in quotes.  A value is taken without its quotes if it is one string from the first to the
last character, or if it only starts and ends like one.
-/
import FieldRules.Proofs.Rule.Splitting

namespace FieldRules

/-! Escapes. -/

/-- Whether the character right after `cs` is escaped: it has a backslash before it that is not
escaped itself. -/
def escapesNext (cs : List Char) : Bool := cs.foldl (fun escaped c => c = '\\' && !escaped) false

@[simp] theorem escapesNext_concat (cs : List Char) (c : Char) :
    escapesNext (cs ++ [c]) = (decide (c = '\\') && !escapesNext cs) := List.foldl_concat ..

theorem isSome_unescape? (cs : List Char) : (unescape? cs).isSome = !escapesNext cs := by
  induction cs using unescape?.induct with
  | case1 => rfl
  | case2 => rfl
  | case3 d ds ih =>
      have hpair : escapesNext ('\\' :: d :: ds) = escapesNext ds := by simp [escapesNext]
      rw [hpair, ← ih, unescape?]
      simp
  | case4 c cs hc ih =>
      have hplain : escapesNext (c :: cs) = escapesNext cs := by simp [escapesNext, hc]
      rw [hplain, ← ih, unescape?_cons hc, Option.isSome_map]

/-- Every double quote in it is escaped. -/
def QuotesEscaped (body : List Char) : Prop :=
  ∀ before after, body = before ++ '"' :: after → escapesNext before = true

/-! Kinds of values. -/

section Values

variable (v : List Char)

def Unquoted : Prop := '"' ∉ v ∧ '\x60' ∉ v

/-- One string in backquotes. -/
def IsRawString : Prop := ∃ body, v = '\x60' :: (body ++ ['\x60']) ∧ '\x60' ∉ body

/-- One string in double quotes, with no escape open at its end. -/
def IsInterpretedString : Prop :=
  ∃ body, v = '"' :: (body ++ ['"']) ∧ QuotesEscaped body ∧ escapesNext body = false

/-- A scan opens a quote at the first character and closes it at the last. -/
structure ScansAsOne : Prop where
  inside : ∀ before after, v = before ++ after → before ≠ [] → after ≠ [] →
    (QuoteScan.initial.run before).quote ≠ none
  closed : (QuoteScan.initial.run v).quote = none
  long : 2 ≤ v.length

/-- A value that starts and ends with a quote, but what the first one opens is closed before the
last. -/
def ClosesEarly : Prop :=
  (∃ body, v = '\x60' :: (body ++ ['\x60']) ∧ '\x60' ∈ body) ∨
    ∃ body, v = '"' :: (body ++ ['"']) ∧ ¬ QuotesEscaped body ∧ escapesNext body = false

end Values

/-! Scans inside of a quote. -/

/-- A scan inside of quotes stays there: each such quote is escaped, as it can be in double quotes
only. -/
def StaysInside (q : Char) (body : List Char) : Prop :=
  ∀ before after, body = before ++ q :: after → q = '"' ∧ escapesNext before = true

theorem staysInside_backquote_iff {body : List Char} : StaysInside '\x60' body ↔ '\x60' ∉ body := by
  constructor
  · intro h hmem
    obtain ⟨before, after, rfl⟩ := List.append_of_mem hmem
    exact absurd (h before after rfl).1 (by decide)
  · rintro h before after rfl
    exact absurd (List.mem_append_right before List.mem_cons_self) h

theorem staysInside_double_iff {body : List Char} : StaysInside '"' body ↔ QuotesEscaped body :=
  ⟨fun h before after heq => (h before after heq).2, fun h before after heq =>
    ⟨rfl, h before after heq⟩⟩

section Scan

variable {q c : Char} {body : List Char}

/-- The scan after `body` inside of the quote `q`. -/
def scanInside (q : Char) (body : List Char) : QuoteScan := QuoteScan.run ⟨0, some q, false⟩ body

theorem scanInside_concat (q : Char) (body : List Char) (c : Char) :
    scanInside q (body ++ [c]) = (scanInside q body).step c := List.foldl_concat ..

theorem staysInside_nil : StaysInside q [] := fun before after heq => by simp at heq

theorem staysInside_concat : StaysInside q (body ++ [c]) ↔
    StaysInside q body ∧ (c = q → q = '"' ∧ escapesNext body = true) := by
  constructor
  · intro h
    refine ⟨?_, ?_⟩
    · rintro before after rfl
      exact h before (after ++ [c]) (by simp)
    · rintro rfl
      exact h body [] rfl
  · rintro ⟨hbody, hc⟩ before after heq
    rcases List.eq_nil_or_concat after with rfl | ⟨init, last, rfl⟩
    · obtain ⟨rfl, hlast⟩ := List.append_inj' heq rfl
      exact hc (List.cons.inj hlast).1
    · rw [List.concat_eq_append, ← List.cons_append, ← List.append_assoc] at heq
      obtain ⟨hinit, -⟩ := List.append_inj' heq rfl
      exact hbody before init hinit

/-- While the scan stays inside, it knows whether the next character is escaped. -/
theorem StaysInside.scan (h : StaysInside q body) :
    scanInside q body = ⟨0, some q, decide (q = '"') && escapesNext body⟩ := by
  induction body using List.reverseRecOn with
  | nil => simp [scanInside, QuoteScan.run, escapesNext]
  | append_singleton body c ih =>
      obtain ⟨hbody, hc⟩ := staysInside_concat.mp h
      rw [scanInside_concat, ih hbody, escapesNext_concat]
      cases hescaped : decide (q = '"') && escapesNext body with
      | true =>
          simp only [Bool.and_eq_true, decide_eq_true_eq] at hescaped
          simp [QuoteScan.step, hescaped]
      | false =>
          have hne : c ≠ q := by
            intro heq
            simp [(hc heq).1, (hc heq).2] at hescaped
          by_cases hback : c = '\\' <;> by_cases hq : q = '"' <;>
            simp_all [QuoteScan.step]

/-- The character after `body` closes the quote. -/
theorem StaysInside.closes_iff (h : StaysInside q body) :
    (scanInside q (body ++ [c])).quote = none ↔
      c = q ∧ (decide (q = '"') && escapesNext body) = false := by
  rw [scanInside_concat, h.scan]
  cases hnext : decide (q = '"') && escapesNext body with
  | true => simp [QuoteScan.step]
  | false =>
      by_cases hc : c = q
      · subst hc
        by_cases hback : c = '\\' <;> simp [QuoteScan.step, hback]
      · simp only [QuoteScan.step, Bool.false_eq_true, if_false, hc, false_and, iff_false]
        split <;> simp

/-- A scan that is inside after each part of `body` meets no quote that closes. -/
theorem staysInside_of_scan
    (h : ∀ before after, body = before ++ after → (scanInside q before).quote ≠ none) :
    StaysInside q body := by
  induction body using List.reverseRecOn with
  | nil => exact staysInside_nil
  | append_singleton body c ih =>
      have hbody : StaysInside q body := by
        apply ih
        rintro before after rfl
        exact h before (after ++ [c]) (by simp)
      have hopen := h (body ++ [c]) [] (by simp)
      rw [Ne, hbody.closes_iff, not_and] at hopen
      refine staysInside_concat.mpr ⟨hbody, fun hc => ?_⟩
      simpa using hopen hc

end Scan

/-! Values that are one string. -/

section Complete

variable {v : List Char}

/-- A value that a scan reads as one quote `q` from its first to its last character. -/
def IsOneQuote (q : Char) (v : List Char) : Prop :=
  ∃ body, v = q :: (body ++ [q]) ∧ StaysInside q body ∧
    (decide (q = '"') && escapesNext body) = false

theorem isOneQuote_backquote_iff : IsOneQuote '\x60' v ↔ IsRawString v := by
  simp [IsOneQuote, IsRawString, staysInside_backquote_iff]

theorem isOneQuote_double_iff : IsOneQuote '"' v ↔ IsInterpretedString v := by
  simp [IsOneQuote, IsInterpretedString, staysInside_double_iff]

theorem run_cons_quote {q : Char} (hq : q = '"' ∨ q = '\x60') (body : List Char) :
    QuoteScan.initial.run (q :: body) = scanInside q body := by
  rcases hq with rfl | rfl <;> rfl

theorem ScansAsOne.of_isOneQuote {q : Char} (hq : q = '"' ∨ q = '\x60') (h : IsOneQuote q v) :
    ScansAsOne v := by
  obtain ⟨body, rfl, hstays, hclosed⟩ := h
  refine ⟨?_, ?_, by simp⟩
  · rintro before after heq hbefore hafter
    obtain ⟨d, ds, rfl⟩ := List.exists_cons_of_ne_nil hbefore
    obtain ⟨rfl, hrest⟩ := List.cons.inj heq
    obtain ⟨init, last, rfl⟩ := (List.eq_nil_or_concat after).resolve_left hafter
    have hparts : body ++ [q] = (ds ++ init) ++ [last] := by simpa using hrest
    obtain ⟨rfl, -⟩ := List.append_inj' hparts rfl
    have hds : StaysInside q ds := by
      rintro xs ys rfl
      exact hstays xs (ys ++ init) (by simp)
    rw [run_cons_quote hq, hds.scan]
    exact Option.some_ne_none q
  · rw [run_cons_quote hq]
    exact hstays.closes_iff.mpr ⟨rfl, hclosed⟩

theorem ScansAsOne.isOneQuote (h : ScansAsOne v) : IsOneQuote '"' v ∨ IsOneQuote '\x60' v := by
  obtain ⟨hinside, hend, hlong⟩ := h
  obtain ⟨q, rest, rfl⟩ : ∃ q rest, v = q :: rest := by
    cases v with
    | nil => cases hlong
    | cons q rest => exact ⟨q, rest, rfl⟩
  obtain ⟨body, last, rfl⟩ : ∃ body last, rest = body ++ [last] := by
    rcases List.eq_nil_or_concat rest with rfl | ⟨body, last, rfl⟩
    · simp at hlong
    · exact ⟨body, last, List.concat_eq_append⟩
  -- the scan is in a quote after the first character, so that is one
  have hq : q = '"' ∨ q = '\x60' := by
    have hopen := hinside [q] (body ++ [last]) rfl (by simp) (by simp)
    by_contra hne
    rw [not_or] at hne
    refine absurd ?_ hopen
    simp only [QuoteScan.run, QuoteScan.initial, List.foldl_cons, List.foldl_nil, QuoteScan.step,
      hne.1, hne.2, decide_false, Bool.or_self, Bool.false_eq_true, if_false]
    split_ifs <;> rfl
  have hstays : StaysInside q body := by
    apply staysInside_of_scan
    rintro before after rfl
    have hopen := hinside (q :: before) (after ++ [last]) (by simp) (by simp) (by simp)
    rwa [run_cons_quote hq] at hopen
  rw [run_cons_quote hq, hstays.closes_iff] at hend
  obtain ⟨rfl, hclosed⟩ := hend
  have hone : IsOneQuote last (last :: (body ++ [last])) := ⟨body, rfl, hstays, hclosed⟩
  rcases hq with rfl | rfl
  · exact .inl hone
  · exact .inr hone

theorem scansAsOne_iff : ScansAsOne v ↔ IsRawString v ∨ IsInterpretedString v := by
  rw [← isOneQuote_backquote_iff, ← isOneQuote_double_iff]
  constructor
  · exact fun h => h.isOneQuote.symm
  · rintro (h | h)
    · exact .of_isOneQuote (.inr rfl) h
    · exact .of_isOneQuote (.inl rfl) h

end Complete

/-! What is taken. -/

namespace Attribute

theorem between_iff {q : Char} {v : List Char} :
    between q v = true ↔ ∃ body, v = q :: (body ++ [q]) := by
  constructor
  · intro h
    simp only [between, Bool.and_eq_true, decide_eq_true_eq, beq_iff_eq] at h
    obtain ⟨⟨hlong, hhead⟩, hlast⟩ := h
    cases v with
    | nil => cases hlong
    | cons d rest =>
        obtain rfl := Option.some.inj hhead
        rcases List.eq_nil_or_concat rest with rfl | ⟨body, last, rfl⟩
        · simp at hlong
        · rw [List.concat_eq_append, ← List.cons_append, List.getLast?_concat] at hlast
          obtain rfl := Option.some.inj hlast
          exact ⟨body, by rw [List.concat_eq_append]⟩
  · rintro ⟨body, rfl⟩
    have hlast : (q :: (body ++ [q])).getLast? = some q := by
      rw [← List.cons_append, List.getLast?_concat]
    simp [between, hlast]

/-- A value has a text if it has no quotes at all, or starts and ends with the same quote and
leaves no escape open. -/
theorem isSome_textChars?_iff {v : List Char} : (textChars? v).isSome = true ↔
    Unquoted v ∨ (∃ body, v = '\x60' :: (body ++ ['\x60'])) ∨
      ∃ body, v = '"' :: (body ++ ['"']) ∧ escapesNext body = false := by
  unfold textChars?
  split
  · rename_i hdouble
    obtain ⟨body, rfl⟩ := between_iff.mp hdouble
    rw [List.tail_cons, List.dropLast_concat, isSome_unescape?]
    simp [Unquoted]
  · rename_i hdouble
    have hno : ¬ ∃ body, v = '"' :: (body ++ ['"']) ∧ escapesNext body = false :=
      fun ⟨body, hv, _⟩ => hdouble (between_iff.mpr ⟨body, hv⟩)
    split
    · rename_i hraw
      simp [between_iff.mp hraw]
    · rename_i hraw
      have hnoRaw : ¬ ∃ body, v = '\x60' :: (body ++ ['\x60']) := fun h => hraw (between_iff.mpr h)
      simp only [hno, hnoRaw, or_false]
      split
      · rename_i hquote
        simp only [Bool.or_eq_true, List.contains_iff_mem] at hquote
        simp [Unquoted, ← not_or, hquote]
      · rename_i hquote
        simp only [Bool.or_eq_true, List.contains_iff_mem] at hquote
        simp [Unquoted, ← not_or, hquote]

theorem exists_text_iff (a : Attribute) (rule : String) :
    (∃ s, a.text rule = .ok s) ↔ (textChars? a.value.toList).isSome = true := by
  unfold text
  cases textChars? a.value.toList with
  | none => simp
  | some cs => simp

end Attribute

theorem unique_body {q : Char} {body body' : List Char}
    (h : q :: (body ++ [q]) = q :: (body' ++ [q])) : body = body' :=
  List.append_cancel_right (List.cons.inj h).2

/-- A value has a text exactly if it has no quotes, or a scan opens a quote at its first character
and closes it at its last, or the quote that the first character opens is closed before the last.
Only the third kind is no complete string. -/
theorem Attribute.exists_text_iff_scan (a : Attribute) (rule : String) :
    ((∃ s, a.text rule = .ok s) ↔
        Unquoted a.value.toList ∨ ScansAsOne a.value.toList ∨ ClosesEarly a.value.toList) ∧
      (ScansAsOne a.value.toList ↔
        IsRawString a.value.toList ∨ IsInterpretedString a.value.toList) ∧
      ¬ (ClosesEarly a.value.toList ∧ (Unquoted a.value.toList ∨ ScansAsOne a.value.toList)) := by
  generalize hv : a.value.toList = v
  refine ⟨?_, scansAsOne_iff, ?_⟩
  · rw [a.exists_text_iff rule, hv, isSome_textChars?_iff, scansAsOne_iff]
    constructor
    · rintro (hplain | ⟨body, hraw⟩ | ⟨body, hdouble, hclosed⟩)
      · exact .inl hplain
      · by_cases hmem : '\x60' ∈ body
        · exact .inr (.inr (.inl ⟨body, hraw, hmem⟩))
        · exact .inr (.inl (.inl ⟨body, hraw, hmem⟩))
      · by_cases hquotes : QuotesEscaped body
        · exact .inr (.inl (.inr ⟨body, hdouble, hquotes, hclosed⟩))
        · exact .inr (.inr (.inr ⟨body, hdouble, hquotes, hclosed⟩))
    · rintro (hplain | (⟨body, hraw, -⟩ | ⟨body, hdouble, -, hclosed⟩) |
        ⟨body, hraw, -⟩ | ⟨body, hdouble, -, hclosed⟩)
      · exact .inl hplain
      · exact .inr (.inl ⟨body, hraw⟩)
      · exact .inr (.inr ⟨body, hdouble, hclosed⟩)
      · exact .inr (.inl ⟨body, hraw⟩)
      · exact .inr (.inr ⟨body, hdouble, hclosed⟩)
  · rw [scansAsOne_iff]
    rintro ⟨⟨body, rfl, hmem⟩ | ⟨body, rfl, hquotes, -⟩, hplain | ⟨body', hraw, hno⟩ |
      ⟨body', hdouble, hescaped, -⟩⟩
    · exact hplain.2 List.mem_cons_self
    · exact hno (unique_body hraw ▸ hmem)
    · exact absurd (List.cons.inj hdouble).1 (by decide)
    · exact hplain.1 List.mem_cons_self
    · exact absurd (List.cons.inj hraw).1 (by decide)
    · exact hquotes (unique_body hdouble ▸ hescaped)

/-- Two strings in a row are taken for one. -/
theorem Attribute.text_two_strings :
    ¬ ((∃ s, (⟨"message", "\"a\"b\""⟩ : Attribute).text "r" = .ok s) ↔
      Unquoted "\"a\"b\"".toList ∨ IsRawString "\"a\"b\"".toList ∨
        IsInterpretedString "\"a\"b\"".toList) := by
  have htext : (⟨"message", "\"a\"b\""⟩ : Attribute).text "r" = .ok "a\"b" := by decide +kernel
  intro h
  rcases h.mp ⟨_, htext⟩ with ⟨hplain, -⟩ | ⟨body, hraw, -⟩ | ⟨body, hdouble, hescaped, -⟩
  · exact hplain (by decide +kernel)
  · exact absurd (List.cons.inj hraw).1 (by decide)
  · obtain rfl : ['a', '"', 'b'] = body := unique_body hdouble
    have := hescaped ['a'] ['b'] rfl
    exact absurd this (by decide)

end FieldRules
