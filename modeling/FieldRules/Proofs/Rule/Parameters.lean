/-
Lists of parameters.  Pairs joined by commas are read back as the same pairs in their
order, if no value has a comma outside quotes and parentheses.
-/
import FieldRules.Rule.Attribute
import FieldRules.Rule.Basic
import FieldRules.Proofs.Number.ReadBack
import Mathlib.Data.List.Basic

namespace FieldRules

/-! Cutting at commas. -/

/-- No comma of the text stands outside quotes and parentheses, if a scan is in state `s`. -/
def Uncut (s : QuoteScan) : List Char → Prop
  | [] => True
  | c :: cs => ¬ (c = ',' ∧ s.outside = true) ∧ Uncut (s.step c) cs

theorem uncut_append {s : QuoteScan} {xs ys : List Char} (hx : Uncut s xs)
    (hy : Uncut (s.run xs) ys) : Uncut s (xs ++ ys) := by
  induction xs generalizing s with
  | nil => exact hy
  | cons x xs ih => exact ⟨hx.1, ih hx.2 hy⟩

theorem run_append (s : QuoteScan) (xs ys : List Char) :
    s.run (xs ++ ys) = (s.run xs).run ys := List.foldl_append

/-- A text without commas of its own is the start of one piece. -/
theorem splitOutside_append {s : QuoteScan} {xs : List Char} (h : Uncut s xs) (rest : List Char) :
    splitOutside s (xs ++ rest) = xs.foldr consFirst (splitOutside (s.run xs) rest) := by
  induction xs generalizing s with
  | nil => rfl
  | cons x xs ih =>
      have hcut : ¬ (x = ',' && s.outside) = true := by
        simpa using h.1
      rw [List.cons_append, splitOutside, if_neg hcut, ih h.2]
      rfl

theorem foldr_consFirst (xs piece : List Char) (pieces : List (List Char)) :
    xs.foldr consFirst (piece :: pieces) = (xs ++ piece) :: pieces := by
  induction xs with
  | nil => rfl
  | cons x xs ih => rw [List.foldr_cons, ih, consFirst, List.cons_append]

/-- A text that can stand between commas: it has none of its own, and it closes what it
opens. -/
structure Sealed (cs : List Char) : Prop where
  uncut : Uncut .initial cs
  closed : QuoteScan.initial.run cs = .initial

theorem Sealed.append {xs ys : List Char} (hx : Sealed xs) (hy : Sealed ys) :
    Sealed (xs ++ ys) := by
  constructor
  · apply uncut_append hx.uncut
    rw [hx.closed]
    exact hy.uncut
  · rw [run_append, hx.closed, hy.closed]

/-- Characters that mean nothing to a scan. -/
def isPlain (c : Char) : Bool :=
  c != ',' && c != '"' && c != '\x60' && c != '(' && c != ')'

theorem sealed_of_plain {cs : List Char} (h : ∀ c ∈ cs, isPlain c = true) : Sealed cs := by
  induction cs with
  | nil => exact ⟨trivial, rfl⟩
  | cons c cs ih =>
      have hc := h c List.mem_cons_self
      simp only [isPlain, Bool.and_eq_true, bne_iff_ne, ne_eq] at hc
      obtain ⟨⟨⟨⟨hcomma, hquote⟩, hraw⟩, hopen⟩, hclose⟩ := hc
      have hstep : QuoteScan.initial.step c = .initial := by
        simp [QuoteScan.step, QuoteScan.initial, hquote, hraw, hopen, hclose]
      have hrest := ih fun d hd => h d (List.mem_cons_of_mem c hd)
      constructor
      · refine ⟨fun hcut => hcomma hcut.1, ?_⟩
        rw [hstep]
        exact hrest.uncut
      · rw [QuoteScan.run, List.foldl_cons, hstep]
        exact hrest.closed

theorem splitTopLevel_single {cs : List Char} (h : Sealed cs) : splitTopLevel cs = [cs] := by
  have hsplit := splitOutside_append h.uncut []
  rw [List.append_nil, h.closed, splitOutside, foldr_consFirst, List.append_nil] at hsplit
  exact hsplit

theorem splitTopLevel_comma {cs : List Char} (h : Sealed cs) (rest : List Char) :
    splitTopLevel (cs ++ ',' :: rest) = cs :: splitTopLevel rest := by
  rw [splitTopLevel, splitOutside_append h.uncut, h.closed, splitOutside, if_pos (by decide),
    foldr_consFirst, List.append_nil]
  rfl

/-! Quoted texts. -/

/-- One character of a quoted text. -/
def escapeQuoted (c : Char) : List Char := if c = '\\' || c = '"' then ['\\', c] else [c]

theorem toList_quoteValue (s : String) :
    (quoteValue s).toList = '"' :: (s.toList.flatMap escapeQuoted ++ ['"']) :=
  String.toList_ofList

/-- Inside quotes no comma cuts, and the last quote closes them. -/
theorem scan_quoted (cs : List Char) :
    Uncut ⟨0, some '"', false⟩ (cs.flatMap escapeQuoted ++ ['"']) ∧
      QuoteScan.run ⟨0, some '"', false⟩ (cs.flatMap escapeQuoted ++ ['"']) = .initial := by
  have hinside : ∀ (c : Char) (escaped : Bool),
      ¬ (c = ',' ∧ QuoteScan.outside ⟨0, some '"', escaped⟩ = true) := by
    intro c escaped h
    exact Bool.false_ne_true h.2
  induction cs with
  | nil => exact ⟨⟨hinside _ _, trivial⟩, rfl⟩
  | cons c cs ih =>
      rw [List.flatMap_cons, List.append_assoc]
      by_cases h : (c = '\\' || c = '"') = true
      · rw [escapeQuoted, if_pos h]
        exact ⟨⟨hinside _ _, hinside _ _, ih.1⟩, ih.2⟩
      · rw [escapeQuoted, if_neg h]
        simp only [Bool.or_eq_true, decide_eq_true_eq, not_or] at h
        have hstep : QuoteScan.step ⟨0, some '"', false⟩ c = ⟨0, some '"', false⟩ := by
          simp [QuoteScan.step, h.1, h.2]
        constructor
        · refine ⟨hinside _ _, ?_⟩
          rw [hstep]
          exact ih.1
        · rw [QuoteScan.run, List.singleton_append, List.foldl_cons, hstep]
          exact ih.2

theorem sealed_quoteValue (s : String) : Sealed (quoteValue s).toList := by
  rw [toList_quoteValue]
  exact ⟨⟨by decide, (scan_quoted s.toList).1⟩, (scan_quoted s.toList).2⟩

theorem unescape?_cons {c : Char} (h : c ≠ '\\') (cs : List Char) :
    unescape? (c :: cs) = (unescape? cs).map (c :: ·) := by
  rw [unescape?.eq_def]
  simp only [h, if_false]

theorem unescape?_escapeQuoted (cs : List Char) :
    unescape? (cs.flatMap escapeQuoted) = some cs := by
  induction cs with
  | nil => rfl
  | cons c cs ih =>
      rw [List.flatMap_cons]
      by_cases h : (c = '\\' || c = '"') = true
      · rw [escapeQuoted, if_pos h]
        simp only [Bool.or_eq_true, decide_eq_true_eq] at h
        simp [unescape?, ih, h.symm]
      · rw [escapeQuoted, if_neg h]
        simp only [Bool.or_eq_true, decide_eq_true_eq, not_or] at h
        rw [List.singleton_append, unescape?_cons h.1, ih]
        rfl

/-- Taking the quotes off gives the text back. -/
theorem textChars?_quoteValue (s : String) :
    Attribute.textChars? (quoteValue s).toList = some s.toList := by
  rw [toList_quoteValue]
  have hbetween :
      Attribute.between '"' ('"' :: (s.toList.flatMap escapeQuoted ++ ['"'])) = true := by
    have hlast : ('"' :: (s.toList.flatMap escapeQuoted ++ ['"'])).getLast? = some '"' :=
      List.getLast?_eq_some_iff.mpr ⟨'"' :: s.toList.flatMap escapeQuoted, rfl⟩
    simp [Attribute.between, hlast]
  rw [Attribute.textChars?, if_pos hbetween, List.tail_cons, List.dropLast_concat,
    unescape?_escapeQuoted]

/-! Pairs. -/

theorem splitOnce?_append {mark : Char} {before : List Char} (h : mark ∉ before)
    (rest : List Char) : splitOnce? mark (before ++ mark :: rest) = some (before, rest) := by
  have hbefore : ∀ c ∈ before, (c != mark) = true := by
    intro c hc
    exact bne_iff_ne.mpr fun heq => h (heq ▸ hc)
  rw [splitOnce?, span_append (mark :: rest) hbefore (by simp)]

/-- A key that is written as it is: no white space, no mark of a list of parameters. -/
def isKey (key : String) : Bool :=
  !key.toList.isEmpty && key.toList.all fun c => isPlain c && c != '=' && !isBlank c

/-- A value that stands between commas and has no white space around it. -/
structure IsValue (value : String) : Prop where
  sealed : Sealed value.toList
  trimmed : trim value.toList = value.toList

def pairText (pair : String × String) : String := pair.1 ++ "=" ++ pair.2

theorem toList_pairText (pair : String × String) :
    (pairText pair).toList = pair.1.toList ++ '=' :: pair.2.toList := by
  simp [pairText]

theorem mem_key {key : String} (hkey : isKey key = true) {c : Char} (hc : c ∈ key.toList) :
    isPlain c = true ∧ c ≠ '=' ∧ isBlank c = false := by
  simp only [isKey, Bool.and_eq_true, List.all_eq_true, bne_iff_ne, Bool.not_eq_true'] at hkey
  obtain ⟨⟨hplain, hne⟩, hblank⟩ := hkey.2 c hc
  exact ⟨hplain, hne, hblank⟩

theorem trim_key {key : String} (hkey : isKey key = true) : trim key.toList = key.toList :=
  trim_of_not_blank fun _ hc => (mem_key hkey hc).2.2

section Pair

variable {pair : String × String}

theorem sealed_pairText (hkey : isKey pair.1 = true) (hvalue : IsValue pair.2) :
    Sealed (pairText pair).toList := by
  have hequals : Sealed ['='] := sealed_of_plain (List.forall_mem_singleton.mpr rfl)
  rw [toList_pairText]
  apply (sealed_of_plain fun c hc => (mem_key hkey hc).1).append
  exact hequals.append hvalue.sealed

/-- A pair after a comma is read as the pair. -/
theorem attributeOf?_pairText (hkey : isKey pair.1 = true) (hvalue : IsValue pair.2)
    {lead : List Char} (hlead : lead = [] ∨ lead = [' ']) :
    AttributeList.attributeOf? (lead ++ (pairText pair).toList) = some ⟨pair.1, pair.2⟩ := by
  have hequals : '=' ∉ lead ++ pair.1.toList := by
    intro hmem
    rcases List.mem_append.mp hmem with hmem | hmem
    · rcases hlead with rfl | rfl
      · cases hmem
      · exact absurd (List.mem_singleton.mp hmem) (by decide)
    · exact (mem_key hkey hmem).2.1 rfl
  have htrim : trim (lead ++ pair.1.toList) = pair.1.toList := by
    rcases hlead with rfl | rfl
    · exact trim_key hkey
    · rw [List.singleton_append, trim_cons_blank (by decide), trim_key hkey]
  rw [toList_pairText, ← List.append_assoc, AttributeList.attributeOf?, splitOnce?_append hequals]
  simp [htrim, hvalue.trimmed]

end Pair

/-! Lists of pairs. -/

/-- Pieces joined by commas and blanks are cut at the commas. -/
theorem splitTopLevel_intercalate {p : List Char} {ps : List (List Char)} (hp : Sealed p)
    (hps : ∀ q ∈ ps, Sealed q) :
    splitTopLevel ([',', ' '].intercalate (p :: ps)) = p :: ps.map (' ' :: ·) := by
  induction ps generalizing p with
  | nil => simpa using splitTopLevel_single hp
  | cons q ps ih =>
      have hq := hps q List.mem_cons_self
      have hblank : Sealed [' '] := sealed_of_plain (List.forall_mem_singleton.mpr rfl)
      have hlead : Sealed (' ' :: q) := hblank.append hq
      have hjoin : [',', ' '].intercalate (p :: q :: ps) =
          p ++ ',' :: [',', ' '].intercalate ((' ' :: q) :: ps) := by
        cases ps <;> simp [List.intercalate]
      rw [hjoin, splitTopLevel_comma hp,
        ih hlead fun r hr => hps r (List.mem_cons_of_mem q hr)]
      rfl

theorem insertAttribute_of_not_mem {a : Attribute} {bs : List Attribute}
    (h : a.folded ∉ bs.map Attribute.folded) : insertAttribute a bs = bs ++ [a] := by
  induction bs with
  | nil => rfl
  | cons b bs ih =>
      rw [List.map_cons, List.mem_cons, not_or] at h
      rw [insertAttribute, if_neg fun heq => h.1 heq.symm, ih h.2, List.cons_append]

/-- Attributes with different keys are kept in their order. -/
theorem foldl_insert {as bs : List Attribute}
    (h : ((bs ++ as).map Attribute.folded).Nodup) :
    as.foldl AttributeList.insert ⟨bs⟩ = ⟨bs ++ as⟩ := by
  induction as generalizing bs with
  | nil => simp
  | cons a as ih =>
      have hnew : a.folded ∉ bs.map Attribute.folded := by
        rw [List.map_append, List.map_cons] at h
        intro hmem
        exact (List.nodup_append.mp h).2.2 a.folded hmem a.folded List.mem_cons_self rfl
      have hinsert : AttributeList.insert ⟨bs⟩ a = ⟨bs ++ [a]⟩ := by
        rw [AttributeList.insert, insertAttribute_of_not_mem hnew]
      rw [List.foldl_cons, hinsert, ih (by simpa using h)]
      simp

/-- Pairs with different keys are read back from their text. -/
theorem parse_pairs {pairs : List (String × String)} (hkeys : ∀ p ∈ pairs, isKey p.1 = true)
    (hvalues : ∀ p ∈ pairs, IsValue p.2) (hnodup : (pairs.map fun p => foldKey p.1).Nodup) :
    AttributeList.parse (", ".intercalate (pairs.map pairText)) =
      ⟨pairs.map fun p => ⟨p.1, p.2⟩⟩ := by
  cases pairs with
  | nil => rfl
  | cons pair pairs =>
      have hsealed : ∀ p ∈ pair :: pairs, Sealed (pairText p).toList := fun p hp =>
        sealed_pairText (hkeys p hp) (hvalues p hp)
      have hpieces : splitTopLevel (", ".intercalate ((pair :: pairs).map pairText)).toList =
          (pairText pair).toList :: pairs.map fun p => ' ' :: (pairText p).toList := by
        rw [String.toList_intercalate, List.map_cons, List.map_cons,
          show ", ".toList = [',', ' '] from rfl,
          splitTopLevel_intercalate (hsealed pair List.mem_cons_self)]
        · simp
        · intro q hq
          simp only [List.map_map, List.mem_map] at hq
          obtain ⟨p, hp, rfl⟩ := hq
          exact hsealed p (List.mem_cons_of_mem pair hp)
      have hread : (splitTopLevel (", ".intercalate ((pair :: pairs).map pairText)).toList).filterMap
          AttributeList.attributeOf? = (pair :: pairs).map fun p => ⟨p.1, p.2⟩ := by
        have hfirst := attributeOf?_pairText (hkeys pair List.mem_cons_self)
          (hvalues pair List.mem_cons_self) (Or.inl rfl)
        have hrest : (pairs.map fun p => ' ' :: (pairText p).toList).filterMap
            AttributeList.attributeOf? = pairs.map fun p => ⟨p.1, p.2⟩ := by
          rw [List.filterMap_map, List.filterMap_eq_map_iff_forall_eq_some]
          intro p hp
          exact attributeOf?_pairText (hkeys p (List.mem_cons_of_mem pair hp))
            (hvalues p (List.mem_cons_of_mem pair hp)) (Or.inr rfl)
        rw [hpieces, List.filterMap_cons, hrest]
        simp only [List.nil_append] at hfirst
        rw [hfirst, List.map_cons]
      rw [AttributeList.parse, AttributeList.ofChars, hread, AttributeList.empty, foldl_insert]
      · rfl
      · rw [List.nil_append, List.map_map]
        exact hnodup

end FieldRules
