/-
Cutting attribute text.  The pieces joined by commas are the text, a comma cuts exactly where
nothing is open, and what stands after a cut is read on top of what stands before it.
-/
import FieldRules.Proofs.Rule.Parameters
import Mathlib.Data.List.Induction

namespace FieldRules

/-! What a scan has open. -/

namespace QuoteScan

variable {s : QuoteScan}

/-- No escape is open outside quotes. -/
def Settled (s : QuoteScan) : Prop := s.quote = none → s.escaped = false

theorem Settled.step (h : s.Settled) (c : Char) : (s.step c).Settled := by
  obtain ⟨depth, quote, escaped⟩ := s
  intro hnone
  unfold QuoteScan.step at hnone ⊢
  cases quote with
  | none =>
      have hescaped : escaped = false := h rfl
      subst hescaped
      dsimp only
      split_ifs <;> rfl
  | some q =>
      cases escaped with
      | true => cases hnone
      | false =>
          simp only [Bool.false_eq_true, if_false] at hnone ⊢
          split_ifs at hnone ⊢
          rfl

theorem Settled.run (h : s.Settled) (cs : List Char) : (s.run cs).Settled := by
  induction cs generalizing s with
  | nil => exact h
  | cons c cs ih => exact ih (h.step c)

theorem settled_initial : initial.Settled := fun _ => rfl

/-- A scan that has nothing open stands where it began. -/
theorem run_eq_initial {cs : List Char} (h : (initial.run cs).outside = true) :
    initial.run cs = initial := by
  have hsettled := settled_initial.run cs
  generalize initial.run cs = s at h hsettled
  obtain ⟨depth, quote, escaped⟩ := s
  simp only [outside, Bool.and_eq_true, Option.isNone_iff_eq_none, beq_iff_eq] at h
  obtain ⟨rfl, rfl⟩ := h
  have : escaped = false := hsettled rfl
  rw [this]
  rfl

end QuoteScan

/-! Pieces. -/

theorem exists_splitOutside_cons (s : QuoteScan) (cs : List Char) :
    ∃ first after, splitOutside s cs = first :: after :=
  List.exists_cons_of_ne_nil (splitOutside_ne_nil s cs)

theorem exists_splitOutside_concat (s : QuoteScan) (cs : List Char) :
    ∃ before last, splitOutside s cs = before ++ [last] := by
  rcases List.eq_nil_or_concat (splitOutside s cs) with hnil | ⟨before, last, h⟩
  · exact absurd hnil (splitOutside_ne_nil s cs)
  · exact ⟨before, last, by rw [h, List.concat_eq_append]⟩

theorem intercalate_splitOutside (s : QuoteScan) (cs : List Char) :
    [','].intercalate (splitOutside s cs) = cs := by
  induction cs generalizing s with
  | nil => rfl
  | cons c cs ih =>
      rw [splitOutside]
      split
      · rename_i hcut
        obtain ⟨first, after, hrest⟩ := exists_splitOutside_cons s cs
        have hcomma : c = ',' := by
          simp only [Bool.and_eq_true, decide_eq_true_eq] at hcut
          exact hcut.1
        rw [hrest, List.intercalate_cons_cons, ← hrest, ih, hcomma]
        rfl
      · obtain ⟨first, after, hrest⟩ := exists_splitOutside_cons (s.step c) cs
        have hjoin := ih (s.step c)
        rw [hrest] at hjoin ⊢
        rw [consFirst, ← hjoin]
        cases after <;> simp [List.intercalate_cons_cons]

/-- A text that goes on: its last piece goes on with the first of the rest. -/
theorem splitOutside_join {s : QuoteScan} {xs ys : List Char} {before after : List (List Char)}
    {last first : List Char} (hxs : splitOutside s xs = before ++ [last])
    (hys : splitOutside (s.run xs) ys = first :: after) :
    splitOutside s (xs ++ ys) = before ++ (last ++ first) :: after := by
  induction xs generalizing s before last with
  | nil =>
      obtain ⟨rfl, rfl⟩ : before = [] ∧ last = [] := by
        cases before with
        | nil => simpa [splitOutside, eq_comm] using hxs
        | cons p ps => simp [splitOutside] at hxs
      exact hys
  | cons x xs ih =>
      rw [splitOutside] at hxs
      rw [List.cons_append, splitOutside]
      split at hxs
      · -- a comma that cuts leaves the scan where it is
        rename_i hcut
        have hstep : s.step x = s := by
          simp only [Bool.and_eq_true, decide_eq_true_eq, QuoteScan.outside,
            Option.isNone_iff_eq_none] at hcut
          obtain ⟨rfl, hquote, -⟩ := hcut
          simp [QuoteScan.step, hquote]
        have hrun : s.run (x :: xs) = s.run xs := by
          rw [QuoteScan.run, List.foldl_cons, hstep]
          rfl
        rw [if_pos hcut]
        cases before with
        | nil => exact absurd (List.cons.inj hxs).2 (splitOutside_ne_nil s xs)
        | cons p ps =>
            obtain ⟨rfl, hrest⟩ := List.cons.inj hxs
            rw [ih hrest (hrun ▸ hys)]
            rfl
      · rename_i hcut
        rw [if_neg hcut]
        obtain ⟨init, final, hrest⟩ := exists_splitOutside_concat (s.step x) xs
        have hjoin := ih hrest hys
        rw [hrest] at hxs
        rw [hjoin]
        cases init with
        | nil =>
            obtain ⟨rfl, rfl⟩ : before = [] ∧ x :: final = last := by
              cases before with
              | nil => simpa [consFirst] using hxs
              | cons p ps => simp [consFirst] at hxs
            rfl
        | cons q qs =>
            cases before with
            | nil => simp [consFirst] at hxs
            | cons p ps =>
                obtain ⟨rfl, hps⟩ := List.cons.inj hxs
                obtain ⟨rfl, hlast⟩ := List.append_inj' hps rfl
                cases hlast
                rfl

/-- A comma outside quotes and parentheses cuts. -/
theorem splitTopLevel_closed {xs : List Char} (h : (QuoteScan.initial.run xs).outside = true)
    (ys : List Char) : splitTopLevel (xs ++ ',' :: ys) = splitTopLevel xs ++ splitTopLevel ys := by
  obtain ⟨before, last, hxs⟩ := exists_splitOutside_concat .initial xs
  have hys : splitOutside (QuoteScan.initial.run xs) (',' :: ys) = [] :: splitTopLevel ys := by
    rw [splitOutside, if_pos (by simpa using h), QuoteScan.run_eq_initial h]
    rfl
  have hpieces : splitTopLevel xs = before ++ [last] := hxs
  rw [splitTopLevel, splitOutside_join hxs hys, hpieces, List.append_nil, List.append_assoc]
  rfl

/-- A comma inside of quotes or parentheses is a part of its piece. -/
theorem splitTopLevel_open {xs : List Char} (h : (QuoteScan.initial.run xs).outside = false)
    (ys : List Char) :
    ∃ before last first after, splitTopLevel xs = before ++ [last] ∧
      splitOutside (QuoteScan.initial.run (xs ++ [','])) ys = first :: after ∧
      splitTopLevel (xs ++ ',' :: ys) = before ++ (last ++ ',' :: first) :: after := by
  obtain ⟨before, last, hxs⟩ := exists_splitOutside_concat .initial xs
  obtain ⟨first, after, hrest⟩ :=
    exists_splitOutside_cons (QuoteScan.initial.run (xs ++ [','])) ys
  refine ⟨before, last, first, after, hxs, hrest, splitOutside_join hxs ?_⟩
  rw [run_append] at hrest
  rw [splitOutside, if_neg (by simp [h])]
  exact congrArg (consFirst ',') hrest

/-! Attributes by their keys. -/

/-- Put `a` in the place of the entry with its key, or at the end if there is none. -/
def replaceOrAppend (entries : List Attribute) (a : Attribute) : List Attribute :=
  if a.folded ∈ entries.map Attribute.folded then
    entries.map fun e => if e.folded = a.folded then a else e
  else entries ++ [a]

section Insertion

variable {a b : Attribute} {es : List Attribute}

theorem insertAttribute_eq (h : (es.map Attribute.folded).Nodup) :
    insertAttribute a es = replaceOrAppend es a := by
  by_cases hmem : a.folded ∈ es.map Attribute.folded
  · rw [replaceOrAppend, if_pos hmem]
    induction es with
    | nil => cases hmem
    | cons e es ih =>
        rw [List.map_cons, List.nodup_cons] at h
        rw [insertAttribute, List.map_cons]
        split
        · rename_i heq
          have hrest : es.map (fun e => if e.folded = a.folded then a else e) = es.map id := by
            apply List.map_congr_left
            intro d hd
            have hkey : d.folded ≠ a.folded := by
              intro hkey
              rw [heq, ← hkey] at h
              exact h.1 (List.mem_map_of_mem hd)
            rw [if_neg hkey]
            rfl
          rw [hrest, List.map_id]
        · rename_i hne
          rw [List.map_cons, List.mem_cons] at hmem
          rw [ih h.2 (hmem.resolve_left (Ne.symm hne))]
  · rw [replaceOrAppend, if_neg hmem, insertAttribute_of_not_mem hmem]

/-- Of two attributes with one key the second stays. -/
theorem insertAttribute_same (h : b.folded = a.folded) (es : List Attribute) :
    insertAttribute a (insertAttribute b es) = insertAttribute a es := by
  induction es with
  | nil => simp [insertAttribute, h]
  | cons e es ih =>
      by_cases he : e.folded = a.folded
      · simp [insertAttribute, h, he]
      · simp [insertAttribute, h, he, ih]

/-- A key that has its place lets others be inserted before or after. -/
theorem insertAttribute_comm (hne : b.folded ≠ a.folded)
    (hmem : a.folded ∈ es.map Attribute.folded) :
    insertAttribute a (insertAttribute b es) = insertAttribute b (insertAttribute a es) := by
  induction es with
  | nil => cases hmem
  | cons e es ih =>
      by_cases ha : e.folded = a.folded
      · simp [insertAttribute, ha, hne.symm]
      · rw [List.map_cons, List.mem_cons] at hmem
        by_cases hb : e.folded = b.folded
        · simp [insertAttribute, hb, hne]
        · simp [insertAttribute, ha, hb, ih (hmem.resolve_left (Ne.symm ha))]

theorem mem_map_insertAttribute {key : String} (h : key ∈ es.map Attribute.folded) :
    key ∈ (insertAttribute a es).map Attribute.folded := by
  rw [map_folded_insertAttribute]
  split
  · exact h
  · exact List.mem_append_left _ h

end Insertion

namespace AttributeList

variable {l : AttributeList}

/-- No two attributes have the same key. -/
def Distinct (l : AttributeList) : Prop := (l.entries.map Attribute.folded).Nodup

theorem distinct_empty : empty.Distinct := List.nodup_nil

theorem Distinct.insert (h : l.Distinct) (a : Attribute) : (l.insert a).Distinct := by
  unfold Distinct AttributeList.insert
  rw [map_folded_insertAttribute]
  split
  · exact h
  · rename_i hnew
    exact List.nodup_append.mpr ⟨h, by simp, fun x hx y hy => by
      rintro rfl
      exact hnew (List.mem_singleton.mp hy ▸ hx)⟩

theorem Distinct.foldl_insert (h : l.Distinct) (as : List Attribute) :
    (as.foldl AttributeList.insert l).Distinct := by
  induction as generalizing l with
  | nil => exact h
  | cons a as ih => exact ih (h.insert a)

theorem distinct_ofChars (cs : List Char) : (ofChars cs).Distinct :=
  distinct_empty.foldl_insert _

theorem Distinct.get?_eq (h : l.Distinct) {a : Attribute} (ha : a ∈ l.entries) :
    l.get? a.key = some a := by
  obtain ⟨entries⟩ := l
  unfold get?
  dsimp only
  induction entries with
  | nil => cases ha
  | cons e es ih =>
      have hes := List.nodup_cons.mp h
      rcases List.mem_cons.mp ha with rfl | ha
      · exact List.find?_cons_of_pos (beq_self_eq_true _)
      · have hne : e.folded ≠ foldKey a.key := by
          intro heq
          exact hes.1 (heq ▸ List.mem_map_of_mem ha)
        rw [List.find?_cons_of_neg (by simpa using hne)]
        exact ih hes.2 ha

/-- An attribute whose key has its place and is not named later may as well come first. -/
theorem insert_foldl {a : Attribute} {es : List Attribute}
    (hnew : a.folded ∉ es.map Attribute.folded)
    (hmem : a.folded ∈ l.entries.map Attribute.folded) :
    (es.foldl insert l).insert a = es.foldl insert (l.insert a) := by
  induction es generalizing l with
  | nil => rfl
  | cons e es ih =>
      rw [List.map_cons, List.mem_cons, not_or] at hnew
      have hcomm : (l.insert e).insert a = (l.insert a).insert e := by
        unfold insert
        rw [insertAttribute_comm (Ne.symm hnew.1) hmem]
      have hplace : a.folded ∈ (l.insert e).entries.map Attribute.folded :=
        mem_map_insertAttribute hmem
      rw [List.foldl_cons, List.foldl_cons, ih hnew.2 hplace, hcomm]

/-- One attribute more can be inserted at the end, or among those that are inserted. -/
theorem foldl_insertAttribute {a : Attribute} {es : List Attribute}
    (h : (es.map Attribute.folded).Nodup) (l : AttributeList) :
    (insertAttribute a es).foldl insert l = (es.foldl insert l).insert a := by
  induction es generalizing l with
  | nil => rfl
  | cons e es ih =>
      rw [List.map_cons, List.nodup_cons] at h
      rw [insertAttribute]
      split
      · rename_i heq
        have hmem : a.folded ∈ (l.insert e).entries.map Attribute.folded := by
          unfold insert
          rw [map_folded_insertAttribute, heq]
          split <;> simp [*]
        have hsame : (l.insert e).insert a = l.insert a := by
          unfold insert
          rw [insertAttribute_same heq]
        rw [List.foldl_cons, List.foldl_cons, insert_foldl (heq ▸ h.1) hmem, hsame]
      · rw [List.foldl_cons, List.foldl_cons, ih h.2]

/-- Only the last attribute of each key counts, in the place of the first. -/
theorem foldl_insert_entries (l : AttributeList) (as : List Attribute) :
    (as.foldl insert empty).entries.foldl insert l = as.foldl insert l := by
  induction as using List.reverseRecOn with
  | nil => rfl
  | append_singleton as a ih =>
      have hnodup : (as.foldl insert empty).Distinct := distinct_empty.foldl_insert as
      rw [List.foldl_concat, List.foldl_concat, ← ih]
      exact foldl_insertAttribute hnodup l

theorem Distinct.entries_foldl (h : l.Distinct) (as : List Attribute) :
    (as.foldl AttributeList.insert l).entries = as.foldl replaceOrAppend l.entries := by
  induction as generalizing l with
  | nil => rfl
  | cons a as ih =>
      rw [List.foldl_cons, List.foldl_cons, ih (h.insert a), ← insertAttribute_eq h]
      rfl

/-- Text after a comma that cuts is read on top of the text before it. -/
theorem entries_ofChars_comma {xs : List Char} (h : (QuoteScan.initial.run xs).outside = true)
    (ys : List Char) :
    (ofChars (xs ++ ',' :: ys)).entries =
      (ofChars ys).entries.foldl replaceOrAppend (ofChars xs).entries := by
  have hfront : (ofChars ys).entries.foldl insert (ofChars xs) =
      ((splitTopLevel ys).filterMap attributeOf?).foldl insert (ofChars xs) :=
    foldl_insert_entries _ _
  rw [← (distinct_ofChars xs).entries_foldl, hfront, ofChars, splitTopLevel_closed h,
    List.filterMap_append, List.foldl_append]
  rfl

end AttributeList

/-- Attribute text is cut exactly at the commas outside quotes and parentheses: its pieces joined
by commas are the text.  What follows such a comma is read into what stands before it, key by key,
any other comma stays inside of its piece, and every attribute is found by its key. -/
theorem AttributeList.parse_commas (a b : String) :
    [','].intercalate (splitTopLevel a.toList) = a.toList ∧
      ((QuoteScan.initial.run a.toList).outside = true →
        (parse (a ++ "," ++ b)).entries =
          (parse b).entries.foldl replaceOrAppend (parse a).entries) ∧
      ((QuoteScan.initial.run a.toList).outside = false →
        ∃ before last first after, splitTopLevel a.toList = before ++ [last] ∧
          splitOutside (QuoteScan.initial.run (a ++ ",").toList) b.toList = first :: after ∧
          splitTopLevel (a ++ "," ++ b).toList = before ++ (last ++ ',' :: first) :: after) ∧
      (∀ e ∈ (parse a).entries, (parse a).get? e.key = some e) ∧
      ((parse a).entries.map Attribute.folded).Nodup := by
  have hjoin : (a ++ "," ++ b).toList = a.toList ++ ',' :: b.toList := by simp
  have hcomma : (a ++ ",").toList = a.toList ++ [','] := by simp
  have hdistinct := distinct_ofChars a.toList
  refine ⟨intercalate_splitOutside _ _, ?_, ?_, fun e he => hdistinct.get?_eq he, hdistinct⟩
  · intro hclosed
    rw [parse, hjoin]
    exact entries_ofChars_comma hclosed b.toList
  · intro hopen
    rw [hjoin, hcomma]
    exact splitTopLevel_open hopen b.toList

/-- A key that is named again after an escaped quote, and a comma inside a quote. -/
theorem AttributeList.parse_commas_renamed :
    (QuoteScan.initial.run "min=1, code=\"a\\\",(\"".toList).outside = true ∧
      (parse ("min=1, code=\"a\\\",(\"" ++ "," ++ "MIN=2, max=3")).entries =
        [⟨"MIN", "2"⟩, ⟨"code", "\"a\\\",(\""⟩, ⟨"max", "3"⟩] ∧
      (QuoteScan.initial.run "code=\"a".toList).outside = false ∧
      ∃ before last first after, splitTopLevel "code=\"a".toList = before ++ [last] ∧
        splitTopLevel ("code=\"a" ++ "," ++ "b\"").toList =
          before ++ (last ++ ',' :: first) :: after := by
  have hclosed : (QuoteScan.initial.run "min=1, code=\"a\\\",(\"".toList).outside = true := by
    decide +kernel
  have hopen : (QuoteScan.initial.run "code=\"a".toList).outside = false := by decide +kernel
  refine ⟨hclosed, ?_, hopen, ?_⟩
  · rw [(parse_commas _ "MIN=2, max=3").2.1 hclosed]
    decide +kernel
  · obtain ⟨before, last, first, after, hlast, -, hall⟩ :=
      (parse_commas "code=\"a" "b\"").2.2.1 hopen
    exact ⟨before, last, first, after, hlast, hall⟩

end FieldRules
