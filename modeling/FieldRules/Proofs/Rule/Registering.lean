/-
Runs of registrations.  A catalogue is a map in which the last registration under a key counts
and the first one gives the place.  The letter case of a name counts inside the name only, where
a capital starts another word.
-/
import FieldRules.Proofs.Text.SnakeCase
import FieldRules.Rule.Catalogue

namespace FieldRules

/-! Keys. -/

theorem toList_ruleKey (name : String) :
    (ruleKey name).toList = snakeChars (trim name.toList) := by
  rw [ruleKey, snakeCase, trimText, String.toList_ofList, String.toList_ofList]

/-- A key is its own key. -/
theorem ruleKey_ruleKey (name : String) : ruleKey (ruleKey name) = ruleKey name := by
  refine String.toList_inj.mp ?_
  rw [toList_ruleKey, toList_ruleKey, trim_snakeChars_trim, snakeChars_snakeChars]

theorem ruleKey_of_isAlphanum {name : String} (h : ∀ a ∈ name.toList, a.isAlphanum = true) :
    ruleKey name = String.ofList (wordsAtCapitals name.toList) := by
  refine String.toList_inj.mp ?_
  rw [toList_ruleKey, trim_of_not_blank fun a ha => isBlank_of_isAlphanum (h a ha),
    snakeChars_of_isAlphanum h, String.toList_ofList]

/-- A character whose lowercase is a letter or a digit is itself one. -/
theorem isAlphanum_of_toLower {a : Char} (h : (a.toLower.isLower || a.toLower.isDigit) = true) :
    a.isAlphanum = true := by
  cases hupper : a.isUpper with
  | true => simp [Char.isAlphanum, Char.isAlpha, hupper]
  | false =>
      rw [toLower_of_not_isUpper hupper, Bool.or_eq_true] at h
      rcases h with h | h
      · simp [Char.isAlphanum, Char.isAlpha, h]
      · simp [Char.isAlphanum, h]

/-- A word in lower case is its own key. -/
theorem ruleKey_of_word {name : String}
    (h : ∀ a ∈ name.toList, (a.isLower || a.isDigit) = true) : ruleKey name = name := by
  have hupper : ∀ a ∈ name.toList, a.isUpper = false := by
    intro a ha
    have hlower := h a ha
    simp [Char.isLower, Char.isDigit, Char.isUpper, UInt32.le_iff_toNat_le] at hlower ⊢
    omega
  have hself : name.toList.map Char.toLower = name.toList :=
    (List.map_congr_left fun a ha => toLower_of_not_isUpper (hupper a ha)).trans (List.map_id _)
  have hletters : ∀ a ∈ name.toList, a.isAlphanum = true := by
    intro a ha
    refine isAlphanum_of_toLower ?_
    rw [toLower_of_not_isUpper (hupper a ha)]
    exact h a ha
  have hwords := (wordsAtCapitals_eq_map_iff hletters).mpr fun a ha =>
    hupper a (List.mem_of_mem_tail ha)
  rw [ruleKey_of_isAlphanum hletters, hwords, hself, String.ofList_toList]

/-! Entries. -/

/-- The last of these entries with a key. -/
def latest? (es : List CatalogueEntry) (key : String) : Option CatalogueEntry :=
  es.reverse.find? fun e => e.key == key

theorem latest?_concat (es : List CatalogueEntry) (e : CatalogueEntry) (key : String) :
    latest? (es ++ [e]) key = if e.key = key then some e else latest? es key := by
  rw [latest?, List.reverse_concat, List.find?_cons]
  by_cases hkey : e.key = key
  · simp [hkey]
  · rw [if_neg hkey, beq_false_of_ne hkey]
    rfl

theorem find?_insertEntry (e : CatalogueEntry) (ds : List CatalogueEntry) (key : String) :
    (insertEntry e ds).find? (fun d => d.key == key) =
      if e.key = key then some e else ds.find? fun d => d.key == key := by
  induction ds with
  | nil =>
      rw [insertEntry, List.find?_singleton]
      simp
  | cons d ds ih =>
      rw [insertEntry]
      by_cases hd : d.key = e.key
      · rw [if_pos hd, List.find?_cons, List.find?_cons, hd]
        by_cases hkey : e.key = key
        · simp [hkey]
        · simp [hkey, beq_false_of_ne hkey]
      · rw [if_neg hd, List.find?_cons, List.find?_cons, ih]
        by_cases hkey : d.key = key
        · have hother : e.key ≠ key := fun he => hd (hkey.trans he.symm)
          simp [hkey, hother]
        · simp [beq_false_of_ne hkey]

theorem map_key_insertEntry (e : CatalogueEntry) (ds : List CatalogueEntry) :
    (insertEntry e ds).map CatalogueEntry.key =
      if e.key ∈ ds.map CatalogueEntry.key then ds.map CatalogueEntry.key
      else ds.map CatalogueEntry.key ++ [e.key] := by
  induction ds with
  | nil => rfl
  | cons d ds ih =>
      rw [insertEntry]
      by_cases hd : d.key = e.key
      · simp [hd]
      · rw [if_neg hd, List.map_cons, List.map_cons, ih]
        have hne : ¬ e.key = d.key := fun he => hd he.symm
        split <;> simp_all

theorem eraseDups_concat (keys : List String) (key : String) :
    (keys ++ [key]).eraseDups =
      if key ∈ keys then keys.eraseDups else keys.eraseDups ++ [key] := by
  rw [List.eraseDups_append]
  split <;> simp_all [List.removeAll, List.eraseDups_cons]

/-- What registering `es` one after the other makes of the entries. -/
structure Tracks (es entries : List CatalogueEntry) : Prop where
  find : ∀ key, entries.find? (fun e => e.key == key) = latest? es key
  keys : entries.map CatalogueEntry.key = (es.map CatalogueEntry.key).eraseDups
  nodup : (entries.map CatalogueEntry.key).Nodup

namespace Tracks

variable {es entries : List CatalogueEntry}

theorem nil : Tracks [] [] := ⟨fun _ => rfl, rfl, List.nodup_nil⟩

theorem insert (h : Tracks es entries) (e : CatalogueEntry) :
    Tracks (es ++ [e]) (insertEntry e entries) where
  find key := by rw [find?_insertEntry, h.find, latest?_concat]
  keys := by
    have hmem : e.key ∈ entries.map CatalogueEntry.key ↔ e.key ∈ es.map CatalogueEntry.key := by
      rw [h.keys, List.mem_eraseDups]
    rw [map_key_insertEntry, List.map_append, List.map_singleton, eraseDups_concat, h.keys]
    simp only [← h.keys, hmem]
  nodup := by
    rw [map_key_insertEntry]
    split
    · exact h.nodup
    · rename_i hnew
      rw [List.nodup_append]
      refine ⟨h.nodup, List.nodup_singleton _, fun a ha b hb => ?_⟩
      rw [List.mem_singleton] at hb
      rintro rfl
      exact hnew (hb ▸ ha)

theorem find_of_mem (h : Tracks es entries) {e : CatalogueEntry} (he : e ∈ entries) :
    entries.find? (fun d => d.key == e.key) = some e := by
  cases hfound : entries.find? fun d => d.key == e.key with
  | none => exact absurd (List.find?_eq_none.mp hfound e he) (by simp)
  | some d =>
      have hkey : d.key = e.key := by simpa using List.find?_some hfound
      rw [List.inj_on_of_nodup_map h.nodup (List.mem_of_find?_eq_some hfound) he hkey]

/-- Each entry is the last one with its key. -/
theorem map_some (h : Tracks es entries) :
    entries.map some = (es.map CatalogueEntry.key).eraseDups.map (latest? es) := by
  rw [← h.keys, List.map_map]
  refine List.map_congr_left fun e he => ?_
  rw [Function.comp_apply, ← h.find, h.find_of_mem he]

end Tracks

namespace Catalogue

/-- Catalogues and what was registered in them, in order, since the catalogue was empty. -/
inductive Run : List CatalogueEntry → Catalogue → Prop
  | empty : Run [] empty
  | builtin : Run [⟨Length.info, Length.make⟩, ⟨Range.info, Range.make⟩] builtin
  | register {es : List CatalogueEntry} {c : Catalogue} (run : Run es c) (info : RuleInfo)
      (make : RuleMaker) : Run (es ++ [⟨info, make⟩]) (c.register info make)

variable {es : List CatalogueEntry} {c : Catalogue}

theorem Run.tracks (h : Run es c) : Tracks es c.entries := by
  induction h with
  | empty => exact .nil
  | builtin => exact (Tracks.nil.insert ⟨Length.info, Length.make⟩).insert ⟨Range.info, Range.make⟩
  | register _ info make ih => exact ih.insert ⟨info, make⟩

theorem Run.lookup?_eq_some_iff (h : Run es c) {name : String} {make : RuleMaker} :
    c.lookup? name = some make ↔ ∃ e ∈ c.entries, e.key = ruleKey name ∧ e.make = make := by
  rw [lookup?, Option.map_eq_some_iff]
  constructor
  · rintro ⟨e, hfound, hmake⟩
    exact ⟨e, List.mem_of_find?_eq_some hfound, by simpa using List.find?_some hfound, hmake⟩
  · rintro ⟨e, he, hkey, hmake⟩
    exact ⟨e, hkey ▸ h.tracks.find_of_mem he, hmake⟩

/-- A map from keys to rule kinds, in which these entries were put one after the other. -/
structure LastWriter (es : List CatalogueEntry) (c : Catalogue) : Prop where
  /-- The last entry with the key of a name makes its rules. -/
  lookup : ∀ name, c.lookup? name = (latest? es (ruleKey name)).map CatalogueEntry.make
  /-- One kind for each key, in the order of first entries, described by the last. -/
  infos : c.infos.map some =
    (es.map CatalogueEntry.key).eraseDups.map fun key => (latest? es key).map CatalogueEntry.info
  normalized : ∀ name, c.lookup? (ruleKey name) = c.lookup? name

theorem lastWriter_of_run (h : Run es c) : LastWriter es c where
  lookup name := by rw [lookup?, h.tracks.find]
  infos := by
    calc c.infos.map some
        = (c.entries.map some).map (Option.map CatalogueEntry.info) := by
          rw [infos, List.map_map, List.map_map]
          rfl
      _ = _ := by
          rw [h.tracks.map_some, List.map_map]
          rfl
  normalized name := by rw [lookup?, lookup?, ruleKey_ruleKey]

/-- A kind under another spelling of a name takes the place of the first. -/
theorem lastWriter_of_run_replaced :
    let length : CatalogueEntry := ⟨Length.info, Length.make⟩
    let range : CatalogueEntry := ⟨Range.info, Range.make⟩
    let replaced : RuleInfo := ⟨" Length", "replaced", []⟩
    Run ([length, range] ++ [⟨replaced, Range.make⟩]) (builtin.register replaced Range.make) ∧
      LastWriter ([length, range] ++ [⟨replaced, Range.make⟩])
        (builtin.register replaced Range.make) ∧
      (builtin.register replaced Range.make).infos = [replaced, Range.info] :=
  ⟨Run.builtin.register _ _, lastWriter_of_run (Run.builtin.register _ _), by decide +kernel⟩

/-! Letter case. -/

/-- A kind named by a word is found under a spelling of the word if at most the first letter is a
capital.  Any other spelling is the name of another kind, and finds that. -/
theorem lookup?_respelled_iff (h : Run es c) {e : CatalogueEntry} (he : e ∈ c.entries)
    (hword : ∀ a ∈ e.info.name.toList, (a.isLower || a.isDigit) = true) {spelling : String}
    (hspelling : spelling.toList.map Char.toLower = e.info.name.toList) :
    c.lookup? e.info.name = some e.make ∧
      (c.lookup? spelling = some e.make ↔
        (∀ a ∈ spelling.toList.tail, a.isUpper = false) ∨
          ∃ d ∈ c.entries, d.key = String.ofList (wordsAtCapitals spelling.toList) ∧
            d.make = e.make) ∧
      (c.lookup? spelling = some e.make →
        ∀ raw, c.construct spelling raw = c.construct e.info.name raw) := by
  have hname : c.lookup? e.info.name = some e.make :=
    h.lookup?_eq_some_iff.mpr ⟨e, he, rfl, rfl⟩
  have hletters : ∀ a ∈ spelling.toList, a.isAlphanum = true := fun a ha =>
    isAlphanum_of_toLower (hword _ (hspelling ▸ List.mem_map_of_mem ha))
  have hkey := ruleKey_of_isAlphanum hletters
  refine ⟨hname, ?_, fun hfound raw => by rw [construct, construct, hfound, hname]⟩
  rw [h.lookup?_eq_some_iff, hkey]
  constructor
  · exact .inr
  · rintro (hlower | hother)
    · refine ⟨e, he, ?_, rfl⟩
      rw [(wordsAtCapitals_eq_map_iff hletters).mpr hlower, hspelling, String.ofList_toList]
      exact ruleKey_of_word hword
    · exact hother

/-- A first capital changes nothing. -/
theorem lookup?_respelled_iff_capital :
    ∃ e ∈ builtin.entries, Run [⟨Length.info, Length.make⟩, ⟨Range.info, Range.make⟩] builtin ∧
      (∀ a ∈ e.info.name.toList, (a.isLower || a.isDigit) = true) ∧
      "Length".toList.map Char.toLower = e.info.name.toList ∧
      builtin.lookup? "Length" = some e.make := by
  have hentry : (⟨Length.info, Length.make⟩ : CatalogueEntry) ∈ builtin.entries :=
    List.mem_cons_self
  have hword : ∀ a ∈ Length.info.name.toList, (a.isLower || a.isDigit) = true :=
    List.all_eq_true.mp rfl
  have hspelling : "Length".toList.map Char.toLower = Length.info.name.toList := rfl
  refine ⟨_, hentry, .builtin, hword, hspelling, ?_⟩
  exact (lookup?_respelled_iff .builtin hentry hword hspelling).2.1.mpr (.inl (by simp))

/-- A name in capitals is taken for a word a letter, so the kind is not found. -/
theorem lookup?_allCapitals :
    "LENGTH".toList.map Char.toLower = Length.info.name.toList ∧
      builtin.lookup? Length.info.name = some Length.make ∧ builtin.lookup? "LENGTH" = none ∧
      (builtin.construct Length.info.name "min=1").toOption =
        some (.length ⟨some 1, none, none, none, none⟩) ∧
      builtin.construct "LENGTH" "min=1" = .error (.unsupported "LENGTH") := by
  have hlength : builtin.lookup? Length.info.name = some Length.make :=
    Run.builtin.lookup?_eq_some_iff.mpr ⟨_, List.mem_cons_self, rfl, rfl⟩
  have hnone : builtin.lookup? "LENGTH" = none :=
    Option.isNone_iff_eq_none.mp (by decide +kernel)
  have htrim : trimText "LENGTH" = "LENGTH" := by decide +kernel
  refine ⟨rfl, hlength, hnone, by decide +kernel, ?_⟩
  rw [construct, hnone]
  exact congrArg (fun name => Except.error (RuleError.unsupported name)) htrim

end Catalogue

end FieldRules
