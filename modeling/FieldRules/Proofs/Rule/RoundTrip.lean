/-
The text of a rule.  Written into a directive it is read back as the same rule, whatever
its bounds, its message and its code.
-/
import FieldRules.Proofs.Rule.Parameters
import FieldRules.Rule.Catalogue
import FieldRules.Rule.Directive

namespace FieldRules

/-! Values. -/

theorem isValue_of_plain {value : String}
    (h : ∀ c ∈ value.toList, isPlain c = true ∧ isBlank c = false) : IsValue value :=
  ⟨sealed_of_plain fun c hc => (h c hc).1, trim_of_not_blank fun c hc => (h c hc).2⟩

/-- A digit means nothing to a scan, and is neither white space nor an underscore. -/
theorem plain_of_isDigit {c : Char} (h : c.isDigit = true) :
    isPlain c = true ∧ isBlank c = false ∧ c ≠ '_' :=
  of_isDigit (p := fun c => isPlain c = true ∧ isBlank c = false ∧ c ≠ '_') (by decide) h

theorem isValue_int (n : Int) : IsValue (toString n) := by
  apply isValue_of_plain
  intro c hc
  rcases mem_int hc with rfl | hdigit
  · decide
  · exact ⟨(plain_of_isDigit hdigit).1, (plain_of_isDigit hdigit).2.1⟩

theorem isValue_exactChars (d : Double) : IsValue (String.ofList d.exactChars) := by
  apply isValue_of_plain
  intro c hc
  rw [String.toList_ofList] at hc
  rcases mem_exactChars hc with rfl | rfl | hdigit
  · decide
  · decide
  · exact ⟨(plain_of_isDigit hdigit).1, (plain_of_isDigit hdigit).2.1⟩

theorem isValue_quoteValue (s : String) : IsValue (quoteValue s) := by
  refine ⟨sealed_quoteValue s, ?_⟩
  rw [toList_quoteValue]
  exact trim_eq_self (by decide) (by decide)
    (List.getLast?_eq_some_iff.mpr ⟨'"' :: s.toList.flatMap escapeQuoted, rfl⟩)

theorem isValue_map {β : Type} {text : β → String} (h : ∀ b, IsValue (text b)) {b? : Option β}
    {value : String} (hvalue : b?.map text = some value) : IsValue value := by
  obtain ⟨b, -, rfl⟩ := Option.map_eq_some_iff.mp hvalue
  exact h b

theorem filter_of_no_underscore {cs : List Char} (h : ∀ c ∈ cs, c ≠ '_') :
    cs.filter (· != '_') = cs :=
  List.filter_eq_self.mpr fun c hc => bne_iff_ne.mpr (h c hc)

namespace Attribute

theorem integer_int (key rule : String) (n : Int64) :
    integer ⟨key, toString n.toInt⟩ rule = .ok n := by
  have hdigits : digits ⟨key, toString n.toInt⟩ = (toString n.toInt).toList := by
    apply filter_of_no_underscore
    intro c hc
    rcases mem_int hc with rfl | hdigit
    · decide
    · exact (plain_of_isDigit hdigit).2.2
  rw [integer, hdigits, readInteger?_int]

theorem decimal_exactChars (key rule : String) (d : Double) :
    decimal ⟨key, String.ofList d.exactChars⟩ rule = .ok d := by
  have hdigits : digits ⟨key, String.ofList d.exactChars⟩ = d.exactChars := by
    rw [digits, String.toList_ofList]
    apply filter_of_no_underscore
    intro c hc
    rcases mem_exactChars hc with rfl | rfl | hdigit
    · decide
    · decide
    · exact (plain_of_isDigit hdigit).2.2
  rw [decimal, hdigits, readDecimal?_exactChars]

theorem text_quoteValue (key rule s : String) : text ⟨key, quoteValue s⟩ rule = .ok s := by
  rw [text, textChars?_quoteValue]
  simp

end Attribute

/-! Parameters of a rule. -/

/-- The pairs that are set. -/
def setPairs (params : List (String × Option String)) : List (String × String) :=
  params.filterMap fun (key, value?) => value?.map fun value => (key, value)

theorem ruleText_eq (name : String) (bounds : List (String × Option String))
    (message code : Option String) :
    ruleText name bounds message code =
      name ++ "(" ++ ", ".intercalate ((setPairs (bounds ++ [("message", message.map quoteValue),
        ("code", code.map quoteValue)])).map pairText) ++ ")" := by
  have hparams : ∀ params : List (String × Option String),
      (params.filterMap fun (key, value?) => value?.map fun value => s!"{key}={value}") =
        (setPairs params).map pairText := by
    intro params
    rw [setPairs, List.map_filterMap]
    congr 1
    funext param
    rw [Option.map_map]
    rfl
  rw [ruleText, hparams]

/-- Only keys that are there at all are set. -/
theorem map_fst_setPairs (params : List (String × Option String)) :
    ((setPairs params).map Prod.fst).Sublist (params.map Prod.fst) := by
  induction params with
  | nil => exact .slnil
  | cons param params ih =>
      obtain ⟨key, value?⟩ := param
      cases value? with
      | none => exact ih.cons key
      | some value => exact ih.cons_cons key

/-- Reading the attribute of an optional parameter sets it, and without one it is left
as it was. -/
theorem foldlM_setPairs {σ β : Type} {step : σ → Attribute → Except RuleError σ} {s : σ}
    {key : String} {text : β → String} (set : σ → Option β → σ) (b? : Option β)
    (hnone : set s none = s) (hsome : ∀ b, step s ⟨key, text b⟩ = .ok (set s (some b)))
    (params : List (String × Option String)) :
    ((setPairs ((key, b?.map text) :: params)).map fun p => (⟨p.1, p.2⟩ : Attribute)).foldlM step s =
      ((setPairs params).map fun p => (⟨p.1, p.2⟩ : Attribute)).foldlM step (set s b?) := by
  cases b? with
  | none =>
      rw [hnone]
      rfl
  | some b =>
      change (do let s' ← step s ⟨key, text b⟩; List.foldlM step s' _) = _
      rw [hsome]
      rfl

/-! Directives. -/

theorem parenthesized?_append {before : List Char} (h : '(' ∉ before) (content : List Char) :
    parenthesized? (before ++ '(' :: (content ++ [')'])) = some content := by
  have hreverse : (content ++ [')']).reverse = ')' :: content.reverse := by simp
  have hclose : splitOnce? ')' (')' :: content.reverse) = some ([], content.reverse) :=
    splitOnce?_append List.not_mem_nil _
  rw [parenthesized?, splitOnce?_append h]
  simp only [Option.bind_eq_bind, Option.bind_some, hreverse, hclose, List.reverse_reverse]
  rfl

theorem ruleParts_append {name : String} (hkey : isKey name = true) (params : List Char) :
    ruleParts (name.toList ++ '(' :: (params ++ [')'])) = (name.toList, params) := by
  have hopen : '(' ∉ name.toList := by
    intro hmem
    have hplain : isPlain '(' = true := (mem_key hkey hmem).1
    exact absurd hplain (by decide)
  have htrim : trim name.toList = name.toList := trim_key hkey
  simp [ruleParts, splitOnce?_append hopen, htrim]

/-- A directive with a rule and its parameters is taken apart at the outer parentheses,
whatever the parameters are. -/
theorem parseDirective_rule {name : String} (hkey : isKey name = true) (hskip : name ≠ "skip")
    (params : String) :
    parseDirective ("+validate(" ++ (name ++ "(" ++ params ++ ")") ++ ")") =
      .ok (.rule name params) := by
  have htext : ("+validate(" ++ (name ++ "(" ++ params ++ ")") ++ ")").toList =
      "+validate".toList ++ '(' :: (name.toList ++ '(' :: (params.toList ++ [')']) ++ [')']) := by
    simp
  have hempty : name.toList ≠ [] := by
    intro h
    simp [isKey, h] at hkey
  have hname : name.toList ≠ "skip".toList := fun h => hskip (String.toList_inj.mp h)
  rw [parseDirective, htext, parenthesized?_append (by decide), Option.map_some,
    ruleParts_append hkey]
  simp only [List.isEmpty_iff, hempty, hname, if_false, String.ofList_toList]

/-- Parameters with different keys are read back as the pairs that are set. -/
theorem parse_setPairs {params : List (String × Option String)} {keys : List String}
    (hparams : params.map Prod.fst = keys) (hkeys : ∀ key ∈ keys, isKey key = true)
    (hnodup : (keys.map foldKey).Nodup)
    (hvalues : ∀ p ∈ params, ∀ value, p.2 = some value → IsValue value) :
    AttributeList.parse (", ".intercalate ((setPairs params).map pairText)) =
      ⟨(setPairs params).map fun p => ⟨p.1, p.2⟩⟩ := by
  have hmem : ∀ pair ∈ setPairs params, (pair.1, some pair.2) ∈ params := by
    intro pair hpair
    obtain ⟨⟨key, value?⟩, hp, heq⟩ := List.mem_filterMap.mp hpair
    obtain ⟨value, hvalue, rfl⟩ := Option.map_eq_some_iff.mp heq
    cases hvalue
    exact hp
  apply parse_pairs
  · intro pair hpair
    exact hkeys _ (hparams ▸ List.mem_map_of_mem (hmem pair hpair))
  · exact fun pair hpair => hvalues _ (hmem pair hpair) pair.2 rfl
  · have hsublist := (map_fst_setPairs params).map foldKey
    rw [hparams, List.map_map] at hsublist
    exact hnodup.sublist hsublist

/-! Rules. -/

namespace Length

/-- The optional parameters of a length. -/
def params (rule : Length) : List (String × Option String) :=
  [("min", rule.min.map fun n => toString n.toInt), ("max", rule.max.map fun n => toString n.toInt),
    ("equal", rule.equal.map fun n => toString n.toInt), ("message", rule.message.map quoteValue),
    ("code", rule.code.map quoteValue)]

theorem text_eq (rule : Length) :
    rule.text = name ++ "(" ++ ", ".intercalate ((setPairs rule.params).map pairText) ++ ")" :=
  ruleText_eq _ _ _ _

theorem isValue_params (rule : Length) :
    ∀ p ∈ rule.params, ∀ value, p.2 = some value → IsValue value := by
  intro p hp
  simp only [params, List.mem_cons, List.not_mem_nil, or_false] at hp
  rcases hp with rfl | rfl | rfl | rfl | rfl
  · exact fun _ => isValue_map fun n : Int64 => isValue_int n.toInt
  · exact fun _ => isValue_map fun n : Int64 => isValue_int n.toInt
  · exact fun _ => isValue_map fun n : Int64 => isValue_int n.toInt
  · exact fun _ => isValue_map isValue_quoteValue
  · exact fun _ => isValue_map isValue_quoteValue

theorem parse_params (rule : Length) :
    AttributeList.parse (", ".intercalate ((setPairs rule.params).map pairText)) =
      ⟨(setPairs rule.params).map fun p => ⟨p.1, p.2⟩⟩ := by
  have hkeys : rule.params.map Prod.fst = ["min", "max", "equal", "message", "code"] := rfl
  exact parse_setPairs hkeys (by decide) (by decide) rule.isValue_params

/-- Every attribute sets the parameter of its key. -/
theorem ofAttributes_params (rule : Length) :
    ofAttributes ⟨(setPairs rule.params).map fun p => ⟨p.1, p.2⟩⟩ = .ok rule := by
  have hmin : foldKey "min" = "min" := by decide
  have hmax : foldKey "max" = "max" := by decide
  have hequal : foldKey "equal" = "equal" := by decide
  have hmessage : foldKey "message" = "message" := by decide
  have hcode : foldKey "code" = "code" := by decide
  rw [ofAttributes, params, foldlM_setPairs (fun r b? => { r with min := b? }) rule.min rfl,
    foldlM_setPairs (fun r b? => { r with max := b? }) rule.max rfl,
    foldlM_setPairs (fun r b? => { r with equal := b? }) rule.equal rfl,
    foldlM_setPairs (fun r s? => { r with message := s? }) rule.message rfl,
    foldlM_setPairs (fun r s? => { r with code := s? }) rule.code rfl]
  · rfl
  · intro s
    simp only [withAttribute, Attribute.folded, hcode, Attribute.text_quoteValue]
    rfl
  · intro s
    simp only [withAttribute, Attribute.folded, hmessage, Attribute.text_quoteValue]
    rfl
  · intro b
    simp only [withAttribute, Attribute.folded, hequal, Attribute.integer_int]
    rfl
  · intro b
    simp only [withAttribute, Attribute.folded, hmax, Attribute.integer_int]
    rfl
  · intro b
    simp only [withAttribute, Attribute.folded, hmin, Attribute.integer_int]
    rfl

end Length

namespace Range

/-- The optional parameters of a range. -/
def params (rule : Range) : List (String × Option String) :=
  let bound (d? : Option Double) := d?.map fun d => String.ofList d.exactChars
  [("min", bound rule.min), ("max", bound rule.max), ("exclusive_min", bound rule.exclusiveMin),
    ("exclusive_max", bound rule.exclusiveMax), ("message", rule.message.map quoteValue),
    ("code", rule.code.map quoteValue)]

theorem text_eq (rule : Range) :
    rule.text = name ++ "(" ++ ", ".intercalate ((setPairs rule.params).map pairText) ++ ")" :=
  ruleText_eq _ _ _ _

theorem isValue_params (rule : Range) :
    ∀ p ∈ rule.params, ∀ value, p.2 = some value → IsValue value := by
  intro p hp
  simp only [params, List.mem_cons, List.not_mem_nil, or_false] at hp
  rcases hp with rfl | rfl | rfl | rfl | rfl | rfl
  · exact fun _ => isValue_map isValue_exactChars
  · exact fun _ => isValue_map isValue_exactChars
  · exact fun _ => isValue_map isValue_exactChars
  · exact fun _ => isValue_map isValue_exactChars
  · exact fun _ => isValue_map isValue_quoteValue
  · exact fun _ => isValue_map isValue_quoteValue

theorem parse_params (rule : Range) :
    AttributeList.parse (", ".intercalate ((setPairs rule.params).map pairText)) =
      ⟨(setPairs rule.params).map fun p => ⟨p.1, p.2⟩⟩ := by
  have hkeys : rule.params.map Prod.fst =
      ["min", "max", "exclusive_min", "exclusive_max", "message", "code"] := rfl
  exact parse_setPairs hkeys (by decide) (by decide) rule.isValue_params

theorem ofAttributes_params (rule : Range) :
    ofAttributes ⟨(setPairs rule.params).map fun p => ⟨p.1, p.2⟩⟩ = .ok rule := by
  have hmin : foldKey "min" = "min" := by decide
  have hmax : foldKey "max" = "max" := by decide
  have hlower : foldKey "exclusive_min" = "exclusivemin" := by decide
  have hupper : foldKey "exclusive_max" = "exclusivemax" := by decide
  have hmessage : foldKey "message" = "message" := by decide
  have hcode : foldKey "code" = "code" := by decide
  rw [ofAttributes, params, foldlM_setPairs (fun r b? => { r with min := b? }) rule.min rfl,
    foldlM_setPairs (fun r b? => { r with max := b? }) rule.max rfl,
    foldlM_setPairs (fun r b? => { r with exclusiveMin := b? }) rule.exclusiveMin rfl,
    foldlM_setPairs (fun r b? => { r with exclusiveMax := b? }) rule.exclusiveMax rfl,
    foldlM_setPairs (fun r s? => { r with message := s? }) rule.message rfl,
    foldlM_setPairs (fun r s? => { r with code := s? }) rule.code rfl]
  · rfl
  · intro s
    simp only [withAttribute, Attribute.folded, hcode, Attribute.text_quoteValue]
    rfl
  · intro s
    simp only [withAttribute, Attribute.folded, hmessage, Attribute.text_quoteValue]
    rfl
  · intro b
    simp only [withAttribute, Attribute.folded, hupper, Attribute.decimal_exactChars]
    rfl
  · intro b
    simp only [withAttribute, Attribute.folded, hlower, Attribute.decimal_exactChars]
    rfl
  · intro b
    simp only [withAttribute, Attribute.folded, hmax, Attribute.decimal_exactChars]
    rfl
  · intro b
    simp only [withAttribute, Attribute.folded, hmin, Attribute.decimal_exactChars]
    rfl

end Range

theorem construct_length (attributes : String) :
    Catalogue.builtin.construct Length.name attributes = Length.make (.parse attributes) := by
  rfl

theorem construct_range (attributes : String) :
    Catalogue.builtin.construct Range.name attributes = Range.make (.parse attributes) := by
  rfl

/-- The text of a rule in a directive is read as the rule, for any bounds and any texts
for message and code. -/
theorem Rule.construct_text (rule : Rule) :
    ∃ attributes, parseDirective ("+validate(" ++ rule.text ++ ")") =
        .ok (.rule rule.name attributes) ∧
      Catalogue.builtin.construct rule.name attributes = .ok rule := by
  cases rule with
  | length rule =>
      refine ⟨", ".intercalate ((setPairs rule.params).map pairText), ?_, ?_⟩
      · rw [text, Length.text_eq]
        exact parseDirective_rule (by decide) (by decide) _
      · have hparse := rule.parse_params
        rw [name, construct_length, Length.make, hparse, rule.ofAttributes_params]
        rfl
  | range rule =>
      refine ⟨", ".intercalate ((setPairs rule.params).map pairText), ?_, ?_⟩
      · rw [text, Range.text_eq]
        exact parseDirective_rule (by decide) (by decide) _
      · have hparse := rule.parse_params
        rw [name, construct_range, Range.make, hparse, rule.ofAttributes_params]
        rfl

end FieldRules
