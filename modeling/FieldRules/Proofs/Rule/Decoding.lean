/-
Making rules from attributes.  A rule holds, for each of its parameters, the value of that key,
and is made exactly if all those values can be read.  So nothing else in the attribute text counts.
-/
import FieldRules.Proofs.Outcome
import FieldRules.Proofs.Rule.Splitting
import FieldRules.Rule.Catalogue
import Mathlib.Data.List.Basic
import Mathlib.Logic.Function.Basic

namespace FieldRules

/-! Values.  Each is read without regard to the rule and the key that it is for. -/

def integerOf? (value : String) : Option Int64 := readInteger? (value.toList.filter (· != '_'))

def decimalOf? (value : String) : Option Double := readDecimal? (value.toList.filter (· != '_'))

def textOf? (value : String) : Option String :=
  (Attribute.textChars? value.toList).map String.ofList

namespace Attribute

variable (a : Attribute) (rule : String)

theorem toOption_integer : (a.integer rule).toOption = integerOf? a.value := by
  unfold integer integerOf? digits
  cases readInteger? (a.value.toList.filter (· != '_')) <;> rfl

theorem toOption_decimal : (a.decimal rule).toOption = decimalOf? a.value := by
  unfold decimal decimalOf? digits
  cases readDecimal? (a.value.toList.filter (· != '_')) <;> rfl

theorem toOption_text : (a.text rule).toOption = textOf? a.value := by
  unfold text textOf?
  cases textChars? a.value.toList <;> rfl

end Attribute

namespace AttributeList

variable {l : AttributeList}

/-- The value of a key in its folded form. -/
def value? (l : AttributeList) (key : String) : Option String :=
  (l.entries.find? fun a => a.folded == key).map Attribute.value

theorem map_value_get? (l : AttributeList) (key : String) :
    (l.get? key).map Attribute.value = l.value? (foldKey key) := rfl

theorem value?_concat {as : List Attribute} {a : Attribute}
    (h : ((as ++ [a]).map Attribute.folded).Nodup) :
    value? ⟨as⟩ a.folded = none ∧
      value? ⟨as ++ [a]⟩ = Function.update (value? ⟨as⟩) a.folded (some a.value) := by
  rw [List.map_append, List.nodup_append] at h
  have hnone : as.find? (fun b => b.folded == a.folded) = none := by
    rw [List.find?_eq_none]
    intro b hb
    rw [beq_iff_eq]
    exact h.2.2 _ (List.mem_map_of_mem hb) _ List.mem_cons_self
  refine ⟨by rw [value?, hnone]; rfl, ?_⟩
  funext key
  unfold value?
  rw [List.find?_append]
  by_cases hkey : key = a.folded
  · subst hkey
    rw [Function.update_self, hnone]
    simp
  · rw [Function.update_of_ne hkey]
    have hlast : [a].find? (fun b => b.folded == key) = none :=
      List.find?_cons_of_neg (by simpa using Ne.symm hkey)
    rw [hlast, Option.or_none]

end AttributeList

theorem toOption_bind {ε α β : Type} (x : Except ε α) (f : α → Except ε β) :
    (x >>= f).toOption = x.toOption.bind fun a => (f a).toOption := by
  cases x <;> rfl

theorem toOption_ok {ε α : Type} (a : α) : (Except.ok a : Except ε α).toOption = some a := rfl

/-- Attributes are taken one by one.  If each sets the value of its key in what `read` makes of
the values so far, in the end `read` has all values, whatever their order was. -/
theorem toOption_foldlM {σ : Type} {step : σ → Attribute → Except RuleError σ} (unset : σ)
    (read : (String → Option String) → Option σ) (hunset : read (fun _ => none) = some unset)
    (hstep : ∀ value? a, value? a.folded = none →
      (read value?).bind (fun s => (step s a).toOption) =
        read (Function.update value? a.folded (some a.value)))
    {l : AttributeList} (h : l.Distinct) :
    (l.entries.foldlM step unset).toOption = read l.value? := by
  obtain ⟨entries⟩ := l
  dsimp only
  induction entries using List.reverseRecOn with
  | nil => exact hunset.symm
  | append_singleton as a ih =>
      obtain ⟨hnew, hall⟩ := AttributeList.value?_concat h
      have has : AttributeList.Distinct ⟨as⟩ := by
        unfold AttributeList.Distinct at h ⊢
        rw [List.map_append] at h
        exact (List.nodup_append.mp h).1
      rw [List.foldlM_append, toOption_bind, ih has, hall, ← hstep _ a hnew]
      simp only [List.foldlM_cons, List.foldlM_nil, bind_pure]

/-! Rules. -/

/-- The keys of the described parameters, in their folded form. -/
def RuleInfo.keys (info : RuleInfo) : List String := info.params.map fun p => foldKey p.name

namespace Length

/-- The rule with these values of its parameters. -/
def ofValues? (value? : String → Option String) : Option Length := do
  let min ← (value? "min").mapM integerOf?
  let max ← (value? "max").mapM integerOf?
  let equal ← (value? "equal").mapM integerOf?
  let message ← (value? "message").mapM textOf?
  let code ← (value? "code").mapM textOf?
  return ⟨min, max, equal, message, code⟩

/-- A parameter that is not set yet may as well be read last. -/
theorem ofValues?_update (value? : String → Option String) (a : Attribute)
    (h : value? a.folded = none) :
    (ofValues? value?).bind (fun rule => (rule.withAttribute a).toOption) =
      ofValues? (Function.update value? a.folded (some a.value)) := by
  unfold withAttribute ofValues?
  generalize a.folded = key at h
  have hother : ∀ k, k ≠ key → Function.update value? key (some a.value) k = value? k :=
    fun k hk => Function.update_of_ne hk _ _
  split
  case h_6 hmin hmax hequal hmessage hcode =>
    simp only [hother _ (Ne.symm hmin), hother _ (Ne.symm hmax), hother _ (Ne.symm hequal),
      hother _ (Ne.symm hmessage), hother _ (Ne.symm hcode), toOption_ok, Option.bind_fun_some]
  all_goals
    simp only [Function.update_self, hother, ne_eq, String.reduceEq,
      not_false_eq_true, h, Option.mapM_none, Option.mapM_some, toOption_bind,
      Attribute.toOption_integer, Attribute.toOption_text]
    cases integerOf? a.value <;> cases textOf? a.value <;>
      simp [Option.bind_assoc, toOption_ok]

theorem toOption_ofAttributes {l : AttributeList} (h : l.Distinct) :
    (ofAttributes l).toOption = ofValues? l.value? :=
  toOption_foldlM unset ofValues? rfl ofValues?_update h

theorem keys_info : info.keys = ["min", "max", "equal", "message", "code"] := by decide +kernel

theorem ofValues?_congr {value? value?' : String → Option String}
    (h : ∀ key ∈ info.keys, value? key = value?' key) : ofValues? value? = ofValues? value?' := by
  simp only [keys_info, List.forall_mem_cons] at h
  obtain ⟨hmin, hmax, hequal, hmessage, hcode, -⟩ := h
  rw [ofValues?, ofValues?, hmin, hmax, hequal, hmessage, hcode]

end Length

namespace Range

/-- The rule with these values of its parameters. -/
def ofValues? (value? : String → Option String) : Option Range := do
  let min ← (value? "min").mapM decimalOf?
  let max ← (value? "max").mapM decimalOf?
  let exclusiveMin ← (value? "exclusivemin").mapM decimalOf?
  let exclusiveMax ← (value? "exclusivemax").mapM decimalOf?
  let message ← (value? "message").mapM textOf?
  let code ← (value? "code").mapM textOf?
  return ⟨min, max, exclusiveMin, exclusiveMax, message, code⟩

/-- A parameter that is not set yet may as well be read last. -/
theorem ofValues?_update (value? : String → Option String) (a : Attribute)
    (h : value? a.folded = none) :
    (ofValues? value?).bind (fun rule => (rule.withAttribute a).toOption) =
      ofValues? (Function.update value? a.folded (some a.value)) := by
  unfold withAttribute ofValues?
  generalize a.folded = key at h
  have hother : ∀ k, k ≠ key → Function.update value? key (some a.value) k = value? k :=
    fun k hk => Function.update_of_ne hk _ _
  split
  case h_7 hmin hmax hlower hupper hmessage hcode =>
    simp only [hother _ (Ne.symm hmin), hother _ (Ne.symm hmax), hother _ (Ne.symm hlower),
      hother _ (Ne.symm hupper), hother _ (Ne.symm hmessage), hother _ (Ne.symm hcode),
      toOption_ok, Option.bind_fun_some]
  all_goals
    simp only [Function.update_self, hother, ne_eq, String.reduceEq, not_false_eq_true, h,
      Option.mapM_none, Option.mapM_some, toOption_bind, Attribute.toOption_decimal,
      Attribute.toOption_text]
    cases decimalOf? a.value <;> cases textOf? a.value <;>
      simp [Option.bind_assoc, toOption_ok]

theorem toOption_ofAttributes {l : AttributeList} (h : l.Distinct) :
    (ofAttributes l).toOption = ofValues? l.value? :=
  toOption_foldlM unset ofValues? rfl ofValues?_update h

theorem keys_info : info.keys =
    ["min", "max", "exclusivemin", "exclusivemax", "message", "code"] := by decide +kernel

theorem ofValues?_congr {value? value?' : String → Option String}
    (h : ∀ key ∈ info.keys, value? key = value?' key) : ofValues? value? = ofValues? value?' := by
  simp only [keys_info, List.forall_mem_cons] at h
  obtain ⟨hmin, hmax, hlower, hupper, hmessage, hcode, -⟩ := h
  rw [ofValues?, ofValues?, hmin, hmax, hlower, hupper, hmessage, hcode]

end Range

theorem toOption_map {ε α β : Type} (f : α → β) (x : Except ε α) :
    (x.map f).toOption = x.toOption.map f := by
  cases x <;> rfl

/-- What a rule that is always there is made from: the values of its described parameters. -/
theorem Catalogue.toOption_construct_congr {info : RuleInfo} (hinfo : info ∈ builtin.infos)
    {raw raw' : String}
    (h : ∀ key ∈ info.keys, (AttributeList.parse raw).value? key =
      (AttributeList.parse raw').value? key) :
    (builtin.construct info.name raw).toOption = (builtin.construct info.name raw').toOption := by
  have hraw := AttributeList.distinct_ofChars raw.toList
  have hraw' := AttributeList.distinct_ofChars raw'.toList
  have hcases : info = Length.info ∨ info = Range.info := by
    simpa using (show info ∈ [Length.info, Range.info] from hinfo)
  rcases hcases with rfl | rfl
  · have hread : ∀ text, builtin.construct Length.info.name text = Length.make (.parse text) :=
      fun _ => rfl
    rw [hread, hread, Length.make, Length.make, toOption_map, toOption_map, AttributeList.parse,
      AttributeList.parse, Length.toOption_ofAttributes hraw, Length.toOption_ofAttributes hraw']
    exact congrArg _ (Length.ofValues?_congr h)
  · have hread : ∀ text, builtin.construct Range.info.name text = Range.make (.parse text) :=
      fun _ => rfl
    rw [hread, hread, Range.make, Range.make, toOption_map, toOption_map, AttributeList.parse,
      AttributeList.parse, Range.toOption_ofAttributes hraw, Range.toOption_ofAttributes hraw']
    exact congrArg _ (Range.ofValues?_congr h)

/-- A rule depends on the last values of its own parameters only: two texts that agree on these
make the same rule or both none, in whatever order, spelling and company they name them. -/
theorem Catalogue.construct_congr {info : RuleInfo} (hinfo : info ∈ builtin.infos)
    {raw raw' : String}
    (h : ∀ p ∈ info.params,
      ((AttributeList.parse raw).get? p.name).map Attribute.value =
        ((AttributeList.parse raw').get? p.name).map Attribute.value) :
    (∃ rule, builtin.construct info.name raw = .ok rule ∧
        builtin.construct info.name raw' = .ok rule) ∨
      (∃ e, builtin.construct info.name raw = .error e) ∧
        ∃ e, builtin.construct info.name raw' = .error e := by
  have hvalues : ∀ key ∈ info.keys, (AttributeList.parse raw).value? key =
      (AttributeList.parse raw').value? key := by
    intro key hkey
    obtain ⟨p, hp, rfl⟩ := List.mem_map.mp hkey
    rw [← AttributeList.map_value_get?, ← AttributeList.map_value_get?]
    exact h p hp
  have hsame := toOption_construct_congr hinfo hvalues
  generalize builtin.construct info.name raw = made, builtin.construct info.name raw' = made'
    at hsame
  cases made with
  | error e =>
      cases made' with
      | error e' => exact .inr ⟨⟨e, rfl⟩, e', rfl⟩
      | ok rule => cases hsame
  | ok rule =>
      cases made' with
      | error e' => cases hsame
      | ok rule' =>
          cases hsame
          exact .inl ⟨rule, rfl, rfl⟩

/-- Keys in another spelling and order, a value that is replaced, a piece that is no pair and an
unknown key. -/
theorem Catalogue.construct_congr_renamed :
    Length.info ∈ builtin.infos ∧
      (∀ p ∈ Length.info.params,
        ((AttributeList.parse "min=x, Max=5, MIN=1, strict").get? p.name).map Attribute.value =
          ((AttributeList.parse "max = 5,flavor=2,M-IN=1").get? p.name).map Attribute.value) ∧
      ∃ rule, builtin.construct Length.info.name "min=x, Max=5, MIN=1, strict" = .ok rule ∧
        builtin.construct Length.info.name "max = 5,flavor=2,M-IN=1" = .ok rule := by
  have hinfo : Length.info ∈ builtin.infos := by decide +kernel
  have hvalues : ∀ p ∈ Length.info.params,
      ((AttributeList.parse "min=x, Max=5, MIN=1, strict").get? p.name).map Attribute.value =
        ((AttributeList.parse "max = 5,flavor=2,M-IN=1").get? p.name).map Attribute.value := by
    decide +kernel
  refine ⟨hinfo, hvalues, (construct_congr hinfo hvalues).resolve_right ?_⟩
  rintro ⟨⟨e, he⟩, -⟩
  have hok : (builtin.construct Length.info.name "min=x, Max=5, MIN=1, strict").toOption =
      some (.length ⟨some 1, some 5, none, none, none⟩) := by decide +kernel
  rw [he] at hok
  cases hok

end FieldRules
