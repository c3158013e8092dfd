/-
What constant declarations mean, and how the values of an enumeration answer to it.  A spec
without values repeats the type and the expressions of the spec before that has some.  The
values of an enumeration are those of its constants in the order of their declaration; only
where a repeated list does not end in `iota`, its other counters are left out.
-/
import FieldRules.Analysis.Constants
import Mathlib.Data.List.Basic
import Mathlib.Data.List.Induction

namespace FieldRules

/-! Values in the order of their first mention. -/

namespace AllowedValues

variable {a : AllowedValues} {l m : Literal} {ls : List Literal}

theorem push_of_mem (h : l ∈ a.values) : a.push l = a := if_pos h

theorem mem_foldl_push : m ∈ (ls.foldl push a).values ↔ m ∈ a.values ∨ m ∈ ls := by
  induction ls generalizing a with
  | nil => simp
  | cons l ls ih => simp [ih, mem_push, or_assoc]

theorem mem_ofList : m ∈ (ofList ls).values ↔ m ∈ ls := by
  simp [ofList, mem_foldl_push, empty]

theorem foldl_push_of_subset (h : ∀ m ∈ ls, m ∈ a.values) : ls.foldl push a = a := by
  induction ls with
  | nil => rfl
  | cons m ls ih =>
      rw [List.foldl_cons, push_of_mem (h m List.mem_cons_self)]
      exact ih fun n hn => h n (List.mem_cons_of_mem m hn)

/-- Values of which all but one are there already add that one. -/
theorem foldl_push_of_known (hl : l ∈ ls) (h : ∀ m ∈ ls, m ∈ a.values ∨ m = l) :
    ls.foldl push a = a.push l := by
  induction ls with
  | nil => cases hl
  | cons m ls ih =>
      have hrest : ∀ n ∈ ls, n ∈ a.values ∨ n = l := fun n hn => h n (List.mem_cons_of_mem m hn)
      rw [List.foldl_cons]
      rcases h m List.mem_cons_self with hm | rfl
      · rw [push_of_mem hm]
        rcases List.mem_cons.mp hl with rfl | hl
        · rw [push_of_mem hm]
          exact foldl_push_of_subset fun n hn => (hrest n hn).elim id fun e => e ▸ hm
        · exact ih hl hrest
      · exact foldl_push_of_subset fun n hn => mem_push.mpr (hrest n hn)

/-- Values stand in the order of their first mention. -/
theorem ofList_pairwise (ls : List Literal) :
    (ofList ls).values.Pairwise fun l m => ls.idxOf l < ls.idxOf m := by
  induction ls using List.reverseRecOn with
  | nil => exact List.Pairwise.nil
  | append_singleton ls l ih =>
      have hold : (ofList ls).values.Pairwise fun l' m =>
          (ls ++ [l]).idxOf l' < (ls ++ [l]).idxOf m := by
        refine ih.imp_of_mem fun hx hy hlt => ?_
        rwa [List.idxOf_append_of_mem (mem_ofList.mp hx), List.idxOf_append_of_mem (mem_ofList.mp hy)]
      have hpush : ofList (ls ++ [l]) = (ofList ls).push l := by
        simp [ofList]
      rw [hpush, push]
      split
      · exact hold
      · rename_i hnew
        refine List.pairwise_append.mpr ⟨hold, List.pairwise_singleton _ _, fun m hm n hn => ?_⟩
        rw [List.mem_singleton.mp hn, List.idxOf_append_of_mem (mem_ofList.mp hm),
          List.idxOf_append_of_notMem (fun h => hnew (mem_ofList.mpr h))]
        exact Nat.lt_of_lt_of_le (List.idxOf_lt_length_of_mem (mem_ofList.mp hm)) (Nat.le_add_right _ _)

theorem nodup_ofList (ls : List Literal) : (ofList ls).values.Nodup := by
  refine (ofList_pairwise ls).imp fun hlt heq => ?_
  rw [heq] at hlt
  exact Nat.lt_irrefl _ hlt

end AllowedValues

/-! The constants of a group. -/

/-- The value of an expression in a spec where `iota` is `index`. -/
def ConstExpr.value? (index : Nat) : ConstExpr → Option Literal
  | .ident "iota" _ => some ⟨.integer, toString index⟩
  | .literal .str spelling _ => some ⟨.text, spelling⟩
  | .literal .int spelling _ => some ⟨.integer, spelling⟩
  | .literal .char spelling _ => some ⟨.integer, spelling⟩
  | .literal .float spelling _ => some ⟨.float, spelling⟩
  | _ => none

/-- A bare `iota` or a literal that is not imaginary. -/
def ConstExpr.IsPlain : ConstExpr → Prop
  | .ident name _ => name = "iota"
  | .literal kind _ _ => kind ≠ .imag
  | .verbatim _ _ => False

instance : DecidablePred ConstExpr.IsPlain
  | .ident name _ => inferInstanceAs (Decidable (name = "iota"))
  | .literal kind _ _ => inferInstanceAs (Decidable (kind ≠ .imag))
  | .verbatim _ _ => .isFalse id

/-- The name of the type that a spec with values gives its constants, if that is a type of
the package. -/
def ConstSpec.localType? (s : ConstSpec) : Option String := s.type.bind TypeExpr.localName?

/-- The last expression of a spec is a counter. -/
def ConstSpec.endsCounting (s : ConstSpec) : Bool := s.values.getLast?.any isIota

/-- A constant as the language gives it. -/
structure Constant where
  name : Ident
  expr : ConstExpr
  /-- The spec that declares it. -/
  spec : ConstSpec
  /-- The spec where its type and its expression are written. -/
  origin : ConstSpec

namespace Constant

/-- The name of its type, if that is a type of the package. -/
def localType? (k : Constant) : Option String := k.origin.localType?

def value? (k : Constant) : Option Literal := k.expr.value? k.spec.index

/-- It is a counter of a list that is repeated and that does not end in one. -/
def Uncounted (k : Constant) : Prop :=
  k.spec.values = [] ∧ isIota k.expr = true ∧ k.origin.endsCounting = false

instance : DecidablePred Uncounted := fun k =>
  inferInstanceAs (Decidable (k.spec.values = [] ∧ _))

end Constant

namespace ConstSpec

/-- The last spec that has values. -/
def lastWritten? (specs : List ConstSpec) : Option ConstSpec :=
  (specs.filter fun s => !s.values.isEmpty).getLast?

/-- The spec that gives `s` its type and its expressions: `s` itself, or else the last one
before it that has values. -/
def origin? (before : List ConstSpec) (s : ConstSpec) : Option ConstSpec :=
  lastWritten? (before ++ [s])

/-- The constants of a spec. -/
def constants (before : List ConstSpec) (s : ConstSpec) : List Constant :=
  match s.origin? before with
  | some o => (s.names.zip o.values).map fun (name, expr) => ⟨name, expr, s, o⟩
  | none => []

/-- The constants of the specs `rest` of a group. -/
def constantsFrom (before : List ConstSpec) : List ConstSpec → List Constant
  | [] => []
  | s :: rest => s.constants before ++ constantsFrom (before ++ [s]) rest

/-- A spec has a value for each of its names, or neither type nor values and as many names
as the spec that it repeats. -/
def Fits (before : List ConstSpec) (s : ConstSpec) : Prop :=
  (s.values ≠ [] ∧ s.values.length = s.names.length) ∨
    (s.type.isNone ∧ s.values = [] ∧
      ∃ o, lastWritten? before = some o ∧ s.names.length = o.names.length)

/-- All specs of a group fit and have plain values.  The first one must have values, since
it has none to repeat. -/
def RegularFrom (before : List ConstSpec) : List ConstSpec → Prop
  | [] => True
  | s :: rest =>
      s.Fits before ∧ (∀ e ∈ s.values, e.IsPlain) ∧ RegularFrom (before ++ [s]) rest

theorem lastWritten?_append (before : List ConstSpec) (s : ConstSpec) :
    lastWritten? (before ++ [s]) = if s.values = [] then lastWritten? before else some s := by
  by_cases h : s.values = [] <;> simp [lastWritten?, List.filter_append, h]

theorem origin?_of_written {before : List ConstSpec} {s : ConstSpec} (h : s.values ≠ []) :
    s.origin? before = some s := by
  rw [origin?, lastWritten?_append, if_neg h]

theorem origin?_of_repeated {before : List ConstSpec} {s : ConstSpec} (h : s.values = []) :
    s.origin? before = lastWritten? before := by
  rw [origin?, lastWritten?_append, if_pos h]

end ConstSpec

namespace ConstDecl

def constants (d : ConstDecl) : List Constant := ConstSpec.constantsFrom [] d.specs

def Regular (d : ConstDecl) : Prop := ConstSpec.RegularFrom [] d.specs

end ConstDecl

/-- The values of the constants of type `name`, in order, without those that are not counted. -/
def Constant.values (name : String) (ks : List Constant) : List Literal :=
  (ks.filter fun k => k.localType? = some name ∧ ¬k.Uncounted).filterMap Constant.value?

/-! What is read from a group. -/

/-- The values among findings. -/
def ConstantFinding.value? : ConstantFinding → Option Literal
  | .value l => some l
  | .unknown _ _ => none

theorem allowedValues_eq_ofList (name : String) (decls : List ConstDecl) :
    (allowedValues name decls).1 =
      .ofList ((constantFindings name decls).filterMap ConstantFinding.value?) := by
  rw [allowedValues]
  congr 2

/-- A plain expression says its value, whatever the constant. -/
theorem ConstSpec.finding_of_plain {s : ConstSpec} {e : ConstExpr} (he : e.IsPlain)
    (name : String) : ∃ v, s.finding name e = .value v ∧ e.value? s.index = some v := by
  cases e with
  | ident text span =>
      obtain rfl : text = "iota" := he
      exact ⟨_, rfl, rfl⟩
  | literal kind spelling span =>
      cases kind with
      | imag => exact absurd rfl he
      | _ => exact ⟨_, rfl, rfl⟩
  | verbatim text span => exact he.elim

/-- A plain expression is a counter or has one value everywhere. -/
theorem ConstExpr.value?_of_plain {e : ConstExpr} (he : e.IsPlain) (i : Nat) :
    (isIota e = true ∧ e.value? i = some ⟨.integer, toString i⟩) ∨
      (isIota e = false ∧ ∃ v, ∀ j, e.value? j = some v) := by
  cases e with
  | ident text span =>
      obtain rfl : text = "iota" := he
      exact Or.inl ⟨rfl, rfl⟩
  | literal kind spelling span =>
      cases kind with
      | imag => exact absurd rfl he
      | _ => exact Or.inr ⟨rfl, _, fun _ => rfl⟩
  | verbatim text span => exact he.elim

namespace ConstantRun

/-- Where a run for `name` stands after specs of which `last` is the last with values. -/
def after (name : String) : Option ConstSpec → ConstantRun
  | none => initial
  | some o => ⟨o.localType?, o.localType? = some name && o.endsCounting⟩

section Step

variable {name : String} {s : ConstSpec}

/-- A spec with values of its own is read for itself. -/
theorem step_of_written (r : ConstantRun) (hvalues : s.values ≠ [])
    (hlength : s.values.length = s.names.length) :
    r.step name s =
      (after name (some s), if s.localType? = some name then s.findings else []) := by
  have htype : r.typeOf s = s.localType? := by
    rw [typeOf, ConstSpec.localType?]
    cases s.type with
    | none => simp [hvalues]
    | some type => rfl
  have hlast : ((s.names.zip s.values).getLast?.elim r.counting fun pair => isIota pair.2) =
      s.endsCounting := by
    have hsnd : (s.names.zip s.values).map Prod.snd = s.values := List.map_snd_zip (Nat.le_of_eq hlength)
    rw [ConstSpec.endsCounting]
    cases h : (s.names.zip s.values).getLast? with
    | none =>
        rw [List.getLast?_eq_none_iff] at h
        rw [h] at hsnd
        exact absurd hsnd.symm hvalues
    | some pair =>
        have hget : s.values.getLast? = some pair.2 := by
          rw [← hsnd, List.getLast?_map, h]
          rfl
        rw [hget]
        rfl
  by_cases hname : s.localType? = some name
  · simp only [step, htype, hlast, hname, List.isEmpty_iff, hvalues, after]
    simp
  · simp [step, htype, hname, after]

/-- A spec that repeats another goes on where that one stopped. -/
theorem step_of_repeated {o : ConstSpec} (htype : s.type.isNone) (hvalues : s.values = []) :
    (after name (some o)).step name s =
      (after name (some o),
        if o.localType? = some name ∧ o.endsCounting then [.value s.counter] else []) := by
  have hcurrent : ∀ r : ConstantRun, r.typeOf s = r.current := fun r => by
    rw [typeOf, Option.isNone_iff_eq_none.mp htype]
    simp [hvalues]
  by_cases hname : o.localType? = some name
  · simp [step, hcurrent, after, hname, hvalues]
  · simp [step, hcurrent, after, hname]

end Step

end ConstantRun

/-! The values of one spec. -/

theorem Constant.mem_values {name : String} {ks : List Constant} {v : Literal} :
    v ∈ Constant.values name ks ↔
      ∃ k ∈ ks, k.localType? = some name ∧ ¬k.Uncounted ∧ k.value? = some v := by
  simp [Constant.values, and_assoc]

section Spec

variable {name : String} {before : List ConstSpec} {s o : ConstSpec} {a : AllowedValues}

theorem ConstSpec.mem_constants {k : Constant} (h : s.origin? before = some o) :
    k ∈ s.constants before ↔
      (k.name, k.expr) ∈ s.names.zip o.values ∧ k.spec = s ∧ k.origin = o := by
  rw [ConstSpec.constants, h]
  constructor
  · intro hk
    obtain ⟨pair, hpair, rfl⟩ := List.mem_map.mp hk
    exact ⟨hpair, rfl, rfl⟩
  · rintro ⟨hpair, rfl, rfl⟩
    exact List.mem_map.mpr ⟨_, hpair, rfl⟩

/-- What holds of a spec that may be repeated, once its values are read: its literals are
there, so only its counters can add anything. -/
structure ConstSpec.Settled (name : String) (a : AllowedValues) (o : ConstSpec) : Prop where
  length_eq : o.values.length = o.names.length
  plain : ∀ e ∈ o.values, e.IsPlain
  known : o.localType? = some name → ∀ e ∈ o.values, isIota e = false →
    ∀ i v, e.value? i = some v → v ∈ a.values

/-- A spec with values says the values of all its constants. -/
theorem values_of_written (hvalues : s.values ≠ []) (hplain : ∀ e ∈ s.values, e.IsPlain)
    (htype : s.localType? = some name) :
    s.findings.filterMap ConstantFinding.value? = Constant.values name (s.constants before) := by
  have hcounted : ∀ k ∈ s.constants before, k.localType? = some name ∧ ¬k.Uncounted := by
    intro k hk
    obtain ⟨-, hspec, horigin⟩ :=
      (ConstSpec.mem_constants (ConstSpec.origin?_of_written hvalues)).mp hk
    refine ⟨?_, fun h => hvalues (hspec ▸ h.1)⟩
    rw [Constant.localType?, horigin]
    exact htype
  have hall : (s.constants before).filter (fun k => k.localType? = some name ∧ ¬k.Uncounted) =
      s.constants before := List.filter_eq_self.mpr fun k hk => by simpa using hcounted k hk
  rw [Constant.values, hall, ConstSpec.constants, ConstSpec.origin?_of_written hvalues,
    ConstSpec.findings, List.filterMap_map, List.filterMap_map]
  refine List.filterMap_congr fun pair hpair => ?_
  obtain ⟨v, hfinding, hv⟩ := ConstSpec.finding_of_plain (s := s)
    (hplain pair.2 (List.of_mem_zip hpair).2) pair.1.name
  simp [Constant.value?, hfinding, hv, ConstantFinding.value?]

/-- A spec that repeats another adds its own counter, and only if the list that it repeats
ends in one. -/
theorem foldl_values_of_repeated (hvalues : s.values = [])
    (horigin : s.origin? before = some o) (hlength : s.names.length = o.names.length)
    (ho : o.Settled name a) :
    (Constant.values name (s.constants before)).foldl .push a =
      if o.localType? = some name ∧ o.endsCounting then a.push s.counter else a := by
  have hknown : ∀ v ∈ Constant.values name (s.constants before),
      v ∈ a.values ∨ (v = s.counter ∧ o.localType? = some name ∧ o.endsCounting) := by
    intro v hv
    obtain ⟨k, hk, htype, hcounted, hvalue⟩ := Constant.mem_values.mp hv
    obtain ⟨hpair, hspec, ho'⟩ := (ConstSpec.mem_constants horigin).mp hk
    have hexpr := (List.of_mem_zip hpair).2
    rw [Constant.localType?, ho'] at htype
    rw [Constant.value?, hspec] at hvalue
    rcases ConstExpr.value?_of_plain (ho.plain _ hexpr) s.index with ⟨hiota, hcounter⟩ | ⟨hiota, -⟩
    · refine Or.inr ⟨Option.some.inj (hvalue.symm.trans hcounter), htype, ?_⟩
      by_contra hends
      refine hcounted ⟨hspec ▸ hvalues, hiota, ?_⟩
      rw [ho']
      simpa [ConstSpec.endsCounting] using hends
    · exact Or.inl (ho.known htype _ hexpr hiota _ _ hvalue)
  split
  · rename_i h
    refine AllowedValues.foldl_push_of_known ?_ fun v hv => (hknown v hv).imp_right And.left
    obtain ⟨e, he, hiota⟩ : ∃ e, o.values.getLast? = some e ∧ isIota e = true := by
      cases he : o.values.getLast? with
      | none => simp [ConstSpec.endsCounting, he] at h
      | some e => exact ⟨e, rfl, by simpa [ConstSpec.endsCounting, he] using h.2⟩
    have hmem : e ∈ o.values := List.mem_of_getLast? he
    have hsnd : (s.names.zip o.values).map Prod.snd = o.values :=
      List.map_snd_zip (Nat.le_of_eq (ho.length_eq.trans hlength.symm))
    rw [← hsnd] at hmem
    obtain ⟨pair, hpair, rfl⟩ := List.mem_map.mp hmem
    refine Constant.mem_values.mpr ⟨⟨pair.1, pair.2, s, o⟩,
      (ConstSpec.mem_constants horigin).mpr ⟨hpair, rfl, rfl⟩, h.1, fun hu => ?_, ?_⟩
    · exact absurd h.2 (by simpa [ConstSpec.endsCounting] using hu.2.2)
    · rcases ConstExpr.value?_of_plain (ho.plain _ (List.of_mem_zip hpair).2) s.index with h' | h'
      · exact h'.2
      · rw [h'.1] at hiota
        cases hiota
  · rename_i h
    exact AllowedValues.foldl_push_of_subset fun v hv =>
      (hknown v hv).resolve_right fun hr => h hr.2

theorem ConstSpec.Settled.mono {b : AllowedValues} (h : o.Settled name a)
    (hab : ∀ v ∈ a.values, v ∈ b.values) : o.Settled name b :=
  ⟨h.length_eq, h.plain, fun htype e he hiota i v hv => hab v (h.known htype e he hiota i v hv)⟩

/-- Once the values of a spec are read, it may be repeated. -/
theorem ConstSpec.settled_of_written (hvalues : s.values ≠ [])
    (hlength : s.values.length = s.names.length) (hplain : ∀ e ∈ s.values, e.IsPlain) :
    s.Settled name ((Constant.values name (s.constants before)).foldl .push a) := by
  refine ⟨hlength, hplain, fun htype e he hiota i v hv => AllowedValues.mem_foldl_push.mpr ?_⟩
  have hsnd : (s.names.zip s.values).map Prod.snd = s.values := List.map_snd_zip (Nat.le_of_eq hlength)
  rw [← hsnd] at he
  obtain ⟨pair, hpair, rfl⟩ := List.mem_map.mp he
  refine Or.inr (Constant.mem_values.mpr ⟨⟨pair.1, pair.2, s, s⟩,
    (ConstSpec.mem_constants (ConstSpec.origin?_of_written hvalues)).mpr ⟨hpair, rfl, rfl⟩,
    htype, fun hu => hvalues hu.1, ?_⟩)
  rcases ConstExpr.value?_of_plain (hplain _ (List.of_mem_zip hpair).2) i with h | ⟨-, w, hw⟩
  · rw [h.1] at hiota
    cases hiota
  · rw [hw] at hv
    exact (hw _).trans hv

/-- A spec that fits is read for the values of its constants.  Afterwards the last spec with
values may be repeated. -/
theorem step_of_fits (hfits : s.Fits before) (hplain : ∀ e ∈ s.values, e.IsPlain)
    (hlast : ∀ o, ConstSpec.lastWritten? before = some o → o.Settled name a) :
    ∃ found, (ConstantRun.after name (ConstSpec.lastWritten? before)).step name s =
        (.after name (ConstSpec.lastWritten? (before ++ [s])), found) ∧
      (found.filterMap ConstantFinding.value?).foldl .push a =
        (Constant.values name (s.constants before)).foldl .push a ∧
      ∀ o, ConstSpec.lastWritten? (before ++ [s]) = some o →
        o.Settled name ((Constant.values name (s.constants before)).foldl .push a) := by
  rw [ConstSpec.lastWritten?_append]
  rcases hfits with ⟨hvalues, hlength⟩ | ⟨htype, hvalues, o, ho, hlength⟩
  · rw [if_neg hvalues]
    refine ⟨_, ConstantRun.step_of_written _ hvalues hlength, ?_, fun o ho => ?_⟩
    · by_cases hname : s.localType? = some name
      · rw [if_pos hname, values_of_written hvalues hplain hname]
      · have hnone : Constant.values name (s.constants before) = [] := by
          rw [List.eq_nil_iff_forall_not_mem]
          intro v hv
          obtain ⟨k, hk, htype, -⟩ := Constant.mem_values.mp hv
          obtain ⟨-, -, ho⟩ :=
            (ConstSpec.mem_constants (ConstSpec.origin?_of_written hvalues)).mp hk
          exact hname (ho ▸ htype)
        rw [if_neg hname, hnone]
        rfl
    · cases ho
      exact ConstSpec.settled_of_written hvalues hlength hplain
  · have horigin := (ConstSpec.origin?_of_repeated hvalues).trans ho
    have hb := foldl_values_of_repeated hvalues horigin hlength (hlast o ho)
    rw [if_pos hvalues, ho]
    refine ⟨_, ConstantRun.step_of_repeated htype hvalues, ?_, fun o' ho' => ?_⟩
    · rw [hb]
      split <;> rfl
    · cases ho'
      exact (hlast o ho).mono fun v hv => AllowedValues.mem_foldl_push.mpr (Or.inl hv)

end Spec

/-! Groups and lists of groups. -/

/-- A run over the rest of a group adds the values of its constants. -/
theorem foldl_steps {name : String} {before rest : List ConstSpec} {a : AllowedValues}
    (h : ConstSpec.RegularFrom before rest)
    (hlast : ∀ o, ConstSpec.lastWritten? before = some o → o.Settled name a) :
    (((ConstantRun.after name (ConstSpec.lastWritten? before)).steps name rest).filterMap
        ConstantFinding.value?).foldl .push a =
      (Constant.values name (ConstSpec.constantsFrom before rest)).foldl .push a := by
  induction rest generalizing before a with
  | nil => rfl
  | cons s rest ih =>
      obtain ⟨hfits, hplain, hrest⟩ := h
      obtain ⟨found, hstep, hfound, hsettled⟩ := step_of_fits hfits hplain hlast
      have hvalues : Constant.values name (ConstSpec.constantsFrom before (s :: rest)) =
          Constant.values name (s.constants before) ++
            Constant.values name (ConstSpec.constantsFrom (before ++ [s]) rest) := by
        simp [ConstSpec.constantsFrom, Constant.values]
      rw [ConstantRun.steps, hstep, hvalues, List.filterMap_append, List.foldl_append,
        List.foldl_append, hfound]
      exact ih hrest hsettled

/-- The values of an enumeration are those of its constants in order. -/
theorem allowedValues_of_regular {name : String} {decls : List ConstDecl}
    (h : ∀ d ∈ decls, d.Regular) :
    (allowedValues name decls).1 =
      .ofList (Constant.values name (decls.flatMap ConstDecl.constants)) := by
  have hfold : ∀ a : AllowedValues,
      ((constantFindings name decls).filterMap ConstantFinding.value?).foldl .push a =
        (Constant.values name (decls.flatMap ConstDecl.constants)).foldl .push a := by
    induction decls with
    | nil => exact fun _ => rfl
    | cons d decls ih =>
        intro a
        have hgroup : ((ConstantRun.initial.steps name d.specs).filterMap
            ConstantFinding.value?).foldl .push a =
            (Constant.values name d.constants).foldl .push a :=
          foldl_steps (h d List.mem_cons_self) fun o ho => by cases ho
        have hvalues : Constant.values name ((d :: decls).flatMap ConstDecl.constants) =
            Constant.values name d.constants ++
              Constant.values name (decls.flatMap ConstDecl.constants) := by
          simp [Constant.values]
        have hrest := ih (fun d' hd' => h d' (List.mem_cons_of_mem d hd'))
        rw [constantFindings, List.flatMap_cons, List.filterMap_append, List.foldl_append, hgroup,
          hvalues, List.foldl_append]
        exact hrest _
  rw [allowedValues_eq_ofList]
  exact hfold .empty

/-! Completeness and order. -/

theorem ConstSpec.mem_of_lastWritten? {specs : List ConstSpec} {o : ConstSpec}
    (h : lastWritten? specs = some o) : o ∈ specs :=
  List.mem_of_mem_filter (List.mem_of_getLast? h)

/-- All constants of a regular group have plain expressions. -/
theorem Constant.plain_of_mem {before rest : List ConstSpec}
    (hbefore : ∀ t ∈ before, ∀ e ∈ t.values, e.IsPlain)
    (h : ConstSpec.RegularFrom before rest) {k : Constant}
    (hk : k ∈ ConstSpec.constantsFrom before rest) : k.expr.IsPlain := by
  induction rest generalizing before with
  | nil => cases hk
  | cons s rest ih =>
      obtain ⟨-, hplain, hrest⟩ := h
      have hall : ∀ t ∈ before ++ [s], ∀ e ∈ t.values, e.IsPlain := by
        intro t ht
        rcases List.mem_append.mp ht with ht | ht
        · exact hbefore t ht
        · exact List.mem_singleton.mp ht ▸ hplain
      rcases List.mem_append.mp hk with hk | hk
      · cases ho : s.origin? before with
        | none => simp [ConstSpec.constants, ho] at hk
        | some o =>
            have hpair := ((ConstSpec.mem_constants ho).mp hk).1
            exact hall o (ConstSpec.mem_of_lastWritten? ho) _ (List.of_mem_zip hpair).2
      · exact ih hall hrest hk

theorem mem_allowedValues {name : String} {decls : List ConstDecl}
    (h : ∀ d ∈ decls, d.Regular) {v : Literal} :
    v ∈ (allowedValues name decls).1.values ↔
      ∃ d ∈ decls, ∃ k ∈ d.constants,
        k.localType? = some name ∧ ¬k.Uncounted ∧ k.value? = some v := by
  rw [allowedValues_of_regular h, AllowedValues.mem_ofList, Constant.mem_values]
  constructor
  · rintro ⟨k, hk, hv⟩
    obtain ⟨d, hd, hk⟩ := List.mem_flatMap.mp hk
    exact ⟨d, hd, k, hk, hv⟩
  · rintro ⟨d, hd, k, hk, hv⟩
    exact ⟨k, List.mem_flatMap.mpr ⟨d, hd, hk⟩, hv⟩

/-- No value is lost.  Every constant of the type of an enumeration has its value among those
that are allowed, unless it is a counter of a repeated list that does not end in one. -/
theorem value_mem_allowedValues {name : String} {decls : List ConstDecl}
    (h : ∀ d ∈ decls, d.Regular) :
    ∀ d ∈ decls, ∀ k ∈ d.constants, k.localType? = some name → ¬k.Uncounted →
      ∃ v, k.value? = some v ∧ v ∈ (allowedValues name decls).1.values := by
  intro d hd k hk htype hcounted
  have hplain : k.expr.IsPlain := Constant.plain_of_mem (fun t ht => by cases ht) (h d hd) hk
  obtain ⟨v, -, hv⟩ := ConstSpec.finding_of_plain (s := k.spec) hplain k.name.name
  exact ⟨v, hv, (mem_allowedValues h).mpr ⟨d, hd, k, hk, htype, hcounted, hv⟩⟩

/-! Groups of two constants to a spec. -/

/-- A spec by its place in the group, its names, its type and its values. -/
def specAt (index : Nat) (names : List String) (type : Option String) (values : List ConstExpr) :
    ConstSpec :=
  ⟨none, index, names.map fun name => ⟨name, ⟨0, 0⟩⟩,
    type.map fun name => .named none ⟨name, ⟨0, 0⟩⟩, values⟩

def counterExpr : ConstExpr := .ident "iota" ⟨0, 0⟩

def digitExpr (spelling : String) : ConstExpr := .literal .int spelling ⟨0, 0⟩

def Literal.integer (spelling : String) : Literal := ⟨.integer, spelling⟩

/-- Two lists that are repeated: one ends in a counter, and one only begins with one. -/
def pairGroup : ConstDecl :=
  ⟨none, true, [specAt 0 ["A", "B"] (some "T") [digitExpr "8", counterExpr],
    specAt 1 ["C", "D"] none [], specAt 2 ["E"] (some "int") [digitExpr "9"],
    specAt 3 ["F", "G"] (some "T") [counterExpr, digitExpr "5"], specAt 4 ["H", "I"] none []]⟩

theorem regular_pairGroup : ∀ d ∈ [pairGroup], d.Regular := by
  intro d hd
  obtain rfl := List.mem_singleton.mp hd
  simp [pairGroup, ConstDecl.Regular, ConstSpec.RegularFrom, ConstSpec.Fits,
    ConstSpec.lastWritten?, specAt, counterExpr, digitExpr, ConstExpr.IsPlain]

theorem value_mem_allowedValues_pair :
    (∀ d ∈ [pairGroup], d.Regular) ∧
      ∃ k ∈ pairGroup.constants, k.name.name = "D" ∧ k.localType? = some "T" ∧ ¬k.Uncounted ∧
        ∃ v, k.value? = some v ∧ v ∈ (allowedValues "T" [pairGroup]).1.values := by
  have hk := List.mem_of_getElem? (l := pairGroup.constants) (i := 3) rfl
  have hcounted : ¬(pairGroup.constants.get ⟨3, by decide⟩).Uncounted := by decide
  exact ⟨regular_pairGroup, _, hk, rfl, rfl, hcounted,
    value_mem_allowedValues regular_pairGroup pairGroup List.mem_cons_self _ hk rfl hcounted⟩

/-- The counter that begins a list is lost where the list is repeated: `H` is 4. -/
theorem counter_not_mem_allowedValues :
    (∀ d ∈ [pairGroup], d.Regular) ∧
      ∃ k ∈ pairGroup.constants, k.name.name = "H" ∧ k.localType? = some "T" ∧
        k.value? = some (.integer "4") ∧
        .integer "4" ∉ (allowedValues "T" [pairGroup]).1.values := by
  exact ⟨regular_pairGroup, _, List.mem_of_getElem? (i := 7) rfl, rfl, rfl, rfl, by decide⟩

/-! Soundness and order. -/

/-- No value is made up.  Every allowed value is that of a constant of the type, and the
values stand once each, in the order in which the constants that are counted first have
them. -/
theorem allowedValues_sound {name : String} {decls : List ConstDecl}
    (h : ∀ d ∈ decls, d.Regular) :
    (∀ v ∈ (allowedValues name decls).1.values, ∃ d ∈ decls, ∃ k ∈ d.constants,
        k.localType? = some name ∧ k.value? = some v) ∧
      (allowedValues name decls).1.values.Nodup ∧
      (allowedValues name decls).1.values.Pairwise fun v w =>
        (Constant.values name (decls.flatMap ConstDecl.constants)).idxOf v <
          (Constant.values name (decls.flatMap ConstDecl.constants)).idxOf w := by
  have horder : (allowedValues name decls).1.values.Pairwise fun v w =>
      (Constant.values name (decls.flatMap ConstDecl.constants)).idxOf v <
        (Constant.values name (decls.flatMap ConstDecl.constants)).idxOf w := by
    rw [allowedValues_of_regular h]
    exact AllowedValues.ofList_pairwise _
  refine ⟨fun v hv => ?_, horder.imp fun hlt heq => ?_, horder⟩
  · obtain ⟨d, hd, k, hk, htype, -, hvalue⟩ := (mem_allowedValues h).mp hv
    exact ⟨d, hd, k, hk, htype, hvalue⟩
  · exact absurd hlt (heq ▸ Nat.lt_irrefl _)

/-- A constant without a name, and a list that only begins with a counter. -/
def blankGroups : List ConstDecl :=
  [⟨none, false, [specAt 0 ["_"] (some "T") [digitExpr "9"]]⟩,
    ⟨none, true, [specAt 0 ["A", "B"] (some "T") [counterExpr, digitExpr "5"],
      specAt 1 ["C", "D"] none [], specAt 2 ["E"] (some "T") [digitExpr "7"],
      specAt 3 ["F"] (some "T") [digitExpr "1"]]⟩]

theorem regular_blankGroups : ∀ d ∈ blankGroups, d.Regular := by
  intro d hd
  rcases List.mem_pair.mp hd with rfl | rfl <;>
    simp [ConstDecl.Regular, ConstSpec.RegularFrom, ConstSpec.Fits, ConstSpec.lastWritten?, specAt,
      counterExpr, digitExpr, ConstExpr.IsPlain]

theorem allowedValues_sound_blank :
    (∀ d ∈ blankGroups, d.Regular) ∧
      .integer "9" ∈ (allowedValues "T" blankGroups).1.values ∧
      ∃ d ∈ blankGroups, ∃ k ∈ d.constants,
        k.localType? = some "T" ∧ k.value? = some (.integer "9") := by
  have hmem : .integer "9" ∈ (allowedValues "T" blankGroups).1.values := by decide
  exact ⟨regular_blankGroups, hmem, (allowedValues_sound regular_blankGroups).1 _ hmem⟩

/-- A value that only a constant without a name has is allowed, and 1 stands after 7 although
`C` has it before `E` has that. -/
theorem blank_value_mem_allowedValues :
    let declared := (blankGroups.flatMap ConstDecl.constants).filter fun k =>
      k.localType? = some "T"
    (∀ d ∈ blankGroups, d.Regular) ∧
      .integer "9" ∈ (allowedValues "T" blankGroups).1.values ∧
      (∀ k ∈ declared, k.value? = some (.integer "9") → k.name.name = "_") ∧
      ¬(allowedValues "T" blankGroups).1.values.Pairwise fun v w =>
        (declared.filterMap Constant.value?).idxOf v <
          (declared.filterMap Constant.value?).idxOf w := by
  refine ⟨regular_blankGroups, by decide, by decide, by decide⟩

end FieldRules
