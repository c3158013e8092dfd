/-
Which annotated types are indexed, when their names differ: each has one entry, in the order of
the file, or one warning.
-/
import Mathlib.Data.List.Nodup
import FieldRules.Analysis.Index

namespace FieldRules

/-! Lists whose items have different keys. -/

section Keys

variable {α β κ : Type} {key : α → κ} {out : β → κ} {make : α → Option β}
  {l : List α} {a : α}

/-- Among what is made of items with different keys, the key of an item finds what is made of
that item. -/
theorem filter_key_filterMap [DecidableEq κ] (hnodup : (l.map key).Nodup)
    (hout : ∀ a b, make a = some b → out b = key a) (ha : a ∈ l) :
    (l.filterMap make).filter (fun b => out b = key a) = (make a).toList := by
  induction l with
  | nil => cases ha
  | cons x xs ih =>
      obtain ⟨hx, hxs⟩ := List.nodup_cons.mp hnodup
      rw [show x :: xs = [x] ++ xs from rfl, List.filterMap_append, List.filter_append]
      rcases List.mem_cons.mp ha with rfl | ha
      · have hrest : (xs.filterMap make).filter (fun b => out b = key a) = [] := by
          refine List.filter_eq_nil_iff.mpr fun b hb hkey => hx ?_
          obtain ⟨y, hy, hmake⟩ := List.mem_filterMap.mp hb
          rw [← of_decide_eq_true hkey, hout y b hmake]
          exact List.mem_map_of_mem hy
        rw [hrest, List.append_nil]
        cases hmake : make a with
        | none => simp [hmake]
        | some b => simp [hmake, hout a b hmake]
      · have hne : key x ≠ key a := fun heq => hx (heq ▸ List.mem_map_of_mem ha)
        rw [ih hxs ha]
        cases hmake : make x with
        | none => simp [hmake]
        | some b => simp [hmake, hout x b hmake, hne]

theorem sublist_map_filterMap (hout : ∀ a b, make a = some b → out b = key a) (l : List α) :
    ((l.filterMap make).map out).Sublist (l.map key) := by
  induction l with
  | nil => exact List.Sublist.refl _
  | cons x xs ih =>
      cases hmake : make x with
      | none => simpa [hmake] using ih.cons (key x)
      | some b => simpa [hmake, hout x b hmake] using ih.cons_cons (key x)

end Keys

/-! What is wanted for a type. -/

namespace TypeSpec

variable {s : TypeSpec} {k : DeclKind}

/-- The kinds of types that are supported: structs, and types that stand for a predeclared
scalar. -/
inductive Declares (s : TypeSpec) : DeclKind → Prop
  | record {fields : List FieldLine} {span : Span} (generic : s.generic = false)
      (aliased : s.aliased = false) (type : s.type = .struct fields span) : Declares s .record
  | enumeration {name : Ident} {base : ScalarKind} (generic : s.generic = false)
      (aliased : s.aliased = false) (type : s.type = .named none name)
      (scalar : ScalarKind.ofBuiltin? name.name = some base) : Declares s (.enumeration base)

theorem kind_eq_ok_iff : s.kind = .ok k ↔ s.Declares k := by
  constructor
  · intro h
    unfold kind at h
    split at h
    · cases h
    split at h
    · cases h
    rename_i hgeneric haliased
    rw [Bool.not_eq_true] at hgeneric haliased
    split at h
    · rename_i htype
      cases h
      exact .record hgeneric haliased htype
    · split at h
      · rename_i base hscalar
        cases h
        obtain ⟨name, hlocal, hbase⟩ := Option.bind_eq_some_iff.mp hscalar
        unfold TypeExpr.localName? at hlocal
        split at hlocal
        · rename_i i htype
          cases hlocal
          exact .enumeration hgeneric haliased htype hbase
        · cases hlocal
      · cases h
  · intro h
    cases h with
    | record hgeneric haliased htype => simp [kind, hgeneric, haliased, htype]
    | enumeration hgeneric haliased htype hscalar =>
        simp [kind, hgeneric, haliased, htype, TypeExpr.localName?, hscalar]

/-- The entry of a type in the index. -/
def entry? (s : TypeSpec) : Option (String × DeclKind) :=
  s.kind.toOption.map fun k => (s.name.name, k)

/-- The warning about a type that has no entry. -/
def warning? (s : TypeSpec) : Option Diagnostic :=
  match s.kind with
  | .ok _ => none
  | .error reason => some (DeclIndex.unsupported s.name.name reason)

theorem fst_of_entry? {e : String × DeclKind} (h : s.entry? = some e) : e.1 = s.name.name := by
  obtain ⟨k, -, rfl⟩ := Option.map_eq_some_iff.mp h
  rfl

theorem of_warning? {d : Diagnostic} (h : s.warning? = some d) :
    d.severity = .warning ∧ d.phase = "index" ∧ d.location = some s.name.name := by
  unfold warning? at h
  split at h
  · cases h
  · cases h
    exact ⟨rfl, rfl, rfl⟩

end TypeSpec

/-! The index. -/

theorem insertKind_of_fresh {name : String} {kind : DeclKind} {es : List (String × DeclKind)}
    (h : ∀ e ∈ es, e.1 ≠ name) : insertKind name kind es = es ++ [(name, kind)] := by
  induction es with
  | nil => rfl
  | cons e es ih =>
      obtain ⟨he, hes⟩ := List.forall_mem_cons.mp h
      rw [insertKind, if_neg he, ih hes, List.cons_append]

namespace DeclIndex

/-- Types with new names are entered behind what is there. -/
theorem addSpecs_of_nodup {specs : List TypeSpec} {i : DeclIndex}
    (hnodup : (specs.map fun s => s.name.name).Nodup)
    (hfresh : ∀ s ∈ specs, ∀ e ∈ i.entries, e.1 ≠ s.name.name) :
    i.addSpecs specs =
      (⟨i.entries ++ specs.filterMap TypeSpec.entry?⟩, specs.filterMap TypeSpec.warning?) := by
  induction specs generalizing i with
  | nil => simp [addSpecs]
  | cons s rest ih =>
      obtain ⟨hs, hrest⟩ := List.nodup_cons.mp hnodup
      obtain ⟨hfirst, hmore⟩ := List.forall_mem_cons.mp hfresh
      unfold addSpecs
      cases hkind : s.kind with
      | error reason =>
          dsimp only
          rw [ih hrest hmore]
          simp [TypeSpec.entry?, TypeSpec.warning?, hkind, Except.toOption]
      | ok kind =>
          have hinsert : insertKind s.name.name kind i.entries = i.entries ++ [(s.name.name, kind)] :=
            insertKind_of_fresh hfirst
          dsimp only
          rw [ih hrest ?_]
          · simp [insert, hinsert, TypeSpec.entry?, TypeSpec.warning?, hkind, Except.toOption]
          · intro u hu e he
            rw [insert, hinsert] at he
            rcases List.mem_append.mp he with he | he
            · exact hmore u hu e he
            · rw [List.mem_singleton.mp he]
              exact fun heq => hs (List.mem_map.mpr ⟨u, hu, heq.symm⟩)

/-- The name of a type finds its own entry. -/
theorem get?_of_mem {specs : List TypeSpec} {s : TypeSpec}
    (hnodup : (specs.map fun s => s.name.name).Nodup) (hs : s ∈ specs) :
    (DeclIndex.mk (specs.filterMap TypeSpec.entry?)).get? s.name.name = s.kind.toOption := by
  have hfilter := filter_key_filterMap hnodup (fun _ _ => TypeSpec.fst_of_entry?) hs
  have hfind : (specs.filterMap TypeSpec.entry?).find? (fun e => e.1 == s.name.name) =
      s.entry? := by
    rw [← List.head?_filter]
    simpa [beq_eq_decide] using congrArg List.head? hfilter
  rw [get?, hfind, TypeSpec.entry?]
  cases s.kind.toOption <;> rfl

end DeclIndex

end FieldRules
