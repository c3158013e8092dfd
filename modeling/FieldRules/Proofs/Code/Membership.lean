/-
Membership in an enumeration.  The method of an enumeration looks its receiver up in a set whose
keys are constants.  Equal keys are refused, so the keys must be distinct as constants; they are
kept apart by their spellings alone.
-/
import FieldRules.Code.Lowering
import FieldRules.Proofs.Analysis.Constants
import FieldRules.Proofs.Code.BasicLiterals
import FieldRules.Proofs.Code.Meaning
import Mathlib.Data.List.Nodup

namespace FieldRules

/-! The meaning of methods that look up their receiver. -/

/-- A value of a type with constants. -/
inductive GoScalar where
  | text (bytes : List UInt8)
  | number (x : GoNumber)

/-- Whether a value is a constant; what is no number is none. -/
def GoScalar.equals : GoScalar → GoConstant → Bool
  | text bytes, .bytes bs => bytes = bs
  | number x, .number q => x.same (.finite q)
  | _, _ => false

/-- The keys of a set are constants of its type, and no two of them are the same. -/
def DistinctKeys (type : String) (keys : List String) : Prop :=
  (∀ key ∈ keys, (constantOf? type key).isSome) ∧
    keys.Pairwise fun key key' => constantOf? type key ≠ constantOf? type key'

instance (type : String) (keys : List String) : Decidable (DistinctKeys type keys) :=
  inferInstanceAs (Decidable (_ ∧ _))

/-- A value in a method that looks up its receiver. -/
inductive LookupValue where
  | scalar (x : GoScalar)
  | set (constants : List GoConstant)
  /-- What stands at the keys of a set. -/
  | blank
  | truth (b : Bool)
  | absent
  | failure

abbrev LookupScope := List (String × LookupValue)

/-- The results of an expression.  A set with equal keys has none, as the language refuses it. -/
def Expr.results? (scope : LookupScope) : Expr → Option (List LookupValue)
  | ident name => (scope.lookup name).map fun v => [v]
  | raw text => if text = "nil" then some [.absent] else none
  | not e =>
      match e.results? scope with
      | some [.truth b] => some [.truth !b]
      | _ => none
  | call (ident type) [e] =>
      if (ScalarKind.ofBuiltin? type).isSome then
        match e.results? scope with
        | some [.scalar x] => some [.scalar x]
        | _ => none
      else none
  | call (selector (ident package) name) (_ :: _) =>
      if package = "fmt" ∧ name = "Errorf" then some [.failure] else none
  | index base key =>
      match base.results? scope, key.results? scope with
      | some [.set constants], some [.scalar x] => some [.blank, .truth (constants.any x.equals)]
      | _, _ => none
  | set type keys =>
      if DistinctKeys type keys then some [.set (keys.filterMap (constantOf? type))] else none
  | _ => none

/-- The scope after a definition of one variable for each result. -/
def LookupScope.defining? (scope : LookupScope) (names : List String) (e : Expr) :
    Option LookupScope :=
  (e.results? scope).bind fun vs =>
    if names.length = vs.length then some (names.zip vs ++ scope) else none

mutual
/-- What a statement returns, if it does, and the variables after it. -/
def Stmt.lookUp? : Stmt → LookupScope → Option (Option LookupValue × LookupScope)
  | simple (.define names e), scope => (scope.defining? names e).map fun inner => (none, inner)
  | branch (some (.define names e)) condition body, scope => do
      let inner ← scope.defining? names e
      match ← condition.results? inner with
      | [.truth true] => return ((← lookUpAll? body inner).1, scope)
      | [.truth false] => return (none, scope)
      | _ => none
  | result e, scope => do
      match ← e.results? scope with
      | [v] => return (some v, scope)
      | _ => none
  | _, _ => none

def Stmt.lookUpAll? : List Stmt → LookupScope → Option (Option LookupValue × LookupScope)
  | [], scope => some (none, scope)
  | s :: ss, scope => do
      match ← s.lookUp? scope with
      | (some v, inner) => return (some v, inner)
      | (none, inner) => Stmt.lookUpAll? ss inner
end

/-- What a method returns for its receiver; none if the language refuses the method. -/
def Method.returns? (m : Method) (self : GoScalar) : Option LookupValue :=
  (Stmt.lookUpAll? m.body [("r", .scalar self)]).bind Prod.fst

section Lower

variable (x : GoScalar) (constants : List GoConstant) {type : String}

/-- The scope once the set of allowed values is there. -/
def lookupScope : LookupScope :=
  [("valid", .set constants), ("r", .scalar x)]

theorem defining?_valid (type : String) (keys : List String) :
    LookupScope.defining? [("r", .scalar x)] ["valid"] (.set type keys) =
      if DistinctKeys type keys then some (lookupScope x (keys.filterMap (constantOf? type)))
      else none := by
  rw [LookupScope.defining?, Expr.results?]
  split <;> rfl

/-- Looking up the receiver says whether it is a key. -/
theorem defining?_ok (hbuiltin : (ScalarKind.ofBuiltin? type).isSome) :
    (lookupScope x constants).defining? ["_", "ok"]
        (.index (.ident "valid") (.call (.ident type) [receiver])) =
      some (("_", .blank) :: ("ok", .truth (constants.any x.equals)) ::
        lookupScope x constants) := by
  have hset : (Expr.ident "valid").results? (lookupScope x constants) = some [.set constants] := rfl
  have hself : receiver.results? (lookupScope x constants) = some [.scalar x] := rfl
  have hkey : (Expr.call (.ident type) [receiver]).results? (lookupScope x constants) =
      some [.scalar x] := by
    rw [Expr.results?, if_pos hbuiltin, hself]
  rw [LookupScope.defining?, Expr.results?, hset, hkey]
  rfl

@[simp] theorem results?_not_ok (found : Bool) :
    (Expr.not (.ident "ok")).results?
        (("_", .blank) :: ("ok", .truth found) :: lookupScope x constants) =
      some [.truth !found] := rfl

@[simp] theorem results?_nil (scope : LookupScope) : Expr.nil.results? scope = some [.absent] := rfl

@[simp] theorem results?_formattedError (scope : LookupScope) (arg : Expr) (args : List Expr) :
    (formattedError (arg :: args)).results? scope = some [.failure] := rfl

/-- The method of an enumeration returns an error for all values that are no keys, and is refused
if two keys are the same constant. -/
theorem returns?_lower (name : String) {e : Enumeration}
    (hbuiltin : (ScalarKind.ofBuiltin? e.underlying).isSome) :
    (e.lower name).returns? x =
      if DistinctKeys e.underlying e.allowed.spellings then
        if (e.allowed.spellings.filterMap (constantOf? e.underlying)).any x.equals then some .absent
        else some .failure
      else none := by
  have hvalid := defining?_valid x e.underlying e.allowed.spellings
  unfold Enumeration.lower validation Method.returns?
  split
  · rename_i hkeys
    rw [if_pos hkeys] at hvalid
    generalize e.allowed.spellings.filterMap (constantOf? e.underlying) = constants at hvalid ⊢
    have hok := defining?_ok x constants hbuiltin
    cases hfound : constants.any x.equals <;> rw [hfound] at hok <;>
      simp [Stmt.lookUpAll?, Stmt.lookUp?, Stmt.define, hvalid, hok]
  · rename_i hkeys
    rw [if_neg hkeys] at hvalid
    simp [Stmt.lookUpAll?, Stmt.lookUp?, Stmt.define, hvalid]

end Lower

/-! Enumerations from constant declarations. -/

/-- The enumeration `name` over a predeclared type. -/
def enumerationOf (name : String) (decls : List ConstDecl) (base : ScalarKind)
    (underlying : String) : Enumeration :=
  ⟨base, underlying, (allowedValues name decls).1⟩

/-- The literals of the constants of an enumeration and its counters, also those that come twice. -/
def foundLiterals (name : String) (decls : List ConstDecl) : List Literal :=
  (constantFindings name decls).filterMap ConstantFinding.value?

/-- A value equals one of the allowed constants. -/
def Enumeration.Allows (e : Enumeration) (x : GoScalar) : Prop :=
  ∃ l ∈ e.allowed.values, ∃ c, constantOf? e.underlying l.spelling = some c ∧ x.equals c = true

/-- Constants are never spelled in two ways. -/
def SpelledOnce (type : String) (ls : List Literal) : Prop :=
  ∀ l ∈ ls, ∀ m ∈ ls, constantOf? type l.spelling = constantOf? type m.spelling → l = m

instance (type : String) (ls : List Literal) : Decidable (SpelledOnce type ls) :=
  inferInstanceAs (Decidable (∀ l ∈ ls, ∀ m ∈ ls, _ → l = m))

section Enumerations

variable {name : String} {decls : List ConstDecl} {base : ScalarKind} {underlying : String}

theorem mem_enumerationOf {l : Literal} :
    l ∈ (enumerationOf name decls base underlying).allowed.values ↔
      l ∈ foundLiterals name decls := by
  rw [enumerationOf, allowedValues_eq_ofList, AllowedValues.mem_ofList, foundLiterals]

theorem nodup_enumerationOf (name : String) (decls : List ConstDecl) (base : ScalarKind)
    (underlying : String) : (enumerationOf name decls base underlying).allowed.values.Nodup := by
  rw [enumerationOf, allowedValues_eq_ofList]
  exact AllowedValues.nodup_ofList _

theorem any_equals_iff {e : Enumeration} {x : GoScalar} :
    (e.allowed.spellings.filterMap (constantOf? e.underlying)).any x.equals = true ↔
      e.Allows x := by
  simp only [List.any_eq_true, List.mem_filterMap, AllowedValues.spellings, List.mem_map,
    Enumeration.Allows]
  constructor
  · rintro ⟨c, ⟨key, ⟨l, hl, rfl⟩, hc⟩, hequals⟩
    exact ⟨l, hl, c, hc, hequals⟩
  · rintro ⟨l, hl, c, hc, hequals⟩
    exact ⟨c, ⟨_, ⟨l, hl, rfl⟩, hc⟩, hequals⟩

/-- Keys are kept apart by their spellings, so they are distinct exactly if no constant is spelled
in two ways. -/
theorem distinctKeys_iff
    (hvalid : ∀ l ∈ foundLiterals name decls, (constantOf? underlying l.spelling).isSome) :
    DistinctKeys underlying (enumerationOf name decls base underlying).allowed.spellings ↔
      SpelledOnce underlying (foundLiterals name decls) := by
  have hpairwise := List.nodup_map_iff_inj_on
    (f := fun l : Literal => constantOf? underlying l.spelling)
    (nodup_enumerationOf name decls base underlying)
  have hdenotes : ∀ key ∈ (enumerationOf name decls base underlying).allowed.spellings,
      (constantOf? underlying key).isSome := by
    intro key hkey
    obtain ⟨l, hl, rfl⟩ := List.mem_map.mp hkey
    exact hvalid l (mem_enumerationOf.mp hl)
  simp only [mem_enumerationOf, List.Nodup, List.pairwise_map] at hpairwise
  rw [DistinctKeys, and_iff_right hdenotes, AllowedValues.spellings, List.pairwise_map]
  exact hpairwise

/-- The keys of an enumeration are distinct constants exactly if none of its constants is spelled
in two ways.  If they are, its method accepts the values that equal an allowed constant and no
others; if not, the method is no program. -/
theorem membership_of_constants (hbuiltin : ScalarKind.ofBuiltin? underlying = some base)
    (hvalid : ∀ l ∈ foundLiterals name decls, (constantOf? underlying l.spelling).isSome) :
    let e := enumerationOf name decls base underlying
    (DistinctKeys underlying e.allowed.spellings ↔
        SpelledOnce underlying (foundLiterals name decls)) ∧
      (SpelledOnce underlying (foundLiterals name decls) → ∀ x,
        (e.Allows x → (e.lower name).returns? x = some .absent) ∧
          (¬ e.Allows x → (e.lower name).returns? x = some .failure)) ∧
      (¬ SpelledOnce underlying (foundLiterals name decls) → ∀ x,
        (e.lower name).returns? x = none) := by
  intro e
  have hkeys : DistinctKeys e.underlying e.allowed.spellings ↔
      SpelledOnce underlying (foundLiterals name decls) := distinctKeys_iff hvalid
  have hlower := fun x => returns?_lower x name (e := e) (Option.isSome_of_eq_some hbuiltin)
  refine ⟨hkeys, fun honce x => ⟨fun hallows => ?_, fun hallows => ?_⟩, fun htwice x => ?_⟩
  · rw [hlower, if_pos (hkeys.mpr honce), if_pos (any_equals_iff.mpr hallows)]
  · rw [hlower, if_pos (hkeys.mpr honce), if_neg fun hany => hallows (any_equals_iff.mp hany)]
  · rw [hlower, if_neg fun hdistinct => htwice (hkeys.mp hdistinct)]

end Enumerations

/-- The same constant in decimal and in hexadecimal digits. -/
def spelledTwice : List ConstDecl :=
  [⟨none, true, [specAt 0 ["A"] (some "T") [digitExpr "1"],
    specAt 1 ["B"] (some "T") [digitExpr "0x1"]]⟩]

/-- Both spellings become keys, and the method does not even accept their constant. -/
theorem not_distinctKeys_spelledTwice :
    let e := enumerationOf "T" spelledTwice .integer "int"
    (∀ l ∈ foundLiterals "T" spelledTwice, (constantOf? "int" l.spelling).isSome) ∧
      e.allowed.spellings = ["1", "0x1"] ∧ ¬ DistinctKeys "int" e.allowed.spellings ∧
      e.Allows (.number (.finite 1)) ∧
      (e.lower "T").returns? (.number (.finite 1)) ≠ some .absent := by
  have hkeys : ¬ DistinctKeys "int"
      (enumerationOf "T" spelledTwice .integer "int").allowed.spellings := by decide +kernel
  refine ⟨by decide +kernel, by decide +kernel, hkeys, ?_, ?_⟩
  · exact ⟨.integer "1", List.mem_cons_self, .number 1, by decide +kernel, rfl⟩
  · have hrefused := (returns?_lower (.number (.finite 1)) "T" rfl).trans (if_neg hkeys)
    rw [hrefused]
    exact nofun

/-- A counter, a number in hexadecimal digits, a character and a fraction. -/
def mixedSpellings : List ConstDecl :=
  [⟨none, true, [specAt 0 ["A"] (some "T") [counterExpr],
    specAt 1 ["B"] (some "T") [digitExpr "0x10"],
    specAt 2 ["C"] (some "T") [.literal .char "'a'" ⟨0, 0⟩],
    specAt 3 ["D"] (some "T") [.literal .float "1e3" ⟨0, 0⟩]]⟩]

theorem membership_of_constants_mixed :
    let e := enumerationOf "T" mixedSpellings .integer "int"
    ScalarKind.ofBuiltin? "int" = some .integer ∧
      (∀ l ∈ foundLiterals "T" mixedSpellings, (constantOf? "int" l.spelling).isSome) ∧
      DistinctKeys "int" e.allowed.spellings ∧
      (e.lower "T").returns? (.number (.finite 97)) = some .absent ∧
      (e.lower "T").returns? (.number (.finite 98)) = some .failure := by
  have hvalid : ∀ l ∈ foundLiterals "T" mixedSpellings, (constantOf? "int" l.spelling).isSome := by
    decide +kernel
  have honce : SpelledOnce "int" (foundLiterals "T" mixedSpellings) := by
    decide +kernel
  have hbuiltin : ScalarKind.ofBuiltin? "int" = some .integer := rfl
  obtain ⟨hkeys, haccepts, -⟩ := membership_of_constants hbuiltin hvalid
  refine ⟨rfl, hvalid, hkeys.mpr honce, (haccepts honce _).1 ?_, (haccepts honce _).2 ?_⟩
  · exact ⟨.integer "'a'", by decide +kernel, .number 97, by decide +kernel, rfl⟩
  · rw [← any_equals_iff]
    decide +kernel

/-! Plain spellings. -/

/-- A literal in the plain spelling of a constant: an integer in decimal digits, or a text that is
quoted. -/
inductive Literal.Plain : GoConstant → Literal → Prop where
  | integer (n : Int) : Plain (.number n) ⟨.integer, toString n⟩
  | text {s : String} (h : ∀ c ∈ s.toList, ¬ isHighControl c) :
      Plain (.bytes (utf8Bytes s)) ⟨.text, quote s⟩

section Plain

variable {type : String} {kind : ScalarKind} {c d : GoConstant} {l m : Literal}

theorem plain_counter (s : ConstSpec) : Literal.Plain (.number s.index) s.counter :=
  .integer s.index

theorem Literal.Plain.eq (hl : l.Plain c) (hm : m.Plain c) : l = m := by
  cases hl with
  | integer n =>
      generalize hc : GoConstant.number (n : Rat) = c at hm
      cases hm with
      | integer k =>
          obtain rfl : n = k := by simpa using hc
          rfl
      | text h => cases hc
  | text h =>
      rename_i s
      generalize hc : GoConstant.bytes (utf8Bytes s) = c at hm
      cases hm with
      | integer k => cases hc
      | text h' =>
          obtain rfl := utf8Bytes_injective (GoConstant.bytes.inj hc)
          rfl

/-- A plain literal denotes its constant, unless the type rounds it. -/
theorem Literal.Plain.constant_eq (hl : l.Plain c) (hkind : ScalarKind.ofBuiltin? type = some kind)
    (hexact : kind ≠ .float) (hd : constantOf? type l.spelling = some d) : d = c := by
  rw [constantOf?, hkind] at hd
  cases kind with
  | float => exact absurd rfl hexact
  | text =>
      cases hl with
      | integer n =>
          rw [bytesOf?_int] at hd
          cases hd
      | text h => simpa [bytesOf?_quote h, eq_comm] using hd
  | integer =>
      cases hl with
      | integer n =>
          rw [numberOf?_int] at hd
          simp only [Option.bind_eq_bind, Option.bind_some] at hd
          split at hd
          · exact (Option.some.inj hd).symm
          · cases hd
      | text h => simp [numberOf?_quote] at hd

/-- Constants in their plain spellings are never spelled in two ways, so that an enumeration of
counters, of decimal numbers or of quoted texts has distinct keys. -/
theorem spelledOnce_of_plain {ls : List Literal} (hkind : ScalarKind.ofBuiltin? type = some kind)
    (hexact : kind ≠ .float) (hvalid : ∀ l ∈ ls, (constantOf? type l.spelling).isSome)
    (hplain : ∀ l ∈ ls, ∃ c, l.Plain c) : SpelledOnce type ls := by
  intro l hl m hm heq
  obtain ⟨c, hc⟩ := hplain l hl
  obtain ⟨d, hd⟩ := hplain m hm
  obtain ⟨k, hk⟩ := Option.isSome_iff_exists.mp (hvalid l hl)
  have hkc : k = c := hc.constant_eq hkind hexact hk
  have hkd : k = d := hd.constant_eq hkind hexact (heq ▸ hk)
  subst hkc
  subst hkd
  exact hc.eq hd

end Plain

end FieldRules
