/-
Formats and their arguments.  Every format of generated code has one verb for each argument,
and the verb is the one for what the argument is: an index, a key, an error or a measured value.
Texts of rules stand for themselves, whatever percent signs they contain.
-/
import FieldRules.Proofs.Code.Scoping

namespace FieldRules

/-! Reading formats. -/

/-- A piece of a format: a character, or a verb by its letter. -/
inductive FormatPiece where
  | plain (c : Char)
  | verb (letter : Char)
deriving DecidableEq, Repr

/-- The pieces of a format.  Two percent signs are one character, and a percent sign at the end
is the beginning of nothing. -/
def formatPieces? : List Char → Option (List FormatPiece)
  | [] => some []
  | ['%'] => none
  | '%' :: c :: cs => (formatPieces? cs).map ((if c = '%' then .plain '%' else .verb c) :: ·)
  | c :: cs => (formatPieces? cs).map (.plain c :: ·)

namespace FormatPiece

def letter? : FormatPiece → Option Char
  | plain _ => none
  | verb letter => some letter

/-- The text of pieces, with the texts of arguments in place of the verbs. -/
def fill? : List FormatPiece → List String → Option (List Char)
  | [], [] => some []
  | plain c :: ps, texts => (fill? ps texts).map (c :: ·)
  | verb _ :: ps, text :: texts => (fill? ps texts).map (text.toList ++ ·)
  | _, _ => none

end FormatPiece

/-- The letters of the verbs of a format. -/
def verbs? (format : String) : Option (List Char) :=
  (formatPieces? format.toList).map fun ps => ps.filterMap FormatPiece.letter?

/-- A format with the texts of its arguments in place of the verbs; none if there are more or
fewer texts than verbs. -/
def filled? (format : String) (texts : List String) : Option String :=
  ((formatPieces? format.toList).bind fun ps => FormatPiece.fill? ps texts).map String.ofList

section Reading

variable {as bs : List Char} {ps : List FormatPiece}

/-- Formats are read one after the other. -/
theorem formatPieces?_append (h : formatPieces? as = some ps) :
    formatPieces? (as ++ bs) = (formatPieces? bs).map (ps ++ ·) := by
  induction as using formatPieces?.induct generalizing ps with
  | case1 =>
      cases h
      simp
  | case2 => cases h
  | case3 c cs ih =>
      rw [formatPieces?, Option.map_eq_some_iff] at h
      obtain ⟨qs, hqs, rfl⟩ := h
      rw [List.cons_append, List.cons_append, formatPieces?, ih hqs]
      simp [Function.comp_def]
  | case4 c cs hend hverb ih =>
      have hc : c ≠ '%' := by
        rintro rfl
        cases cs with
        | nil => exact hend rfl rfl
        | cons d ds => exact hverb d ds rfl rfl
      rw [formatPieces?, Option.map_eq_some_iff] at h
      · obtain ⟨qs, hqs, rfl⟩ := h
        rw [List.cons_append, formatPieces?, ih hqs]
        · simp [Function.comp_def]
        · exact fun heq _ => hc heq
        · exact fun _ _ heq _ => hc heq
      · exact hend
      · exact hverb

/-- Characters that are no percent signs stand for themselves. -/
theorem formatPieces?_plain (h : '%' ∉ as) : formatPieces? as = some (as.map .plain) := by
  induction as with
  | nil => rfl
  | cons c cs ih =>
      have hc : c ≠ '%' := fun heq => h (heq ▸ List.mem_cons_self)
      rw [formatPieces?, ih fun hmem => h (List.mem_cons_of_mem c hmem)]
      · rfl
      · exact fun heq _ => hc heq
      · exact fun _ _ heq _ => hc heq

theorem formatPieces?_escapeFormat (s : String) :
    formatPieces? (escapeFormat s).toList = some (s.toList.map .plain) := by
  rw [escapeFormat, String.toList_ofList]
  induction s.toList with
  | nil => rfl
  | cons c cs ih =>
      have hfirst : formatPieces? (if c = '%' then ['%', '%'] else [c]) = some [.plain c] := by
        by_cases hc : c = '%'
        · simp [hc, formatPieces?]
        · rw [if_neg hc]
          exact formatPieces?_plain (by simpa using Ne.symm hc)
      rw [List.flatMap_cons, formatPieces?_append hfirst, ih]
      rfl

theorem filterMap_letter?_plain (cs : List Char) :
    (cs.map FormatPiece.plain).filterMap FormatPiece.letter? = [] := by
  simp [List.filterMap_map, FormatPiece.letter?, Function.comp_def]

theorem fill?_plain (cs : List Char) (texts : List String) :
    FormatPiece.fill? (cs.map .plain ++ ps) texts =
      (FormatPiece.fill? ps texts).map (cs ++ ·) := by
  induction cs with
  | nil => simp
  | cons c cs ih =>
      rw [List.map_cons, List.cons_append, FormatPiece.fill?, ih]
      simp [Function.comp_def]

end Reading

section Verbs

variable {format : String} {vs : List Char}

theorem verbs?_append (h : verbs? format = some vs) (rest : String) :
    verbs? (format ++ rest) = (verbs? rest).map (vs ++ ·) := by
  obtain ⟨ps, hps, rfl⟩ := Option.map_eq_some_iff.mp h
  rw [verbs?, verbs?, String.toList_append, formatPieces?_append hps]
  simp [Function.comp_def]

theorem verbs?_plain (h : '%' ∉ format.toList) : verbs? format = some [] := by
  rw [verbs?, formatPieces?_plain h, Option.map_some, filterMap_letter?_plain]

theorem verbs?_escapeFormat (s : String) : verbs? (escapeFormat s) = some [] := by
  rw [verbs?, formatPieces?_escapeFormat, Option.map_some, filterMap_letter?_plain]

end Verbs

/-! What stands under a verb. -/

/-- What a variable is for. -/
inductive Role where
  | record (fields : List Field)
  | scalar (kind : ScalarKind)
  /-- A value whose type has a shape. -/
  | value (shape : Shape)
  | index
  | key
  /-- The error of a value that is not valid. -/
  | failure
  | other

/-- The verb for a variable in a message, by its letter. -/
def Role.letter? : Role → Option Char
  | scalar .text => some 's'
  | scalar .integer | index => some 'd'
  | scalar .float | key => some 'v'
  | failure => some 'w'
  | record _ | value _ | other => none

/-- Variables with their roles, the innermost first. -/
abbrev Roles := List (String × Role)

/-- An expression reads a value of a shape: a variable, a field of a record or what a pointer
points to. -/
inductive HasShape (roles : Roles) : Expr → Shape → Prop where
  | ident {name : String} {shape : Shape} (h : roles.lookup name = some (.value shape)) :
      HasShape roles (.ident name) shape
  | field {name : String} {fields : List Field} {f : Field}
      (h : roles.lookup name = some (.record fields)) (hf : f ∈ fields) :
      HasShape roles (.selector (.ident name) f.name) f.shape
  | deref {e : Expr} {shape : Shape} (h : HasShape roles e (.optional shape)) :
      HasShape roles e.deref shape

/-- The key of a loop over an expression has a role, and its values have a shape. -/
inductive Ranges (roles : Roles) (whole : Expr) : Role → Shape → Prop where
  | sequence {inner : Shape} (h : HasShape roles whole (.sequence inner)) :
      Ranges roles whole .index inner
  | mapping {inner : Shape} (h : HasShape roles whole (.mapping inner)) :
      Ranges roles whole .key inner

/-- An expression may stand under a verb: a variable under the verb for its role, a length under
the one for integers, and any other value under the verb for everything. -/
inductive Fits (roles : Roles) : Char → Expr → Prop where
  | ident {name : String} {role : Role} {letter : Char} (h : roles.lookup name = some role)
      (hletter : role.letter? = some letter) : Fits roles letter (.ident name)
  | length (e : Expr) : Fits roles 'd' (.call (.ident "len") [e])
  | access (text : String) : Fits roles 'v' (.raw text)

/-- The arguments of a formatted error are a format and one expression for each of its verbs.
An error in scope is wrapped, as the last one, and nothing else is. -/
structure FormatFits (roles : Roles) (format : String) (args : List Expr) (verbs : List Char) :
    Prop where
  read : verbs? format = some verbs
  fits : List.Forall₂ (Fits roles) verbs args
  only_last : 'w' ∉ verbs.dropLast
  wraps : ∀ name, roles.lookup name = some .failure →
    verbs.getLast? = some 'w' ∧ args.getLast? = some (.ident name)

namespace Expr

/-- The function that formats errors. -/
def isErrorf : Expr → Bool
  | selector (ident package) name => package == "fmt" && name == "Errorf"
  | _ => false

theorem isErrorf_selector (base : Expr) {name : String} (h : name ≠ "Errorf") :
    (selector base name).isErrorf = false := by
  cases base <;> simp [isErrorf, h]

mutual
/-- The arguments of all calls that format errors. -/
def errorfs : Expr → List (List Expr)
  | ident _ | raw _ | str _ | set _ _ => []
  | selector base _ => base.errorfs
  | deref inner | not inner => inner.errorfs
  | call function args =>
      (if function.isErrorf then [args] else function.errorfs) ++ errorfsAll args
  | index base key => base.errorfs ++ key.errorfs
  | binary left _ right => left.errorfs ++ right.errorfs

def errorfsAll : List Expr → List (List Expr)
  | [] => []
  | e :: es => e.errorfs ++ errorfsAll es
end

@[simp] theorem errorfsAll_eq_flatMap (es : List Expr) : errorfsAll es = es.flatMap errorfs := by
  induction es with
  | nil => rfl
  | cons e es ih => rw [errorfsAll, List.flatMap_cons, ih]

/-- All formatted errors in an expression have formats that fit. -/
def Formats (roles : Roles) (e : Expr) : Prop :=
  ∀ args ∈ e.errorfs, ∃ format rest verbs,
    args = .str format :: rest ∧ FormatFits roles format rest verbs

/-- The role of a variable with the value of an expression. -/
def role : Expr → Role
  | call (selector _ name) [] => if name = "Validate" then .failure else .other
  | _ => .other

end Expr

namespace SimpleStmt

def Formats (roles : Roles) : SimpleStmt → Prop
  | define _ value => value.Formats roles
  | assign target value => target.Formats roles ∧ value.Formats roles

def roles : SimpleStmt → Roles
  | define names value => names.map fun name => (name, value.role)
  | assign _ _ => []

end SimpleStmt

namespace Stmt

/-- The variables that a statement defines for those after it, with their roles. -/
def roles : Stmt → Roles
  | simple s => s.roles
  | declare name _ => [(name, .other)]
  | branch _ _ _ | loop _ _ _ _ | result _ => []

mutual
/-- All formatted errors in a statement have formats that fit, where the variables around it
have the given roles. -/
def Formats (roles : Roles) : Stmt → Prop
  | simple s => s.Formats roles
  | declare _ _ => True
  | branch first condition body =>
      (∀ s ∈ first, s.Formats roles) ∧ condition.Formats (first.elim [] (·.roles) ++ roles) ∧
        FormatsAll (first.elim [] (·.roles) ++ roles) body
  | loop key value whole body =>
      whole.Formats roles ∧ ∃ role inner, Ranges roles whole role inner ∧
        FormatsAll ((value, .value inner) :: (key, role) :: roles) body
  | result value => value.Formats roles

def FormatsAll (roles : Roles) : List Stmt → Prop
  | [] => True
  | s :: ss => s.Formats roles ∧ FormatsAll (s.roles ++ roles) ss
end

end Stmt

/-! Expressions without formatted errors, and those that are one. -/

section Calls

variable {roles : Roles} {e : Expr}

attribute [local simp] Expr.errorfs

theorem HasShape.errorfs_eq {shape : Shape} (h : HasShape roles e shape) : e.errorfs = [] := by
  induction h with
  | ident h => rfl
  | field h hf => rfl
  | deref h ih => rwa [Expr.errorfs]

theorem formats_of_errorfs_eq (h : e.errorfs = []) : e.Formats roles := by
  simp [Expr.Formats, h]

@[simp] theorem errorfs_notNil (e : Expr) : e.notNil.errorfs = e.errorfs := by
  simp [Expr.notNil, Expr.nil]

@[simp] theorem errorfs_dereferenced (depth : Nat) (e : Expr) :
    (dereferenced depth e).errorfs = e.errorfs := by
  induction depth with
  | zero => rfl
  | succ depth ih => rwa [dereferenced, Expr.errorfs]

theorem errorfs_presence {guard : Expr} {depth : Nat} (he : e.errorfs = [])
    (h : presence? e depth = some guard) : guard.errorfs = [] := by
  induction depth generalizing guard with
  | zero => cases h
  | succ depth ih =>
      rw [presence?] at h
      cases hfirst : presence? e depth with
      | none =>
          rw [hfirst] at h
          cases h
          simp [he]
      | some first =>
          rw [hfirst] at h
          cases h
          simp [he, ih hfirst]

/-- A formatted error whose arguments are no errors themselves. -/
theorem formats_formattedError {format : String} {args : List Expr} {verbs : List Char}
    (h : FormatFits roles format args verbs) (hargs : ∀ arg ∈ args, arg.errorfs = []) :
    (formattedError (.str format :: args)).Formats roles := by
  have hnone : args.flatMap Expr.errorfs = [] := List.flatMap_eq_nil_iff.mpr hargs
  have hcall : (formattedError (.str format :: args)).errorfs = [.str format :: args] := by
    simp [formattedError, Expr.method, Expr.isErrorf, hnone]
  intro found hfound
  rw [hcall, List.mem_singleton] at hfound
  exact ⟨format, args, verbs, hfound, h⟩

theorem formats_joinError (h : e.Formats roles) : (joinError e).Formats roles := by
  have hjoin : (Expr.method (.ident "errors") "Join" [.ident "errs", e]).errorfs = e.errorfs := by
    simp [Expr.method, Expr.isErrorf]
  refine ⟨formats_of_errorfs_eq rfl, ?_⟩
  intro args hargs
  exact h args (hjoin ▸ hargs)

theorem formatsAll_iff {ss : List Stmt} (hroles : ∀ s ∈ ss, s.roles = []) :
    Stmt.FormatsAll roles ss ↔ ∀ s ∈ ss, s.Formats roles := by
  induction ss with
  | nil => simp [Stmt.FormatsAll]
  | cons s ss ih =>
      have hfirst := hroles s List.mem_cons_self
      rw [Stmt.FormatsAll, hfirst, List.nil_append,
        ih fun t ht => hroles t (List.mem_cons_of_mem s ht), List.forall_mem_cons]

end Calls

/-! Checks. -/

section Checks

variable {roles : Roles}

/-- No error of a value that is not valid is in scope. -/
def NoFailure (roles : Roles) : Prop :=
  ∀ name, roles.lookup name ≠ some .failure

theorem NoFailure.cons (h : NoFailure roles) (name : String) {role : Role}
    (hrole : role ≠ .failure) : NoFailure ((name, role) :: roles) := by
  intro other hother
  rw [List.lookup_cons] at hother
  split at hother
  · exact hrole (Option.some.inj hother)
  · exact h other hother

/-- One argument in a format whose text before the verb is fixed. -/
theorem formatFits_single (hroles : NoFailure roles) {format verb : String} {letter : Char}
    {arg : Expr} (hformat : verbs? format = some []) (hverb : verbs? verb = some [letter])
    (harg : Fits roles letter arg) : FormatFits roles (format ++ verb) [arg] [letter] where
  read := by
    rw [verbs?_append hformat, hverb]
    rfl
  fits := .cons harg .nil
  only_last := List.not_mem_nil
  wraps := fun name hname => absurd hname (hroles name)

theorem formats_check (hroles : NoFailure roles) (c : Check) : c.lower.Formats roles := by
  have hoperand : c.condition.operand.expr.errorfs = [] := by
    cases c.condition.operand <;> simp [Operand.expr, Expr.errorfs, Expr.isErrorf]
  have herror : c.error.Formats roles := by
    unfold Check.error
    dsimp only
    split
    · have hfirst : verbs? (escapeFormat c.failure.headline ++ ", got ") = some [] := by
        rw [verbs?_append (verbs?_escapeFormat _), verbs?_plain (by decide)]
        rfl
      have hfits : ∃ letter, verbs? c.condition.operand.verb = some [letter] ∧
          Fits roles letter c.condition.operand.expr := by
        cases c.condition.operand with
        | len access => exact ⟨'d', (by decide : verbs? "%d" = some ['d']), .length _⟩
        | value access => exact ⟨'v', (by decide : verbs? "%v" = some ['v']), .access access⟩
      obtain ⟨letter, hverb, hfits⟩ := hfits
      exact formats_formattedError (formatFits_single hroles hfirst hverb hfits)
        (List.forall_mem_singleton.mpr hoperand)
    · apply formats_of_errorfs_eq
      simp [fixedError, Expr.method, Expr.errorfs, Expr.isErrorf]
  refine ⟨by simp, ?_, formats_joinError herror, trivial⟩
  apply formats_of_errorfs_eq
  simp [Expr.errorfs, hoperand]

end Checks

/-! Contained values. -/

section Nested

variable {roles : Roles} {depth : Nat} {value : Expr} {path : ValuePath} {verbs : List Char}

/-- The verbs of a path fit its variables, at a depth of loops and below. -/
structure PathFits (roles : Roles) (depth : Nat) (path : ValuePath) (verbs : List Char) : Prop where
  read : verbs? path.format = some verbs
  fits : List.Forall₂ (Fits roles) verbs (path.indices.map .ident)
  no_wrap : 'w' ∉ verbs
  stays : ∀ i ∈ path.indices, ¬ Fleeting depth i

/-- A variable of another name does not change what fits. -/
theorem fits_cons {indices : List String}
    (h : List.Forall₂ (Fits roles) verbs (indices.map .ident)) {name : String}
    (hname : name ∉ indices) (role : Role) :
    List.Forall₂ (Fits ((name, role) :: roles)) verbs (indices.map .ident) := by
  induction indices generalizing verbs with
  | nil =>
      cases h
      exact .nil
  | cons i indices ih =>
      rw [List.map_cons] at h ⊢
      cases h with
      | cons hi hrest =>
          have hne : (i == name) = false :=
            beq_eq_false_iff_ne.mpr fun heq => hname (heq ▸ List.mem_cons_self)
          refine .cons ?_ (ih hrest fun hmem => hname (List.mem_cons_of_mem i hmem))
          cases hi with
          | ident hlookup hletter =>
              refine .ident ?_ hletter
              rw [List.lookup_cons, hne]
              exact hlookup

theorem PathFits.not_mem (h : PathFits roles depth path verbs) {name : String}
    (hname : Fleeting depth name) : name ∉ path.indices :=
  fun hmem => h.stays name hmem hname

/-- Inside a loop its key is one more step of a path. -/
theorem PathFits.element (h : PathFits roles depth path verbs) {key item verb : String}
    {letter : Char} {role role' : Role} (hkey : key ∈ loopNames) (hitem : item ∈ loopNames)
    (hne : key ≠ item) (hverb : verbs? ("[" ++ (verb ++ "]")) = some [letter])
    (hletter : role.letter? = some letter) (hwrap : letter ≠ 'w') :
    PathFits ((loopVariable item depth, role') :: (loopVariable key depth, role) :: roles)
      (depth + 1) (path.element verb (loopVariable key depth)) (verbs ++ [letter]) where
  read := by
    rw [ValuePath.element, String.append_assoc, String.append_assoc, verbs?_append h.read, hverb]
    rfl
  fits := by
    have hnames : (loopVariable key depth == loopVariable item depth) = false :=
      beq_eq_false_iff_ne.mpr fun heq => hne (loopVariable_injective hkey hitem heq).1
    have hfits := fits_cons (fits_cons h.fits (h.not_mem (fleeting_loopVariable hkey depth)) role)
      (h.not_mem (fleeting_loopVariable hitem depth)) role'
    rw [ValuePath.element, List.map_append]
    refine List.rel_append hfits (.cons (.ident ?_ hletter) .nil)
    rw [List.lookup_cons, hnames, List.lookup_cons_self]
  no_wrap := by
    simpa [h.no_wrap] using hwrap.symm
  stays := not_fleeting_element hkey h.stays verb

theorem PathFits.start {name : String} (h : '%' ∉ name.toList) :
    PathFits roles 0 ⟨name, []⟩ [] where
  read := verbs?_plain h
  fits := .nil
  no_wrap := List.not_mem_nil
  stays := List.forall_mem_nil _

/-- The error of a value that is not valid, under its path. -/
theorem PathFits.formatFits (h : PathFits roles depth path verbs) (hroles : NoFailure roles) :
    FormatFits (("err", .failure) :: roles) (path.format ++ ": %w")
      (path.indices.map .ident ++ [.ident "err"]) (verbs ++ ['w']) where
  read := by
    rw [verbs?_append h.read]
    rfl
  fits := by
    have herr := h.not_mem (Or.inr (Or.inl rfl) : Fleeting depth "err")
    exact List.rel_append (fits_cons h.fits herr _) (.cons (.ident rfl rfl) .nil)
  only_last := by
    rw [List.dropLast_concat]
    exact h.no_wrap
  wraps := by
    intro name hname
    rw [List.lookup_cons] at hname
    split at hname
    · rename_i heq
      rw [List.getLast?_concat, List.getLast?_concat, eq_of_beq heq]
      exact ⟨rfl, rfl⟩
    · exact absurd hname (hroles name)

theorem formats_validateValue {shape : Shape} (hvalue : HasShape roles value shape)
    (hpath : PathFits roles depth path verbs) (hroles : NoFailure roles) :
    (validateValue value path).Formats roles := by
  have hcall : (value.method "Validate" []).errorfs = [] := by
    simp [Expr.method, Expr.errorfs, hvalue.errorfs_eq, Expr.isErrorf_selector]
  have hargs : ∀ arg ∈ path.indices.map Expr.ident ++ [.ident "err"], arg.errorfs = [] := by
    intro arg harg
    obtain ⟨name, rfl⟩ : ∃ name, arg = .ident name := by
      rcases List.mem_append.mp harg with harg | harg
      · obtain ⟨name, -, rfl⟩ := List.mem_map.mp harg
        exact ⟨name, rfl⟩
      · exact ⟨"err", List.mem_singleton.mp harg⟩
    rfl
  have herror := formats_formattedError (hpath.formatFits hroles) hargs
  refine ⟨?_, formats_of_errorfs_eq (errorfs_notNil _), formats_joinError herror, trivial⟩
  rintro s ⟨⟩
  exact formats_of_errorfs_eq hcall

theorem formatsAll_guarded {shape : Shape} (hvalue : HasShape roles value shape) {ss : List Stmt}
    (h : Stmt.FormatsAll roles ss) : Stmt.FormatsAll roles [.branch none value.notNil ss] := by
  refine ⟨⟨by simp, formats_of_errorfs_eq ?_, h⟩, trivial⟩
  rw [errorfs_notNil, hvalue.errorfs_eq]

theorem formatsAll_lowerNested (shape : Shape) (hvalue : HasShape roles value shape)
    (hpath : PathFits roles depth path verbs) (hroles : NoFailure roles) :
    Stmt.FormatsAll roles (shape.lowerNested value path depth) := by
  induction shape generalizing roles value path depth verbs with
  | direct type => exact ⟨formats_validateValue hvalue hpath hroles, trivial⟩
  | optional inner ih =>
      by_cases htype : ∃ type, inner = .direct type
      · obtain ⟨type, rfl⟩ := htype
        exact formatsAll_guarded hvalue ⟨formats_validateValue hvalue hpath hroles, trivial⟩
      · rw [Shape.lowerNested_optional fun type heq => htype ⟨type, heq⟩]
        exact formatsAll_guarded hvalue (ih hvalue.deref hpath hroles)
  | sequence inner ih =>
      refine ⟨⟨formats_of_errorfs_eq hvalue.errorfs_eq, .index, inner, .sequence hvalue, ?_⟩,
        trivial⟩
      exact ih (.ident List.lookup_cons_self)
        (hpath.element (by decide) (by decide) (by decide) rfl rfl (by decide))
        ((hroles.cons _ Role.noConfusion).cons _ Role.noConfusion)
  | mapping inner ih =>
      refine ⟨⟨formats_of_errorfs_eq hvalue.errorfs_eq, .key, inner, .mapping hvalue, ?_⟩,
        trivial⟩
      exact ih (.ident List.lookup_cons_self)
        (hpath.element (by decide) (by decide) (by decide) rfl rfl (by decide))
        ((hroles.cons _ Role.noConfusion).cons _ Role.noConfusion)

end Nested

/-! Fields and methods. -/

/-- What the receiver of a method is. -/
def DeclarationBody.role : DeclarationBody → Role
  | .record fields => .record fields
  | .enumeration e => .scalar e.base

/-- The names of a declaration that formats contain. -/
def Declaration.displayed (d : Declaration) : List String :=
  match d.body with
  | .record fields => fields.map Field.name
  | .enumeration _ => [d.name]

section Fields

variable {roles : Roles} {f : Field}

theorem roles_lowerRules : ∀ s ∈ f.lowerRules, s.roles = [] :=
  forall_mem_lowerRules (List.forall_mem_map.mpr fun _ _ => rfl) fun _ _ _ => rfl

theorem formats_lowerRules (hroles : NoFailure roles) : ∀ s ∈ f.lowerRules, s.Formats roles := by
  have hchecks : ∀ s ∈ f.loweredChecks, s.Formats roles :=
    List.forall_mem_map.mpr fun c _ => formats_check hroles c
  refine forall_mem_lowerRules hchecks fun guard hguard _ => ⟨by simp, ?_, ?_⟩
  · exact formats_of_errorfs_eq (errorfs_presence rfl hguard)
  · exact (formatsAll_iff (List.forall_mem_map.mpr fun _ _ => rfl)).mpr hchecks

theorem roles_lowerNested (shape : Shape) (value : Expr) (path : ValuePath) (depth : Nat) :
    ∀ s ∈ shape.lowerNested value path depth, s.roles = [] := by
  cases shape with
  | optional inner => cases inner <;> exact List.forall_mem_singleton.mpr rfl
  | _ => exact List.forall_mem_singleton.mpr rfl

theorem roles_field (f : Field) : ∀ s ∈ f.lower, s.roles = [] := by
  refine List.forall_mem_append.mpr ⟨roles_lowerRules, ?_⟩
  split
  · exact roles_lowerNested f.shape f.access _ 0
  · exact List.forall_mem_nil _

theorem formats_field {fields : List Field} (hf : f ∈ fields) (hname : '%' ∉ f.name.toList)
    (hreceiver : roles.lookup "r" = some (.record fields)) (hroles : NoFailure roles) :
    ∀ s ∈ f.lower, s.Formats roles := by
  refine List.forall_mem_append.mpr ⟨formats_lowerRules hroles, ?_⟩
  split
  · exact (formatsAll_iff (roles_lowerNested f.shape f.access _ 0)).mp
      (formatsAll_lowerNested f.shape (.field hreceiver hf) (PathFits.start hname) hroles)
  · exact List.forall_mem_nil _

end Fields

theorem noFailure_receiver (body : DeclarationBody) : NoFailure [("r", body.role)] := by
  have hrole : body.role ≠ .failure := by
    cases body <;> exact Role.noConfusion
  exact NoFailure.cons (fun _ => by simp) "r" hrole

theorem formatsAll_lowerRecord (name : String) {fields : List Field}
    (hnames : ∀ f ∈ fields, '%' ∉ f.name.toList) :
    Stmt.FormatsAll [("r", .record fields)] (lowerRecord name fields).body := by
  have hroles : NoFailure [("errs", .other), ("r", .record fields)] :=
    (noFailure_receiver (.record fields)).cons "errs" Role.noConfusion
  unfold lowerRecord validation
  cases hss : fields.flatMap Field.lower with
  | nil => exact ⟨formats_of_errorfs_eq rfl, trivial⟩
  | cons s ss =>
      have hall : ∀ t ∈ (s :: ss) ++ [.result (.ident "errs")], t.roles = [] ∧
          t.Formats [("errs", .other), ("r", .record fields)] := by
        rw [← hss]
        refine List.forall_mem_append.mpr ⟨fun t ht => ?_, List.forall_mem_singleton.mpr
          ⟨rfl, formats_of_errorfs_eq rfl⟩⟩
        obtain ⟨f, hf, ht⟩ := List.mem_flatMap.mp ht
        exact ⟨roles_field f t ht, formats_field hf (hnames f hf) rfl hroles t ht⟩
      exact ⟨trivial, (formatsAll_iff fun t ht => (hall t ht).1).mpr fun t ht => (hall t ht).2⟩

theorem formatsAll_lowerEnumeration {name : String} (e : Enumeration)
    (hname : '%' ∉ name.toList) :
    Stmt.FormatsAll [("r", .scalar e.base)] (e.lower name).body := by
  have hroles : NoFailure
      [("_", .other), ("ok", .other), ("valid", .other), ("r", .scalar e.base)] :=
    (((noFailure_receiver (.enumeration e)).cons "valid" Role.noConfusion).cons "ok"
      Role.noConfusion).cons "_" Role.noConfusion
  have hfirst : verbs? ("invalid value for " ++ name ++ ": ") = some [] := by
    rw [String.append_assoc, verbs?_append (verbs?_plain (by decide)),
      verbs?_append (verbs?_plain hname), verbs?_plain (by decide)]
    rfl
  have hverb : ∃ letter, verbs? e.base.verb = some [letter] ∧
      (Role.scalar e.base).letter? = some letter := by
    cases e.base with
    | text => exact ⟨'s', (by decide : verbs? "%s" = some ['s']), rfl⟩
    | integer => exact ⟨'d', (by decide : verbs? "%d" = some ['d']), rfl⟩
    | float => exact ⟨'v', (by decide : verbs? "%v" = some ['v']), rfl⟩
  obtain ⟨letter, hverb, hletter⟩ := hverb
  have hself : Fits [("_", .other), ("ok", .other), ("valid", .other), ("r", .scalar e.base)]
      letter receiver := .ident rfl hletter
  have herror := formats_formattedError (formatFits_single hroles hfirst hverb hself)
    (List.forall_mem_singleton.mpr rfl)
  refine ⟨formats_of_errorfs_eq rfl, ⟨?_, formats_of_errorfs_eq rfl, herror, trivial⟩,
    formats_of_errorfs_eq rfl, trivial⟩
  rintro s ⟨⟩
  exact formats_of_errorfs_eq rfl

/-- The format of a failing check that reports its value, filled with the text of the value. -/
theorem filled?_check (c : Check) (printed : String) :
    filled? (escapeFormat c.failure.headline ++ ", got " ++ c.condition.operand.verb) [printed] =
      some (c.failure.headline ++ ", got " ++ printed) := by
  have hverb : ∃ letter, formatPieces? c.condition.operand.verb.toList = some [.verb letter] := by
    cases c.condition.operand with
    | len access => exact ⟨'d', (by decide : formatPieces? "%d".toList = some [.verb 'd'])⟩
    | value access => exact ⟨'v', (by decide : formatPieces? "%v".toList = some [.verb 'v'])⟩
  obtain ⟨letter, hverb⟩ := hverb
  have hgot : formatPieces? ", got ".toList = some (", got ".toList.map .plain) :=
    formatPieces?_plain (by decide)
  have hread : formatPieces?
      (escapeFormat c.failure.headline ++ ", got " ++ c.condition.operand.verb).toList =
        some ((c.failure.headline ++ ", got ").toList.map .plain ++ [.verb letter]) := by
    rw [String.toList_append, String.toList_append, List.append_assoc,
      formatPieces?_append (formatPieces?_escapeFormat _), formatPieces?_append hgot, hverb]
    simp
  have hfill : FormatPiece.fill? [.verb letter] [printed] = some printed.toList := by
    simp [FormatPiece.fill?]
  rw [filled?, hread, Option.bind_some, fill?_plain, hfill, Option.map_some, Option.map_some,
    ← String.toList_append, String.ofList_toList]

section Files

variable {f : AnnotatedFile} {name : String}

theorem mem_enumerations {e : Enumeration} :
    (name, e) ∈ f.enumerations ↔ ⟨name, .enumeration e⟩ ∈ f.declarations := by
  rw [AnnotatedFile.enumerations, List.mem_filterMap]
  constructor
  · rintro ⟨⟨declared, fields | e'⟩, hd, heq⟩
    · cases heq
    · cases heq
      exact hd
  · exact fun hd => ⟨_, hd, rfl⟩

theorem mem_records {fields : List Field} :
    (name, fields) ∈ f.records ↔ ⟨name, .record fields⟩ ∈ f.declarations := by
  rw [AnnotatedFile.records, List.mem_filterMap]
  constructor
  · rintro ⟨⟨declared, fields' | e⟩, hd, heq⟩
    · cases heq
      exact hd
    · cases heq
  · exact fun hd => ⟨_, hd, rfl⟩

end Files

/-- Formats fit their arguments.  In the method of every declaration, each formatted error has one
argument for each verb: indices of sequences under the verb for integers, keys of maps under the
verb for everything, and an error, as the last one, under the verb that wraps it.  The error of a
check that reports its value reads as the message after its code, and the text of the value,
whatever percent signs message and code contain. -/
theorem formats_lower (f : AnnotatedFile) (header : String)
    (hnames : ∀ d ∈ f.declarations, ∀ name ∈ d.displayed, '%' ∉ name.toList) :
    (∀ m ∈ (f.lower header).methods, ∃ d ∈ f.declarations, d.name = m.receiver ∧
        Stmt.FormatsAll [("r", d.body.role)] m.body) ∧
      ∀ c : Check, c.failure.reportActual = true →
        ∃ format, c.error = formattedError [.str format, c.condition.operand.expr] ∧
          ∀ printed, filled? format [printed] =
            some ((c.failure.code.elim "" fun code => "[" ++ code ++ "] ") ++ c.failure.message ++
              ", got " ++ printed) := by
  constructor
  · intro m hm
    rcases List.mem_append.mp hm with hm | hm
    · obtain ⟨⟨name, e⟩, he, rfl⟩ := List.mem_map.mp hm
      have hd := mem_enumerations.mp he
      have hname := hnames _ hd name List.mem_cons_self
      exact ⟨_, hd, rfl, formatsAll_lowerEnumeration e hname⟩
    · obtain ⟨⟨name, fields⟩, hfields, rfl⟩ := List.mem_map.mp hm
      have hd := mem_records.mp hfields
      have hfield : ∀ g ∈ fields, '%' ∉ g.name.toList := fun g hg =>
        hnames _ hd g.name (List.mem_map_of_mem hg)
      exact ⟨_, hd, rfl, formatsAll_lowerRecord name hfield⟩
  · intro c hc
    refine ⟨escapeFormat c.failure.headline ++ ", got " ++ c.condition.operand.verb, ?_, ?_⟩
    · rw [Check.error, if_pos hc]
    · intro printed
      have hheadline : c.failure.headline =
          (c.failure.code.elim "" fun code => "[" ++ code ++ "] ") ++ c.failure.message := by
        unfold CheckFailure.headline
        cases c.failure.code <;> simp
      rw [filled?_check, hheadline]

/-- Rows of named cells, and a mode. -/
def gridFile : AnnotatedFile :=
  ⟨"grid.go", "grid",
    [⟨"Grid", .record [⟨"Rows", .sequence (.mapping (.direct (.named "Cell"))),
        [.length ⟨some 1, none, none, none, some "100%"⟩], true⟩]⟩,
      ⟨"Mode", .enumeration ⟨.integer, "int", ⟨[⟨.integer, "1"⟩]⟩⟩⟩]⟩

/-- A check whose message and code read like formats. -/
def percentCheck : Check :=
  ⟨⟨.len "r.Rows", .lt, .int 1⟩, ⟨"Rows are 100%", some "%d%%", true⟩⟩

theorem formats_lower_grid :
    (∀ d ∈ gridFile.declarations, ∀ name ∈ d.displayed, '%' ∉ name.toList) ∧
      percentCheck.failure.reportActual = true ∧
      (∀ m ∈ (gridFile.lower "").methods, ∃ d ∈ gridFile.declarations, d.name = m.receiver ∧
        Stmt.FormatsAll [("r", d.body.role)] m.body) ∧
      ∃ format,
        percentCheck.error = formattedError [.str format, percentCheck.condition.operand.expr] ∧
        ∀ printed, filled? format [printed] =
          some ("[" ++ "%d%%" ++ "] " ++ "Rows are 100%" ++ ", got " ++ printed) := by
  have hnames : ∀ d ∈ gridFile.declarations, ∀ name ∈ d.displayed, '%' ∉ name.toList := by decide
  obtain ⟨hmethods, hchecks⟩ := formats_lower gridFile "" hnames
  exact ⟨hnames, rfl, hmethods, hchecks percentCheck rfl⟩

end FieldRules
