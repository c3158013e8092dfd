/-
The scopes of generated methods.  Every name that a method uses is defined before it is used or
visible from outside, loops use both their variables and give them names of their own, and no
body is empty.
-/
import FieldRules.Proofs.Code.Imports

namespace FieldRules

/-! The names that code uses. -/

/-- The names among tokens that are not selected from anything; `selected` tells whether a
point stands before the tokens. -/
def namesAmong (selected : Bool) : List TokenKind → List String
  | [] => []
  | .ident name :: ks => if selected then namesAmong false ks else name :: namesAmong false ks
  | k :: ks => namesAmong (k = .op ".") ks

namespace Expr

mutual
/-- The names that an expression uses, also in its pieces of code. -/
def names : Expr → List String
  | ident name => [name]
  | raw text => namesAmong false (wordsOf text)
  | str _ => []
  | selector base _ => base.names
  | deref inner | not inner => inner.names
  | call function args => function.names ++ namesAll args
  | index base key => base.names ++ key.names
  | binary left _ right => left.names ++ right.names
  | set keyType keys => keyType :: keys.flatMap fun key => namesAmong false (wordsOf key)

def namesAll : List Expr → List String
  | [] => []
  | e :: es => e.names ++ namesAll es
end

@[simp] theorem namesAll_eq_flatMap (es : List Expr) : namesAll es = es.flatMap names := by
  induction es with
  | nil => rfl
  | cons e es ih => rw [namesAll, List.flatMap_cons, ih]

end Expr

namespace SimpleStmt

def names : SimpleStmt → List String
  | define _ value => value.names
  | assign target value => target.names ++ value.names

/-- The variables that a statement defines; the blank name defines none. -/
def defined : SimpleStmt → List String
  | define names _ => names.filter (· ≠ "_")
  | assign _ _ => []

end SimpleStmt

namespace Stmt

/-- The variables that a statement defines for those after it. -/
def defined : Stmt → List String
  | simple s => s.defined
  | declare name _ => [name]
  | branch _ _ _ | loop _ _ _ _ | result _ => []

mutual
/-- The names that a statement uses without defining them, so that they must be in scope where
it stands.  What comes before a condition is in scope up to the end of the branch, and the
variables of a loop are in scope in its body. -/
def free : Stmt → List String
  | simple s => s.names
  | declare _ type => [type]
  | branch first condition body =>
      first.elim [] SimpleStmt.names ++
        (condition.names ++ freeAll body).filter (· ∉ first.elim [] SimpleStmt.defined)
  | loop key value whole body =>
      whole.names ++ (freeAll body).filter (· ∉ [key, value])
  | result value => value.names

/-- What a statement defines is in scope in those after it. -/
def freeAll : List Stmt → List String
  | [] => []
  | s :: ss => s.free ++ (freeAll ss).filter (· ∉ s.defined)
end

/-- The variables of a loop differ from each other and from the names around it, and its body
uses both. -/
structure OwnVariables (outer : List String) (key value : String) (body : List Stmt) :
    Prop where
  apart : key ≠ value
  key_fresh : key ∉ outer
  value_fresh : value ∉ outer
  key_used : key ∈ freeAll body
  value_used : value ∈ freeAll body

mutual
/-- Bodies are not empty, and loops have variables of their own; `outer` are the names that
they must not have. -/
def Tidy (outer : List String) : Stmt → Prop
  | simple _ | declare _ _ | result _ => True
  | branch _ _ body => body ≠ [] ∧ TidyAll outer body
  | loop key value _ body =>
      body ≠ [] ∧ OwnVariables outer key value body ∧ TidyAll (key :: value :: outer) body

def TidyAll (outer : List String) : List Stmt → Prop
  | [] => True
  | s :: ss => s.Tidy outer ∧ TidyAll outer ss
end

end Stmt

/-- The receiver, the errors found and the error of a single value: no loop variable may have
one of these names. -/
def methodNames : List String := ["r", "errs", "err"]

/-- A method uses its receiver, its own variables and what is visible from outside, and nothing
else. -/
structure Method.WellScoped (m : Method) (visible : List String) : Prop where
  closed : Stmt.freeAll m.body ⊆ "r" :: visible
  tidy : Stmt.TidyAll methodNames m.body

/-- The names that the language declares, as far as methods use them. -/
def predeclared : List String := ["error", "len", "nil"]

/-! Statements and lists of statements. -/

namespace Stmt

variable {name key value : String} {s : Stmt} {ss ts : List Stmt} {outer : List String}
  {condition whole : Expr}

attribute [local simp] free freeAll

@[simp] theorem freeAll_singleton : freeAll [s] = s.free := by
  simp

theorem freeAll_subset (ss : List Stmt) : freeAll ss ⊆ ss.flatMap free := by
  induction ss with
  | nil => exact List.Subset.refl _
  | cons s ss ih =>
      rw [freeAll, List.flatMap_cons]
      exact List.append_subset.mpr ⟨List.subset_append_left _ _,
        fun _ hname => List.mem_append_right _ (ih (List.mem_of_mem_filter hname))⟩

theorem mem_free_branch :
    name ∈ (branch none condition ss).free ↔ name ∈ condition.names ∨ name ∈ freeAll ss := by
  simp

theorem mem_free_loop :
    name ∈ (loop key value whole ss).free ↔
      name ∈ whole.names ∨ (name ∈ freeAll ss ∧ name ≠ key ∧ name ≠ value) := by
  simp

theorem mem_freeAll_declare {type : String} :
    name ∈ freeAll (declare key type :: ss) ↔ name = type ∨ (name ∈ freeAll ss ∧ name ≠ key) := by
  simp [defined]

theorem tidyAll_iff : TidyAll outer ss ↔ ∀ s ∈ ss, s.Tidy outer := by
  induction ss with
  | nil => simp [TidyAll]
  | cons s ss ih => rw [TidyAll, ih, List.forall_mem_cons]

end Stmt

/-! Pieces of code. -/

section Pieces

attribute [local simp] Expr.names Stmt.free

@[simp] theorem names_nil : Expr.nil.names = ["nil"] := by
  have hword := (Spelled.ident (by decide : isIdentifier "nil" = true)).word.wordsOf_eq
  rw [Expr.nil, Expr.names, hword]
  rfl

@[simp] theorem names_notNil (e : Expr) : e.notNil.names = e.names ++ ["nil"] := by
  rw [Expr.notNil, Expr.names, names_nil]

@[simp] theorem names_method (base : Expr) (name : String) (args : List Expr) :
    (base.method name args).names = base.names ++ args.flatMap Expr.names := by
  simp [Expr.method]

@[simp] theorem names_formattedError (args : List Expr) :
    (formattedError args).names = "fmt" :: args.flatMap Expr.names := by
  simp [formattedError]

@[simp] theorem names_fixedError (text : String) : (fixedError text).names = ["errors"] := by
  simp [fixedError]

@[simp] theorem free_joinError (e : Expr) :
    (joinError e).free = "errs" :: "errors" :: "errs" :: e.names := by
  simp [joinError, Stmt.assign, SimpleStmt.names]

theorem tidy_joinError (e : Expr) (outer : List String) : (joinError e).Tidy outer := trivial

@[simp] theorem names_dereferenced (depth : Nat) (e : Expr) :
    (dereferenced depth e).names = e.names := by
  induction depth with
  | zero => rfl
  | succ depth ih => rwa [dereferenced, Expr.names]

theorem names_presence {e guard : Expr} {depth : Nat} (h : presence? e depth = some guard) :
    guard.names ⊆ "nil" :: e.names := by
  induction depth generalizing guard with
  | zero => cases h
  | succ depth ih =>
      have hlast : (dereferenced depth e).notNil.names ⊆ "nil" :: e.names := by
        intro name hname
        simpa [or_comm] using hname
      rw [presence?] at h
      cases hfirst : presence? e depth with
      | none =>
          rw [hfirst] at h
          cases h
          exact hlast
      | some first =>
          rw [hfirst] at h
          cases h
          exact List.append_subset.mpr ⟨ih hfirst, hlast⟩

theorem names_access (f : Field) : f.access.names = ["r"] := rfl

end Pieces

/-! Texts of code: accesses, bounds and constants. -/

theorem namesAmong_dereferenced (depth : Nat) (e : Expr) :
    namesAmong false (dereferenced depth e).tokens = namesAmong false e.tokens := by
  induction depth with
  | zero => rfl
  | succ depth ih =>
      have hstar : namesAmong false (.op "*" :: (dereferenced depth e).tokens) =
          namesAmong false (dereferenced depth e).tokens := rfl
      rwa [dereferenced, Expr.tokens, hstar]

/-- The text of an access uses the receiver; the name of the field is selected from it. -/
theorem namesAmong_access {f : Field} (hname : isIdentifier f.name = true) (depth : Nat) :
    namesAmong false (wordsOf (dereferenced depth f.access).text) = ["r"] := by
  rw [(printed_dereferenced (printed_access hname) depth).word.wordsOf_eq,
    namesAmong_dereferenced]
  rfl

/-- The spelling of a constant uses no names. -/
theorem namesAmong_signed {kind : LiteralKind} {spelling : String} (h : IsSigned kind spelling) :
    namesAmong false (wordsOf spelling) = [] := by
  rcases h with h | ⟨-, number, h, rfl⟩
  · rw [(Spelled.literal h).wordsOf_eq]
    rfl
  · have hminus := (Spelled.literal h).mark '-' "-" rfl (by decide) (by decide) h.stopsAt_minus
    have hspelled : Spelled endsWord ("-" ++ number).toList [.op "-", .literal kind number] := by
      rw [String.toList_append]
      exact hminus
    have hwords : wordsOf ("-" ++ number) = [.op "-", .literal kind number] := hspelled.wordsOf_eq
    rw [hwords]
    rfl

theorem names_bound (b : Bound) : (Expr.raw b.text).names = [] := by
  obtain ⟨kind, -, hsigned⟩ := b.isNumber_text
  exact namesAmong_signed hsigned

/-! Checks. -/

/-- The names that the statements for the rules of a field use. -/
def checkNames : List String := ["r", "errs", "errors", "fmt", "len", "nil"]

theorem free_check {c : Check}
    (h : namesAmong false (wordsOf c.condition.operand.access) = ["r"]) :
    c.lower.free ⊆ checkNames := by
  have hoperand : c.condition.operand.expr.names ⊆ ["len", "r"] := by
    cases hc : c.condition.operand with
    | len access =>
        rw [hc] at h
        simp [Operand.expr, Expr.names, show namesAmong false (wordsOf access) = ["r"] from h]
    | value access =>
        rw [hc] at h
        simp [Operand.expr, Expr.names, show namesAmong false (wordsOf access) = ["r"] from h]
  have herror : c.error.names ⊆ ["errors", "fmt", "len", "r"] := by
    unfold Check.error
    dsimp only
    split
    · intro name hname
      simp only [names_formattedError, List.flatMap_cons, Expr.names, List.nil_append,
        List.flatMap_nil, List.append_nil, List.mem_cons] at hname
      rcases hname with rfl | hname
      · decide
      · exact List.mem_cons_of_mem _ (List.mem_cons_of_mem _ (hoperand hname))
    · simp
  intro name hname
  rw [Check.lower, Stmt.mem_free_branch, Expr.names, names_bound, List.append_nil,
    Stmt.freeAll_singleton, free_joinError] at hname
  have hall : name ∈ ["len", "r"] ∨ name ∈ ["errs", "errors", "errs"] ∨
      name ∈ ["errors", "fmt", "len", "r"] := by
    rcases hname with hname | hname
    · exact .inl (hoperand hname)
    · rcases List.mem_append.mp (show name ∈ ["errs", "errors", "errs"] ++ c.error.names from hname)
        with hname | hname
      · exact .inr (.inl hname)
      · exact .inr (.inr (herror hname))
  revert hall
  simp only [checkNames, List.mem_cons, List.not_mem_nil, or_false]
  tauto

theorem tidy_check (c : Check) (outer : List String) : c.lower.Tidy outer :=
  ⟨List.cons_ne_nil _ _, trivial, trivial⟩

section Rules

variable {f : Field}

/-- What holds of all checks of a field and of the branch around them, if there is one, holds of
all statements for its rules. -/
theorem forall_mem_lowerRules {P : Stmt → Prop} (hchecks : ∀ s ∈ f.loweredChecks, P s)
    (hbranch : ∀ guard, presence? f.access f.shape.peelOptional.1 = some guard →
      f.loweredChecks ≠ [] → P (.branch none guard f.loweredChecks)) :
    ∀ s ∈ f.lowerRules, P s := by
  unfold Field.lowerRules
  split
  · rename_i guard check checks hguard heq
    rw [← heq]
    exact List.forall_mem_singleton.mpr (hbranch guard hguard (heq ▸ List.cons_ne_nil _ _))
  · exact hchecks

theorem free_loweredChecks (hname : isIdentifier f.name = true) :
    ∀ s ∈ f.loweredChecks, s.free ⊆ checkNames := by
  intro s hs
  obtain ⟨c, hc, rfl⟩ := List.mem_map.mp hs
  obtain ⟨rule, -, hc⟩ := List.mem_flatMap.mp hc
  apply free_check
  rw [Rule.access_checks hc]
  exact namesAmong_access hname _

theorem free_lowerRules (hname : isIdentifier f.name = true) :
    ∀ s ∈ f.lowerRules, s.free ⊆ checkNames := by
  refine forall_mem_lowerRules (free_loweredChecks hname) fun guard hguard _ name hmem => ?_
  rcases Stmt.mem_free_branch.mp hmem with hmem | hmem
  · have hreceiver := names_presence hguard hmem
    rw [names_access] at hreceiver
    revert hreceiver
    simp only [checkNames, List.mem_cons, List.not_mem_nil, or_false]
    tauto
  · obtain ⟨s, hs, hmem⟩ := List.mem_flatMap.mp (Stmt.freeAll_subset _ hmem)
    exact free_loweredChecks hname s hs hmem

theorem tidy_lowerRules (outer : List String) : ∀ s ∈ f.lowerRules, s.Tidy outer := by
  have hchecks : ∀ s ∈ f.loweredChecks, s.Tidy outer :=
    List.forall_mem_map.mpr fun c _ => tidy_check c outer
  exact forall_mem_lowerRules hchecks fun _ _ hne => ⟨hne, Stmt.tidyAll_iff.mpr hchecks⟩

end Rules

/-! Contained values. -/

/-- The names that reporting an invalid value uses. -/
def reportNames : List String := ["errs", "errors", "fmt", "nil"]

theorem mem_free_validateValue {value : Expr} {path : ValuePath} {name : String}
    (herr : "err" ∉ path.indices) :
    name ∈ (validateValue value path).free ↔
      name ∈ value.names ∨ name ∈ path.indices ∨ name ∈ reportNames := by
  have hindices : (path.indices.map Expr.ident).flatMap Expr.names = path.indices := by
    rw [List.flatMap_map]
    simp [Expr.names]
  have hdefined : (SimpleStmt.define ["err"] (value.method "Validate" [])).defined = ["err"] := by
    simp [SimpleStmt.defined]
  have hfree : (validateValue value path).free = value.names ++
      ("err" :: "nil" :: "errs" :: "errors" :: "errs" :: "fmt" :: path.indices ++ ["err"]).filter
        (· ∉ ["err"]) := by
    simp [validateValue, Stmt.free, hdefined, SimpleStmt.names, hindices, Expr.names]
  rw [hfree, List.mem_append, List.mem_filter]
  -- the error of a value is defined where it is reported
  by_cases hname : name = "err"
  · subst hname
    simp [herr, reportNames]
  · simp only [reportNames, List.cons_append, List.mem_cons, List.mem_append, List.not_mem_nil,
      hname, or_false, false_or, not_false_eq_true, decide_true, and_true]
    tauto

section Nested

variable {depth : Nat} {value : Expr} {path : ValuePath}

theorem not_fleeting_of_letters {name : String} (hletters : name.toList.all Char.isAlpha)
    (hname : name ∉ "errs" :: "err" :: loopNames) : ¬ Fleeting depth name := by
  simp only [List.mem_cons, not_or] at hname
  rintro (heq | heq | ⟨base, hbase, d, -, heq⟩)
  · exact hname.1 heq
  · exact hname.2.1 heq
  · exact loopVariable_ne hbase d hletters (by simpa [loopNames] using hname.2.2) heq.symm

/-- What reporting uses is no loop variable. -/
theorem ne_loopVariable_of_mem {name base : String} (hname : name ∈ reportNames)
    (hbase : base ∈ loopNames) (depth : Nat) : name ≠ loopVariable base depth := by
  have hletters : name.toList.all Char.isAlpha ∧ name ∉ loopNames := by
    revert name
    decide
  exact fun heq => loopVariable_ne hbase depth hletters.1 hletters.2 heq.symm

theorem not_fleeting_element {key : String} (hkey : key ∈ loopNames)
    (hindices : ∀ i ∈ path.indices, ¬ Fleeting depth i) (verb : String) :
    ∀ i ∈ (path.element verb (loopVariable key depth)).indices, ¬ Fleeting (depth + 1) i := by
  intro i hi
  rcases List.mem_append.mp hi with hi | hi
  · exact fun hfleeting => hindices i hi hfleeting.of_succ
  · rw [List.mem_singleton.mp hi]
    exact not_fleeting_loopVariable hkey depth

/-- Whether statements use what they are given and what reporting uses, and none of the
variables that they define. -/
def UsesGiven (ss : List Stmt) (value : Expr) (path : ValuePath) : Prop :=
  ∀ name, name ∈ Stmt.freeAll ss ↔
    name ∈ value.names ∨ name ∈ path.indices ∨ name ∈ reportNames

theorem UsesGiven.guarded {ss : List Stmt} {e : Expr} (h : UsesGiven ss e path)
    (he : e.names = value.names) : UsesGiven [.branch none value.notNil ss] value path := by
  intro name
  have hnil : name = "nil" → name ∈ reportNames := by
    rintro rfl
    decide
  rw [Stmt.freeAll_singleton, Stmt.mem_free_branch, h, he, names_notNil, List.mem_append,
    List.mem_singleton]
  tauto

/-- The body of a loop uses the variables of the loop beside what the loop is given. -/
theorem UsesGiven.loop {ss : List Stmt} {key item verb : String}
    (h : UsesGiven ss (.ident (loopVariable item depth))
      (path.element verb (loopVariable key depth)))
    (hkey : key ∈ loopNames) (hitem : item ∈ loopNames)
    (hindices : ∀ i ∈ path.indices, ¬ Fleeting depth i) :
    UsesGiven [.loop (loopVariable key depth) (loopVariable item depth) value ss] value path := by
  intro name
  have hindex : name ∈ path.indices →
      name ≠ loopVariable key depth ∧ name ≠ loopVariable item depth := fun hmem =>
    ⟨fun heq => hindices name hmem (heq ▸ fleeting_loopVariable hkey depth),
      fun heq => hindices name hmem (heq ▸ fleeting_loopVariable hitem depth)⟩
  have hreport : name ∈ reportNames →
      name ≠ loopVariable key depth ∧ name ≠ loopVariable item depth := fun hmem =>
    ⟨ne_loopVariable_of_mem hmem hkey depth, ne_loopVariable_of_mem hmem hitem depth⟩
  rw [Stmt.freeAll_singleton, Stmt.mem_free_loop, h]
  simp only [Expr.names, ValuePath.element, List.mem_append, List.mem_singleton]
  tauto

theorem usesGiven_validateValue (hindices : ∀ i ∈ path.indices, ¬ Fleeting depth i) :
    UsesGiven [validateValue value path] value path := by
  intro name
  rw [Stmt.freeAll_singleton]
  exact mem_free_validateValue fun hmem => hindices _ hmem (.inr (.inl rfl))

theorem usesGiven_lowerNested (shape : Shape)
    (hindices : ∀ i ∈ path.indices, ¬ Fleeting depth i) :
    UsesGiven (shape.lowerNested value path depth) value path := by
  induction shape generalizing value path depth with
  | direct type => exact usesGiven_validateValue hindices
  | optional inner ih =>
      by_cases htype : ∃ type, inner = .direct type
      · obtain ⟨type, rfl⟩ := htype
        exact (usesGiven_validateValue hindices).guarded rfl
      · rw [Shape.lowerNested_optional fun type heq => htype ⟨type, heq⟩]
        exact (ih hindices).guarded rfl
  | sequence inner ih =>
      exact UsesGiven.loop (ih (not_fleeting_element (by decide) hindices "%d")) (by decide)
        (by decide) hindices
  | mapping inner ih =>
      exact UsesGiven.loop (ih (not_fleeting_element (by decide) hindices "%v")) (by decide)
        (by decide) hindices

/-- The statements for a shape are one statement, which has all others inside it. -/
theorem exists_lowerNested_eq (shape : Shape) (value : Expr) (path : ValuePath) (depth : Nat) :
    ∃ s, shape.lowerNested value path depth = [s] := by
  cases shape with
  | optional inner => cases inner <;> exact ⟨_, rfl⟩
  | _ => exact ⟨_, rfl⟩

theorem lowerNested_ne_nil (shape : Shape) : shape.lowerNested value path depth ≠ [] := by
  obtain ⟨s, hs⟩ := exists_lowerNested_eq shape value path depth
  rw [hs]
  exact List.cons_ne_nil _ _

/-- No name is a variable of a loop at this depth or deeper. -/
def ClearOfLoops (depth : Nat) (outer : List String) : Prop :=
  ∀ name ∈ outer, ∀ base ∈ loopNames, ∀ d ≥ depth, name ≠ loopVariable base d

theorem ClearOfLoops.inside {outer : List String} (h : ClearOfLoops depth outer) {key item : String}
    (hkey : key ∈ loopNames) (hitem : item ∈ loopNames) :
    ClearOfLoops (depth + 1) (loopVariable key depth :: loopVariable item depth :: outer) := by
  have hown : ∀ own ∈ loopNames, ∀ base ∈ loopNames, ∀ d ≥ depth + 1,
      loopVariable own depth ≠ loopVariable base d := by
    intro own hown base hbase d hd heq
    have hdepth := (loopVariable_injective hown hbase heq).2
    omega
  refine List.forall_mem_cons.mpr ⟨hown key hkey, List.forall_mem_cons.mpr ⟨hown item hitem, ?_⟩⟩
  exact fun name hname base hbase d hd => h name hname base hbase d (Nat.le_of_succ_le hd)

theorem ClearOfLoops.ownVariables {outer : List String} (h : ClearOfLoops depth outer)
    {key item verb : String} (hkey : key ∈ loopNames) (hitem : item ∈ loopNames) (hne : key ≠ item)
    {ss : List Stmt} (hbody : UsesGiven ss (.ident (loopVariable item depth))
      (path.element verb (loopVariable key depth))) :
    Stmt.OwnVariables outer (loopVariable key depth) (loopVariable item depth) ss where
  apart := fun heq => hne (loopVariable_injective hkey hitem heq).1
  key_fresh := fun hmem => h _ hmem key hkey depth (Nat.le_refl depth) rfl
  value_fresh := fun hmem => h _ hmem item hitem depth (Nat.le_refl depth) rfl
  key_used := (hbody _).mpr (.inr (.inl (List.mem_append_right _ List.mem_cons_self)))
  value_used := (hbody _).mpr (.inl List.mem_cons_self)

theorem tidy_validateValue (outer : List String) : (validateValue value path).Tidy outer :=
  ⟨List.cons_ne_nil _ _, tidy_joinError _ _, trivial⟩

theorem tidyAll_lowerNested (shape : Shape) {outer : List String}
    (hindices : ∀ i ∈ path.indices, ¬ Fleeting depth i) (houter : ClearOfLoops depth outer) :
    Stmt.TidyAll outer (shape.lowerNested value path depth) := by
  induction shape generalizing value path depth outer with
  | direct type => exact ⟨tidy_validateValue outer, trivial⟩
  | optional inner ih =>
      by_cases htype : ∃ type, inner = .direct type
      · obtain ⟨type, rfl⟩ := htype
        exact ⟨⟨List.cons_ne_nil _ _, tidy_validateValue outer, trivial⟩, trivial⟩
      · rw [Shape.lowerNested_optional fun type heq => htype ⟨type, heq⟩]
        exact ⟨⟨lowerNested_ne_nil inner, ih hindices houter⟩, trivial⟩
  | sequence inner ih =>
      have hkey : "i" ∈ loopNames := by decide
      have hitem : "item" ∈ loopNames := by decide
      have hinside := not_fleeting_element hkey hindices "%d"
      exact ⟨⟨lowerNested_ne_nil inner,
        houter.ownVariables hkey hitem (by decide) (usesGiven_lowerNested inner hinside),
        ih hinside (houter.inside hkey hitem)⟩, trivial⟩
  | mapping inner ih =>
      have hkey : "k" ∈ loopNames := by decide
      have hitem : "value" ∈ loopNames := by decide
      have hinside := not_fleeting_element hkey hindices "%v"
      exact ⟨⟨lowerNested_ne_nil inner,
        houter.ownVariables hkey hitem (by decide) (usesGiven_lowerNested inner hinside),
        ih hinside (houter.inside hkey hitem)⟩, trivial⟩

end Nested

/-! Fields and methods. -/

theorem clearOfLoops_methodNames : ClearOfLoops 0 methodNames := by
  have hall : ∀ name ∈ methodNames, name.toList.all Char.isAlpha ∧ name ∉ loopNames := by decide
  intro name hname base hbase d _ heq
  have hletters := hall name hname
  exact loopVariable_ne hbase d hletters.1 hletters.2 heq.symm

section Fields

variable {f : Field}

theorem free_field (hname : isIdentifier f.name = true) :
    ∀ s ∈ f.lower, s.free ⊆ checkNames := by
  refine List.forall_mem_append.mpr ⟨free_lowerRules hname, ?_⟩
  split
  · obtain ⟨t, ht⟩ := exists_lowerNested_eq f.shape f.access ⟨f.name, []⟩ 0
    rw [ht]
    refine List.forall_mem_singleton.mpr fun name hmem => ?_
    rw [← Stmt.freeAll_singleton, ← ht, usesGiven_lowerNested f.shape (List.forall_mem_nil _),
      names_access] at hmem
    revert hmem
    simp only [checkNames, reportNames, List.mem_cons, List.not_mem_nil, or_false, false_or]
    tauto
  · exact List.forall_mem_nil _

theorem tidy_field (f : Field) : ∀ s ∈ f.lower, s.Tidy methodNames := by
  refine List.forall_mem_append.mpr ⟨tidy_lowerRules methodNames, ?_⟩
  split
  · exact Stmt.tidyAll_iff.mp
      (tidyAll_lowerNested f.shape (List.forall_mem_nil _) clearOfLoops_methodNames)
  · exact List.forall_mem_nil _

end Fields

theorem wellScoped_lowerRecord (name : String) {fields : List Field}
    (hnames : ∀ f ∈ fields, isIdentifier f.name = true) :
    (lowerRecord name fields).WellScoped (packages ++ predeclared) := by
  have hfree : (fields.flatMap Field.lower).flatMap Stmt.free ⊆ checkNames := by
    intro name hmem
    obtain ⟨s, hs, hmem⟩ := List.mem_flatMap.mp hmem
    obtain ⟨f, hf, hs⟩ := List.mem_flatMap.mp hs
    exact free_field (hnames f hf) s hs hmem
  have htidy : ∀ s ∈ fields.flatMap Field.lower, s.Tidy methodNames := by
    intro s hs
    obtain ⟨f, -, hs⟩ := List.mem_flatMap.mp hs
    exact tidy_field f s hs
  unfold lowerRecord validation
  cases hss : fields.flatMap Field.lower with
  | nil =>
      refine ⟨?_, trivial, trivial⟩
      simp [Stmt.free, packages, predeclared]
  | cons s ss =>
      rw [hss] at hfree htidy
      change Method.WellScoped ⟨name, true, "Validate",
        .declare "errs" "error" :: ((s :: ss) ++ [.result (.ident "errs")])⟩ _
      constructor
      · intro used hmem
        rcases Stmt.mem_freeAll_declare.mp hmem with rfl | ⟨hmem, herrs⟩
        · decide
        · have hbody := Stmt.freeAll_subset _ hmem
          rw [List.flatMap_append, List.mem_append] at hbody
          have hname : used ∈ checkNames := by
            rcases hbody with hbody | hbody
            · exact hfree hbody
            · exact absurd (List.mem_singleton.mp hbody) herrs
          revert hname
          simp only [checkNames, packages, predeclared, List.cons_append, List.nil_append,
            List.mem_cons, List.not_mem_nil, or_false]
          tauto
      · exact ⟨trivial, Stmt.tidyAll_iff.mpr
          (List.forall_mem_append.mpr ⟨htidy, List.forall_mem_singleton.mpr trivial⟩)⟩

theorem wellScoped_lowerEnumeration (name : String) {e : Enumeration}
    (hkeys : ∀ l ∈ e.allowed.values, ∃ kind, IsSigned kind l.spelling) :
    (e.lower name).WellScoped (e.underlying :: packages ++ predeclared) := by
  have hnone : (e.allowed.spellings.flatMap fun key => namesAmong false (wordsOf key)) = [] := by
    rw [List.flatMap_eq_nil_iff]
    intro key hkey
    obtain ⟨l, hl, rfl⟩ := List.mem_map.mp hkey
    obtain ⟨kind, hsigned⟩ := hkeys l hl
    exact namesAmong_signed hsigned
  have hvalid : ["valid"].filter (fun x => decide (x ≠ "_")) = ["valid"] := by decide
  have hok : ["_", "ok"].filter (fun x => decide (x ≠ "_")) = ["ok"] := by decide
  constructor
  · intro used hmem
    simp only [Enumeration.lower, validation, Stmt.define, Stmt.freeAll, Stmt.free,
      SimpleStmt.names, SimpleStmt.defined, Stmt.defined, Expr.names, receiver, hnone, hvalid, hok,
      names_formattedError, names_nil, Option.elim_some, Expr.namesAll, List.flatMap_cons,
      List.flatMap_nil, List.mem_append, List.mem_cons, List.mem_filter, List.not_mem_nil, or_false,
      false_or, decide_eq_true_eq, packages, predeclared] at hmem ⊢
    tauto
  · exact ⟨trivial, ⟨List.cons_ne_nil _ _, trivial, trivial⟩, trivial, trivial⟩

/-- Generated methods are well-scoped.  The method of a record with any shapes and rules uses its
receiver, its own variables, two packages and what the language declares, each where it is in
scope; every loop has two variables of new names and uses both; and no body is empty.  The
method of an enumeration also uses the type behind it, and nothing else. -/
theorem wellScoped_methods (name : String) :
    (∀ fields : List Field, (∀ f ∈ fields, isIdentifier f.name = true) →
        (lowerRecord name fields).WellScoped (packages ++ predeclared)) ∧
      ∀ e : Enumeration, (∀ l ∈ e.allowed.values, ∃ kind, IsSigned kind l.spelling) →
        (e.lower name).WellScoped (e.underlying :: packages ++ predeclared) :=
  ⟨fun _ hnames => wellScoped_lowerRecord name hnames,
    fun _ hkeys => wellScoped_lowerEnumeration name hkeys⟩

/-- Rows of cells, one loop inside another, and at least one row. -/
def rowFields : List Field :=
  [⟨"Rows", .sequence (.optional (.sequence (.direct (.named "Cell")))),
    [.length ⟨some 1, none, none, none, none⟩], true⟩]

def switchValues : Enumeration := ⟨.integer, "int", ⟨[⟨.integer, toString (0 : Int)⟩]⟩⟩

theorem wellScoped_methods_rows :
    (∀ f ∈ rowFields, isIdentifier f.name = true) ∧
      (∀ l ∈ switchValues.allowed.values, ∃ kind, IsSigned kind l.spelling) ∧
      (lowerRecord "Table" rowFields).WellScoped (packages ++ predeclared) ∧
      (switchValues.lower "Switch").WellScoped ("int" :: packages ++ predeclared) := by
  have hnames : ∀ f ∈ rowFields, isIdentifier f.name = true := by decide
  have hkeys : ∀ l ∈ switchValues.allowed.values, ∃ kind, IsSigned kind l.spelling := by
    intro l hl
    obtain ⟨kind, -, hsigned⟩ := isNumber_int 0
    exact ⟨kind, List.mem_singleton.mp hl ▸ hsigned⟩
  exact ⟨hnames, hkeys, (wellScoped_methods "Table").1 _ hnames,
    (wellScoped_methods "Switch").2 _ hkeys⟩

end FieldRules
