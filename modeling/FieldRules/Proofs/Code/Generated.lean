/-
Generated files are read back.  All their code is made of names of the declarations, of texts
in quotes, of the spellings of constants and of numbers.
-/
import FieldRules.Proofs.Code.Printing
import FieldRules.Proofs.Code.Traversal
import FieldRules.Proofs.Number.Literals
import FieldRules.Code.Lowering

namespace FieldRules

/-! What comes from the declarations. -/

/-- A minus sign ends before a literal. -/
theorem IsLiteral.stopsAt_minus {kind : LiteralKind} {spelling : String} (h : IsLiteral kind spelling) :
    ∀ d ∈ spelling.toList.head?, stopsAt (.op "-") d = true := by
  obtain ⟨c, cs, hchars, hread⟩ := h
  rw [hchars]
  rintro _ ⟨⟩
  obtain ⟨-, hstart⟩ := startsLiteral hread
  have hne : ∀ d : Char, d.isDigit = false → d ∉ ['.', '"', '\x60', '\''] → c ≠ d := by
    rintro d hdigit hmem rfl
    simp only [List.mem_cons, List.not_mem_nil, or_false, not_or] at hmem
    simp [hdigit, hmem] at hstart
  simp [stopsAt, hne '-' (by decide) (by decide), hne '=' (by decide) (by decide)]

/-- The spelling of a constant. -/
theorem IsSigned.exists_spelled {kind : LiteralKind} {spelling : String}
    (h : IsSigned kind spelling) :
    ∃ ks, Spelled endsWord spelling.toList ks ∧ Balanced ks := by
  rcases h with h | ⟨-, number, h, rfl⟩
  · exact ⟨_, .literal h, .literal .nil kind spelling⟩
  · have hall := (Spelled.literal h).mark '-' "-" rfl (by decide) (by decide) h.stopsAt_minus
    exact ⟨_, by simpa [String.toList_append] using hall,
      (Balanced.literal .nil kind number).cons rfl rfl (by simp)⟩

/-- An enumeration of constants whose type has a name. -/
structure Enumeration.Lexical (e : Enumeration) : Prop where
  underlying : isIdentifier e.underlying = true
  allowed : ∀ l ∈ e.allowed.values, ∃ kind, IsSigned kind l.spelling

def DeclarationBody.Lexical : DeclarationBody → Prop
  | record fields => ∀ f ∈ fields, isIdentifier f.name = true
  | enumeration e => e.Lexical

/-- The names of declarations are identifiers, and their constants are literals. -/
structure AnnotatedFile.Lexical (f : AnnotatedFile) : Prop where
  package : isIdentifier f.package = true
  names : ∀ d ∈ f.declarations, isIdentifier d.name = true
  bodies : ∀ d ∈ f.declarations, d.body.Lexical

/-! Pieces of code that every method has. -/

variable {e value : Expr} {args : List Expr}

theorem printed_nil : Expr.nil.Printed :=
  .raw (Spelled.ident (by decide : isIdentifier "nil" = true)).word (.ident .nil "nil")

theorem printed_notNil (h : e.Printed) : e.notNil.Printed :=
  .binary h printed_nil (by decide)

theorem printed_receiver : receiver.Printed := .ident (by decide)

theorem printed_method (h : e.Printed) (hbase : e.Selectable) {name : String}
    (hname : isIdentifier name = true) (hargs : ∀ a ∈ args, a.Printed) :
    (e.method name args).Printed :=
  .call (.selector h hbase hname) hargs

/-- A call of a function of a package. -/
theorem printed_function {package name : String} (hpackage : isIdentifier package = true)
    (hname : isIdentifier name = true) (hargs : ∀ a ∈ args, a.Printed) :
    (Expr.method (.ident package) name args).Printed :=
  printed_method (.ident hpackage) (Expr.selectable_ident package) hname hargs

theorem printed_formattedError (hargs : ∀ a ∈ args, a.Printed) : (formattedError args).Printed :=
  printed_function (by decide) (by decide) hargs

theorem printed_fixedError (text : String) : (fixedError text).Printed :=
  printed_function (by decide) (by decide) (List.forall_mem_singleton.mpr (.str text))

theorem printed_joinError (h : e.Printed) : (joinError e).Printed := by
  have herrs : (Expr.ident "errs").Printed := .ident (by decide)
  have hjoin : (Expr.method (.ident "errors") "Join" [.ident "errs", e]).Printed :=
    printed_function (by decide) (by decide)
      (List.forall_mem_cons.mpr ⟨herrs, List.forall_mem_singleton.mpr h⟩)
  exact .simple (.assign herrs hjoin)

theorem printed_validation {type : String} {pointer : Bool} {body : List Stmt}
    (htype : isIdentifier type = true) (hbody : ∀ s ∈ body, s.Printed) :
    (validation type pointer body).Printed :=
  ⟨htype, (by decide : isIdentifier "Validate" = true), hbody⟩

/-! Enumerations. -/

theorem Enumeration.Lexical.printed {en : Enumeration} (h : en.Lexical) {name : String}
    (hname : isIdentifier name = true) : (en.lower name).Printed := by
  have hkeys : ∀ key ∈ en.allowed.spellings,
      ∃ ks, Spelled endsWord key.toList ks ∧ Balanced ks := by
    refine List.forall_mem_map.mpr fun l hl => ?_
    obtain ⟨kind, hsigned⟩ := h.allowed l hl
    exact hsigned.exists_spelled
  have hset : (Expr.set en.underlying en.allowed.spellings).Printed := .set h.underlying hkeys
  have hlookup : (Expr.index (.ident "valid") (.call (.ident en.underlying) [receiver])).Printed :=
    .index (.ident (by decide))
      (.call (.ident h.underlying) (List.forall_mem_singleton.mpr printed_receiver))
  have hfirst : (SimpleStmt.define ["_", "ok"] _).Printed := .define (by decide) hlookup
  have herror := printed_formattedError (List.forall_mem_cons.mpr
    ⟨.str ("invalid value for " ++ name ++ ": " ++ en.base.verb),
      List.forall_mem_singleton.mpr printed_receiver⟩)
  have hbranch : (Stmt.branch (some (.define ["_", "ok"] _)) (.not (.ident "ok"))
      [.result _]).Printed :=
    .branch (by rintro _ ⟨⟩; exact hfirst) (.not (.ident (by decide)))
      (List.forall_mem_singleton.mpr (.result herror))
  refine printed_validation hname (List.forall_mem_cons.mpr
    ⟨?_, List.forall_mem_cons.mpr ⟨hbranch, ?_⟩⟩)
  · exact .simple (.define (by decide) hset)
  · exact List.forall_mem_singleton.mpr (.result printed_nil)

/-! Records. -/

theorem printed_operand {o : Operand} (h : (Expr.raw o.access).Printed) : o.expr.Printed := by
  cases o with
  | len access => exact .call (.ident (by decide)) (List.forall_mem_singleton.mpr h)
  | value access => exact h

theorem printed_bound (b : Bound) : (Expr.raw b.text).Printed := by
  obtain ⟨kind, -, hsigned⟩ := b.isNumber_text
  obtain ⟨ks, hspelled, hbalanced⟩ := hsigned.exists_spelled
  exact .raw hspelled hbalanced

/-- A check reads its operand by the text of an expression. -/
theorem printed_check {c : Check} (h : (Expr.raw c.condition.operand.access).Printed) :
    c.lower.Printed := by
  have hoperand := printed_operand h
  have hsymbol : c.condition.comparison.symbol ∈ spacedOperators := by
    cases c.condition.comparison <;> decide
  have herror : c.error.Printed := by
    unfold Check.error
    dsimp only
    split
    · exact printed_formattedError (List.forall_mem_cons.mpr
        ⟨.str _, List.forall_mem_singleton.mpr hoperand⟩)
    · exact printed_fixedError _
  exact .branch (by simp) (.binary hoperand (printed_bound _) hsymbol)
    (List.forall_mem_singleton.mpr (printed_joinError herror))

theorem Rule.access_checks {rule : Rule} {display access : String} {c : Check}
    (h : c ∈ rule.checks display access) : c.condition.operand.access = access := by
  cases rule with
  | length rule =>
      simp only [Rule.checks, Length.checks, List.mem_append, Option.mem_toList,
        Option.map_eq_some_iff] at h
      rcases h with (⟨_, -, rfl⟩ | ⟨_, -, rfl⟩) | ⟨_, -, rfl⟩ <;> rfl
  | range rule =>
      simp only [Rule.checks, Range.checks, List.mem_append, Option.mem_toList,
        Option.map_eq_some_iff] at h
      rcases h with ((⟨_, -, rfl⟩ | ⟨_, -, rfl⟩) | ⟨_, -, rfl⟩) | ⟨_, -, rfl⟩ <;> rfl

theorem printed_dereferenced (h : e.Printed) (depth : Nat) : (dereferenced depth e).Printed := by
  induction depth with
  | zero => exact h
  | succ depth ih => exact .deref ih

theorem printed_presence (h : e.Printed) {depth : Nat} {guard : Expr}
    (hguard : presence? e depth = some guard) : guard.Printed := by
  induction depth generalizing guard with
  | zero => cases hguard
  | succ depth ih =>
      have hlast := printed_notNil (printed_dereferenced h depth)
      rw [presence?] at hguard
      cases hfirst : presence? e depth with
      | none =>
          rw [hfirst] at hguard
          cases hguard
          exact hlast
      | some first =>
          rw [hfirst] at hguard
          cases hguard
          exact .binary (ih hfirst) hlast (by decide)

theorem printed_access {f : Field} (hname : isIdentifier f.name = true) : f.access.Printed :=
  .selector printed_receiver (Expr.selectable_ident "r") hname

theorem printed_loweredChecks {f : Field} (hname : isIdentifier f.name = true) :
    ∀ s ∈ f.loweredChecks, s.Printed := by
  refine List.forall_mem_map.mpr fun c hc => ?_
  obtain ⟨rule, -, hc⟩ := List.mem_flatMap.mp hc
  refine printed_check ?_
  rw [Rule.access_checks hc]
  exact (printed_dereferenced (printed_access hname) _).rawText

theorem printed_lowerRules {f : Field} (hname : isIdentifier f.name = true) :
    ∀ s ∈ f.lowerRules, s.Printed := by
  have hchecks := printed_loweredChecks hname
  unfold Field.lowerRules
  split
  · rename_i guard check checks hguard heq
    rw [heq] at hchecks
    exact List.forall_mem_singleton.mpr
      (.branch (by simp) (printed_presence (printed_access hname) hguard) hchecks)
  · exact hchecks

theorem isIdentifier_loopVariable {name : String} (h : isIdentifier name = true) (depth : Nat) :
    isIdentifier (loopVariable name depth) = true := by
  unfold loopVariable
  split
  · exact h
  · refine isIdentifier_append h fun d hd => ?_
    have hdigit : d ∈ Nat.toDigits 10 depth := by simpa [Nat.repr] using hd
    exact of_isDigit (p := fun d => continuesIdent d = true) (by decide)
      (isDigit_toDigits depth d hdigit)

theorem printed_validateValue (h : value.Printed) (hvalue : value.Selectable) {path : ValuePath}
    (hindices : ∀ i ∈ path.indices, isIdentifier i = true) :
    (validateValue value path).Printed := by
  have herr : (Expr.ident "err").Printed := .ident (by decide)
  have hindices : ∀ a ∈ path.indices.map Expr.ident, a.Printed :=
    List.forall_mem_map.mpr fun i hi => .ident (hindices i hi)
  have hfirst : (SimpleStmt.define ["err"] (value.method "Validate" [])).Printed :=
    .define (by decide) (printed_method h hvalue (by decide) (List.forall_mem_nil _))
  have hargs : ∀ a ∈ .str (path.format ++ ": %w") :: path.indices.map Expr.ident ++ [.ident "err"],
      a.Printed :=
    List.forall_mem_append.mpr
      ⟨List.forall_mem_cons.mpr ⟨.str _, hindices⟩, List.forall_mem_singleton.mpr herr⟩
  have herror := printed_formattedError hargs
  exact .branch (by rintro _ ⟨⟩; exact hfirst) (printed_notNil herr)
    (List.forall_mem_singleton.mpr (printed_joinError herror))

/-- A loop over a container, with the statements for its elements. -/
theorem printed_loop {key item : String} (h : value.Printed) (hkey : isIdentifier key = true)
    (hitem : isIdentifier item = true) {path : ValuePath} {verb : String} {depth : Nat}
    {body : Expr → ValuePath → List Stmt}
    (hindices : ∀ i ∈ path.indices, isIdentifier i = true)
    (hbody : ∀ {e : Expr} {p : ValuePath}, e.Printed → e.Selectable →
      (∀ i ∈ p.indices, isIdentifier i = true) → ∀ s ∈ body e p, s.Printed) :
    (Stmt.loop (loopVariable key depth) (loopVariable item depth) value
      (body (.ident (loopVariable item depth))
        (path.element verb (loopVariable key depth)))).Printed := by
  have hkey := isIdentifier_loopVariable hkey depth
  have hitem := isIdentifier_loopVariable hitem depth
  refine .loop hkey hitem h (hbody (.ident hitem) (Expr.selectable_ident _) ?_)
  exact List.forall_mem_append.mpr ⟨hindices, List.forall_mem_singleton.mpr hkey⟩

/-- The statements for the values inside a shape. -/
theorem printed_lowerNested (shape : Shape) {path : ValuePath} {depth : Nat} (h : value.Printed)
    (hvalue : value.Selectable) (hindices : ∀ i ∈ path.indices, isIdentifier i = true) :
    ∀ s ∈ shape.lowerNested value path depth, s.Printed := by
  induction shape generalizing value path depth with
  | direct type => exact List.forall_mem_singleton.mpr (printed_validateValue h hvalue hindices)
  | optional inner ih =>
      by_cases hdirect : ∃ type, inner = .direct type
      · -- such a pointer is validated as it is
        obtain ⟨type, rfl⟩ := hdirect
        exact List.forall_mem_singleton.mpr (.branch (by simp) (printed_notNil h)
          (List.forall_mem_singleton.mpr (printed_validateValue h hvalue hindices)))
      · rw [Shape.lowerNested_optional fun type htype => hdirect ⟨type, htype⟩]
        exact List.forall_mem_singleton.mpr (.branch (by simp) (printed_notNil h)
          (ih (.deref h) (Expr.selectable_deref value) hindices))
  | sequence inner ih =>
      exact List.forall_mem_singleton.mpr (printed_loop h (by decide) (by decide) hindices ih)
  | mapping inner ih =>
      exact List.forall_mem_singleton.mpr (printed_loop h (by decide) (by decide) hindices ih)

theorem printed_field {f : Field} (hname : isIdentifier f.name = true) :
    ∀ s ∈ f.lower, s.Printed := by
  refine List.forall_mem_append.mpr ⟨printed_lowerRules hname, ?_⟩
  split
  · exact printed_lowerNested f.shape (printed_access hname)
      (Expr.selectable_selector receiver f.name) (List.forall_mem_nil _)
  · exact List.forall_mem_nil _

theorem printed_record {name : String} {fields : List Field} (hname : isIdentifier name = true)
    (hfields : ∀ f ∈ fields, isIdentifier f.name = true) : (lowerRecord name fields).Printed := by
  have hstatements : ∀ s ∈ fields.flatMap Field.lower, s.Printed := by
    intro s hs
    obtain ⟨f, hf, hs⟩ := List.mem_flatMap.mp hs
    exact printed_field (hfields f hf) s hs
  refine printed_validation hname ?_
  split
  · exact List.forall_mem_singleton.mpr (.result printed_nil)
  · rename_i s ss heq
    rw [heq] at hstatements
    refine List.forall_mem_append.mpr ⟨List.forall_mem_cons.mpr ⟨?_, hstatements⟩, ?_⟩
    · exact .declare (by decide) (by decide)
    · exact List.forall_mem_singleton.mpr (.result (.ident (by decide)))

/-! Files. -/

namespace AnnotatedFile.Lexical

variable {f : AnnotatedFile}

theorem record (h : f.Lexical) {name : String} {fields : List Field}
    (hmem : (name, fields) ∈ f.records) :
    isIdentifier name = true ∧ ∀ field ∈ fields, isIdentifier field.name = true := by
  obtain ⟨d, hd, hsome⟩ := List.mem_filterMap.mp hmem
  have hbody := h.bodies d hd
  split at hsome
  · rename_i heq
    cases hsome
    rw [heq] at hbody
    exact ⟨h.names d hd, hbody⟩
  · cases hsome

theorem enumeration (h : f.Lexical) {name : String} {e : Enumeration}
    (hmem : (name, e) ∈ f.enumerations) : isIdentifier name = true ∧ e.Lexical := by
  obtain ⟨d, hd, hsome⟩ := List.mem_filterMap.mp hmem
  have hbody := h.bodies d hd
  split at hsome
  · cases hsome
  · rename_i heq
    cases hsome
    rw [heq] at hbody
    exact ⟨h.names d hd, hbody⟩

/-- The file for lexical declarations, below a comment of one line. -/
theorem printed (h : f.Lexical) {header : String} {more : List Char}
    (hheader : header.toList = '/' :: '/' :: more) (hline : '\n' ∉ header.toList) :
    (f.lower header).Printed where
  header := ⟨more, hheader⟩
  line := hline
  package := h.package
  methods := by
    refine List.forall_mem_append.mpr ⟨List.forall_mem_map.mpr ?_, List.forall_mem_map.mpr ?_⟩
    · rintro ⟨name, e⟩ hmem
      obtain ⟨hname, he⟩ := h.enumeration hmem
      exact he.printed hname
    · rintro ⟨name, fields⟩ hmem
      obtain ⟨hname, hfields⟩ := h.record hmem
      exact printed_record hname hfields

end AnnotatedFile.Lexical

end FieldRules
