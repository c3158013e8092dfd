/-
What the directives of a file decide.  A directive to skip takes its line away, whatever else
stands above it.  Of all directives on the lines that are left each gives a rule, and the fields
carry these, or the first that gives none is reported.
-/
import FieldRules.Proofs.Analysis.Annotated
import FieldRules.Proofs.Analysis.Reordering
import FieldRules.Proofs.Source.DocOrder

namespace FieldRules

/-! Outcomes. -/

section Outcomes

variable {ε α β γ : Type}

/-- The error of what fails. -/
def error? : Except ε α → Option ε
  | .ok _ => none
  | .error e => some e

/-- A value, unless there is a fault. -/
def unlessFault (fault : Option ε) (a : α) : Except ε α := fault.elim (.ok a) .error

theorem unlessFault_eq_ok_iff {fault : Option ε} {a b : α} :
    unlessFault fault a = .ok b ↔ fault = none ∧ a = b := by
  cases fault <;> simp [unlessFault]

theorem unlessFault_eq_error_iff {fault : Option ε} {a : α} {e : ε} :
    unlessFault fault a = .error e ↔ fault = some e := by
  cases fault <;> simp [unlessFault]

/-- Of two faults the first counts. -/
theorem unlessFault_or (first more : Option ε) (a : α) (b : β) (f : α → β → γ) :
    (unlessFault first a >>= fun a => (unlessFault more b).map (f a)) =
      unlessFault (first.or more) (f a b) := by
  cases first <;> cases more <;> rfl

end Outcomes

/-! Directives. -/

namespace Comment

/-- The comment is a directive to skip the field below. -/
def Skips (marker : String) (c : Comment) : Prop :=
  isDirective c.body marker = true ∧ parseDirective c.body = .ok .skip

/-- The directive names a rule that can be made. -/
def Gives (catalogue : Catalogue) (c : Comment) (rule : Rule) : Prop :=
  ∃ name attributes, parseDirective c.body = .ok (.rule name attributes) ∧
    catalogue.construct name attributes = .ok rule

/-- The directive is malformed, or names a rule that cannot be made. -/
def Refused (catalogue : Catalogue) (c : Comment) (cause : RuleError) : Prop :=
  parseDirective c.body = .error cause ∨
    ∃ name attributes, parseDirective c.body = .ok (.rule name attributes) ∧
      catalogue.construct name attributes = .error cause

/-- What the outcome of a directive says about its comment. -/
def Means (catalogue : Catalogue) (c : Comment) : Except RuleError (Option Rule) → Prop
  | .ok none => parseDirective c.body = .ok .skip
  | .ok (some rule) => c.Gives catalogue rule
  | .error cause => c.Refused catalogue cause

end Comment

/-- A directive, with the record and the line it belongs to. -/
structure PlacedDirective where
  record : String
  line : FieldLine
  comment : Comment

def PlacedDirective.error (d : PlacedDirective) (cause : RuleError) : DirectiveError :=
  ⟨d.record, d.line.label, d.comment.body, d.comment.span, cause⟩

/-- The error for a directive that gives no rule. -/
def PlacedDirective.fault? (catalogue : Catalogue) (d : PlacedDirective) : Option DirectiveError :=
  (error? (FieldLine.ruleOf catalogue d.comment)).map d.error

namespace FieldLine

variable {marker : String} {f : FieldLine} {catalogue : Catalogue} {c : Comment}

/-- A comment above the line is a directive to skip it. -/
def Skipped (marker : String) (f : FieldLine) : Prop :=
  ∃ g ∈ f.doc, ∃ c ∈ g.comments, c.Skips marker

/-- The line has names and is not to be skipped. -/
def taken (marker : String) (f : FieldLine) : Bool :=
  !(f.embedded || (f.directives marker).any isSkip)

theorem isSkip_iff : isSkip c = true ↔ parseDirective c.body = .ok .skip := by
  unfold isSkip
  split
  · rename_i h
    simp only [h]
  · rename_i h
    simp only [Bool.false_eq_true, false_iff]
    exact h

theorem mem_directives : c ∈ f.directives marker ↔
    ∃ g ∈ f.doc, c ∈ g.comments ∧ isDirective c.body marker = true := by
  unfold directives
  cases f.doc with
  | none => simp
  | some g => simp

theorem taken_iff : f.taken marker = true ↔ f.names ≠ [] ∧ ¬ f.Skipped marker := by
  have hskip : (f.directives marker).any isSkip = true ↔ f.Skipped marker := by
    simp only [List.any_eq_true, mem_directives, isSkip_iff, Skipped, Comment.Skips]
    constructor
    · rintro ⟨c, ⟨g, hg, hc, hdirective⟩, hparse⟩
      exact ⟨g, hg, c, hc, hdirective, hparse⟩
    · rintro ⟨g, hg, c, hc, hdirective, hparse⟩
      exact ⟨c, ⟨g, hg, hc, hdirective⟩, hparse⟩
  rw [taken, Bool.not_eq_true', Bool.or_eq_false_iff, ← hskip, Bool.not_eq_true, embedded,
    List.isEmpty_eq_false_iff]

theorem ruleOf_eq_iff {outcome : Except RuleError (Option Rule)} :
    ruleOf catalogue c = outcome ↔ c.Means catalogue outcome := by
  unfold ruleOf
  -- Either side depends on how the directive is read, and on the rule only if it names one.
  rcases outcome with cause | _ | rule <;>
    simp only [Comment.Means, Comment.Gives, Comment.Refused] <;>
    rcases parseDirective c.body with e | _ | ⟨name, attributes⟩ <;> try simp
  all_goals
    cases catalogue.construct name attributes <;> simp [Except.map]

end FieldLine

/-! Lines. -/

section Lines

variable (input : AnalysisInput) (record : String)

/-- The rule that a directive gives, if it gives one. -/
def givenRule? (c : Comment) : Option Rule := (FieldLine.ruleOf input.catalogue c).toOption.join

/-- The first error, in order. -/
def firstFault? (ds : List PlacedDirective) : Option DirectiveError :=
  ds.findSome? (PlacedDirective.fault? input.catalogue)

theorem firstFault?_cons (d : PlacedDirective) (ds : List PlacedDirective) :
    firstFault? input (d :: ds) = (d.fault? input.catalogue).or (firstFault? input ds) := by
  rw [firstFault?, List.findSome?_cons]
  cases d.fault? input.catalogue <;> rfl

theorem firstFault?_append (ds more : List PlacedDirective) :
    firstFault? input (ds ++ more) = (firstFault? input ds).or (firstFault? input more) :=
  List.findSome?_append

namespace FieldLine

variable (f : FieldLine)

def placed : List PlacedDirective :=
  (f.directives input.settings.fieldMarker).map (PlacedDirective.mk record f)

/-- The fields of a line, each with the rules of its directives. -/
def given : List Field :=
  f.names.map fun name =>
    ⟨name.name, f.type.shape,
      (f.directives input.settings.fieldMarker).filterMap (givenRule? input),
      f.type.shape.isNested input.index input.settings.ignorePackages⟩

theorem rulesOf_eq (cs : List Comment) :
    rulesOf input.catalogue record f.label cs =
      unlessFault (firstFault? input (cs.map (PlacedDirective.mk record f)))
        (cs.filterMap (givenRule? input)) := by
  induction cs with
  | nil => rfl
  | cons c cs ih =>
      rw [rulesOf_cons, ih, List.map_cons, firstFault?_cons, List.filterMap_cons,
        PlacedDirective.fault?, givenRule?]
      dsimp only
      cases ruleOf input.catalogue c with
      | error cause => rfl
      | ok rule =>
          cases firstFault? input (cs.map (PlacedDirective.mk record f)) <;> cases rule <;> rfl

variable {f}

theorem fields_of_taken (h : f.taken input.settings.fieldMarker = true) :
    f.fields input record =
      unlessFault (firstFault? input (f.placed input record)) (f.given input) := by
  rw [taken, Bool.not_eq_true'] at h
  rw [fields]
  dsimp only
  rw [if_neg (by simp [h]), rulesOf_eq, placed]
  cases firstFault? input _ <;> rfl

theorem fields_of_not_taken (h : ¬ f.taken input.settings.fieldMarker = true) :
    f.fields input record = .ok [] := by
  rw [taken, Bool.not_eq_true', Bool.not_eq_false] at h
  rw [fields]
  dsimp only
  rw [if_pos h]

end FieldLine

/-- The directives on the lines of a record. -/
def placedIn (lines : List FieldLine) : List PlacedDirective :=
  (lines.filter (FieldLine.taken input.settings.fieldMarker)).flatMap
    (FieldLine.placed input record)

/-- The fields that a record gets if no directive is at fault. -/
def givenIn (lines : List FieldLine) : List Field :=
  (lines.filter (FieldLine.taken input.settings.fieldMarker)).flatMap (FieldLine.given input)

theorem recordFields_eq (lines : List FieldLine) :
    recordFields input record lines =
      unlessFault (firstFault? input (placedIn input record lines)) (givenIn input lines) := by
  induction lines with
  | nil => rfl
  | cons f fs ih =>
      rw [recordFields, ih]
      by_cases h : f.taken input.settings.fieldMarker = true
      · have hlines := List.filter_cons_of_pos (l := fs) h
        rw [f.fields_of_taken input record h]
        simp only [placedIn, givenIn, hlines, List.flatMap_cons, firstFault?_append]
        exact unlessFault_or _ _ _ _ _
      · have hlines := List.filter_cons_of_neg (l := fs) h
        rw [FieldLine.fields_of_not_taken input record h]
        simp only [placedIn, givenIn, hlines]
        exact unlessFault_or none _ [] _ _

end Lines

/-! Files. -/

section Files

variable (input : AnalysisInput) (constants : List ConstDecl)

def Declaration.record? (d : Declaration) : Option (String × List Field) :=
  match d.body with
  | .record fields => some (d.name, fields)
  | .enumeration _ => none

/-- The record that is collected from a spec, with its lines. -/
def TypeSpec.record? (s : TypeSpec) : Option (String × List FieldLine) :=
  match input.index.get? s.name.name, s.type with
  | some .record, .struct lines _ => some (s.name.name, lines)
  | _, _ => none

/-- The directives that count in a spec. -/
def TypeSpec.placed (s : TypeSpec) : List PlacedDirective :=
  (s.record? input).elim [] fun r => placedIn input r.1 r.2

theorem collectSpec_of_record {s : TypeSpec} {record : String} {lines : List FieldLine}
    (h : s.record? input = some (record, lines)) :
    (collectSpec input constants s).result =
      (recordFields input record lines).map fun fields => some ⟨record, .record fields⟩ := by
  unfold TypeSpec.record? at h
  split at h
  · rename_i hindex htype
    cases h
    simp only [collectSpec, hindex, htype]
  · cases h

theorem collectSpec_of_no_record {s : TypeSpec} (h : s.record? input = none) :
    ∃ found, (collectSpec input constants s).result = .ok found ∧
      found.bind Declaration.record? = none := by
  unfold collectSpec
  dsimp only
  split
  · rename_i hindex htype
    simp [TypeSpec.record?, hindex, htype] at h
  · exact ⟨_, rfl, rfl⟩
  · exact ⟨none, rfl, rfl⟩

theorem collectSpec_result (s : TypeSpec) :
    (collectSpec input constants s).result =
      unlessFault (firstFault? input (s.placed input)) (declarationOf? input constants s) := by
  cases hrecord : s.record? input with
  | none =>
      obtain ⟨found, hfound, -⟩ := collectSpec_of_no_record input constants hrecord
      rw [declarationOf?, TypeSpec.placed, hrecord, hfound]
      rfl
  | some r =>
      rw [declarationOf?, TypeSpec.placed, hrecord, collectSpec_of_record input constants hrecord,
        recordFields_eq, Option.elim_some]
      cases firstFault? input (placedIn input r.1 r.2) <;> rfl

theorem collectSpecs_result (specs : List TypeSpec) :
    (collectSpecs input constants specs).result =
      unlessFault (firstFault? input (specs.flatMap (TypeSpec.placed input)))
        (specs.filterMap (declarationOf? input constants)) := by
  induction specs with
  | nil => rfl
  | cons s rest ih =>
      rw [collectSpecs, collectSpec_result, List.flatMap_cons, firstFault?_append,
        List.filterMap_cons]
      cases firstFault? input (s.placed input) with
      | some e => rfl
      | none =>
          dsimp only [unlessFault, Option.elim_none]
          rw [ih]
          cases firstFault? input (rest.flatMap (TypeSpec.placed input)) <;>
            cases declarationOf? input constants s <;> rfl

namespace SourceFile

variable (f : SourceFile)

/-- The records that are collected from a file, each with its lines. -/
def records : List (String × List FieldLine) :=
  (annotatedSpecs input.settings.typeMarker f).filterMap (TypeSpec.record? input)

/-- The directives of the file that count, in order: those on the lines of collected records
that are neither embedded nor skipped. -/
def directives : List PlacedDirective :=
  (f.records input).flatMap fun r => placedIn input r.1 r.2

theorem flatMap_placed :
    (annotatedSpecs input.settings.typeMarker f).flatMap (TypeSpec.placed input) =
      f.directives input := by
  unfold directives records
  induction annotatedSpecs input.settings.typeMarker f with
  | nil => rfl
  | cons s rest ih =>
      rw [List.flatMap_cons, List.filterMap_cons, ih, TypeSpec.placed]
      cases s.record? input <;> rfl

/-- A file is collected as a whole, unless one of its directives is at fault. -/
theorem collect_result : (collect input f).result =
    unlessFault (firstFault? input (f.directives input))
      ((annotatedSpecs input.settings.typeMarker f).filterMap
        (declarationOf? input f.constDecls)) := by
  rw [collect, collectSpecs_result, flatMap_placed]

end SourceFile

end Files

/-! What is collected. -/

/-- What a line gives: a field for each of its names, in order, with the rules of all its
directives, in order. -/
def FieldLine.Gives (input : AnalysisInput) (f : FieldLine) (fields : List Field) : Prop :=
  ∃ rules, List.Forall₂ (Comment.Gives input.catalogue)
      (f.directives input.settings.fieldMarker) rules ∧
    fields = f.names.map fun name => ⟨name.name, f.type.shape, rules,
      f.type.shape.isNested input.index input.settings.ignorePackages⟩

/-- What a record is collected with: the fields of one line after the other. -/
structure CollectedRecord (input : AnalysisInput) (r : String × List FieldLine)
    (found : String × List Field) : Prop where
  name : found.1 = r.1
  fields : ∃ parts, found.2 = parts.flatten ∧
    List.Forall₂ (FieldLine.Gives input)
      (r.2.filter (FieldLine.taken input.settings.fieldMarker)) parts

/-- The first directive that gives no rule is the one that is reported. -/
def FirstRefused (input : AnalysisInput) (ds : List PlacedDirective) (e : DirectiveError) : Prop :=
  ∃ before d after cause, ds = before ++ d :: after ∧
    (∀ b ∈ before, ∃ rule, b.comment.Gives input.catalogue rule) ∧
    d.comment.Refused input.catalogue cause ∧
    e = ⟨d.record, d.line.label, d.comment.body, d.comment.span, cause⟩

section Collected

variable {input : AnalysisInput} {f : SourceFile}

/-- What counts is no directive to skip. -/
theorem not_skip_of_mem_placedIn {record : String} {lines : List FieldLine} {d : PlacedDirective}
    (h : d ∈ placedIn input record lines) : parseDirective d.comment.body ≠ .ok .skip := by
  obtain ⟨line, hline, hd⟩ := List.mem_flatMap.mp h
  obtain ⟨c, hc, rfl⟩ := List.mem_map.mp hd
  obtain ⟨-, htaken⟩ := List.mem_filter.mp hline
  rw [FieldLine.taken, Bool.not_eq_true', Bool.or_eq_false_iff, List.any_eq_false] at htaken
  exact fun hskip => htaken.2 c hc (FieldLine.isSkip_iff.mpr hskip)

theorem not_skip_of_mem_directives {d : PlacedDirective} (h : d ∈ f.directives input) :
    parseDirective d.comment.body ≠ .ok .skip := by
  obtain ⟨r, -, hd⟩ := List.mem_flatMap.mp h
  exact not_skip_of_mem_placedIn hd

theorem fault?_eq_some_iff {d : PlacedDirective} {e : DirectiveError} :
    d.fault? input.catalogue = some e ↔
      ∃ cause, d.comment.Refused input.catalogue cause ∧ e = d.error cause := by
  have hrefused : ∀ cause, FieldLine.ruleOf input.catalogue d.comment = .error cause ↔
      d.comment.Refused input.catalogue cause := fun _ => FieldLine.ruleOf_eq_iff
  simp only [← hrefused, PlacedDirective.fault?]
  cases FieldLine.ruleOf input.catalogue d.comment <;> simp [error?, eq_comm]

theorem fault?_eq_none_iff {d : PlacedDirective}
    (hskip : parseDirective d.comment.body ≠ .ok .skip) :
    d.fault? input.catalogue = none ↔ ∃ rule, d.comment.Gives input.catalogue rule := by
  have hgives : ∀ rule, FieldLine.ruleOf input.catalogue d.comment = .ok (some rule) ↔
      d.comment.Gives input.catalogue rule := fun _ => FieldLine.ruleOf_eq_iff
  have hnone : FieldLine.ruleOf input.catalogue d.comment ≠ .ok none := fun h =>
    hskip (FieldLine.ruleOf_eq_iff.mp h)
  simp only [← hgives, PlacedDirective.fault?]
  rcases hcase : FieldLine.ruleOf input.catalogue d.comment with cause | _ | rule
  · simp [error?]
  · exact absurd hcase hnone
  · simp [error?]

theorem fault?_eq_none_iff_of_mem {d : PlacedDirective} (h : d ∈ f.directives input) :
    d.fault? input.catalogue = none ↔ ∃ rule, d.comment.Gives input.catalogue rule :=
  fault?_eq_none_iff (not_skip_of_mem_directives h)

theorem collect_eq_error_iff {e : DirectiveError} :
    (collect input f).result = .error e ↔ FirstRefused input (f.directives input) e := by
  rw [SourceFile.collect_result, unlessFault_eq_error_iff, firstFault?, List.findSome?_eq_some_iff]
  constructor
  · rintro ⟨before, d, after, hall, hfault, hbefore⟩
    obtain ⟨cause, hrefused, rfl⟩ := fault?_eq_some_iff.mp hfault
    refine ⟨before, d, after, cause, hall, fun b hb => ?_, hrefused, rfl⟩
    have hmem : b ∈ f.directives input := hall ▸ List.mem_append_left _ hb
    exact (fault?_eq_none_iff_of_mem hmem).mp (hbefore b hb)
  · rintro ⟨before, d, after, cause, hall, hbefore, hrefused, rfl⟩
    refine ⟨before, d, after, hall, fault?_eq_some_iff.mpr ⟨cause, hrefused, rfl⟩, fun b hb => ?_⟩
    have hmem : b ∈ f.directives input := hall ▸ List.mem_append_left _ hb
    exact (fault?_eq_none_iff_of_mem hmem).mpr (hbefore b hb)

theorem firstFault?_directives_eq_none_iff : firstFault? input (f.directives input) = none ↔
    ∀ d ∈ f.directives input, ∃ rule, d.comment.Gives input.catalogue rule := by
  rw [firstFault?, List.findSome?_eq_none_iff]
  exact forall₂_congr fun d hd => fault?_eq_none_iff_of_mem hd

theorem exists_collect_eq_ok_iff : (∃ ds, (collect input f).result = .ok ds) ↔
    ∀ d ∈ f.directives input, ∃ rule, d.comment.Gives input.catalogue rule := by
  simp only [SourceFile.collect_result, unlessFault_eq_ok_iff, ← firstFault?_directives_eq_none_iff]
  simp

/-- Directives that all give a rule give these, in order. -/
theorem forall₂_gives {cs : List Comment}
    (h : ∀ c ∈ cs, ∃ rule, c.Gives input.catalogue rule) :
    List.Forall₂ (Comment.Gives input.catalogue) cs (cs.filterMap (givenRule? input)) := by
  induction cs with
  | nil => exact .nil
  | cons c cs ih =>
      obtain ⟨⟨rule, hrule⟩, hrest⟩ := List.forall_mem_cons.mp h
      have houtcome : FieldLine.ruleOf input.catalogue c = .ok (some rule) :=
        FieldLine.ruleOf_eq_iff.mpr hrule
      have hgiven : givenRule? input c = some rule := by
        rw [givenRule?, houtcome]
        rfl
      rw [List.filterMap_cons_some hgiven]
      exact .cons hrule (ih hrest)

theorem collectedRecord_given {r : String × List FieldLine}
    (h : ∀ d ∈ placedIn input r.1 r.2, ∃ rule, d.comment.Gives input.catalogue rule) :
    CollectedRecord input r (r.1, givenIn input r.2) := by
  refine ⟨rfl, _, List.flatMap_def, ?_⟩
  rw [List.forall₂_map_right_iff, List.forall₂_same]
  intro line hline
  refine ⟨_, forall₂_gives fun c hc => ?_, rfl⟩
  exact h ⟨r.1, line, c⟩ (List.mem_flatMap.mpr ⟨line, hline, List.mem_map_of_mem hc⟩)

/-- If no directive is at fault, what is declared for a spec is what is given in its record. -/
theorem bind_record?_declarationOf? {s : TypeSpec} (constants : List ConstDecl)
    (h : firstFault? input (s.placed input) = none) :
    (declarationOf? input constants s).bind Declaration.record? =
      (s.record? input).map fun r => (r.1, givenIn input r.2) := by
  rw [declarationOf?]
  cases hrecord : s.record? input with
  | none =>
      obtain ⟨found, hfound, hnone⟩ := collectSpec_of_no_record input constants hrecord
      rw [hfound]
      exact hnone
  | some r =>
      rw [TypeSpec.placed, hrecord, Option.elim_some] at h
      rw [collectSpec_of_record input constants hrecord, recordFields_eq, h]
      rfl

theorem collectedRecords_of_collect {ds : List Declaration}
    (h : (collect input f).result = .ok ds) :
    List.Forall₂ (CollectedRecord input) (f.records input) (ds.filterMap Declaration.record?) := by
  rw [SourceFile.collect_result, unlessFault_eq_ok_iff] at h
  obtain ⟨hnone, rfl⟩ := h
  have hgives := firstFault?_directives_eq_none_iff.mp hnone
  rw [← SourceFile.flatMap_placed, firstFault?, List.findSome?_eq_none_iff] at hnone
  have hrecords : ((annotatedSpecs input.settings.typeMarker f).filterMap
      (declarationOf? input f.constDecls)).filterMap Declaration.record? =
        (f.records input).map fun r => (r.1, givenIn input r.2) := by
    rw [List.filterMap_filterMap, SourceFile.records, List.map_filterMap]
    refine List.filterMap_congr fun s hs => bind_record?_declarationOf? _ ?_
    rw [firstFault?, List.findSome?_eq_none_iff]
    exact fun d hd => hnone d (List.mem_flatMap.mpr ⟨s, hs, hd⟩)
  rw [hrecords, List.forall₂_map_right_iff, List.forall₂_same]
  exact fun r hr => collectedRecord_given fun d hd => hgives d (List.mem_flatMap.mpr ⟨r, hr, hd⟩)

/-- A line that is not taken might as well not be there. -/
theorem recordFields_of_not_taken (record : String) (before after : List FieldLine)
    {line : FieldLine} (h : ¬ line.taken input.settings.fieldMarker = true) :
    recordFields input record (before ++ line :: after) =
      recordFields input record (before ++ after) := by
  have hfilter : (before ++ line :: after).filter (FieldLine.taken input.settings.fieldMarker) =
      (before ++ after).filter (FieldLine.taken input.settings.fieldMarker) := by
    rw [List.filter_append, List.filter_cons_of_neg h, ← List.filter_append]
  rw [recordFields_eq, recordFields_eq, placedIn, placedIn, givenIn, givenIn, hfilter]

/-! The order of directives. -/

theorem directives_sublist (line : FieldLine) (marker : String) :
    (line.directives marker).Sublist (line.doc.toList.flatMap CommentGroup.comments) := by
  unfold FieldLine.directives
  cases line.doc with
  | none => exact List.Sublist.refl _
  | some g => simp

theorem comments_placed_sublist (s : TypeSpec) :
    ((s.placed input).map PlacedDirective.comment).Sublist
      (s.type.lineDocs.flatMap CommentGroup.comments) := by
  unfold TypeSpec.placed TypeSpec.record?
  split
  · rename_i lines _ _ htype
    have hcomments : ∀ line : FieldLine, (line.placed input s.name.name).map
        PlacedDirective.comment = line.directives input.settings.fieldMarker := by
      intro line
      rw [FieldLine.placed, List.map_map]
      exact List.map_id _
    dsimp only [Option.elim_some]
    rw [htype, TypeExpr.lineDocs, placedIn, List.map_flatMap, List.flatMap_assoc]
    simp only [hcomments]
    exact (List.filter_sublist.flatMap _).trans
      (List.Sublist.flatMap_right _ fun line _ => directives_sublist line _)
  · exact List.nil_sublist _

theorem flatMap_typeDecls (f : SourceFile) :
    (f.typeDecls.flatMap TypeDecl.specs).flatMap (fun s => s.type.lineDocs) =
      f.decls.flatMap Decl.lineDocs := by
  unfold SourceFile.typeDecls
  induction f.decls with
  | nil => rfl
  | cons d rest ih =>
      rw [List.filterMap_cons, List.flatMap_cons, ← ih]
      cases d with
      | type decl => exact List.flatMap_append
      | const decl => rfl

theorem directives_ordered {text : String} (h : parseSource text = .ok f) :
    (f.directives input).Pairwise fun d d' => d.comment.span.Before d'.comment.span := by
  obtain ⟨hdocs, hordered⟩ := lineDocs_of_parseSource h
  have hplaced : ((f.directives input).map PlacedDirective.comment).Sublist
      ((f.decls.flatMap Decl.lineDocs).flatMap CommentGroup.comments) := by
    rw [← SourceFile.flatMap_placed, List.map_flatMap, ← flatMap_typeDecls, List.flatMap_assoc]
    exact ((annotatedSpecs_sublist _ f).flatMap _).trans
      (List.Sublist.flatMap_right _ fun s _ => comments_placed_sublist s)
  have hcomments := hordered.sublist (hplaced.trans (hdocs.flatMap _))
  rwa [List.pairwise_map] at hcomments

end Collected

/-- What the directives of a file decide. -/
structure DecidedByDirectives (input : AnalysisInput) (f : SourceFile) : Prop where
  /-- Exactly the lines that have names and no directive to skip are taken. -/
  taken : ∀ line : FieldLine, line.taken input.settings.fieldMarker = true ↔
    line.names ≠ [] ∧ ¬ line.Skipped input.settings.fieldMarker
  /-- Whatever else stands above it, a skipped line makes no difference. -/
  skipped : ∀ record before line after, line.Skipped input.settings.fieldMarker →
    recordFields input record (before ++ line :: after) =
      recordFields input record (before ++ after)
  succeeds : (∃ ds, (collect input f).result = .ok ds) ↔
    ∀ d ∈ f.directives input, ∃ rule, d.comment.Gives input.catalogue rule
  collected : ∀ ds, (collect input f).result = .ok ds →
    List.Forall₂ (CollectedRecord input) (f.records input) (ds.filterMap Declaration.record?)
  fails : ∀ e, (collect input f).result = .error e ↔ FirstRefused input (f.directives input) e
  ordered : ∀ text, parseSource text = .ok f →
    (f.directives input).Pairwise fun d d' => d.comment.span.Before d'.comment.span

/-- Skipped lines are passed over.  The directives on the lines of records that are left all give
rules, which the fields carry, or the first in the text that gives none is reported. -/
theorem collect_decidedByDirectives (input : AnalysisInput) (f : SourceFile) :
    DecidedByDirectives input f where
  taken _ := FieldLine.taken_iff
  skipped record before _ after hskipped :=
    recordFields_of_not_taken record before after fun htaken =>
      (FieldLine.taken_iff.mp htaken).2 hskipped
  succeeds := exists_collect_eq_ok_iff
  collected _ := collectedRecords_of_collect
  fails _ := collect_eq_error_iff
  ordered _ := directives_ordered

end FieldRules
