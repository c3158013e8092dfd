/-
Trees without places.  What is indexed and collected from a file depends on what is written in
it and in which order, not on where it stands: only the place of an error does.
-/
import FieldRules.Analysis.Collection
import FieldRules.Proofs.Outcome

namespace FieldRules

/-! Trees in which everything stands at the same place. -/

def Span.nowhere : Span := ⟨0, 0⟩

def Ident.unplaced (i : Ident) : Ident := ⟨i.name, .nowhere⟩

@[simp] theorem Ident.name_unplaced (i : Ident) : i.unplaced.name = i.name := rfl

theorem names_unplaced (names : List Ident) :
    (names.map Ident.unplaced).map Ident.name = names.map Ident.name := by
  rw [List.map_map]
  rfl

def Comment.unplaced (c : Comment) : Comment := ⟨c.text, .nowhere⟩

@[simp] theorem Comment.body_unplaced (c : Comment) : c.unplaced.body = c.body := rfl

def CommentGroup.unplaced (g : CommentGroup) : CommentGroup :=
  ⟨g.comments.map Comment.unplaced, 0, 0, g.trailing⟩

mutual

def TypeExpr.unplaced : TypeExpr → TypeExpr
  | .named package name => .named (package.map Ident.unplaced) name.unplaced
  | .pointer elem _ => .pointer elem.unplaced .nowhere
  | .slice elem _ => .slice elem.unplaced .nowhere
  | .array length elem _ => .array length elem.unplaced .nowhere
  | .map key value _ => .map key.unplaced value.unplaced .nowhere
  | .struct fields _ => .struct (unplacedFields fields) .nowhere
  | .verbatim text _ => .verbatim text .nowhere

def FieldLine.unplaced : FieldLine → FieldLine
  | ⟨doc, names, type, tag⟩ =>
      ⟨doc.map CommentGroup.unplaced, names.map Ident.unplaced, type.unplaced, tag⟩

def unplacedFields : List FieldLine → List FieldLine
  | [] => []
  | f :: fs => f.unplaced :: unplacedFields fs

end

theorem unplacedFields_eq_map (fs : List FieldLine) :
    unplacedFields fs = fs.map FieldLine.unplaced := by
  induction fs with
  | nil => rw [unplacedFields, List.map_nil]
  | cons f fs ih => rw [unplacedFields, ih, List.map_cons]

def ConstExpr.unplaced : ConstExpr → ConstExpr
  | literal kind spelling _ => literal kind spelling .nowhere
  | ident name _ => ident name .nowhere
  | verbatim text _ => verbatim text .nowhere

def TypeSpec.unplaced (s : TypeSpec) : TypeSpec :=
  ⟨s.doc.map CommentGroup.unplaced, s.name.unplaced, s.generic, s.aliased, s.type.unplaced⟩

def TypeDecl.unplaced (d : TypeDecl) : TypeDecl :=
  ⟨d.doc.map CommentGroup.unplaced, d.grouped, d.specs.map TypeSpec.unplaced⟩

def ConstSpec.unplaced (s : ConstSpec) : ConstSpec :=
  ⟨s.doc.map CommentGroup.unplaced, s.index, s.names.map Ident.unplaced,
    s.type.map TypeExpr.unplaced, s.values.map ConstExpr.unplaced⟩

def ConstDecl.unplaced (d : ConstDecl) : ConstDecl :=
  ⟨d.doc.map CommentGroup.unplaced, d.grouped, d.specs.map ConstSpec.unplaced⟩

def Decl.unplaced : Decl → Decl
  | type d => type d.unplaced
  | const d => const d.unplaced

def SourceFile.unplaced (f : SourceFile) : SourceFile :=
  ⟨f.package.unplaced, f.decls.map Decl.unplaced, f.groups.map CommentGroup.unplaced⟩

def DirectiveError.unplaced (e : DirectiveError) : DirectiveError := { e with span := .nowhere }

namespace SourceFile

theorem typeDecls_unplaced (f : SourceFile) :
    f.unplaced.typeDecls = f.typeDecls.map TypeDecl.unplaced := by
  unfold typeDecls unplaced
  rw [List.filterMap_map, List.map_filterMap]
  congr 1
  funext d
  cases d <;> rfl

theorem constDecls_unplaced (f : SourceFile) :
    f.unplaced.constDecls = f.constDecls.map ConstDecl.unplaced := by
  unfold constDecls unplaced
  rw [List.filterMap_map, List.map_filterMap]
  congr 1
  funext d
  cases d <;> rfl

end SourceFile

/-! Types and their documentation. -/

theorem CommentGroup.hasLine_unplaced (g : CommentGroup) (marker : String) :
    g.unplaced.hasLine marker = g.hasLine marker := by
  unfold hasLine lines unplaced
  rw [List.map_map]
  rfl

theorem any_hasLine_unplaced (doc : Option CommentGroup) (marker : String) :
    ((doc.map CommentGroup.unplaced).any fun g => g.hasLine marker) =
      doc.any fun g => g.hasLine marker := by
  cases doc with
  | none => rfl
  | some g => exact g.hasLine_unplaced marker

namespace TypeExpr

theorem localName?_unplaced (t : TypeExpr) : t.unplaced.localName? = t.localName? := by
  cases t with
  | named package name => cases package <;> rfl
  | _ => rfl

theorem shape_unplaced : ∀ t : TypeExpr, t.unplaced.shape = t.shape
  | .named none _ | .named (some _) _ | .struct _ _ | .verbatim _ _ => by simp [unplaced, shape]
  | .pointer elem _ | .slice elem _ | .array _ elem _ | .map _ elem _ => by
      simp [unplaced, shape, shape_unplaced elem]

end TypeExpr

theorem TypeSpec.kind_unplaced (s : TypeSpec) : s.unplaced.kind = s.kind := by
  obtain ⟨doc, name, generic, aliased, type⟩ := s
  cases type with
  | named package found => cases package <;> rfl
  | _ => rfl

theorem annotatedSpecs_unplaced (marker : String) (f : SourceFile) :
    annotatedSpecs marker f.unplaced = (annotatedSpecs marker f).map TypeSpec.unplaced := by
  unfold annotatedSpecs
  dsimp only
  rw [f.typeDecls_unplaced, List.flatMap_map, List.map_flatMap]
  congr 1
  funext d
  rw [TypeDecl.unplaced, List.filter_map]
  congr 2
  funext s
  exact congr (congrArg or (any_hasLine_unplaced d.doc marker)) (any_hasLine_unplaced s.doc marker)

theorem DeclIndex.addSpecs_unplaced (i : DeclIndex) (specs : List TypeSpec) :
    i.addSpecs (specs.map TypeSpec.unplaced) = i.addSpecs specs := by
  induction specs generalizing i with
  | nil => rfl
  | cons s rest ih =>
      rw [List.map_cons, addSpecs, addSpecs, s.kind_unplaced]
      cases s.kind with
      | ok kind => exact ih _
      | error reason =>
          dsimp only
          rw [ih]
          rfl

/-- The index of a file does not depend on places. -/
theorem DeclIndex.ofFile_unplaced (marker : String) (f : SourceFile) :
    ofFile marker f.unplaced = ofFile marker f := by
  rw [ofFile, annotatedSpecs_unplaced, addSpecs_unplaced, ofFile]

/-! Constants. -/

namespace ConstSpec

theorem finding_unplaced (s : ConstSpec) (name : String) (e : ConstExpr) :
    s.unplaced.finding name e.unplaced = s.finding name e := by
  cases e with
  | ident text _ =>
      by_cases htext : text = "iota"
      · subst htext
        rfl
      · simp [ConstExpr.unplaced, finding]
  | _ => rfl

theorem findings_unplaced (s : ConstSpec) : s.unplaced.findings = s.findings := by
  unfold findings
  rw [show s.unplaced.names = s.names.map Ident.unplaced from rfl,
    show s.unplaced.values = s.values.map ConstExpr.unplaced from rfl, List.zip_map, List.map_map]
  refine List.map_congr_left fun pair _ => ?_
  exact s.finding_unplaced pair.1.name pair.2

end ConstSpec

theorem isIota_unplaced (e : ConstExpr) : isIota e.unplaced = isIota e := by
  cases e with
  | ident text _ =>
      by_cases htext : text = "iota"
      · subst htext
        rfl
      · simp [ConstExpr.unplaced, isIota, htext]
  | _ => rfl

namespace ConstantRun

theorem typeOf_unplaced (r : ConstantRun) (s : ConstSpec) : r.typeOf s.unplaced = r.typeOf s := by
  unfold typeOf ConstSpec.unplaced
  cases s.type with
  | some type => exact type.localName?_unplaced
  | none => rw [Option.map_none, List.isEmpty_map]

theorem step_unplaced (name : String) (r : ConstantRun) (s : ConstSpec) :
    r.step name s.unplaced = r.step name s := by
  have hlast : ((s.unplaced.names.zip s.unplaced.values).getLast?.elim r.counting
      fun pair => isIota pair.2) =
        (s.names.zip s.values).getLast?.elim r.counting fun pair => isIota pair.2 := by
    rw [show s.unplaced.names = s.names.map Ident.unplaced from rfl,
      show s.unplaced.values = s.values.map ConstExpr.unplaced from rfl, List.zip_map,
      List.getLast?_map]
    cases (s.names.zip s.values).getLast? with
    | none => rfl
    | some pair => exact isIota_unplaced pair.2
  unfold step
  dsimp only
  rw [r.typeOf_unplaced, s.findings_unplaced, hlast,
    show s.unplaced.values.isEmpty = s.values.isEmpty from List.isEmpty_map]
  rfl

theorem steps_unplaced (name : String) (r : ConstantRun) (specs : List ConstSpec) :
    r.steps name (specs.map ConstSpec.unplaced) = r.steps name specs := by
  induction specs generalizing r with
  | nil => rfl
  | cons s rest ih => simp only [List.map_cons, steps, step_unplaced, ih]

end ConstantRun

/-- The values of an enumeration do not depend on places. -/
theorem allowedValues_unplaced (name : String) (decls : List ConstDecl) :
    allowedValues name (decls.map ConstDecl.unplaced) = allowedValues name decls := by
  have hfindings : constantFindings name (decls.map ConstDecl.unplaced) =
      constantFindings name decls := by
    unfold constantFindings
    rw [List.flatMap_map]
    congr 1
    funext d
    exact ConstantRun.initial.steps_unplaced name d.specs
  unfold allowedValues
  rw [hfindings]

/-! Fields. -/

section Fields

variable (input : AnalysisInput) (record : String)

namespace FieldLine

theorem directives_unplaced (f : FieldLine) (marker : String) :
    f.unplaced.directives marker = (f.directives marker).map Comment.unplaced := by
  obtain ⟨doc, names, type, tag⟩ := f
  unfold directives unplaced
  cases doc with
  | none => rfl
  | some g =>
      dsimp only [Option.map_some, CommentGroup.unplaced]
      rw [List.filter_map]
      rfl

theorem label_unplaced (f : FieldLine) : f.unplaced.label = f.label := by
  obtain ⟨doc, names, type, tag⟩ := f
  unfold label unplaced
  dsimp only
  rw [names_unplaced]

theorem isSkip_unplaced (c : Comment) : isSkip c.unplaced = isSkip c := by
  unfold isSkip
  rw [c.body_unplaced]

theorem ruleOf_unplaced (catalogue : Catalogue) (c : Comment) :
    ruleOf catalogue c.unplaced = ruleOf catalogue c := by
  unfold ruleOf
  rw [c.body_unplaced]

-- Sealed, because the equation is checked without looking into the directive then.
seal ruleOf in
theorem rulesOf_cons (catalogue : Catalogue) (label : String) (c : Comment) (cs : List Comment) :
    rulesOf catalogue record label (c :: cs) =
      match ruleOf catalogue c with
      | .error cause => .error ⟨record, label, c.body, c.span, cause⟩
      | .ok rule => (rulesOf catalogue record label cs).map (rule.toList ++ ·) := rfl

theorem rulesOf_unplaced (catalogue : Catalogue) (label : String) (cs : List Comment) :
    rulesOf catalogue record label (cs.map Comment.unplaced) =
      (rulesOf catalogue record label cs).mapError DirectiveError.unplaced := by
  induction cs with
  | nil => exact Eq.refl (Except.ok [])
  | cons c cs ih =>
      rw [List.map_cons, rulesOf_cons, rulesOf_cons, ih, ruleOf_unplaced, c.body_unplaced]
      cases ruleOf catalogue c with
      | error cause => rfl
      | ok rule => cases rulesOf catalogue record label cs <;> rfl

/-- A field line gives the same fields wherever it stands, or the same error at its place. -/
theorem fields_unplaced (f : FieldLine) :
    f.unplaced.fields input record =
      (f.fields input record).mapError DirectiveError.unplaced := by
  have hembedded : f.unplaced.embedded = f.embedded := by
    obtain ⟨doc, names, type, tag⟩ := f
    simp only [FieldLine.unplaced, embedded, List.isEmpty_map]
  have hskip : ∀ cs : List Comment, (cs.map Comment.unplaced).any isSkip = cs.any isSkip := by
    intro cs
    simp only [List.any_map, Function.comp_def, isSkip_unplaced]
  have hnames : f.unplaced.names = f.names.map Ident.unplaced := by
    obtain ⟨doc, names, type, tag⟩ := f
    rfl
  have hshape : f.unplaced.type.shape = f.type.shape := by
    obtain ⟨doc, names, type, tag⟩ := f
    exact type.shape_unplaced
  unfold fields
  dsimp only
  rw [hembedded, f.directives_unplaced, hskip, f.label_unplaced, rulesOf_unplaced, hshape, hnames]
  split
  · rfl
  · cases rulesOf input.catalogue record f.label _ with
    | error e => rfl
    | ok rules =>
        change Except.ok _ = Except.ok _
        rw [List.map_map]
        rfl

end FieldLine

theorem recordFields_unplaced (fs : List FieldLine) :
    recordFields input record (fs.map FieldLine.unplaced) =
      (recordFields input record fs).mapError DirectiveError.unplaced := by
  induction fs with
  | nil => rfl
  | cons f fs ih =>
      rw [List.map_cons, recordFields, recordFields, f.fields_unplaced, ih]
      cases f.fields input record with
      | error e => rfl
      | ok first => cases recordFields input record fs <;> rfl

end Fields

/-! Declarations. -/

section Declarations

variable (input : AnalysisInput) (constants : List ConstDecl)

/-- The outcome of a collection with its error, if any, at no place. -/
def Collected.unplaced {α : Type} (c : Collected α) : Collected α :=
  ⟨c.diagnostics, c.result.mapError DirectiveError.unplaced⟩

theorem collectSpec_unplaced (s : TypeSpec) :
    collectSpec input (constants.map ConstDecl.unplaced) s.unplaced =
      (collectSpec input constants s).unplaced := by
  obtain ⟨doc, name, generic, aliased, type⟩ := s
  unfold collectSpec TypeSpec.unplaced
  dsimp only
  rw [name.name_unplaced, allowedValues_unplaced]
  cases input.index.get? name.name with
  | none => rfl
  | some kind =>
      cases kind with
      | enumeration base =>
          dsimp only
          rw [type.localName?_unplaced]
          rfl
      | record =>
          cases type with
          | struct lines _ =>
              dsimp only [TypeExpr.unplaced]
              rw [unplacedFields_eq_map, recordFields_unplaced]
              unfold Collected.unplaced
              cases recordFields input name.name lines <;> rfl
          | _ => rfl

theorem collectSpecs_unplaced (specs : List TypeSpec) :
    collectSpecs input (constants.map ConstDecl.unplaced) (specs.map TypeSpec.unplaced) =
      (collectSpecs input constants specs).unplaced := by
  induction specs with
  | nil => rfl
  | cons s rest ih =>
      rw [List.map_cons, collectSpecs, collectSpecs, collectSpec_unplaced, ih]
      unfold Collected.unplaced
      cases (collectSpec input constants s).result with
      | error e => rfl
      | ok found => cases hrest : (collectSpecs input constants rest).result <;> simp [hrest] <;> rfl

/-- What is collected from a file does not depend on places. -/
theorem collect_unplaced (f : SourceFile) :
    collect input f.unplaced = (collect input f).unplaced := by
  rw [collect, f.constDecls_unplaced, annotatedSpecs_unplaced, collectSpecs_unplaced, collect]

end Declarations

end FieldRules
