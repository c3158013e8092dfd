/-
From annotated types to declarations with shapes, rules and allowed values.
-/
import FieldRules.Analysis.Index
import FieldRules.Analysis.Constants
import FieldRules.Rule.Directive
import FieldRules.Rule.Catalogue
import FieldRules.Settings.Basic

namespace FieldRules

/-- The shape of a type.  Pointers are optional, slices and arrays sequences, and
maps mappings to their values. -/
def TypeExpr.shape : TypeExpr → Shape
  | named none name => .direct (.named name.name)
  | named (some package) name => .direct (.qualified package.name name.name)
  | pointer elem _ => .optional elem.shape
  | slice elem _ => .sequence elem.shape
  | array _ elem _ => .sequence elem.shape
  | map _ value _ => .mapping value.shape
  | struct _ _ => .direct (.verbatim "struct\x7b...\x7d")
  | verbatim text _ => .direct (.verbatim text)

/-- Whether the values of a shape have a Validate method: types of this file if
they are annotated, types of other packages unless these are ignored. -/
def Shape.isNested (index : DeclIndex) (ignored : List String) (s : Shape) : Bool :=
  match s.leaf with
  | .named name => index.contains name
  | .qualified package _ => package ∉ ignored
  | .verbatim _ => false

/-- A directive that gives no rule, with the field and the comment it stands in. -/
structure DirectiveError where
  declaration : String
  field : String
  directive : String
  span : Span
  cause : RuleError
deriving DecidableEq, Repr

namespace DirectiveError

def message (e : DirectiveError) : String :=
  s!"invalid directive on {e.declaration}.{e.field}: " ++ e.cause.message

def code : String := "valgen::directive"

end DirectiveError

/-- What the analysis of declarations needs to know. -/
structure AnalysisInput where
  settings : Settings
  catalogue : Catalogue
  index : DeclIndex

namespace FieldLine

/-- The names of a field line as an error shows them. -/
def label (f : FieldLine) : String := ", ".intercalate (f.names.map Ident.name)

/-- The comments above a field that are directives. -/
def directives (f : FieldLine) (marker : String) : List Comment :=
  match f.doc with
  | none => []
  | some g => g.comments.filter fun c => isDirective c.body marker

def isSkip (c : Comment) : Bool :=
  match parseDirective c.body with
  | .ok .skip => true
  | _ => false

/-- The rule of a directive. -/
def ruleOf (catalogue : Catalogue) (c : Comment) : Except RuleError (Option Rule) :=
  match parseDirective c.body with
  | .ok .skip => .ok none
  | .ok (.rule name attributes) => (catalogue.construct name attributes).map some
  | .error e => .error e

/-- The rules of directives, up to the first that gives none. -/
def rulesOf (catalogue : Catalogue) (record label : String) :
    List Comment → Except DirectiveError (List Rule)
  | [] => .ok []
  | c :: cs =>
      match ruleOf catalogue c with
      | .error cause => .error ⟨record, label, c.body, c.span, cause⟩
      | .ok rule => (rulesOf catalogue record label cs).map (rule.toList ++ ·)

/-- The fields of one line.  An embedded line has none, and a directive to skip
the line wins over all others, well-formed or not. -/
def fields (input : AnalysisInput) (record : String) (f : FieldLine) :
    Except DirectiveError (List Field) :=
  let directives := f.directives input.settings.fieldMarker
  if f.embedded || directives.any isSkip then .ok []
  else do
    let rules ← rulesOf input.catalogue record f.label directives
    let shape := f.type.shape
    let nested := shape.isNested input.index input.settings.ignorePackages
    return f.names.map fun name => ⟨name.name, shape, rules, nested⟩

end FieldLine

/-- The fields of a record, line by line. -/
def recordFields (input : AnalysisInput) (record : String) :
    List FieldLine → Except DirectiveError (List Field)
  | [] => .ok []
  | f :: fs => do
      let first ← f.fields input record
      let more ← recordFields input record fs
      return first ++ more

/-- What was found on the way, and the result or the first failure. -/
structure Collected (α : Type) where
  diagnostics : List Diagnostic
  result : Except DirectiveError α

/-- The declaration for one annotated spec; none where the index has none. -/
def collectSpec (input : AnalysisInput) (constants : List ConstDecl) (s : TypeSpec) :
    Collected (Option Declaration) :=
  let name := s.name.name
  match input.index.get? name, s.type with
  | some .record, .struct lines _ =>
      ⟨[], (recordFields input name lines).map fun fields => some ⟨name, .record fields⟩⟩
  | some (.enumeration base), type =>
      let (allowed, warnings) := allowedValues name constants
      ⟨warnings, .ok (some ⟨name, .enumeration ⟨base, type.localName?.getD name, allowed⟩⟩)⟩
  | _, _ => ⟨[], .ok none⟩

/-- The declarations for annotated specs in order, up to the first failure. -/
def collectSpecs (input : AnalysisInput) (constants : List ConstDecl) :
    List TypeSpec → Collected (List Declaration)
  | [] => ⟨[], .ok []⟩
  | s :: rest =>
      let one := collectSpec input constants s
      match one.result with
      | .error e => ⟨one.diagnostics, .error e⟩
      | .ok declaration =>
          let more := collectSpecs input constants rest
          ⟨one.diagnostics ++ more.diagnostics, more.result.map (declaration.toList ++ ·)⟩

/-- The annotated declarations of a file. -/
def collect (input : AnalysisInput) (f : SourceFile) : Collected (List Declaration) :=
  collectSpecs input f.constDecls (annotatedSpecs input.settings.typeMarker f)

end FieldRules
