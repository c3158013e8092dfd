/-
What the tree of a file has to do with its text: every span is a slice of the text, names and
pieces that are kept as they are stand at their spans, and literals are spelled like literals.
-/
import FieldRules.Proofs.Source.Cover
import FieldRules.Source.Declaration

namespace FieldRules

variable (cs : List Char)

/-- A name is the identifier at its span. -/
structure Ident.StandsIn (i : Ident) : Prop where
  cuts : i.span.Cuts cs
  text : i.name.toList = slice cs i.span.start i.span.stop
  isIdentifier : isIdentifier i.name = true

/-- A text kept as it stands is the slice at its span. -/
structure IsExcerpt (text : String) (span : Span) : Prop where
  cuts : span.Cuts cs
  text : text.toList = slice cs span.start span.stop

/-- Comments above a declaration are slices of the text. -/
def DocStandsIn (doc : Option CommentGroup) : Prop :=
  ∀ g ∈ doc, ∀ c ∈ g.comments, c.StandsIn cs

mutual

def TypeExpr.StandsIn : TypeExpr → Prop
  | .named none name => name.StandsIn cs
  | .named (some package) name =>
      package.StandsIn cs ∧ name.StandsIn cs ∧ (package.span.cover name.span).Cuts cs
  | .pointer elem span | .slice elem span => elem.StandsIn ∧ span.Cuts cs
  | .array length elem span =>
      (∃ inside, IsExcerpt cs length inside) ∧ elem.StandsIn ∧ span.Cuts cs
  | .map key value span => key.StandsIn ∧ value.StandsIn ∧ span.Cuts cs
  | .struct fields span => fieldsStandIn fields ∧ span.Cuts cs
  | .verbatim text span => IsExcerpt cs text span

def FieldLine.StandsIn : FieldLine → Prop
  | ⟨doc, names, type, _⟩ =>
      DocStandsIn cs doc ∧ (∀ name ∈ names, name.StandsIn cs) ∧ type.StandsIn

def fieldsStandIn : List FieldLine → Prop
  | [] => True
  | f :: fs => f.StandsIn ∧ fieldsStandIn fs

end

theorem fieldsStandIn_iff {fs : List FieldLine} :
    fieldsStandIn cs fs ↔ ∀ f ∈ fs, f.StandsIn cs := by
  induction fs with
  | nil => simp [fieldsStandIn]
  | cons f fs ih => simp [fieldsStandIn, ih]

/-- A literal, or a number with a minus sign in front. -/
def IsSigned (kind : LiteralKind) (spelling : String) : Prop :=
  IsLiteral kind spelling ∨
    (kind = .int ∨ kind = .float) ∧ ∃ number, IsLiteral kind number ∧ spelling = "-" ++ number

def ConstExpr.StandsIn : ConstExpr → Prop
  | literal kind spelling span => IsSigned kind spelling ∧ span.Cuts cs
  | ident name span => Ident.StandsIn cs ⟨name, span⟩
  | verbatim text span => IsExcerpt cs text span

structure TypeSpec.StandsIn (s : TypeSpec) : Prop where
  doc : DocStandsIn cs s.doc
  name : s.name.StandsIn cs
  type : s.type.StandsIn cs

structure ConstSpec.StandsIn (s : ConstSpec) : Prop where
  doc : DocStandsIn cs s.doc
  names : ∀ name ∈ s.names, name.StandsIn cs
  type : ∀ type ∈ s.type, type.StandsIn cs
  values : ∀ value ∈ s.values, value.StandsIn cs

def Decl.StandsIn : Decl → Prop
  | type decl => DocStandsIn cs decl.doc ∧ ∀ s ∈ decl.specs, s.StandsIn cs
  | const decl => DocStandsIn cs decl.doc ∧ ∀ s ∈ decl.specs, s.StandsIn cs

structure SourceFile.StandsIn (f : SourceFile) : Prop where
  package : f.package.StandsIn cs
  decls : ∀ d ∈ f.decls, d.StandsIn cs
  groups : ∀ g ∈ f.groups, ∀ c ∈ g.comments, c.StandsIn cs

/-- The place of a type, whatever it is, is a slice of the text. -/
theorem TypeExpr.StandsIn.cuts {t : TypeExpr} (h : t.StandsIn cs) : t.span.Cuts cs := by
  cases t with
  | named package name =>
      cases package with
      | none => exact (show name.StandsIn cs from h).cuts
      | some package => exact h.2.2
  | pointer elem span => exact h.2
  | slice elem span => exact h.2
  | array length elem span => exact h.2.2
  | map key value span => exact h.2.2
  | struct fields span => exact h.2
  | verbatim text span => exact (show IsExcerpt cs text span from h).cuts

end FieldRules
