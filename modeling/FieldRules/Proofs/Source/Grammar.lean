/-
The declarations of a file as terms, how they are written on a page, and when what was
read is the same declaration.  Terms have no places in a text, and hold only what can be
written: names that are not keywords, literals that are read as one token.
-/
import FieldRules.Proofs.Source.Page
import FieldRules.Source.Declaration

namespace FieldRules

/-- Words that name nothing. -/
def keywords : List String :=
  ["break", "case", "chan", "const", "continue", "default", "defer", "else", "fallthrough",
   "for", "func", "go", "goto", "if", "import", "interface", "map", "package", "range",
   "return", "select", "struct", "switch", "type", "var"]

structure Name where
  text : String
  isIdentifier : isIdentifier text = true
  plain : text ∉ keywords

/-- A literal token. -/
structure LiteralTerm where
  kind : LiteralKind
  spelling : String
  isLiteral : IsLiteral kind spelling

/-- The name of a type, with the package that it is from. -/
structure TypeName where
  package : Option Name
  name : Name

inductive LengthTerm where
  | name (n : Name)
  | literal (spelling : String) (isLiteral : IsLiteral .int spelling)

structure TagTerm where
  spelling : String
  isLiteral : IsLiteral .str spelling

/-- The type of an embedded field. -/
structure EmbeddedTerm where
  pointer : Bool
  name : TypeName

mutual

inductive TypeTerm where
  | named (name : TypeName)
  | pointer (elem : TypeTerm)
  | slice (elem : TypeTerm)
  | array (length : LengthTerm) (elem : TypeTerm)
  | map (key value : TypeTerm)
  | struct (fields : List FieldTerm)

inductive FieldTerm where
  | named (doc : List DocLine) (first : Name) (more : List Name) (type : TypeTerm)
      (tag : Option TagTerm)
  | embedded (doc : List DocLine) (type : EmbeddedTerm) (tag : Option TagTerm)

end

structure TypeSpecTerm where
  name : Name
  /-- The type parameter, which any type may stand for. -/
  param : Option Name
  aliased : Bool
  type : TypeTerm

inductive ValueTerm where
  | name (n : Name)
  | literal (l : LiteralTerm)
  | negated (l : LiteralTerm) (number : l.kind = .int ∨ l.kind = .float)

structure ConstSpecTerm where
  first : Name
  more : List Name
  type : Option TypeTerm
  values : List ValueTerm

/-- One spec, or a group of specs with doc lines of their own. -/
inductive SpecTerms (α : Type) where
  | single (spec : α)
  | group (specs : List (List DocLine × α))

inductive DeclTerm where
  | type (doc : List DocLine) (specs : SpecTerms TypeSpecTerm)
  | const (doc : List DocLine) (specs : SpecTerms ConstSpecTerm)

structure FileTerm where
  package : Name
  decls : List DeclTerm

/-! Writing terms. -/

def Word.ofName (n : Name) : Word := ⟨.ident n.text, n.isIdentifier⟩

def Word.keyword (text : String) (h : FieldRules.isIdentifier text = true) : Word :=
  ⟨.ident text, h⟩

def Word.symbol (symbol : String) (h : symbol ∈ symbols) : Word := ⟨.op symbol, h⟩

def LiteralTerm.word (l : LiteralTerm) : Word := ⟨.literal l.kind l.spelling, l.isLiteral⟩

def LengthTerm.word : LengthTerm → Word
  | name n => .ofName n
  | literal spelling isLiteral => ⟨.literal .int spelling, isLiteral⟩

/-- A symbol right after the word before it. -/
def close (symbol : String) (h : symbol ∈ symbols) : Placed := ⟨.joined, .symbol symbol h⟩

def TypeName.placed (lead : Lead) (t : TypeName) : List Placed :=
  match t.package with
  | none => [⟨lead, .ofName t.name⟩]
  | some package =>
      [⟨lead, .ofName package⟩, close "." (by decide), ⟨.joined, .ofName t.name⟩]

def EmbeddedTerm.placed (lead : Lead) (e : EmbeddedTerm) : List Placed :=
  if e.pointer then ⟨lead, .symbol "*" (by decide)⟩ :: e.name.placed .joined
  else e.name.placed lead

/-- Names with commas between them. -/
def placedNames (lead : Lead) (first : Name) : List Name → List Placed
  | [] => [⟨lead, .ofName first⟩]
  | second :: more =>
      ⟨lead, .ofName first⟩ :: close "," (by decide) :: placedNames .space second more

def placedTag : Option TagTerm → List Placed
  | none => []
  | some tag => [⟨.space, ⟨.literal .str tag.spelling, tag.isLiteral⟩⟩]

mutual

def TypeTerm.placed (lead : Lead) : TypeTerm → List Placed
  | .named name => name.placed lead
  | .pointer elem => ⟨lead, .symbol "*" (by decide)⟩ :: elem.placed .joined
  | .slice elem =>
      ⟨lead, .symbol "[" (by decide)⟩ :: close "]" (by decide) :: elem.placed .joined
  | .array length elem =>
      ⟨lead, .symbol "[" (by decide)⟩ :: ⟨.joined, length.word⟩ :: close "]" (by decide) ::
        elem.placed .joined
  | .map key value =>
      ⟨lead, .keyword "map" (by decide)⟩ :: close "[" (by decide) ::
        (key.placed .joined ++ close "]" (by decide) :: value.placed .joined)
  | .struct fields =>
      ⟨lead, .keyword "struct" (by decide)⟩ :: ⟨.space, .symbol "\x7b" (by decide)⟩ ::
        (placedFields fields ++ [⟨.line [], .symbol "\x7d" (by decide)⟩])

def FieldTerm.placed : FieldTerm → List Placed
  | .named doc first more type tag =>
      placedNames (.line doc) first more ++ (type.placed .space ++ placedTag tag)
  | .embedded doc type tag => type.placed (.line doc) ++ placedTag tag

/-- Fields, one on a line. -/
def placedFields : List FieldTerm → List Placed
  | [] => []
  | field :: fields => field.placed ++ placedFields fields

end

def placedParam : Option Name → List Placed
  | none => []
  | some param =>
      [close "[" (by decide), ⟨.joined, .ofName param⟩, ⟨.space, .keyword "any" (by decide)⟩,
       close "]" (by decide)]

def placedEquals (aliased : Bool) : List Placed :=
  if aliased then [⟨.space, .symbol "=" (by decide)⟩] else []

def TypeSpecTerm.placed (lead : Lead) (s : TypeSpecTerm) : List Placed :=
  ⟨lead, .ofName s.name⟩ ::
    (placedParam s.param ++ (placedEquals s.aliased ++ s.type.placed .space))

def ValueTerm.placed (lead : Lead) : ValueTerm → List Placed
  | name n => [⟨lead, .ofName n⟩]
  | literal l => [⟨lead, l.word⟩]
  | negated l _ => [⟨lead, .symbol "-" (by decide)⟩, ⟨.joined, l.word⟩]

/-- Values with commas between them. -/
def placedValues (first : ValueTerm) : List ValueTerm → List Placed
  | [] => first.placed .space
  | second :: more => first.placed .space ++ close "," (by decide) :: placedValues second more

def placedAssignment : List ValueTerm → List Placed
  | [] => []
  | first :: more => ⟨.space, .symbol "=" (by decide)⟩ :: placedValues first more

def placedType : Option TypeTerm → List Placed
  | none => []
  | some type => type.placed .space

def ConstSpecTerm.placed (lead : Lead) (s : ConstSpecTerm) : List Placed :=
  placedNames lead s.first s.more ++ (placedType s.type ++ placedAssignment s.values)

/-- Specs with their doc lines, one on a line. -/
def placedGroup {α : Type} (spec : Lead → α → List Placed) :
    List (List DocLine × α) → List Placed
  | [] => []
  | (doc, one) :: all => spec (.line doc) one ++ placedGroup spec all

/-- A spec after its keyword, or a group in parentheses. -/
def SpecTerms.placed {α : Type} (spec : Lead → α → List Placed) : SpecTerms α → List Placed
  | single one => spec .space one
  | group all =>
      ⟨.space, .symbol "(" (by decide)⟩ ::
        (placedGroup spec all ++ [⟨.line [], .symbol ")" (by decide)⟩])

def DeclTerm.placed : DeclTerm → List Placed
  | type doc specs =>
      ⟨.line doc, .keyword "type" (by decide)⟩ :: specs.placed TypeSpecTerm.placed
  | const doc specs =>
      ⟨.line doc, .keyword "const" (by decide)⟩ :: specs.placed ConstSpecTerm.placed

/-- The file as text. -/
def FileTerm.text (f : FileTerm) : String :=
  page (.keyword "package" (by decide))
    (⟨.space, .ofName f.package⟩ :: f.decls.flatMap DeclTerm.placed)

/-! What was read, compared with the term that was written.  Places and texts of comments
do not count, only what the declaration says. -/

/-- The lines of a comment group, or none for no group, are the doc lines. -/
def SameDoc (doc : List DocLine) (group : Option CommentGroup) : Prop :=
  group.map CommentGroup.lines = docBodies doc

def SameNames (names : List Name) (found : List Ident) : Prop :=
  found.map Ident.name = names.map Name.text

def TypeName.Matches (t : TypeName) (package : Option Ident) (name : Ident) : Prop :=
  package.map Ident.name = t.package.map Name.text ∧ name.name = t.name.text

def EmbeddedTerm.Matches (e : EmbeddedTerm) : TypeExpr → Prop
  | .named package name => e.pointer = false ∧ e.name.Matches package name
  | .pointer (.named package name) _ => e.pointer = true ∧ e.name.Matches package name
  | _ => False

mutual

def TypeTerm.Matches : TypeTerm → TypeExpr → Prop
  | .named name, .named package found => name.Matches package found
  | .pointer elem, .pointer found _ => elem.Matches found
  | .slice elem, .slice found _ => elem.Matches found
  | .array length elem, .array text found _ =>
      text = length.word.kind.spelling ∧ elem.Matches found
  | .map key value, .map key' value' _ => key.Matches key' ∧ value.Matches value'
  | .struct fields, .struct found _ => fieldsMatch fields found
  | _, _ => False

def FieldTerm.Matches : FieldTerm → FieldLine → Prop
  | .named doc first more type tag, found =>
      SameDoc doc found.doc ∧ SameNames (first :: more) found.names ∧ type.Matches found.type ∧
        found.tag = tag.map TagTerm.spelling
  | .embedded doc type tag, found =>
      SameDoc doc found.doc ∧ found.embedded = true ∧ type.Matches found.type ∧
        found.tag = tag.map TagTerm.spelling

def fieldsMatch : List FieldTerm → List FieldLine → Prop
  | [], [] => True
  | field :: fields, found :: more => field.Matches found ∧ fieldsMatch fields more
  | _, _ => False

end

structure TypeSpecTerm.Matches (doc : List DocLine) (s : TypeSpecTerm) (found : TypeSpec) :
    Prop where
  doc : SameDoc doc found.doc
  name : found.name.name = s.name.text
  generic : found.generic = s.param.isSome
  aliased : found.aliased = s.aliased
  type : s.type.Matches found.type

def ValueTerm.Matches : ValueTerm → ConstExpr → Prop
  | name n, .ident text _ => text = n.text
  | literal l, .literal kind spelling _ => kind = l.kind ∧ spelling = l.spelling
  | negated l _, .literal kind spelling _ => kind = l.kind ∧ spelling = "-" ++ l.spelling
  | _, _ => False

structure ConstSpecTerm.Matches (index : Nat) (doc : List DocLine) (s : ConstSpecTerm)
    (found : ConstSpec) : Prop where
  doc : SameDoc doc found.doc
  index : found.index = index
  names : SameNames (s.first :: s.more) found.names
  type : Option.Rel TypeTerm.Matches s.type found.type
  values : List.Forall₂ ValueTerm.Matches s.values found.values

section Specs

variable {α β : Type} (spec : Nat → List DocLine → α → β → Prop)

/-- The specs of a group, from the one at place `index` on. -/
def groupMatches (index : Nat) : List (List DocLine × α) → List β → Prop
  | [], [] => True
  | (doc, one) :: all, found :: more => spec index doc one found ∧ groupMatches (index + 1) all more
  | _, _ => False

def SpecTerms.Matches (grouped : Bool) (found : List β) : SpecTerms α → Prop
  | single one => grouped = false ∧ ∃ b, found = [b] ∧ spec 0 [] one b
  | group all => grouped = true ∧ groupMatches spec 0 all found

end Specs

def DeclTerm.Matches : DeclTerm → Decl → Prop
  | type doc specs, .type found =>
      SameDoc doc found.doc ∧
        specs.Matches (fun _ => TypeSpecTerm.Matches) found.grouped found.specs
  | const doc specs, .const found =>
      SameDoc doc found.doc ∧ specs.Matches ConstSpecTerm.Matches found.grouped found.specs
  | _, _ => False

structure FileTerm.Matches (f : FileTerm) (found : SourceFile) : Prop where
  package : found.package.name = f.package.text
  decls : List.Forall₂ DeclTerm.Matches f.decls found.decls

end FieldRules
