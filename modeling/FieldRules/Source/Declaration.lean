/-
The declarations of a Go file that matter for validation: types and constants,
with their documentation and the places where they stand.
-/
import FieldRules.Source.Token

namespace FieldRules

structure Ident where
  name : String
  span : Span
deriving DecidableEq, Repr

mutual

/-- A type as written.  Interfaces, functions, channels and instances of generic
types are kept as their text. -/
inductive TypeExpr where
  | named (package : Option Ident) (name : Ident)
  | pointer (elem : TypeExpr) (span : Span)
  | slice (elem : TypeExpr) (span : Span)
  | array (length : String) (elem : TypeExpr) (span : Span)
  | map (key value : TypeExpr) (span : Span)
  | struct (fields : List FieldLine) (span : Span)
  | verbatim (text : String) (span : Span)

/-- One line of a struct.  An embedded field has no name of its own. -/
structure FieldLine where
  doc : Option CommentGroup
  names : List Ident
  type : TypeExpr
  tag : Option String

end

deriving instance Repr for TypeExpr, FieldLine

namespace FieldLine

def embedded (f : FieldLine) : Bool := f.names.isEmpty

end FieldLine

namespace TypeExpr

def span : TypeExpr → Span
  | named none name => name.span
  | named (some package) name => package.span.cover name.span
  | pointer _ span | slice _ span | array _ _ span | map _ _ span | struct _ span
  | verbatim _ span => span

/-- The name of an unqualified named type. -/
def localName? : TypeExpr → Option String
  | named none name => some name.name
  | _ => none

end TypeExpr

/-- A constant expression: a literal with its sign, a name, or the text of
anything else. -/
inductive ConstExpr where
  | literal (kind : LiteralKind) (spelling : String) (span : Span)
  | ident (name : String) (span : Span)
  | verbatim (text : String) (span : Span)
deriving DecidableEq, Repr

def ConstExpr.span : ConstExpr → Span
  | literal _ _ span | ident _ span | verbatim _ span => span

structure TypeSpec where
  doc : Option CommentGroup
  name : Ident
  /-- It has type parameters. -/
  generic : Bool
  /-- It gives another name to a type instead of making one. -/
  aliased : Bool
  type : TypeExpr
deriving Repr

structure TypeDecl where
  doc : Option CommentGroup
  grouped : Bool
  specs : List TypeSpec
deriving Repr

structure ConstSpec where
  doc : Option CommentGroup
  /-- Its place in the group, from zero: the value of `iota`. -/
  index : Nat
  names : List Ident
  type : Option TypeExpr
  values : List ConstExpr
deriving Repr

structure ConstDecl where
  doc : Option CommentGroup
  grouped : Bool
  specs : List ConstSpec
deriving Repr

inductive Decl where
  | type (decl : TypeDecl)
  | const (decl : ConstDecl)
deriving Repr

/-- A file without its imports, variables and functions. -/
structure SourceFile where
  package : Ident
  decls : List Decl
  groups : List CommentGroup
deriving Repr

namespace SourceFile

def typeDecls (f : SourceFile) : List TypeDecl :=
  f.decls.filterMap fun
    | .type decl => some decl
    | .const _ => none

def constDecls (f : SourceFile) : List ConstDecl :=
  f.decls.filterMap fun
    | .type _ => none
    | .const decl => some decl

end SourceFile

end FieldRules
