/-
From declarations to Go methods.  The method of an enumeration looks its receiver
up among the allowed values; the method of a record joins one error for each
failing check and each invalid value that it contains.
-/
import FieldRules.Code.File
import FieldRules.Model.Declaration

namespace FieldRules

def receiver : Expr := .ident "r"

/-- The error with a formatted text. -/
def formattedError (args : List Expr) : Expr := .method (.ident "fmt") "Errorf" args

/-- The error with a fixed text. -/
def fixedError (text : String) : Expr := .method (.ident "errors") "New" [.str text]

/-- Add an error to those found so far. -/
def joinError (e : Expr) : Stmt :=
  .assign (.ident "errs") (.method (.ident "errors") "Join" [.ident "errs", e])

/-- The method that validates its receiver. -/
def validation (type : String) (pointer : Bool) (body : List Stmt) : Method :=
  ⟨type, pointer, "Validate", body⟩

/-- How a value of a kind is written in an error. -/
def ScalarKind.verb : ScalarKind → String
  | text => "%s"
  | integer => "%d"
  | float => "%v"

def Enumeration.lower (name : String) (e : Enumeration) : Method :=
  let lookup : Expr := .index (.ident "valid") (.call (.ident e.underlying) [receiver])
  let complaint : Expr := .str ("invalid value for " ++ name ++ ": " ++ e.base.verb)
  validation name false
    [.define ["valid"] (.set e.underlying e.allowed.spellings),
      .branch (some (.define ["_", "ok"] lookup)) (.not (.ident "ok"))
        [.result (formattedError [complaint, receiver])],
      .result .nil]

def Operand.expr : Operand → Expr
  | len access => .call (.ident "len") [.raw access]
  | value access => .raw access

def Operand.verb : Operand → String
  | len _ => "%d"
  | value _ => "%v"

/-- The message with its code in front. -/
def CheckFailure.headline (f : CheckFailure) : String :=
  match f.code with
  | some code => "[" ++ code ++ "] " ++ f.message
  | none => f.message

/-- A text as a format that stands for itself. -/
def escapeFormat (s : String) : String :=
  String.ofList (s.toList.flatMap fun c => if c = '%' then ['%', '%'] else [c])

namespace Check

/-- The error of a failing check. -/
def error (c : Check) : Expr :=
  let operand := c.condition.operand
  if c.failure.reportActual then
    formattedError
      [.str (escapeFormat c.failure.headline ++ ", got " ++ operand.verb), operand.expr]
  else fixedError c.failure.headline

def lower (c : Check) : Stmt :=
  .branch none
    (.binary c.condition.operand.expr c.condition.comparison.symbol
      (.raw c.condition.bound.text))
    [joinError c.error]

end Check

/-- An expression with so many dereferences. -/
def dereferenced : Nat → Expr → Expr
  | 0, e => e
  | depth + 1, e => .deref (dereferenced depth e)

/-- The condition that the first `depth` layers of a value are present, outermost
first; none for a value without such layers. -/
def presence? (e : Expr) : Nat → Option Expr
  | 0 => none
  | depth + 1 =>
      let last := (dereferenced depth e).notNil
      match presence? e depth with
      | some guard => some (.binary guard "&&" last)
      | none => some last

/-- A field of the receiver. -/
def Field.access (f : Field) : Expr := .selector receiver f.name

/-- The checks of a field, with the access that a method uses. -/
def Field.loweredChecks (f : Field) : List Stmt :=
  let access := (dereferenced f.shape.peelOptional.1 f.access).text
  (f.rules.flatMap fun rule => rule.checks f.name access).map Check.lower

/-- The checks of a field, made only where its value is present. -/
def Field.lowerRules (f : Field) : List Stmt :=
  match presence? f.access f.shape.peelOptional.1, f.loweredChecks with
  | some guard, check :: checks => [.branch none guard (check :: checks)]
  | _, checks => checks

/-- Where a contained value stands: a format for its path, and the variables that
fill it. -/
structure ValuePath where
  format : String
  indices : List String

/-- One step into a container. -/
def ValuePath.element (p : ValuePath) (verb name : String) : ValuePath :=
  ⟨p.format ++ "[" ++ verb ++ "]", p.indices ++ [name]⟩

/-- The name of a loop variable; inside other loops it has a number. -/
def loopVariable (name : String) (depth : Nat) : String :=
  if depth = 0 then name else name ++ toString depth

/-- Validate a value and report its error under its path. -/
def validateValue (value : Expr) (path : ValuePath) : Stmt :=
  let error := formattedError
    (.str (path.format ++ ": %w") :: path.indices.map Expr.ident ++ [.ident "err"])
  .branch (some (.define ["err"] (.method value "Validate" []))) (Expr.notNil (.ident "err"))
    [joinError error]

namespace Shape

/-- Validate every value inside a shape.  A pointer to a validated type is not
dereferenced, since it has the method itself. -/
def lowerNested (value : Expr) (path : ValuePath) (depth : Nat) : Shape → List Stmt
  | direct _ => [validateValue value path]
  | optional (direct _) => [.branch none value.notNil [validateValue value path]]
  | optional inner => [.branch none value.notNil (inner.lowerNested value.deref path depth)]
  | sequence inner =>
      let key := loopVariable "i" depth
      let item := loopVariable "item" depth
      [.loop key item value
        (inner.lowerNested (.ident item) (path.element "%d" key) (depth + 1))]
  | mapping inner =>
      let key := loopVariable "k" depth
      let item := loopVariable "value" depth
      [.loop key item value
        (inner.lowerNested (.ident item) (path.element "%v" key) (depth + 1))]

end Shape

namespace Field

/-- All statements for a field. -/
def lower (f : Field) : List Stmt :=
  f.lowerRules ++
    if f.nested then f.shape.lowerNested f.access ⟨f.name, []⟩ 0 else []

/-- Whether a method finds errors in the field at all. -/
def findsErrors (f : Field) : Bool := f.nested || !f.checks.isEmpty

/-- Whether an error of the field is formatted. -/
def formatsErrors (f : Field) : Bool := f.nested || f.checks.any fun c => c.failure.reportActual

end Field

/-- The method of a record. -/
def lowerRecord (name : String) (fields : List Field) : Method :=
  validation name true <|
    match fields.flatMap Field.lower with
    | [] => [.result .nil]
    | s :: ss => .declare "errs" "error" :: s :: ss ++ [.result (.ident "errs")]

namespace AnnotatedFile

def importsErrors (f : AnnotatedFile) : Bool :=
  f.records.any fun (_, fields) => fields.any Field.findsErrors

def importsFmt (f : AnnotatedFile) : Bool :=
  !f.enumerations.isEmpty || f.records.any fun (_, fields) => fields.any Field.formatsErrors

/-- The Go file for the declarations of a file, enumerations first. -/
def lower (f : AnnotatedFile) (header : String) : GoFile where
  header := header
  package := f.package
  imports := (if f.importsErrors then ["errors"] else []) ++ (if f.importsFmt then ["fmt"] else [])
  methods := f.enumerations.map (fun (name, e) => e.lower name) ++
    f.records.map fun (name, fields) => lowerRecord name fields

end AnnotatedFile

end FieldRules
