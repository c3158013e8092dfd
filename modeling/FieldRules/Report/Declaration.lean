/-
Declarations and diagnostics as JSON.
-/
import FieldRules.Report.Json
import FieldRules.Model.Declaration
import FieldRules.Analysis.Diagnostic

namespace FieldRules

def TypeRef.json : TypeRef → JsonValue
  | named name => .object [("ref", .text "local"), ("name", .text name)]
  | qualified package name =>
      .object [("ref", .text "external"), ("package", .text package), ("name", .text name)]
  | verbatim text => .object [("ref", .text "opaque"), ("text", .text text)]

def Shape.json : Shape → JsonValue
  | optional inner => .object [("shape", .text "optional"), ("of", inner.json)]
  | sequence inner => .object [("shape", .text "sequence"), ("of", inner.json)]
  | mapping inner => .object [("shape", .text "mapping"), ("of", inner.json)]
  | direct type => .object [("shape", .text "direct"), ("of", type.json)]

/-- The kind of a constant; whole numbers have a short name here. -/
def ScalarKind.literalName : ScalarKind → String
  | text => "text"
  | integer => "int"
  | float => "float"

def Literal.json (l : Literal) : JsonValue :=
  .object [("type", .text l.kind.literalName), ("value", .text l.spelling)]

def AllowedValues.json (a : AllowedValues) : JsonValue := .list (a.values.map Literal.json)

def Field.json (f : Field) : JsonValue :=
  .object [("name", .text f.name), ("shape", f.shape.json),
    ("rules", .texts (f.rules.map Rule.text)), ("nested", .bool f.nested)]

/-- The members of a declaration besides its name. -/
def DeclarationBody.jsonMembers : DeclarationBody → List (String × JsonValue)
  | record fields => [("kind", .text "record"), ("fields", .list (fields.map Field.json))]
  | enumeration e => [("kind", .text "enumeration"), ("base", .text e.base.describe),
      ("underlying", .text e.underlying), ("allowed", e.allowed.json)]

def Declaration.json (d : Declaration) : JsonValue :=
  .object (("name", .text d.name) :: d.body.jsonMembers)

def AnnotatedFile.json (f : AnnotatedFile) : JsonValue :=
  .object [("path", .text f.path), ("package", .text f.package),
    ("declarations", .list (f.declarations.map Declaration.json))]

def Diagnostic.json (d : Diagnostic) : JsonValue :=
  .object [("severity", .text d.severity.text), ("phase", .text d.phase),
    ("message", .text d.message), ("location", .ofOption .text d.location)]

end FieldRules
