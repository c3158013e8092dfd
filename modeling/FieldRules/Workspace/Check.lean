/-
Analyzing every source without writing anything.
-/
import FieldRules.Report.Declaration
import FieldRules.Report.Line
import FieldRules.Workspace.Reading

namespace FieldRules

/-- What was found in one source, or why it could not be analyzed. -/
structure CheckedFile where
  path : String
  result : Except String AnalyzedFile

structure CheckReport where
  /-- The sources in the order of their paths. -/
  files : List CheckedFile

namespace Workspace

def checkFile (s : Settings) (f : FileSystem) (root path : String) : CheckedFile :=
  ⟨displayPath f root path, analyzeFile s f path⟩

/-- Analyze every source at or below a root. -/
def check (s : Settings) (f : FileSystem) (root : String) : Except Causes CheckReport := do
  let found ← sources s f root
  let files := found.map fun c => checkFile s f root c.path
  return ⟨files.mergeSort fun a b => Path.le a.path b.path⟩

end Workspace

/-- A field as its shape, its rules and whether its values are validated. -/
def Field.summary (f : Field) : String :=
  " | ".intercalate (f.shape.text :: f.rules.map Rule.text ++ if f.nested then ["nested"] else [])

def Declaration.lines (d : Declaration) : List Line :=
  match d.body with
  | .record fields =>
      .item (d.name ++ " (record)") :: fields.map fun f => .detail f.name f.summary
  | .enumeration e =>
      [.item (s!"{d.name} (enumeration of {e.underlying}): " ++
        ", ".intercalate e.allowed.spellings)]

namespace CheckedFile

def failed (c : CheckedFile) : Bool := c.result matches .error _

def declarations (c : CheckedFile) : List Declaration :=
  match c.result with
  | .ok a => a.file.declarations
  | .error _ => []

def diagnostics (c : CheckedFile) : List Diagnostic :=
  match c.result with
  | .ok a => a.diagnostics
  | .error _ => []

/-- A source without declarations is not shown. -/
def lines (c : CheckedFile) : List Line :=
  match c.result with
  | .error message => [.error ("failed to process " ++ c.path), .out message]
  | .ok a =>
      if a.file.declarations.isEmpty then []
      else
        .heading c.path :: a.file.declarations.flatMap Declaration.lines ++
          a.diagnostics.map (fun d => .warning (c.path ++ ": " ++ d.text)) ++ [.blank]

def json (c : CheckedFile) : JsonValue :=
  let error : List (String × JsonValue) :=
    match c.result with
    | .error message => [("error", .text message)]
    | .ok _ => []
  .object ([("path", .text c.path), ("declarations", .list (c.declarations.map Declaration.json)),
    ("diagnostics", .list (c.diagnostics.map Diagnostic.json))] ++ error)

end CheckedFile

namespace CheckReport

def isValid (r : CheckReport) : Bool := !r.files.any CheckedFile.failed

def verdict (r : CheckReport) : String :=
  let failed := (r.files.filter CheckedFile.failed).length
  let declarations := (r.files.flatMap CheckedFile.declarations).length
  if failed = 0 then s!"✓ {r.files.length} files checked, {declarations} annotated declarations"
  else s!"✗ {failed} of {r.files.length} files failed"

def lines (r : CheckReport) : List Line := r.files.flatMap CheckedFile.lines ++ [.out r.verdict]

def json (r : CheckReport) : JsonValue := .list (r.files.map CheckedFile.json)

end CheckReport

end FieldRules
