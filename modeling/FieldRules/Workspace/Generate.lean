/-
Writing the companion of every source.
-/
import FieldRules.Code.Lowering
import FieldRules.Report.Line
import FieldRules.Workspace.Reading

namespace FieldRules

/-- What became of one source.  Outputs are shown from the root. -/
inductive FileStatus where
  /-- It has no annotated declarations. -/
  | noAnnotations
  | written (output : String)
  /-- Its companion was up to date. -/
  | unchanged
  /-- What would be written. -/
  | preview (output text : String)
  | failed (message : String)
deriving DecidableEq, Repr

structure FileReport where
  path : String
  status : FileStatus
  warnings : List String
deriving DecidableEq, Repr

structure GenerateReport where
  dryRun : Bool
  /-- One report for each source, in the order of the paths. -/
  files : List FileReport
deriving DecidableEq, Repr

namespace Workspace

/-- The text of the companion for a file. -/
def companionText (s : Settings) (file : AnnotatedFile) : String := (file.lower s.header).render

/-- What became of a file that was to be given a text. -/
inductive Update where
  /-- It held the text already. -/
  | unchanged
  | written
  | failed (message : String)
deriving DecidableEq, Repr

/-- Write a file, and make the directories on the way to it.  They stay if it cannot be
written. -/
def replace (f : FileSystem) (path text : String) : FileSystem × Update :=
  let dir := Path.directory path
  match f.makeFoldersTo dir with
  | (g, some e) => (g, .failed (s!"failed to create '{dir}': " ++ e.message))
  | (g, none) =>
      match g.writeFile path (.text text) with
      | .error e => (g, .failed (s!"failed to write '{path}': " ++ e.message))
      | .ok h => (h, .written)

/-- Write a file unless it holds the text already. -/
def update (f : FileSystem) (path text : String) : FileSystem × Update :=
  match f.node path with
  | .ok (.file (.text old)) => if old = text then (f, .unchanged) else replace f path text
  | _ => replace f path text

/-- Write the companion of an analyzed source, or show it in a dry run. -/
def emit (dryRun : Bool) (s : Settings) (root : String) (f : FileSystem) (file : AnnotatedFile) :
    FileSystem × FileStatus :=
  if file.isEmpty then (f, .noAnnotations)
  else
    let output := s.outputPath file.path
    let display := displayPath f root output
    let text := companionText s file
    if dryRun then (f, .preview display text)
    else
      match update f output text with
      | (g, .failed message) => (g, .failed message)
      | (g, .unchanged) => (g, .unchanged)
      | (g, .written) => (g, .written display)

/-- What is left to do for a source after its analysis. -/
def finish (dryRun : Bool) (s : Settings) (root : String) (f : FileSystem) (path : String)
    (analysis : Except String AnalyzedFile) : FileSystem × FileReport :=
  let display := displayPath f root path
  match analysis with
  | .error message => (f, ⟨display, .failed message, []⟩)
  | .ok a =>
      let (g, status) := emit dryRun s root f a.file
      let warnings := a.diagnostics.filter fun d => d.severity = .warning
      (g, ⟨display, status, warnings.map Diagnostic.text⟩)

/-- Read, analyze and finish one source. -/
def generateFile (dryRun : Bool) (s : Settings) (root : String) (f : FileSystem) (path : String) :
    FileSystem × FileReport :=
  finish dryRun s root f path (analyzeFile s f path)

/-- Finish sources that are analyzed. -/
def finishFiles (dryRun : Bool) (s : Settings) (root : String) (f : FileSystem) :
    List (String × Except String AnalyzedFile) → FileSystem × List FileReport
  | [] => (f, [])
  | (path, analysis) :: rest =>
      let (g, report) := finish dryRun s root f path analysis
      let (h, reports) := finishFiles dryRun s root g rest
      (h, report :: reports)

/-- Process sources in turn: each is finished before the next is read. -/
def generateInTurn (dryRun : Bool) (s : Settings) (root : String) (f : FileSystem) :
    List String → FileSystem × List FileReport
  | [] => (f, [])
  | path :: paths =>
      let (g, report) := generateFile dryRun s root f path
      let (h, reports) := generateInTurn dryRun s root g paths
      (h, report :: reports)

/-- Process sources side by side: all are analyzed before the first is finished. -/
def generateTogether (dryRun : Bool) (s : Settings) (root : String) (f : FileSystem)
    (paths : List String) : FileSystem × List FileReport :=
  finishFiles dryRun s root f (paths.map fun path => (path, analyzeFile s f path))

/-- Process every source at or below a root. -/
def generate (dryRun inTurn : Bool) (s : Settings) (f : FileSystem) (root : String) :
    Except Causes (FileSystem × GenerateReport) := do
  let paths := (← sources s f root).map Found.path
  let (g, reports) :=
    if inTurn then generateInTurn dryRun s root f paths else generateTogether dryRun s root f paths
  return (g, ⟨dryRun, reports.mergeSort fun a b => Path.le a.path b.path⟩)

end Workspace

namespace FileReport

def warningLines (r : FileReport) : List Line :=
  r.warnings.map fun w => .warning (r.path ++ ": " ++ w)

def failureLines (r : FileReport) : List Line :=
  match r.status with
  | .failed message => [.error ("failed to process " ++ r.path), .out message]
  | _ => []

def writtenOutput? (r : FileReport) : Option String :=
  match r.status with
  | .written output => some output
  | _ => none

def preview? (r : FileReport) : Option (String × String) :=
  match r.status with
  | .preview output text => some (output, text)
  | _ => none

end FileReport

namespace GenerateReport

def hasFailures (r : GenerateReport) : Bool := r.files.any fun f => f.status matches .failed _

def count (r : GenerateReport) (p : FileStatus → Bool) : Nat :=
  (r.files.filter fun f => p f.status).length

def previewLines (r : GenerateReport) : List Line :=
  let previews := r.files.filterMap FileReport.preview?
  previews.flatMap (fun (output, text) => [.divider output, .out text]) ++
    [.divider "Summary", .out s!"{previews.length} files would be generated"]

def writtenLines (r : GenerateReport) : List Line :=
  let written := r.files.filterMap FileReport.writtenOutput?
  let unchanged := r.count fun s => s matches .unchanged
  let failed := r.count fun s => s matches .failed _
  let bare := r.count fun s => s matches .noAnnotations
  (if written.isEmpty then [] else .heading "Generated" :: written.map Line.added ++ [.blank]) ++
    [.out (s!"Summary: {written.length} written, {unchanged} unchanged, {failed} failed, " ++
      s!"{bare} without annotations")]

def lines (r : GenerateReport) : List Line :=
  r.files.flatMap FileReport.warningLines ++ r.files.flatMap FileReport.failureLines ++
    if r.dryRun then r.previewLines else r.writtenLines

end GenerateReport

end FieldRules
