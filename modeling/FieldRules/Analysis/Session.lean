/-
The analysis of one file: what is known of it so far, and the phases that add to
what is known.
-/
import FieldRules.Source.Parser
import FieldRules.Analysis.Collection
import FieldRules.Analysis.Lint.Bounds
import FieldRules.Analysis.Lint.Target
import FieldRules.Analysis.Lint.Empty

namespace FieldRules

/-- Why the analysis of a file stops. -/
inductive AnalysisError where
  | source (cause : SourceError)
  | directive (cause : DirectiveError)
  /-- A phase needs the declarations of the file, and they were not read. -/
  | notParsed
  | notIndexed
  | notCollected
  | lintFailed (errors : Nat)
  /-- An observer ends the run. -/
  | aborted (reason : String)
deriving DecidableEq, Repr

def AnalysisError.message : AnalysisError → String
  | source cause => cause.message
  | directive cause => cause.message
  | notParsed => "syntax tree not set - did ParsePhase run?"
  | notIndexed => "index not set - did IndexPhase run?"
  | notCollected => "file info not set - did CollectPhase run?"
  | lintFailed errors => s!"lint failed with {errors} error(s)"
  | aborted reason => reason

/-- What is known of one file. -/
structure Session where
  path : String
  text : String
  settings : Settings
  catalogue : Catalogue
  parsed : Option SourceFile
  index : Option DeclIndex
  collected : Option AnnotatedFile
  diagnostics : List Diagnostic

namespace Session

def start (path text : String) (settings : Settings) (catalogue : Catalogue) : Session :=
  ⟨path, text, settings, catalogue, none, none, none, []⟩

def report (s : Session) (ds : List Diagnostic) : Session :=
  { s with diagnostics := s.diagnostics ++ ds }

def ofSeverity (s : Session) (severity : Severity) : List Diagnostic :=
  s.diagnostics.filter fun d => d.severity = severity

def errors (s : Session) : List Diagnostic := s.ofSeverity .error

def warnings (s : Session) : List Diagnostic := s.ofSeverity .warning

/-- Hand over the collected declarations; they are gone afterwards. -/
def takeCollected (s : Session) : Session × Except AnalysisError AnnotatedFile :=
  match s.collected with
  | some file => ({ s with collected := none }, .ok file)
  | none => (s, .error .notCollected)

end Session

/-- The session after a step, and why the analysis stops there, if it does. -/
abbrev Outcome := Session × Option AnalysisError

structure Phase where
  name : String
  description : String
  run : Session → Outcome

def runParse (s : Session) : Outcome :=
  match parseSource s.text with
  | .ok file => ({ s with parsed := some file }, none)
  | .error e => (s, some (.source e))

def runIndex (s : Session) : Outcome :=
  match s.parsed with
  | none => (s, some .notParsed)
  | some file =>
      let (index, found) := DeclIndex.ofFile s.settings.typeMarker file
      ({ s.report found with index := some index }, none)

def runCollect (s : Session) : Outcome :=
  match s.parsed, s.index with
  | none, _ => (s, some .notParsed)
  | some _, none => (s, some .notIndexed)
  | some file, some index =>
      let all := collect ⟨s.settings, s.catalogue, index⟩ file
      match all.result with
      | .error e => (s.report all.diagnostics, some (.directive e))
      | .ok declarations =>
          ({ s.report all.diagnostics with
              collected := some ⟨s.path, file.package.name, declarations⟩ }, none)

/-- Ask all lints, then stop if any error was reported, here or before. -/
def runLints (lints : List Lint) (s : Session) : Outcome :=
  match s.collected with
  | none => (s, some .notCollected)
  | some file =>
      let after := s.report (lints.flatMap fun l => l.check file)
      if after.errors.isEmpty then (after, none)
      else (after, some (.lintFailed after.errors.length))

def parsePhase : Phase :=
  ⟨"parse", "Tokenize the source and parse type and constant declarations", runParse⟩

def indexPhase : Phase :=
  ⟨"index", "Find annotated struct and scalar declarations", runIndex⟩

def collectPhase : Phase :=
  ⟨"collect", "Collect fields, rules and enumeration values", runCollect⟩

def lintPhase (lints : List Lint) : Phase :=
  ⟨"lint", "Check collected declarations for likely mistakes", runLints lints⟩

def builtinLints : List Lint := [contradictoryBounds, ruleTargets, emptyEnumerations]

def builtinPhases : List Phase :=
  [parsePhase, indexPhase, collectPhase, lintPhase builtinLints]

end FieldRules
