/-
Reading the settings and the sources of a file system.
-/
import FieldRules.Analysis.Pipeline
import FieldRules.Settings.Toml
import FieldRules.Workspace.Discovery

namespace FieldRules

/-- A failure as the report of a file shows it. -/
def AnalysisError.text : AnalysisError → String
  | source cause => cause.code ++ ": " ++ cause.message
  | directive cause => DirectiveError.code ++ ": " ++ cause.message
  | e => e.message

namespace Workspace

def unreadable (path : String) : String := s!"failed to read '{path}'"

/-- The settings in a file. -/
def openSettings (f : FileSystem) (path : String) : Except Causes Settings :=
  match f.readText path with
  | .error e => .error [unreadable path, e.message]
  | .ok text =>
      match Settings.ofToml? text with
      | some s => .ok s
      | none => .error [s!"in '{path}'", "invalid valgen configuration"]

/-- Where a root has its settings. -/
def settingsPath (f : FileSystem) (root : String) : String :=
  Path.join (if f.isFolder root then root else Path.directory root) "valgen.toml"

/-- The settings of a root; the standard ones if it has no file for them. -/
def findSettings (f : FileSystem) (root : String) : Except Causes Settings :=
  let path := settingsPath f root
  if f.isFile path then openSettings f path else .ok .standard

/-- Read and analyze one source. -/
def analyzeFile (s : Settings) (f : FileSystem) (path : String) : Except String AnalyzedFile :=
  match f.readText path with
  | .error e => .error (unreadable path ++ ": " ++ e.message)
  | .ok text => (analyze path text s .builtin).mapError AnalysisError.text

end Workspace

end FieldRules
