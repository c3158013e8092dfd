/-
Running a command line on a file system.
-/
import FieldRules.Command.Arguments
import FieldRules.Workspace.Check
import FieldRules.Workspace.Clean
import FieldRules.Workspace.Generate
import FieldRules.Workspace.Overview

namespace FieldRules

/-- How a run ends. -/
inductive Ending where
  /-- With a report, which may be one of failures. -/
  | finished (success : Bool) (lines : List Line)
  /-- Without one. -/
  | failed (causes : Causes)
  | misused
deriving DecidableEq, Repr

namespace Input

/-- The settings for a run. -/
def settings (i : Input) (f : FileSystem) : Except Causes Settings := do
  let s ←
    match i.config with
    | some path => Workspace.openSettings f path
    | none => Workspace.findSettings f i.path
  return i.packages.foldl Settings.ignoring s

end Input

def versionLine : Line := .out "valgen 0.1.0"

def usageLines : List Line :=
  [.out "Generate Validate() methods for annotated Go types", .blank,
    .out "Usage: valgen [-v]... <COMMAND> [OPTIONS] [PATH]", .blank, .heading "Commands"] ++
    subcommands.map fun (name, _) => .out ("  " ++ name)

namespace Command

/-- The file system and the report after a command.  A single worker takes the sources in
turn. -/
def run (f : FileSystem) : Command → Except Causes (FileSystem × Bool × List Line)
  | generate input dryRun workers => do
      let (g, report) ←
        Workspace.generate dryRun (workers = some 1) (← input.settings f) f input.path
      return (g, !report.hasFailures, report.lines)
  | check input json => do
      let report ← Workspace.check (← input.settings f) f input.path
      return (f, report.isValid, if json then [.out report.json.document] else report.lines)
  | clean input dryRun => do
      let (g, report) ← Workspace.clean dryRun (← input.settings f) f input.path
      return (g, true, report.lines)
  | rules => return (f, true, Workspace.rulesOverview .builtin)
  | explain input => do
      return (f, true, Workspace.overview (← input.settings f) .builtin input.path)
  | completions _ => return (f, true, [])

end Command

/-- The file system after a command line was run on it, and how the run ended. -/
def runCommandLine (f : FileSystem) (args : List String) : FileSystem × Ending :=
  match readCommandLine args with
  | .misuse => (f, .misused)
  | .help => (f, .finished true usageLines)
  | .version => (f, .finished true [versionLine])
  | .command c =>
      match c.run f with
      | .error causes => (f, .failed causes)
      | .ok (g, success, lines) => (g, .finished success lines)

end FieldRules
