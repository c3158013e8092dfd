/-
Removing companions whose source is gone or has no annotated declarations any more.
-/
import FieldRules.Report.Line
import FieldRules.Workspace.Reading

namespace FieldRules

structure CleanReport where
  dryRun : Bool
  /-- Companions that were removed or, in a dry run, would be. -/
  deleted : List String
  /-- Companions of sources that cannot be analyzed, with the reason. -/
  kept : List (String × String)
deriving DecidableEq, Repr

namespace Workspace

/-- What is done with a companion. -/
inductive Decision where
  | leave
  | keep (reason : String)
  | delete
deriving DecidableEq, Repr

/-- Whether a companion has lost its source. -/
def decideCompanion (s : Settings) (f : FileSystem) (path : String) : Decision :=
  match s.sourcePath? path with
  | none => .leave
  | some source =>
      if f.isFile source then
        match analyzeFile s f source with
        | .error message => .keep message
        | .ok a => if a.file.isEmpty then .delete else .leave
      else .delete

/-- Remove a file, except in a dry run. -/
def delete (dryRun : Bool) (f : FileSystem) (path : String) : Except Causes FileSystem :=
  if dryRun then .ok f
  else
    match f.removeFile path with
    | .ok g => .ok g
    | .error e => .error [s!"failed to remove '{path}'", e.message]

/-- Go through companions one after the other. -/
def cleanFiles (dryRun : Bool) (s : Settings) (root : String) (f : FileSystem) :
    List String → Except Causes (FileSystem × CleanReport)
  | [] => .ok (f, ⟨dryRun, [], []⟩)
  | path :: paths =>
      let display := displayPath f root path
      match decideCompanion s f path with
      | .leave => cleanFiles dryRun s root f paths
      | .keep reason => do
          let (g, report) ← cleanFiles dryRun s root f paths
          return (g, { report with kept := (display, reason) :: report.kept })
      | .delete => do
          let (g, report) ← cleanFiles dryRun s root (← delete dryRun f path) paths
          return (g, { report with deleted := display :: report.deleted })

/-- Remove the companions at or below a root that have lost their source. -/
def clean (dryRun : Bool) (s : Settings) (f : FileSystem) (root : String) :
    Except Causes (FileSystem × CleanReport) := do
  let found ← companions s f root
  cleanFiles dryRun s root f (found.map Found.path)

end Workspace

namespace CleanReport

def keptLines (r : CleanReport) : List Line :=
  r.kept.flatMap fun (path, reason) =>
    [.warning s!"keeping {path}: its source could not be analyzed", .out reason]

def deletedLines (r : CleanReport) : List Line :=
  if r.deleted.isEmpty then [.out "No orphaned files found."]
  else .heading (if r.dryRun then "Would delete" else "Deleted") :: r.deleted.map Line.item

def lines (r : CleanReport) : List Line := r.keptLines ++ r.deletedLines

end CleanReport

end FieldRules
