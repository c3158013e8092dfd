/-
Descriptions of the rules, and of what a run over a root does.
-/
import FieldRules.Analysis.Session
import FieldRules.Report.Line

namespace FieldRules.Workspace

/-- A kind of rules with its parameters. -/
def ruleLines (i : RuleInfo) : List Line :=
  .heading (i.name ++ " - " ++ i.summary) ::
    i.params.map fun p => .setting s!"{p.name} ({p.kind.describe})" p.description

/-- All kinds of rules, and how a directive is written. -/
def rulesOverview (c : Catalogue) : List Line :=
  ((c.infos.map ruleLines).intersperse [.blank]).flatten ++
    [.blank, .out "Usage: // +validate(rule(key=value, ...)) or // +validate(skip)"]

def listing (names : List String) : String :=
  if names.isEmpty then "(none)" else ", ".intercalate names

/-- A text, underlined. -/
def titleLines (s : String) : List Line :=
  [.out s, .out (String.ofList (List.replicate s.length '='))]

/-- A numbered list. -/
def numberedLines (texts : List String) : List Line :=
  texts.zipIdx.map fun (text, i) => .out s!"  {i + 1}. {text}"

/-- What a run over a root does with these settings. -/
def overview (s : Settings) (c : Catalogue) (root : String) : List Line :=
  titleLines "valgen pipeline" ++
    [.blank, .out ("Input: " ++ root), .setting "Type marker" s.typeMarker,
      .setting "Field marker" s.fieldMarker,
      .setting "Output" s!"<name>{s.outputSuffix}.{s.extension}",
      .setting "Skipped directories" (listing s.skipDirs),
      .setting "Ignored packages" (listing s.ignorePackages), .blank,
      .heading "Pipeline Phases"] ++
    numberedLines (builtinPhases.map fun p => p.name ++ " - " ++ p.description) ++
    [.blank, .heading "Lints"] ++
    builtinLints.map (fun l => .item (l.name ++ ": " ++ l.description)) ++
    [.blank, .heading "Rules"] ++
    c.infos.map fun i => .item (i.name ++ ": " ++ i.summary)

end FieldRules.Workspace
