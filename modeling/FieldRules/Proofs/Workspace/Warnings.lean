/-
The warnings of reports.  A check has its results as lines and as JSON, and these do not say the
same: a file without declarations has no lines, and so the warnings about it are in the JSON only.
A generation warns about all files.
-/
import FieldRules.Proofs.Analysis.Paths
import FieldRules.Proofs.Workspace.Listing
import Mathlib

namespace FieldRules

/-! Diagnostics that are read back from JSON. -/

def Severity.ofText? (text : String) : Option Severity :=
  [Severity.error, .warning, .info].find? fun v => v.text = text

theorem Severity.ofText?_text (v : Severity) : ofText? v.text = some v := by
  cases v <;> rfl

namespace JsonValue

def member? (key : String) : JsonValue → Option JsonValue
  | object members => members.lookup key
  | _ => none

def text? : JsonValue → Option String
  | text s => some s
  | _ => none

/-- A text that can be missing. -/
def optionalText? : JsonValue → Option (Option String)
  | null => some none
  | text s => some (some s)
  | _ => none

def items? : JsonValue → Option (List JsonValue)
  | list items => some items
  | _ => none

def diagnostic? (v : JsonValue) : Option Diagnostic := do
  let severity ← Severity.ofText? (← (← v.member? "severity").text?)
  let phase ← (← v.member? "phase").text?
  let message ← (← v.member? "message").text?
  let location ← (← v.member? "location").optionalText?
  return ⟨severity, phase, message, location⟩

/-- The diagnostics of one file of a report, with its path. -/
def fileDiagnostics? (v : JsonValue) : Option (List (String × Diagnostic)) := do
  let path ← (← v.member? "path").text?
  let diagnostics ← (← (← v.member? "diagnostics").items?).mapM diagnostic?
  return diagnostics.map (path, ·)

/-- The diagnostics of a report, with the paths of the files. -/
def diagnostics? (v : JsonValue) : Option (List (String × Diagnostic)) := do
  return (← (← v.items?).mapM fileDiagnostics?).flatten

end JsonValue

section Json

/-- Items that can be read back one by one. -/
theorem mapM_map_of_some {α β γ : Type} {write : α → β} {read : β → Option γ} {result : α → γ}
    (h : ∀ a, read (write a) = some (result a)) (as : List α) :
    (as.map write).mapM read = some (as.map result) := by
  induction as with
  | nil => rfl
  | cons a as ih => simp [h, ih]

theorem Diagnostic.diagnostic?_json (d : Diagnostic) : d.json.diagnostic? = some d := by
  obtain ⟨severity, phase, message, location⟩ := d
  have hlocation : (JsonValue.ofOption .text location).optionalText? = some location := by
    cases location <;> rfl
  simp [json, JsonValue.diagnostic?, JsonValue.member?, JsonValue.text?, List.lookup,
    Severity.ofText?_text, hlocation]

theorem CheckedFile.fileDiagnostics?_json (c : CheckedFile) :
    c.json.fileDiagnostics? = some (c.diagnostics.map (c.path, ·)) := by
  have hread := mapM_map_of_some Diagnostic.diagnostic?_json c.diagnostics
  simp [json, JsonValue.fileDiagnostics?, JsonValue.member?, JsonValue.text?, JsonValue.items?,
    List.lookup, hread]

/-- The JSON of a report has the diagnostics of all files. -/
theorem CheckReport.diagnostics?_json (r : CheckReport) :
    r.json.diagnostics? = some (r.files.flatMap fun c => c.diagnostics.map (c.path, ·)) := by
  simp [json, JsonValue.diagnostics?, JsonValue.items?,
    mapM_map_of_some CheckedFile.fileDiagnostics?_json, List.flatMap]

end Json

/-! Warnings among lines. -/

/-- What a line warns about. -/
def Line.warning? : Line → Option String
  | out _ => none
  | err s => (afterMarker? "warning: ".toList s.toList).map String.ofList

/-- What there is to say about a file. -/
def CheckedFile.warnings (c : CheckedFile) : List String :=
  c.diagnostics.map fun d => c.path ++ ": " ++ d.text

section Lines

@[simp] theorem Line.warning?_warning (s : String) : (Line.warning s).warning? = some s := by
  simp [Line.warning, Line.warning?, afterMarker?]

@[simp] theorem Line.warning?_error (s : String) : (Line.error s).warning? = none := by
  simp [Line.error, Line.warning?, afterMarker?]

@[simp] theorem Line.warning?_out (s : String) : (Line.out s).warning? = none := rfl

theorem filterMap_warning {α : Type} (f : α → String) (as : List α) :
    (as.map fun a => Line.warning (f a)).filterMap Line.warning? = as.map f := by
  simp [List.filterMap_map]

theorem filterMap_flatMap_eq_nil {α : Type} {f : α → List Line}
    (h : ∀ a, (f a).filterMap Line.warning? = []) (as : List α) :
    (as.flatMap f).filterMap Line.warning? = [] := by
  rw [List.filterMap_flatMap, List.flatMap_eq_nil_iff]
  exact fun a _ => h a

theorem Declaration.warnings_lines (d : Declaration) : d.lines.filterMap Line.warning? = [] := by
  rw [lines]
  cases d.body with
  | record fields => simp [Line.item, Line.detail]
  | enumeration e => rfl

/-- A file without declarations has no lines, and so no warnings. -/
theorem CheckedFile.warnings_lines (c : CheckedFile) :
    c.lines.filterMap Line.warning? = if c.declarations = [] then [] else c.warnings := by
  obtain ⟨path, result⟩ := c
  cases result with
  | error message => simp [lines, declarations]
  | ok a =>
      have hdecls := filterMap_flatMap_eq_nil Declaration.warnings_lines a.file.declarations
      have hwarnings := filterMap_warning (fun d => path ++ ": " ++ d.text) a.diagnostics
      by_cases hempty : a.file.declarations = []
      · simp [lines, declarations, hempty]
      · simp only [lines, declarations, List.isEmpty_iff, hempty, ↓reduceIte]
        rw [List.filterMap_append, List.cons_append, List.filterMap_cons, List.filterMap_append,
          hdecls, hwarnings]
        simp [Line.heading, Line.blank, warnings, diagnostics]

/-- The warnings of a check are about files with declarations. -/
theorem CheckReport.warnings_lines (r : CheckReport) :
    r.lines.filterMap Line.warning? =
      r.files.flatMap fun c => if c.declarations = [] then [] else c.warnings := by
  rw [lines, List.filterMap_append, List.filterMap_flatMap]
  simp only [CheckedFile.warnings_lines]
  exact List.append_nil _

/-- Parts of lists make up the whole lists if each is the whole list already. -/
theorem flatMap_eq_flatMap_iff {α β : Type} {f g : α → List β} (h : ∀ a, (f a).Sublist (g a))
    (as : List α) : as.flatMap f = as.flatMap g ↔ ∀ a ∈ as, f a = g a := by
  constructor
  · intro heq
    induction as with
    | nil => exact fun a ha => absurd ha List.not_mem_nil
    | cons a as ih =>
        have hfirst := (h a).length_le
        have hrest := (List.Sublist.flatMap_right as fun b _ => h b).length_le
        have hlength := congrArg List.length heq
        rw [List.flatMap_cons, List.flatMap_cons, List.length_append, List.length_append] at hlength
        obtain ⟨hsame, hsame'⟩ := List.append_inj heq (by omega)
        exact List.forall_mem_cons.mpr ⟨hsame, ih hsame'⟩
  · exact fun hall => List.flatMap_congr hall

/-- A check warns about every diagnostic that its JSON has, one after the other, if no file
without declarations has one.  Otherwise the warnings about those files are missing. -/
theorem CheckReport.warnings_eq_iff (r : CheckReport) :
    let warned := r.lines.filterMap Line.warning?
    warned = (r.files.flatMap fun c => if c.declarations = [] then [] else c.warnings) ∧
      ∃ listed, r.json.diagnostics? = some listed ∧
        listed = (r.files.flatMap fun c => c.diagnostics.map (c.path, ·)) ∧
        warned.Sublist (listed.map fun (path, d) => path ++ ": " ++ d.text) ∧
        (warned = listed.map (fun (path, d) => path ++ ": " ++ d.text) ↔
          ∀ c ∈ r.files, c.declarations = [] → c.diagnostics = []) := by
  intro warned
  have hwarned : warned = r.files.flatMap fun c => if c.declarations = [] then [] else c.warnings :=
    r.warnings_lines
  have hlisted : (r.files.flatMap fun c => c.diagnostics.map (c.path, ·)).map
      (fun (path, d) => path ++ ": " ++ d.text) = r.files.flatMap CheckedFile.warnings := by
    rw [List.map_flatMap]
    exact List.flatMap_congr fun c _ => List.map_map
  have hpart : ∀ c : CheckedFile,
      (if c.declarations = [] then [] else c.warnings).Sublist c.warnings := by
    intro c
    split
    · exact List.nil_sublist _
    · exact List.Sublist.refl _
  refine ⟨hwarned, _, r.diagnostics?_json, rfl, ?_⟩
  rw [hlisted, hwarned, flatMap_eq_flatMap_iff hpart]
  refine ⟨List.Sublist.flatMap_right _ fun c _ => hpart c, forall₂_congr fun c _ => ?_⟩
  rw [ite_eq_right_iff]
  exact imp_congr_right fun _ => eq_comm.trans List.map_eq_nil_iff

/-- A generation warns about every file. -/
theorem GenerateReport.warnings_lines (r : GenerateReport) :
    r.lines.filterMap Line.warning? =
      r.files.flatMap fun file => file.warnings.map fun w => file.path ++ ": " ++ w := by
  have hfailures : ∀ file : FileReport, file.failureLines.filterMap Line.warning? = [] := by
    intro file
    rw [FileReport.failureLines]
    cases file.status <;> simp
  have hwarnings : ∀ file : FileReport, file.warningLines.filterMap Line.warning? =
      file.warnings.map fun w => file.path ++ ": " ++ w := fun file => filterMap_warning _ _
  have hpreviews : r.previewLines.filterMap Line.warning? = [] := by
    rw [previewLines, List.filterMap_append, filterMap_flatMap_eq_nil fun _ => rfl]
    rfl
  have hwritten : r.writtenLines.filterMap Line.warning? = [] := by
    have hadded : ∀ written : List String,
        (written.map Line.added).filterMap Line.warning? = [] := by
      simp [Line.added]
    rw [writtenLines, List.filterMap_append]
    split
    · rfl
    · rw [List.filterMap_append, List.filterMap_cons, hadded]
      rfl
  rw [lines, List.filterMap_append, List.filterMap_append, List.filterMap_flatMap,
    filterMap_flatMap_eq_nil hfailures]
  simp only [hwarnings]
  cases r.dryRun <;> simp [hpreviews, hwritten]

end Lines

/-! A file without declarations that there is something to say about. -/

namespace Workspace

/-- A source with an annotation on a declaration that cannot be validated. -/
def genericText : String := "package v1\n\n// +generate:validate\ntype T[X any] struct\x7b\x7d\n"

def genericFiles : FileSystem where
  root := .file "w.go" (.text genericText) .empty
  here := []

def genericWarning : Diagnostic :=
  .warningAt "index" "T" "'T' has type parameters; no validation generated"

theorem exists_analyzeFile_genericFiles :
    ∃ a, analyzeFile .standard genericFiles "./w.go" = .ok a ∧ a.file.declarations = [] ∧
      a.diagnostics = [genericWarning] := by
  have hany : (analyze "./w.go" genericText .standard .builtin).toOption.any (fun a =>
      a.file.declarations.isEmpty && decide (a.diagnostics = [genericWarning])) = true := by
    cbv
  obtain ⟨a, ha, hfound⟩ := exists_ok_of_any hany
  have hread : genericFiles.readText "./w.go" = .ok genericText := by decide +kernel
  exact ⟨a, analyzeFile_eq_ok_iff.mpr ⟨genericText, hread, ha⟩, by simpa using hfound⟩

theorem sources_genericFiles :
    sources .standard genericFiles "." = .ok [⟨"./w.go", .text genericText⟩] := by
  decide +kernel

/-- The check of the file ends without a warning, although its JSON has one and a generation shows
it. -/
theorem check_genericFiles :
    ∃ r, check .standard genericFiles "." = .ok r ∧ r.isValid = true ∧
      r.lines = [.out "✓ 1 files checked, 0 annotated declarations"] ∧
      r.json.diagnostics? = some [("w.go", genericWarning)] ∧
      ∃ g report, generate true true .standard genericFiles "." = .ok (g, report) ∧
        report.lines.filterMap Line.warning? =
          ["w.go: T: 'T' has type parameters; no validation generated"] := by
  obtain ⟨a, ha, hdecls, hdiagnostics⟩ := exists_analyzeFile_genericFiles
  have hshown : displayPath genericFiles "." "./w.go" = "w.go" := by decide +kernel
  have hfile : checkFile .standard genericFiles "." "./w.go" = ⟨"w.go", .ok a⟩ := by
    rw [checkFile, hshown, ha]
  refine ⟨⟨[⟨"w.go", .ok a⟩]⟩, ?_, ?_, ?_, ?_, ?_⟩
  · rw [check_eq (by decide) sources_genericFiles, List.map_singleton, hfile]
  · rfl
  · have hnone : CheckedFile.declarations ⟨"w.go", .ok a⟩ = [] := hdecls
    have hlines : CheckedFile.lines ⟨"w.go", .ok a⟩ = [] := by simp [CheckedFile.lines, hdecls]
    have htext : s!"✓ {1} files checked, {0} annotated declarations" =
        "✓ 1 files checked, 0 annotated declarations" := by decide +kernel
    simpa [CheckReport.lines, CheckReport.verdict, CheckedFile.failed, hlines, hnone] using htext
  · rw [CheckReport.diagnostics?_json]
    simp [CheckedFile.diagnostics, hdiagnostics]
  · refine ⟨genericFiles, ⟨true, [⟨"w.go", .noAnnotations, warningTexts a⟩]⟩, ?_, ?_⟩
    · have hempty : a.file.isEmpty = true := by rw [AnnotatedFile.isEmpty, hdecls]; rfl
      rw [generate, sources_genericFiles, ok_bind]
      simp [generateInTurn, generateFile, ha, finish, emit_eq, hempty, hshown, warningTexts]
    · rw [GenerateReport.warnings_lines]
      simp [warningTexts, hdiagnostics, genericWarning, Diagnostic.warningAt, Diagnostic.text]

end Workspace

end FieldRules
