/-
How companions are recognised.  The header is written as it is and read back as the first line
without the blanks at its end, so the two agree exactly if the header is such a line.
-/
import FieldRules.Proofs.Text.Cutting
import FieldRules.Proofs.Workspace.Writing
import FieldRules.Workspace.Discovery

namespace FieldRules

open FileSystem (isPathTooLong)

namespace Settings

/-- The header is one line, without blanks at its end. -/
def HeaderIsLine (s : Settings) : Prop :=
  '\n' ∉ s.header.toList ∧ trimEnd s.header.toList = s.header.toList

instance (s : Settings) : Decidable s.HeaderIsLine := inferInstanceAs (Decidable (_ ∧ _))

theorem hasHeader_iff {s : Settings} {text : String} :
    s.hasHeader text = true ↔
      text.toList ≠ [] ∧ trimEnd (text.toList.takeWhile (· ≠ '\n')) = s.header.toList := by
  rw [hasHeader, firstLine?]
  split
  · rename_i hnil
    simp [hnil]
  · rename_i hne
    rw [beq_iff_eq, Option.some.injEq, ← String.toList_inj, String.toList_ofList]
    exact ⟨fun h => ⟨fun hnil => hne hnil, h⟩, fun h => h.2⟩

theorem mem_of_mem_trimEnd {cs : List Char} {c : Char} (h : c ∈ trimEnd cs) : c ∈ cs := by
  obtain ⟨ends, hcs, -⟩ := exists_dropEndWhile_append isBlank cs
  rw [← hcs]
  exact List.mem_append_left ends h

/-- A text with the header on its first line begins with it, as the reader sees it. -/
theorem hasHeader_append_iff (s : Settings) (rest : String) :
    s.hasHeader (s.header ++ "\n" ++ rest) = true ↔ s.HeaderIsLine := by
  have hlist : (s.header ++ "\n" ++ rest).toList = s.header.toList ++ '\n' :: rest.toList := by
    simp
  have hstop : ∀ c ∈ ('\n' :: rest.toList).head?, decide (c ≠ '\n') = false := by simp
  have hfirst : '\n' ∉ s.header.toList →
      (s.header.toList ++ '\n' :: rest.toList).takeWhile (· ≠ '\n') = s.header.toList := by
    intro hplain
    refine takeWhile_append_stop _ (fun c hc => ?_) hstop
    exact decide_eq_true fun e => hplain (e ▸ hc)
  rw [hasHeader_iff, hlist]
  constructor
  · rintro ⟨-, htrim⟩
    have hplain : '\n' ∉ s.header.toList := by
      intro hmem
      rw [← htrim] at hmem
      simpa using List.mem_takeWhile_imp (mem_of_mem_trimEnd hmem)
    rw [hfirst hplain] at htrim
    exact ⟨hplain, htrim⟩
  · rintro ⟨hplain, htrim⟩
    exact ⟨by simp, by rw [hfirst hplain, htrim]⟩

end Settings

namespace Workspace

theorem hasHeader_companionText (s : Settings) (file : AnnotatedFile) :
    s.hasHeader (companionText s file) = true ↔ s.HeaderIsLine := by
  obtain ⟨rest, hrest⟩ := companionText_eq s file
  rw [hrest]
  exact s.hasHeader_append_iff rest

/-- Companions are recognised, by the reader and by discovery, exactly if the header is one line
without blanks at its end. -/
theorem recognised_companionText_iff (s : Settings) (file : AnnotatedFile) :
    (s.hasHeader (companionText s file) = true ↔ s.HeaderIsLine) ∧
      ∀ path, s.marksGenerated ⟨path, .text (companionText s file)⟩ = true ↔
        isPathTooLong path = false ∧ s.HeaderIsLine := by
  refine ⟨hasHeader_companionText s file, fun path => ?_⟩
  rw [Settings.marksGenerated, Found.text?]
  cases hlong : isPathTooLong path with
  | true => simp
  | false => simpa [Content.text?] using hasHeader_companionText s file

/-- A header with a blank at its end. -/
def blankEnd : Settings :=
  { Settings.standard with header := "// Code generated by valgen. DO NOT EDIT. " }

/-- A file with one record that has no fields. -/
def bareRecord : AnnotatedFile := ⟨"./a.go", "v1", [⟨"A", .record []⟩]⟩

/-- A companion that begins with such a header is not recognised. -/
theorem not_recognised_blankEnd :
    blankEnd.header.toList <+: (companionText blankEnd bareRecord).toList ∧
      blankEnd.hasHeader (companionText blankEnd bareRecord) = false ∧
      blankEnd.marksGenerated ⟨"./a_validate.go", .text (companionText blankEnd bareRecord)⟩ =
        false := by
  decide +kernel

end Workspace

end FieldRules
