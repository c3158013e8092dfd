/-
Sources and their companions.  The name of a companion is that of its source with the suffix put
in front of the last dot, and so each of the two paths tells the other one.  The paths of texts are
compared part by part, as slashes and dots without meaning do not matter.
-/
import FieldRules.Proofs.Tree.Siblings
import FieldRules.Settings.Companion

namespace FieldRules.Settings

variable {s : Settings} {path other companion stem : String}

/-! The name of a source. -/

theorem fileName?_of_isSource (h : s.isSource path = true) :
    Path.fileName? path = some (Path.stem path ++ "." ++ s.extension) ∧ Path.stem path ≠ "" :=
  Path.fileName?_of_extension? (by simpa [isSource] using h)

/-- The extension of a source has no dots, since a name is split at its last one. -/
theorem dot_not_mem_extension (h : s.isSource path = true) : '.' ∉ s.extension.toList := by
  have hext : Path.extension? path = some s.extension := by simpa [isSource] using h
  obtain ⟨name, -, hsplit⟩ := Option.bind_eq_some_iff.mp hext
  exact Path.dot_not_mem_of_splitName (Prod.ext rfl hsplit)

/-- Whatever stands in front of the last dot, the path is one of a source. -/
theorem isSource_of_fileName? (hname : Path.fileName? path = some (stem ++ "." ++ s.extension))
    (hstem : stem ≠ "") (hext : '.' ∉ s.extension.toList) : s.isSource path = true := by
  rw [isSource, Path.extension?, hname, Option.bind_some, Path.splitName_append hstem hext]
  exact beq_self_eq_true _

theorem stem_of_fileName? (hname : Path.fileName? path = some (stem ++ "." ++ s.extension))
    (hstem : stem ≠ "") (hext : '.' ∉ s.extension.toList) : Path.stem path = stem := by
  rw [Path.stem, hname]
  exact congrArg Prod.fst (Path.splitName_append hstem hext)

/-! The companion of a source. -/

/-- A suffix without a slash makes a name out of that of a source. -/
theorem isName_companion (h : s.isSource path = true) (hsuffix : '/' ∉ s.outputSuffix.toList) :
    Path.IsName (Path.stem path ++ s.companionEnd) := by
  obtain ⟨hfile, hstem⟩ := fileName?_of_isSource h
  obtain ⟨hname, -⟩ := Path.fileName?_cases hfile
  by_cases hempty : s.outputSuffix = ""
  · rwa [companionEnd, hempty, String.empty_append, ← String.append_assoc]
  · have hplain := hname.1
    have hstem' := List.length_pos_iff.mpr (mt String.toList_eq_nil_iff.mp hstem)
    have hsuffix' := List.length_pos_iff.mpr (mt String.toList_eq_nil_iff.mp hempty)
    refine Path.isName_of_length ?_ ?_
    · simp_all [companionEnd]
    · simp only [companionEnd, String.toList_append, List.length_append]
      have hdot : ".".toList.length = 1 := rfl
      omega

theorem parts_outputPath (h : s.isSource path = true) (hsuffix : '/' ∉ s.outputSuffix.toList) :
    Path.parts (s.outputPath path) =
      Path.parts (Path.directory path) ++
        [PathPart.name (Path.stem path ++ s.companionEnd)] :=
  Path.parts_withFileName (fileName?_of_isSource h).1 (isName_companion h hsuffix)

theorem fileName?_outputPath (h : s.isSource path = true) (hsuffix : '/' ∉ s.outputSuffix.toList) :
    Path.fileName? (s.outputPath path) = some (Path.stem path ++ s.companionEnd) :=
  Path.fileName?_withFileName (fileName?_of_isSource h).1 (isName_companion h hsuffix)

theorem directory_outputPath (h : s.isSource path = true) (hsuffix : '/' ∉ s.outputSuffix.toList) :
    Path.directory (s.outputPath path) = Path.directory path :=
  Path.directory_withFileName (fileName?_of_isSource h).1 (isName_companion h hsuffix)

/-- A companion has the extension of sources itself. -/
theorem isSource_outputPath (h : s.isSource path = true) (hsuffix : '/' ∉ s.outputSuffix.toList) :
    s.isSource (s.outputPath path) = true := by
  have hname := fileName?_outputPath h hsuffix
  have hstem : Path.stem path ++ s.outputSuffix ≠ "" := by
    simp [String.append_eq_empty_iff, (fileName?_of_isSource h).2]
  rw [companionEnd, ← String.append_assoc, ← String.append_assoc] at hname
  exact isSource_of_fileName? hname hstem (dot_not_mem_extension h)

theorem isGeneratedName_outputPath (h : s.isSource path = true)
    (hsuffix : '/' ∉ s.outputSuffix.toList) : s.isGeneratedName (s.outputPath path) = true := by
  rw [isGeneratedName, fileName?_outputPath h hsuffix, Option.any_some, String.toList_append,
    List.isSuffixOf_iff_suffix]
  exact List.suffix_append _ _

/-- Different sources have different companions. -/
theorem parts_outputPath_inj (h : s.isSource path = true) (h' : s.isSource other = true)
    (hsuffix : '/' ∉ s.outputSuffix.toList)
    (heq : Path.parts (s.outputPath path) = Path.parts (s.outputPath other)) :
    Path.parts path = Path.parts other := by
  rw [parts_outputPath h hsuffix, parts_outputPath h' hsuffix] at heq
  obtain ⟨hdir, hlast⟩ := List.append_inj' heq (by simp)
  have hname : Path.stem path ++ s.companionEnd = Path.stem other ++ s.companionEnd :=
    PathPart.name.inj (List.singleton_inj.mp hlast)
  have hstem : Path.stem path = Path.stem other := by
    rw [← String.toList_inj, String.toList_append, String.toList_append] at hname
    exact String.toList_inj.mp (List.append_cancel_right hname)
  rw [Path.parts_of_fileName? (fileName?_of_isSource h).1,
    Path.parts_of_fileName? (fileName?_of_isSource h').1, hdir, hstem]

/-! The source of a companion. -/

theorem dropEnd?_append (front ending : List Char) :
    dropEnd? ending (front ++ ending) = some front := by
  rw [dropEnd?, if_pos (by simp)]
  simp

theorem eq_append_of_dropEnd? {front ending cs : List Char} (h : dropEnd? ending cs = some front) :
    cs = front ++ ending := by
  rw [dropEnd?] at h
  split at h
  · rename_i hends
    obtain ⟨before, rfl⟩ := List.isSuffixOf_iff_suffix.mp hends
    rw [← Option.some.inj h]
    simp
  · cases h

theorem sourcePath?_eq (hname : Path.fileName? path = some (stem ++ s.companionEnd))
    (hstem : stem ≠ "") :
    s.sourcePath? path = some (Path.withFileName path (stem ++ "." ++ s.extension)) := by
  have hdrop : dropEnd? s.companionEnd.toList (stem ++ s.companionEnd).toList =
      some stem.toList := by
    rw [String.toList_append, dropEnd?_append]
  have hne : stem.toList ≠ [] := mt String.toList_eq_nil_iff.mp hstem
  obtain ⟨c, cs, hcs⟩ := List.exists_cons_of_ne_nil hne
  have hofList : String.ofList (c :: cs) = stem := by rw [← hcs, String.ofList_toList]
  rw [sourcePath?, hname, Option.bind_some, hdrop, hcs]
  dsimp only
  rw [hofList]

/-- Only a name that ends like that of a companion, with something in front, tells a source. -/
theorem exists_stem_of_sourcePath? (h : s.sourcePath? companion = some path) :
    ∃ stem, stem ≠ "" ∧ Path.fileName? companion = some (stem ++ s.companionEnd) ∧
      path = Path.withFileName companion (stem ++ "." ++ s.extension) := by
  rw [sourcePath?] at h
  split at h
  · rename_i c cs hfront
    obtain ⟨name, hname, hdrop⟩ := Option.bind_eq_some_iff.mp hfront
    refine ⟨String.ofList (c :: cs), by simp [← String.toList_inj], ?_, (Option.some.inj h).symm⟩
    rw [hname, ← String.ofList_toList (s := name), eq_append_of_dropEnd? hdrop, String.ofList_append,
      String.ofList_toList]
  · cases h

/-- There are no companions if the suffix of their names has a slash. -/
theorem plain_of_isGeneratedName (h : s.isGeneratedName path = true) :
    '/' ∉ s.outputSuffix.toList := by
  obtain ⟨name, hname, hends⟩ := (Option.any_eq_true _ _).mp h
  obtain ⟨⟨hplain, -⟩, -⟩ := Path.fileName?_cases hname
  intro hslash
  apply hplain
  apply (List.isSuffixOf_iff_suffix.mp hends).subset
  rw [companionEnd, String.append_assoc, String.toList_append]
  exact List.mem_append_left _ hslash

/-- The companion of a source tells that source. -/
theorem sourcePath?_outputPath (h : s.isSource path = true)
    (hsuffix : '/' ∉ s.outputSuffix.toList) :
    ∃ source, s.sourcePath? (s.outputPath path) = some source ∧
      Path.parts source = Path.parts path := by
  obtain ⟨hfile, hstem⟩ := fileName?_of_isSource h
  obtain ⟨hname, -⟩ := Path.fileName?_cases hfile
  have houtput := fileName?_outputPath h hsuffix
  refine ⟨_, sourcePath?_eq houtput hstem, ?_⟩
  rw [Path.parts_withFileName houtput hname, directory_outputPath h hsuffix,
    Path.parts_of_fileName? hfile]

/-- A name without the suffix is a name too: an extension that is not empty makes it long enough,
so that it cannot be one of dots. -/
theorem isName_source (hname : Path.IsName (stem ++ s.companionEnd)) (hstem : stem ≠ "")
    (hext : s.extension ≠ "") : Path.IsName (stem ++ "." ++ s.extension) := by
  have hplain := hname.1
  have hstem' := List.length_pos_iff.mpr (mt String.toList_eq_nil_iff.mp hstem)
  have hext' := List.length_pos_iff.mpr (mt String.toList_eq_nil_iff.mp hext)
  have hdot : ".".toList.length = 1 := rfl
  refine Path.isName_of_length ?_ ?_
  · simp_all [companionEnd]
  · simp only [String.toList_append, List.length_append]
    omega

/-- The source of a path that is named like a companion has it for its companion. -/
theorem parts_outputPath_sourcePath? (hext : s.extension ≠ "") (h : s.isSource companion = true)
    (hsource : s.sourcePath? companion = some path) :
    s.isSource path = true ∧ Path.parts (s.outputPath path) = Path.parts companion := by
  obtain ⟨stem, hstem, hcompanion, rfl⟩ := exists_stem_of_sourcePath? hsource
  obtain ⟨hname, -⟩ := Path.fileName?_cases hcompanion
  have hnew := isName_source hname hstem hext
  have hdot := dot_not_mem_extension h
  have hfile := Path.fileName?_withFileName hcompanion hnew
  refine ⟨isSource_of_fileName? hfile hstem hdot, ?_⟩
  rw [outputPath, stem_of_fileName? hfile hstem hdot, Path.parts_withFileName hfile hname,
    Path.directory_withFileName hcompanion hnew, Path.parts_of_fileName? hcompanion]

/-- Sources and companions tell each other.  A companion stands in the directory of its source and
is named as a source and as a companion, no two sources have the same one, and every path that is
named like a companion is the one of the source that it tells. -/
theorem sources_and_companions (hsuffix : '/' ∉ s.outputSuffix.toList) (hext : s.extension ≠ "") :
    (∀ path, s.isSource path = true →
      Path.directory (s.outputPath path) = Path.directory path ∧
        s.isSource (s.outputPath path) = true ∧ s.isGeneratedName (s.outputPath path) = true ∧
        ∃ source, s.sourcePath? (s.outputPath path) = some source ∧
          Path.parts source = Path.parts path) ∧
    (∀ path other, s.isSource path = true → s.isSource other = true →
      Path.parts (s.outputPath path) = Path.parts (s.outputPath other) →
        Path.parts path = Path.parts other) ∧
    ∀ companion path, s.isSource companion = true → s.sourcePath? companion = some path →
      Path.parts (s.outputPath path) = Path.parts companion := by
  refine ⟨fun path h => ⟨directory_outputPath h hsuffix, isSource_outputPath h hsuffix,
    isGeneratedName_outputPath h hsuffix, sourcePath?_outputPath h hsuffix⟩, ?_, ?_⟩
  · exact fun path other h h' heq => parts_outputPath_inj h h' hsuffix heq
  · exact fun companion path h hsource => (parts_outputPath_sourcePath? hext h hsource).2

/-- A suffix with a dot, and a source that is named like a companion and starts with a dot. -/
theorem sources_and_companions_dots :
    let s : Settings := { Settings.standard with outputSuffix := ".v" }
    '/' ∉ s.outputSuffix.toList ∧ s.extension ≠ "" ∧ s.isSource "x/..v.go/." = true ∧
      s.outputPath "x/..v.go/." = "x/..v.v.go" ∧
      ∃ source, s.sourcePath? "x/..v.v.go" = some source ∧
        Path.parts source = Path.parts "x/..v.go/." := by
  intro s
  have hsuffix : '/' ∉ s.outputSuffix.toList := by decide
  have hext : s.extension ≠ "" := by decide
  have hsource : s.isSource "x/..v.go/." = true := by decide +kernel
  have houtput : s.outputPath "x/..v.go/." = "x/..v.v.go" := by decide +kernel
  obtain ⟨-, -, -, htold⟩ := (sources_and_companions hsuffix hext).1 _ hsource
  exact ⟨hsuffix, hext, hsource, houtput, houtput ▸ htold⟩

end FieldRules.Settings
