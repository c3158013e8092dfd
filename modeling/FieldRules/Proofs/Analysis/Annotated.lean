/-
No annotated type is lost: each has a declaration or a warning, and every value of such a type
that a method validates has a method of its own.
-/
import Mathlib
import FieldRules.Proofs.Analysis.Indexing
import FieldRules.Proofs.Analysis.Origins
import FieldRules.Proofs.Analysis.Phases
import FieldRules.Code.Lowering

namespace FieldRules

/-! What is collected for a type. -/

def Declaration.kind (d : Declaration) : DeclKind :=
  match d.body with
  | .record _ => .record
  | .enumeration e => .enumeration e.base

def Declaration.entry (d : Declaration) : String × DeclKind := (d.name, d.kind)

/-- The fields of a record are nested where the index or the settings say so. -/
def Declaration.Classified (input : AnalysisInput) (d : Declaration) : Prop :=
  ∀ fields, d.body = .record fields → ∀ f ∈ fields,
    f.nested = f.shape.isNested input.index input.settings.ignorePackages

section Collection

variable {input : AnalysisInput} {constants : List ConstDecl} {s : TypeSpec}
  {specs : List TypeSpec}

theorem phase_of_mem_allowedValues {name : String} {d : Diagnostic}
    (h : d ∈ (allowedValues name constants).2) : d.phase = "collect" := by
  obtain ⟨finding, -, hfinding⟩ := List.mem_filterMap.mp h
  cases finding with
  | value l => cases hfinding
  | unknown constant text =>
      cases hfinding
      rfl

/-- What the collection of one type has to do with its entry in the index. -/
theorem collectSpec_of_indexed (hindex : input.index.get? s.name.name = s.kind.toOption)
    {found : Option Declaration} (h : (collectSpec input constants s).result = .ok found) :
    found.map Declaration.entry = s.entry? ∧ (∀ d ∈ found, d.Classified input) ∧
      ∀ d ∈ (collectSpec input constants s).diagnostics, d.phase = "collect" := by
  unfold collectSpec at h ⊢
  unfold TypeSpec.entry?
  dsimp only at h ⊢
  cases hkind : s.kind with
  | error reason =>
      rw [hindex, hkind] at h ⊢
      cases h
      exact ⟨rfl, by simp, List.forall_mem_nil _⟩
  | ok kind =>
      rw [hindex, hkind] at h ⊢
      cases TypeSpec.kind_eq_ok_iff.mp hkind with
      | record _ _ htype =>
          rw [htype] at h ⊢
          dsimp only [Except.toOption] at h ⊢
          cases hfields : recordFields input s.name.name _ with
          | error e =>
              rw [hfields] at h
              cases h
          | ok fields =>
              rw [hfields] at h
              cases h
              refine ⟨rfl, ?_, List.forall_mem_nil _⟩
              intro d hd
              cases hd
              intro fields' hbody
              cases hbody
              intro f hf
              obtain ⟨line, -, hstands⟩ := exists_line_of_mem_recordFields hfields f hf
              exact hstands.nested
      | enumeration =>
          cases h
          refine ⟨rfl, ?_, fun d => phase_of_mem_allowedValues⟩
          intro d hd
          cases hd
          simp [Declaration.Classified]

theorem collectSpecs_of_indexed
    (hindex : ∀ s ∈ specs, input.index.get? s.name.name = s.kind.toOption)
    {declarations : List Declaration}
    (h : (collectSpecs input constants specs).result = .ok declarations) :
    declarations.map Declaration.entry = specs.filterMap TypeSpec.entry? ∧
      (∀ d ∈ declarations, d.Classified input) ∧
      ∀ d ∈ (collectSpecs input constants specs).diagnostics, d.phase = "collect" := by
  induction specs generalizing declarations with
  | nil =>
      cases h
      exact ⟨rfl, List.forall_mem_nil _, List.forall_mem_nil _⟩
  | cons s rest ih =>
      obtain ⟨hs, hrest⟩ := List.forall_mem_cons.mp hindex
      unfold collectSpecs at h ⊢
      dsimp only at h ⊢
      cases hone : (collectSpec input constants s).result with
      | error e =>
          rw [hone] at h
          cases h
      | ok found =>
          rw [hone] at h
          dsimp only at h ⊢
          cases hmore : (collectSpecs input constants rest).result with
          | error e =>
              rw [hmore] at h
              cases h
          | ok more =>
              rw [hmore] at h
              cases h
              obtain ⟨hentry, hclassified, hphase⟩ := collectSpec_of_indexed hs hone
              obtain ⟨hentries, hallClassified, hphases⟩ := ih hrest hmore
              refine ⟨?_, ?_, List.forall_mem_append.mpr ⟨hphase, hphases⟩⟩
              · rw [List.map_append, hentries, List.filterMap_cons, ← hentry]
                cases found <;> rfl
              · refine List.forall_mem_append.mpr ⟨?_, hallClassified⟩
                simpa using hclassified

end Collection

/-! Lints. -/

theorem phase_of_mem_checkFields {ask : String → Field → List Diagnostic} {file : AnnotatedFile}
    (hask : ∀ record f, ∀ d ∈ ask record f, d.phase = "lint") {d : Diagnostic}
    (h : d ∈ checkFields ask file) : d.phase = "lint" := by
  obtain ⟨⟨name, fields⟩, -, hrecord⟩ := List.mem_flatMap.mp h
  obtain ⟨f, -, hf⟩ := List.mem_flatMap.mp hrecord
  exact hask name f d hf

theorem phase_of_mem_lints {file : AnnotatedFile} {d : Diagnostic}
    (h : d ∈ builtinLints.flatMap fun l => l.check file) : d.phase = "lint" := by
  simp only [builtinLints, List.flatMap_cons, List.flatMap_nil, List.append_nil,
    List.mem_append] at h
  rcases h with h | h | h
  · refine phase_of_mem_checkFields ?_ h
    intro record f d hd
    simp only [contradictions, List.mem_append, List.mem_ite_nil_right, List.mem_singleton] at hd
    rcases hd with ⟨-, rfl⟩ | ⟨-, rfl⟩ <;> rfl
  · refine phase_of_mem_checkFields ?_ h
    intro record f d hd
    unfold targetComplaints at hd
    dsimp only at hd
    split at hd
    · cases hd
    · obtain ⟨complaint, -, rfl⟩ := List.mem_map.mp hd
      rfl
  · obtain ⟨e, -, rfl⟩ := List.mem_map.mp h
    rfl

/-! Methods. -/

namespace Declaration

def enumerationMethod? (d : Declaration) : Option Method :=
  match d.body with
  | .record _ => none
  | .enumeration e => some (e.lower d.name)

def recordMethod? (d : Declaration) : Option Method :=
  match d.body with
  | .record fields => some (lowerRecord d.name fields)
  | .enumeration _ => none

theorem receiver_of_enumerationMethod? (d : Declaration) (m : Method)
    (h : d.enumerationMethod? = some m) : m.receiver = d.name := by
  unfold enumerationMethod? at h
  split at h
  · cases h
  · cases h
    rfl

theorem receiver_of_recordMethod? (d : Declaration) (m : Method)
    (h : d.recordMethod? = some m) : m.receiver = d.name := by
  unfold recordMethod? at h
  split at h
  · cases h
    rfl
  · cases h

/-- A declaration has one method, named `Validate`. -/
theorem exists_method (d : Declaration) :
    ∃ m, d.enumerationMethod?.toList ++ d.recordMethod?.toList = [m] ∧ m.name = "Validate" := by
  unfold enumerationMethod? recordMethod?
  cases d.body with
  | record fields => exact ⟨_, rfl, rfl⟩
  | enumeration e => exact ⟨_, rfl, rfl⟩

end Declaration

theorem methods_lower (file : AnnotatedFile) (header : String) :
    (file.lower header).methods = file.declarations.filterMap Declaration.enumerationMethod? ++
      file.declarations.filterMap Declaration.recordMethod? := by
  unfold AnnotatedFile.lower AnnotatedFile.enumerations AnnotatedFile.records
  dsimp only
  rw [List.map_filterMap, List.map_filterMap]
  congr 2
  · funext d
    unfold Declaration.enumerationMethod?
    cases d.body <;> rfl
  · funext d
    unfold Declaration.recordMethod?
    cases d.body <;> rfl

/-- Each declaration has one method, if their names differ. -/
theorem exists_method_of_mem {file : AnnotatedFile} (header : String)
    (hnodup : (file.declarations.map Declaration.name).Nodup) {d : Declaration}
    (hd : d ∈ file.declarations) :
    ∃ m, (file.lower header).methods.filter (fun m => m.receiver = d.name) = [m] ∧
      m.name = "Validate" := by
  rw [methods_lower, List.filter_append,
    filter_key_filterMap hnodup Declaration.receiver_of_enumerationMethod? hd,
    filter_key_filterMap hnodup Declaration.receiver_of_recordMethod? hd]
  exact d.exists_method

/-! The account of a file. -/

/-- The type stands in the file, and the marker stands above it or above its group. -/
def IsAnnotated (marker : String) (f : SourceFile) (s : TypeSpec) : Prop :=
  ∃ d ∈ f.typeDecls, s ∈ d.specs ∧
    ((∃ g ∈ d.doc, ∃ c ∈ g.comments, c.body = marker) ∨
      ∃ g ∈ s.doc, ∃ c ∈ g.comments, c.body = marker)

theorem mem_annotatedSpecs {marker : String} {f : SourceFile} {s : TypeSpec} :
    s ∈ annotatedSpecs marker f ↔ IsAnnotated marker f s := by
  simp [annotatedSpecs, IsAnnotated, CommentGroup.hasLine_iff, Option.any_eq_true]

theorem annotatedSpecs_sublist (marker : String) (f : SourceFile) :
    (annotatedSpecs marker f).Sublist (f.typeDecls.flatMap TypeDecl.specs) := by
  unfold annotatedSpecs
  dsimp only
  induction f.typeDecls with
  | nil => exact List.Sublist.refl _
  | cons d rest ih =>
      rw [List.flatMap_cons, List.flatMap_cons]
      exact List.filter_sublist.append ih

/-- What entries come from, in order. -/
theorem exists_sublist_of_entries {specs : List TypeSpec} {declarations : List Declaration}
    (h : declarations.map Declaration.entry = specs.filterMap TypeSpec.entry?) :
    ∃ declared, declared.Sublist specs ∧
      List.Forall₂ (fun d s => s ∈ specs ∧ s.entry? = some d.entry) declarations declared := by
  induction specs generalizing declarations with
  | nil =>
      obtain rfl := List.map_eq_nil_iff.mp h
      exact ⟨[], List.Sublist.refl _, .nil⟩
  | cons s rest ih =>
      have hlater : ∀ d u, (u ∈ rest ∧ u.entry? = some (Declaration.entry d)) →
          u ∈ s :: rest ∧ u.entry? = some d.entry :=
        fun _ _ hu => ⟨List.mem_cons_of_mem s hu.1, hu.2⟩
      cases hentry : s.entry? with
      | none =>
          rw [List.filterMap_cons_none hentry] at h
          obtain ⟨declared, hsublist, hall⟩ := ih h
          exact ⟨declared, hsublist.cons s, hall.imp hlater⟩
      | some e =>
          rw [List.filterMap_cons_some hentry] at h
          obtain ⟨d, more, rfl, hd, hmore⟩ := List.map_eq_cons_iff.mp h
          obtain ⟨declared, hsublist, hall⟩ := ih hmore
          exact ⟨s :: declared, hsublist.cons_cons s,
            .cons ⟨List.mem_cons_self, hd ▸ hentry⟩ (hall.imp hlater)⟩

/-- What an analysis owes to the annotated types of a file and to the code that calls their
methods. -/
structure AnalyzedFile.Accounts (a : AnalyzedFile) (marker : String) (f : SourceFile) : Prop where
  /-- A type that is supported has one declaration, of its kind, and no warning. -/
  declared : ∀ s k, IsAnnotated marker f s → s.Declares k →
    (∃ d, a.file.declarations.filter (fun d => d.name = s.name.name) = [d] ∧ d.kind = k) ∧
      a.diagnostics.filter (fun d => d.phase = "index" ∧ d.location = some s.name.name) = []
  /-- Any other has one warning, and no declaration. -/
  reported : ∀ s, IsAnnotated marker f s → (∀ k, ¬ s.Declares k) →
    a.file.declarations.filter (fun d => d.name = s.name.name) = [] ∧
      ∃ d, a.diagnostics.filter
          (fun d => d.phase = "index" ∧ d.location = some s.name.name) = [d] ∧
        d.severity = .warning
  indexed : a.file.declarations.map Declaration.entry = (DeclIndex.ofFile marker f).1.entries
  /-- Declarations come from types of the file, in their order. -/
  ordered : ∃ specs, specs.Sublist (f.typeDecls.flatMap TypeDecl.specs) ∧
    List.Forall₂ (fun d s => IsAnnotated marker f s ∧ d.name = s.name.name ∧ s.Declares d.kind)
      a.file.declarations specs
  /-- The method that is called for a nested field of a type of this file is there once. -/
  called : ∀ header, ∀ d ∈ a.file.declarations, ∀ fields, d.body = .record fields →
    ∀ field ∈ fields, field.nested = true → ∀ name, field.shape.leaf = .named name →
    ∃ m, (a.file.lower header).methods.filter (fun m => m.receiver = name) = [m] ∧
      m.name = "Validate"

section Account

variable {specs : List TypeSpec} {declarations : List Declaration} {s : TypeSpec}

/-- The declarations of a type's name are as many as its entries. -/
theorem entries_of_mem (hnodup : (specs.map fun s => s.name.name).Nodup) (hs : s ∈ specs)
    (hentries : declarations.map Declaration.entry = specs.filterMap TypeSpec.entry?) :
    (declarations.filter fun d => d.name = s.name.name).map Declaration.entry =
      s.entry?.toList := by
  rw [← filter_key_filterMap hnodup (fun _ _ => TypeSpec.fst_of_entry?) hs, ← hentries,
    List.filter_map]
  rfl

/-- The warnings at a type's name are its own. -/
theorem warnings_of_mem (hnodup : (specs.map fun s => s.name.name).Nodup) (hs : s ∈ specs)
    {others : List Diagnostic} (hothers : ∀ d ∈ others, d.phase ≠ "index") :
    (specs.filterMap TypeSpec.warning? ++ others).filter
        (fun d => d.phase = "index" ∧ d.location = some s.name.name) = s.warning?.toList := by
  have hlocations : (specs.map fun s => some s.name.name).Nodup :=
    List.map_map ▸ hnodup.map (Option.some_injective String)
  have hown := filter_key_filterMap hlocations
    (fun s d (hwarning : s.warning? = some d) => (TypeSpec.of_warning? hwarning).2.2) hs
  have hrest : others.filter
      (fun d => d.phase = "index" ∧ d.location = some s.name.name) = [] :=
    List.filter_eq_nil_iff.mpr fun d hd => by simp [hothers d hd]
  rw [List.filter_append, hrest, List.append_nil, ← hown]
  refine List.filter_congr fun d hd => ?_
  obtain ⟨u, -, hwarning⟩ := List.mem_filterMap.mp hd
  simp [(TypeSpec.of_warning? hwarning).2.1]

theorem nodup_names (hnodup : (specs.map fun s => s.name.name).Nodup)
    (hentries : declarations.map Declaration.entry = specs.filterMap TypeSpec.entry?) :
    (declarations.map Declaration.name).Nodup := by
  have hnames : declarations.map Declaration.name =
      (specs.filterMap TypeSpec.entry?).map Prod.fst := by
    rw [← hentries, List.map_map]
    rfl
  rw [hnames]
  exact hnodup.sublist (sublist_map_filterMap (fun _ _ => TypeSpec.fst_of_entry?) specs)

/-- A name of the index is the name of a declaration. -/
theorem exists_of_contains {index : DeclIndex} {name : String}
    (hentries : declarations.map Declaration.entry = index.entries)
    (h : index.contains name = true) : ∃ d ∈ declarations, d.name = name := by
  rw [DeclIndex.contains, DeclIndex.get?, Option.isSome_map, List.find?_isSome] at h
  obtain ⟨e, he, hname⟩ := h
  rw [← hentries] at he
  obtain ⟨d, hd, rfl⟩ := List.mem_map.mp he
  exact ⟨d, hd, beq_iff_eq.mp hname⟩

end Account

/-- No annotated type is lost, and no call of a method of such a type lacks its method. -/
theorem accounts_of_analyze {path text : String} {settings : Settings} {catalogue : Catalogue}
    {tree : SourceFile} {a : AnalyzedFile} (htree : parseSource text = .ok tree)
    (h : analyze path text settings catalogue = .ok a)
    (hnodup : ((annotatedSpecs settings.typeMarker tree).map fun s => s.name.name).Nodup) :
    a.Accounts settings.typeMarker tree := by
  obtain ⟨tree', declarations, htree', hresult, hfile, hdiagnostics⟩ := exists_of_analyze h
  obtain rfl : tree = tree' := Except.ok.inj (htree.symm.trans htree')
  have hindex : DeclIndex.ofFile settings.typeMarker tree =
      (⟨(annotatedSpecs settings.typeMarker tree).filterMap TypeSpec.entry?⟩,
        (annotatedSpecs settings.typeMarker tree).filterMap TypeSpec.warning?) :=
    DeclIndex.addSpecs_of_nodup hnodup (by simp [DeclIndex.empty])
  obtain ⟨hentries, hclassified, hphases⟩ := collectSpecs_of_indexed
    (fun s hs => by rw [hindex]; exact DeclIndex.get?_of_mem hnodup hs) hresult
  have hdeclarations : a.file.declarations = declarations := by rw [hfile]
  have hwarnings : ∀ s, IsAnnotated settings.typeMarker tree s →
      a.diagnostics.filter (fun d => d.phase = "index" ∧ d.location = some s.name.name) =
        s.warning?.toList := by
    intro s hs
    rw [hdiagnostics, hindex, List.append_assoc]
    refine warnings_of_mem hnodup (mem_annotatedSpecs.mpr hs) ?_
    refine List.forall_mem_append.mpr ⟨fun d hd => ?_, fun d hd => ?_⟩
    · rw [hphases d (hindex ▸ hd)]
      decide
    · rw [phase_of_mem_lints hd]
      decide
  rw [← hdeclarations] at hentries hclassified
  have hnames := nodup_names hnodup hentries
  constructor
  case declared =>
    intro s k hs hk
    have hkind := TypeSpec.kind_eq_ok_iff.mpr hk
    have hown := entries_of_mem hnodup (mem_annotatedSpecs.mpr hs) hentries
    rw [TypeSpec.entry?, hkind] at hown
    obtain ⟨d, hfilter, hentry⟩ := List.map_eq_singleton_iff.mp hown
    refine ⟨⟨d, hfilter, congrArg Prod.snd hentry⟩, ?_⟩
    rw [hwarnings s hs, TypeSpec.warning?, hkind]
    rfl
  case reported =>
    intro s hs hnone
    cases hkind : s.kind with
    | ok k => exact absurd (TypeSpec.kind_eq_ok_iff.mp hkind) (hnone k)
    | error reason =>
        have hown := entries_of_mem hnodup (mem_annotatedSpecs.mpr hs) hentries
        rw [TypeSpec.entry?, hkind] at hown
        refine ⟨List.map_eq_nil_iff.mp hown, DeclIndex.unsupported s.name.name reason, ?_, rfl⟩
        rw [hwarnings s hs, TypeSpec.warning?, hkind]
        rfl
  case indexed => rw [hentries, hindex]
  case ordered =>
    obtain ⟨specs, hsublist, hall⟩ := exists_sublist_of_entries hentries
    refine ⟨specs, hsublist.trans (annotatedSpecs_sublist _ _), hall.imp ?_⟩
    rintro d s ⟨hs, hentry⟩
    obtain ⟨k, hkind, hk⟩ := Option.map_eq_some_iff.mp hentry
    obtain ⟨hname, rfl⟩ := Prod.mk.inj hk
    refine ⟨mem_annotatedSpecs.mp hs, hname.symm, TypeSpec.kind_eq_ok_iff.mp ?_⟩
    cases hs : s.kind <;> rw [hs] at hkind <;> cases hkind
    rfl
  case called =>
    intro header d hd fields hbody field hfield hnested name hleaf
    have hcontains := hclassified d hd fields hbody field hfield
    rw [hnested, Shape.isNested, hleaf] at hcontains
    obtain ⟨target, htarget, rfl⟩ :=
      exists_of_contains (by rw [hentries, hindex]) hcontains.symm
    exact exists_method_of_mem header hnames htarget

/-- A group of a record with a nested field, an enumeration and a type that is not supported. -/
def accountedText : String :=
  "package v1\n\n// +generate:validate\ntype (\n\tA struct{ B K }\n\tK int\n\tM []K\n)\n"

def accountedTree : SourceFile where
  package := ⟨"v1", ⟨8, 10⟩⟩
  decls := [.type ⟨some ⟨[⟨"// +generate:validate", ⟨12, 33⟩⟩], 3, 3, false⟩, true,
    [⟨none, ⟨"A", ⟨42, 43⟩⟩, false, false,
        .struct [⟨none, [⟨"B", ⟨52, 53⟩⟩], .named none ⟨"K", ⟨54, 55⟩⟩, none⟩] ⟨44, 57⟩⟩,
      ⟨none, ⟨"K", ⟨59, 60⟩⟩, false, false, .named none ⟨"int", ⟨61, 64⟩⟩⟩,
      ⟨none, ⟨"M", ⟨66, 67⟩⟩, false, false, .slice (.named none ⟨"K", ⟨70, 71⟩⟩) ⟨68, 71⟩⟩]⟩]
  groups := [⟨[⟨"// +generate:validate", ⟨12, 33⟩⟩], 3, 3, false⟩]

theorem parseSource_accountedText : parseSource accountedText = .ok accountedTree := by cbv

theorem exists_analyze_accountedText :
    ∃ a, analyze "a.go" accountedText .standard .builtin = .ok a :=
  exists_analyze_of_check parseSource_accountedText (by decide +kernel)

theorem accounts_of_analyze_accountedText :
    ∃ a, parseSource accountedText = .ok accountedTree ∧
      analyze "a.go" accountedText .standard .builtin = .ok a ∧
      ((annotatedSpecs Settings.standard.typeMarker accountedTree).map
        fun s => s.name.name).Nodup ∧
      a.Accounts Settings.standard.typeMarker accountedTree := by
  obtain ⟨a, ha⟩ := exists_analyze_accountedText
  have hnodup : ((annotatedSpecs Settings.standard.typeMarker accountedTree).map
      fun s => s.name.name).Nodup := by decide +kernel
  exact ⟨a, parseSource_accountedText, ha, hnodup,
    accounts_of_analyze parseSource_accountedText ha hnodup⟩

end FieldRules
