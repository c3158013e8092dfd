/-
The order of type declarations.  Indexing and collecting a file gives the same declarations in
whatever order, and wherever, its types are declared; constants keep their order.
-/
import Mathlib
import FieldRules.Proofs.Analysis.Indexing
import FieldRules.Proofs.Analysis.Unplaced
import FieldRules.Source.Parser

namespace FieldRules

/-! Lists in another order. -/

/-- Among items with different keys there is one for each key, in whatever order they stand. -/
theorem filter_key_of_perm {α κ : Type} [DecidableEq κ] {key : α → κ} {l m : List α}
    (hperm : l.Perm m) (hnodup : (l.map key).Nodup) (k : κ) :
    l.filter (fun a => key a = k) = m.filter (fun a => key a = k) := by
  have hnever : ∀ {xs : List α}, (xs.map key).Nodup →
      (xs.filter fun a => key a = k).Pairwise fun _ _ => False := by
    intro xs hxs
    have hkeys : (xs.filter fun a => key a = k).Pairwise fun a b => key a ≠ key b :=
      (List.pairwise_map.mp hxs).filter _
    refine hkeys.imp_of_mem fun {a b} ha hb hne => hne ?_
    rw [of_decide_eq_true (List.mem_filter.mp ha).2, of_decide_eq_true (List.mem_filter.mp hb).2]
  have hnodup' : (m.map key).Nodup := (hperm.map key).nodup_iff.mp hnodup
  exact (hperm.filter _).eq_of_pairwise (fun _ _ _ _ h _ => h.elim) (hnever hnodup) (hnever hnodup')

/-! The index. -/

/-- Specs with different names in another order give an index in which every name finds what it
found before. -/
theorem DeclIndex.get?_of_perm {specs specs' : List TypeSpec} (hperm : specs.Perm specs')
    (hnodup : (specs.map fun s => s.name.name).Nodup) (name : String) :
    (DeclIndex.mk (specs.filterMap TypeSpec.entry?)).get? name =
      (DeclIndex.mk (specs'.filterMap TypeSpec.entry?)).get? name := by
  have hkeys : ((specs.filterMap TypeSpec.entry?).map Prod.fst).Nodup :=
    hnodup.sublist (sublist_map_filterMap (fun _ _ => TypeSpec.fst_of_entry?) specs)
  have hfilter := filter_key_of_perm (hperm.filterMap TypeSpec.entry?) hkeys name
  have hfind : (specs.filterMap TypeSpec.entry?).find? (fun e => e.1 == name) =
      (specs'.filterMap TypeSpec.entry?).find? (fun e => e.1 == name) := by
    rw [← List.head?_filter, ← List.head?_filter]
    simpa [beq_eq_decide] using congrArg List.head? hfilter
  rw [get?, get?, hfind]

/-! Collection looks kinds up by name only. -/

section Lookup

variable {settings : Settings} {catalogue : Catalogue} {i j : DeclIndex}

theorem fields_of_get? (h : ∀ name, i.get? name = j.get? name) (record : String) (f : FieldLine) :
    f.fields ⟨settings, catalogue, i⟩ record = f.fields ⟨settings, catalogue, j⟩ record := by
  have hnested : ∀ s : Shape, s.isNested i settings.ignorePackages =
      s.isNested j settings.ignorePackages := by
    intro s
    unfold Shape.isNested
    cases s.leaf with
    | named name => exact congrArg Option.isSome (h name)
    | _ => rfl
  simp only [FieldLine.fields, hnested]

theorem recordFields_of_get? (h : ∀ name, i.get? name = j.get? name) (record : String)
    (fs : List FieldLine) :
    recordFields ⟨settings, catalogue, i⟩ record fs =
      recordFields ⟨settings, catalogue, j⟩ record fs := by
  induction fs with
  | nil => rfl
  | cons f fs ih => simp only [recordFields, fields_of_get? h, ih]

theorem collectSpec_of_get? (h : ∀ name, i.get? name = j.get? name) (constants : List ConstDecl)
    (s : TypeSpec) :
    collectSpec ⟨settings, catalogue, i⟩ constants s =
      collectSpec ⟨settings, catalogue, j⟩ constants s := by
  simp only [collectSpec, h, recordFields_of_get? h]

end Lookup

/-! Declarations in another order. -/

section Collection

variable (input : AnalysisInput) (constants : List ConstDecl)

/-- The declaration that one spec adds, if it adds any. -/
def declarationOf? (s : TypeSpec) : Option Declaration :=
  (collectSpec input constants s).result.toOption.join

variable {input constants}

theorem name_of_declarationOf? {s : TypeSpec} {d : Declaration}
    (h : declarationOf? input constants s = some d) : d.name = s.name.name := by
  unfold declarationOf? collectSpec at h
  dsimp only at h
  split at h
  · cases hfields : recordFields input s.name.name _ <;> rw [hfields] at h <;> cases h
    rfl
  · cases h
    rfl
  · cases h

/-- A collection succeeds if it does for every spec, each adding its own declaration. -/
theorem collectSpecs_eq_ok_iff {specs : List TypeSpec} {ds : List Declaration} :
    (collectSpecs input constants specs).result = .ok ds ↔
      (∀ s ∈ specs, ∃ found, (collectSpec input constants s).result = .ok found) ∧
        ds = specs.filterMap (declarationOf? input constants) := by
  induction specs generalizing ds with
  | nil => simp [collectSpecs, eq_comm]
  | cons s rest ih =>
      rw [List.forall_mem_cons, collectSpecs]
      cases hone : (collectSpec input constants s).result with
      | error e => simp
      | ok found =>
          have hadded : declarationOf? input constants s = found := by
            rw [declarationOf?, hone]
            rfl
          have hcons : (s :: rest).filterMap (declarationOf? input constants) =
              found.toList ++ rest.filterMap (declarationOf? input constants) := by
            rw [List.filterMap_cons, hadded]
            cases found <;> rfl
          simp only [hcons]
          constructor
          · intro h
            cases hmore : (collectSpecs input constants rest).result with
            | error e =>
                rw [hmore] at h
                cases h
            | ok more =>
                rw [hmore] at h
                cases h
                obtain ⟨hall, rfl⟩ := ih.mp hmore
                exact ⟨⟨⟨found, rfl⟩, hall⟩, rfl⟩
          · rintro ⟨⟨-, hall⟩, rfl⟩
            rw [ih.mpr ⟨hall, rfl⟩]
            rfl

end Collection

/-- Two outcomes of a collection that differ in the order of the declarations only, or in what
made them fail. -/
inductive SameDeclarations :
    Except DirectiveError (List Declaration) → Except DirectiveError (List Declaration) → Prop
  | failed (e e' : DirectiveError) : SameDeclarations (.error e) (.error e')
  | collected {ds ds' : List Declaration} (perm : ds.Perm ds')
      (same : ∀ name, ds.filter (fun d => d.name = name) = ds'.filter (fun d => d.name = name)) :
      SameDeclarations (.ok ds) (.ok ds')

theorem sameDeclarations_collectSpecs {input : AnalysisInput} {constants : List ConstDecl}
    {specs specs' : List TypeSpec} (hperm : specs.Perm specs')
    (hnodup : (specs.map fun s => s.name.name).Nodup) :
    SameDeclarations (collectSpecs input constants specs).result
      (collectSpecs input constants specs').result := by
  have hnames : ((specs.filterMap (declarationOf? input constants)).map Declaration.name).Nodup :=
    hnodup.sublist (sublist_map_filterMap (fun _ _ => name_of_declarationOf?) specs)
  cases hresult : (collectSpecs input constants specs).result with
  | error e =>
      cases hresult' : (collectSpecs input constants specs').result with
      | error e' => exact .failed e e'
      | ok ds' =>
          obtain ⟨hall, -⟩ := collectSpecs_eq_ok_iff.mp hresult'
          rw [collectSpecs_eq_ok_iff.mpr ⟨fun s hs => hall s (hperm.mem_iff.mp hs), rfl⟩] at hresult
          cases hresult
  | ok ds =>
      obtain ⟨hall, rfl⟩ := collectSpecs_eq_ok_iff.mp hresult
      rw [collectSpecs_eq_ok_iff.mpr ⟨fun s hs => hall s (hperm.mem_iff.mpr hs), rfl⟩]
      have hds := hperm.filterMap (declarationOf? input constants)
      exact .collected hds (filter_key_of_perm hds hnames)

/-! Files. -/

namespace SourceFile

/-- The declarations that are collected from a file after it was indexed. -/
def declared (settings : Settings) (catalogue : Catalogue) (f : SourceFile) :
    Except DirectiveError (List Declaration) :=
  (collect ⟨settings, catalogue, (DeclIndex.ofFile settings.typeMarker f).1⟩ f).result

/-- The one file has the type declarations of the other in any order and its constants in the
same order.  Everything may stand at other places, as it does when declarations are moved. -/
structure Reordered (f g : SourceFile) : Prop where
  types : (f.typeDecls.map TypeDecl.unplaced).Perm (g.typeDecls.map TypeDecl.unplaced)
  constants : f.constDecls.map ConstDecl.unplaced = g.constDecls.map ConstDecl.unplaced

variable {settings : Settings} {catalogue : Catalogue} {f g : SourceFile}

theorem annotatedSpecs_of_perm (h : f.typeDecls.Perm g.typeDecls) (marker : String) :
    (annotatedSpecs marker f).Perm (annotatedSpecs marker g) :=
  h.flatMap_right _

/-- Type declarations in another order, at the same places. -/
theorem declared_of_perm (htypes : f.typeDecls.Perm g.typeDecls)
    (hconstants : f.constDecls = g.constDecls)
    (hnodup : ((annotatedSpecs settings.typeMarker f).map fun s => s.name.name).Nodup) :
    SameDeclarations (f.declared settings catalogue) (g.declared settings catalogue) := by
  have hperm := annotatedSpecs_of_perm htypes settings.typeMarker
  have hnodup' : ((annotatedSpecs settings.typeMarker g).map fun s => s.name.name).Nodup :=
    (hperm.map _).nodup_iff.mp hnodup
  have hlookup : ∀ name, (DeclIndex.ofFile settings.typeMarker g).1.get? name =
      (DeclIndex.ofFile settings.typeMarker f).1.get? name := by
    intro name
    rw [DeclIndex.ofFile, DeclIndex.ofFile,
      DeclIndex.addSpecs_of_nodup hnodup (by simp [DeclIndex.empty]),
      DeclIndex.addSpecs_of_nodup hnodup' (by simp [DeclIndex.empty])]
    exact (DeclIndex.get?_of_perm hperm hnodup name).symm
  have hsame : ∀ specs, collectSpecs
      ⟨settings, catalogue, (DeclIndex.ofFile settings.typeMarker g).1⟩ g.constDecls specs =
        collectSpecs ⟨settings, catalogue, (DeclIndex.ofFile settings.typeMarker f).1⟩
          f.constDecls specs := by
    intro specs
    induction specs with
    | nil => rfl
    | cons s rest ih => simp only [collectSpecs, collectSpec_of_get? hlookup, hconstants, ih]
  unfold declared collect
  dsimp only
  rw [hsame]
  exact sameDeclarations_collectSpecs hperm hnodup

/-- Where declarations stand makes no difference. -/
theorem declared_unplaced (f : SourceFile) :
    f.unplaced.declared settings catalogue =
      (f.declared settings catalogue).mapError DirectiveError.unplaced := by
  unfold declared
  rw [DeclIndex.ofFile_unplaced, collect_unplaced]
  rfl

end SourceFile

theorem SameDeclarations.of_mapError {x y : Except DirectiveError (List Declaration)}
    (h : SameDeclarations (x.mapError DirectiveError.unplaced)
      (y.mapError DirectiveError.unplaced)) : SameDeclarations x y := by
  cases x with
  | error e =>
      cases y with
      | error e' => exact .failed e e'
      | ok ds' => cases h
  | ok ds =>
      cases y with
      | error e' => cases h
      | ok ds' => exact h

/-- What is collected from a file does not depend on the order of its type declarations. -/
theorem declared_reordered {settings : Settings} {catalogue : Catalogue} {f g : SourceFile}
    (h : f.Reordered g)
    (hnodup : ((annotatedSpecs settings.typeMarker f).map fun s => s.name.name).Nodup) :
    SameDeclarations (f.declared settings catalogue) (g.declared settings catalogue) := by
  have htypes : f.unplaced.typeDecls.Perm g.unplaced.typeDecls := by
    rw [f.typeDecls_unplaced, g.typeDecls_unplaced]
    exact h.types
  have hconstants : f.unplaced.constDecls = g.unplaced.constDecls := by
    rw [f.constDecls_unplaced, g.constDecls_unplaced]
    exact h.constants
  have hnodup' : ((annotatedSpecs settings.typeMarker f.unplaced).map
      fun s => s.name.name).Nodup := by
    rw [annotatedSpecs_unplaced, List.map_map]
    exact hnodup
  have hsame : SameDeclarations (f.unplaced.declared settings catalogue)
      (g.unplaced.declared settings catalogue) :=
    SourceFile.declared_of_perm htypes hconstants hnodup'
  rw [f.declared_unplaced, g.declared_unplaced] at hsame
  exact hsame.of_mapError

def shortSettings : Settings := { Settings.standard with typeMarker := "v" }

/-- A record with a field of a type that is declared last. -/
def useFirstText : String :=
  "package v1\n\n// v\ntype A struct\x7b B B \x7d\n\nconst C B = 1\n\n// v\ntype B int\n"

/-- The same declarations, with the type that is used in front. -/
def useLastText : String :=
  "package v1\n\n// v\ntype B int\n\nconst C B = 1\n\n// v\ntype A struct\x7b B B \x7d\n"

section Moved

/-! The declarations of these texts, by the places and lines where they begin. -/

def markerAt (start line : Nat) : CommentGroup :=
  ⟨[⟨"// v", ⟨start, start + 4⟩⟩], line, line, false⟩

def recordAt (start line : Nat) : Decl :=
  .type ⟨some (markerAt start line), false,
    [⟨none, ⟨"A", ⟨start + 10, start + 11⟩⟩, false, false,
      .struct [⟨none, [⟨"B", ⟨start + 20, start + 21⟩⟩],
        .named none ⟨"B", ⟨start + 22, start + 23⟩⟩, none⟩] ⟨start + 12, start + 25⟩⟩]⟩

def scalarAt (start line : Nat) : Decl :=
  .type ⟨some (markerAt start line), false,
    [⟨none, ⟨"B", ⟨start + 10, start + 11⟩⟩, false, false,
      .named none ⟨"int", ⟨start + 12, start + 15⟩⟩⟩]⟩

def constantAt (start : Nat) : Decl :=
  .const ⟨none, false,
    [⟨none, 0, [⟨"C", ⟨start + 6, start + 7⟩⟩],
      some (.named none ⟨"B", ⟨start + 8, start + 9⟩⟩),
      [.literal .int "1" ⟨start + 12, start + 13⟩]⟩]⟩

def useFirstTree : SourceFile :=
  ⟨⟨"v1", ⟨8, 10⟩⟩, [recordAt 12 3, constantAt 39, scalarAt 54 8], [markerAt 12 3, markerAt 54 8]⟩

def useLastTree : SourceFile :=
  ⟨⟨"v1", ⟨8, 10⟩⟩, [scalarAt 12 3, constantAt 29, recordAt 44 8], [markerAt 12 3, markerAt 44 8]⟩

set_option maxRecDepth 2000 in
theorem parseSource_useFirstText : parseSource useFirstText = .ok useFirstTree := by cbv

set_option maxRecDepth 2000 in
theorem parseSource_useLastText : parseSource useLastText = .ok useLastTree := by cbv

theorem reordered_useTrees : useFirstTree.Reordered useLastTree where
  types := List.Perm.swap _ _ _
  constants := rfl

theorem declared_reordered_useTrees :
    parseSource useFirstText = .ok useFirstTree ∧ parseSource useLastText = .ok useLastTree ∧
      useFirstTree.Reordered useLastTree ∧
      ((annotatedSpecs shortSettings.typeMarker useFirstTree).map fun s => s.name.name).Nodup ∧
      (useFirstTree.declared shortSettings .builtin).isOk = true ∧
      SameDeclarations (useFirstTree.declared shortSettings .builtin)
        (useLastTree.declared shortSettings .builtin) := by
  have hnodup : ((annotatedSpecs shortSettings.typeMarker useFirstTree).map
      fun s => s.name.name).Nodup := by decide +kernel
  exact ⟨parseSource_useFirstText, parseSource_useLastText, reordered_useTrees, hnodup,
    by decide +kernel, declared_reordered reordered_useTrees hnodup⟩

end Moved

end FieldRules
