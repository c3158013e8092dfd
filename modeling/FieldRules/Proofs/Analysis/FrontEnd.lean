/-
The files that are generated for a text pass the program's own lexer and parser.
-/
import FieldRules.Proofs.Analysis.Annotated
import FieldRules.Proofs.Code.Generated
import FieldRules.Proofs.Source.DeclReaders

namespace FieldRules

/-! What is collected from a tree is lexical. -/

section Collected

variable {cs : List Char} {f : SourceFile} {input : AnalysisInput}

theorem SourceFile.StandsIn.typeDecl (h : f.StandsIn cs) {d : TypeDecl} (hd : d ∈ f.typeDecls) :
    ∀ s ∈ d.specs, s.StandsIn cs := by
  obtain ⟨decl, hdecl, hsome⟩ := List.mem_filterMap.mp hd
  have hstands := h.decls decl hdecl
  cases decl with
  | const decl => cases hsome
  | type decl =>
      cases hsome
      exact hstands.2

theorem SourceFile.StandsIn.constDecl (h : f.StandsIn cs) {d : ConstDecl} (hd : d ∈ f.constDecls) :
    ∀ s ∈ d.specs, s.StandsIn cs := by
  obtain ⟨decl, hdecl, hsome⟩ := List.mem_filterMap.mp hd
  have hstands := h.decls decl hdecl
  cases decl with
  | type decl => cases hsome
  | const decl =>
      cases hsome
      exact hstands.2

/-- The name of a type, if it has one in the file. -/
theorem TypeExpr.StandsIn.isIdentifier_localName {t : TypeExpr} (h : t.StandsIn cs) {name : String}
    (hname : t.localName? = some name) : isIdentifier name = true := by
  unfold TypeExpr.localName? at hname
  split at hname
  · cases hname
    exact (show Ident.StandsIn cs _ from h).isIdentifier
  · cases hname

theorem FieldLine.StandsIn.names {line : FieldLine} (h : line.StandsIn cs) :
    ∀ name ∈ line.names, name.StandsIn cs := by
  cases line
  exact h.2.1

theorem ConstSpec.Says.isSigned {s : ConstSpec} (h : s.StandsIn cs) {l : Literal} (hl : s.Says l) :
    ∃ kind, IsSigned kind l.spelling := by
  rcases hl with rfl | ⟨kind, span, hmem⟩
  · have hnumber := isNumber_int s.index
    obtain ⟨kind, -, hsigned⟩ := hnumber
    exact ⟨kind, hsigned⟩
  · exact ⟨kind, (show IsSigned kind l.spelling ∧ _ from h.values _ hmem).1⟩

theorem CollectedFrom.lexical (hf : f.StandsIn cs) {s : TypeSpec} (hs : s.StandsIn cs)
    {body : DeclarationBody} (h : CollectedFrom input f.constDecls s body) : body.Lexical := by
  cases h with
  | record htype hlines =>
      have hfields : fieldsStandIn cs _ := (show TypeExpr.StandsIn cs (.struct _ _) from
        htype ▸ hs.type).1
      intro field hfield
      obtain ⟨line, hline, hstands⟩ := exists_line_of_mem_recordFields hlines field hfield
      obtain ⟨name, hname, hfieldName⟩ := hstands.name
      rw [hfieldName]
      exact (((fieldsStandIn_iff cs).mp hfields line hline).names name hname).isIdentifier
  | enumeration base =>
      refine ⟨?_, fun l hl => ?_⟩
      · cases hname : s.type.localName? with
        | none => exact hs.name.isIdentifier
        | some name => exact hs.type.isIdentifier_localName hname
      · obtain ⟨d, hd, spec, hspec, hsays⟩ := exists_spec_of_mem_allowedValues hl
        exact hsays.isSigned (hf.constDecl hd spec hspec)

theorem lexical_of_collect (hf : f.StandsIn cs) {declarations : List Declaration}
    (h : (collect input f).result = .ok declarations) (path : String) :
    AnnotatedFile.Lexical ⟨path, f.package.name, declarations⟩ := by
  have hspecs : ∀ d ∈ declarations, ∃ s, s.StandsIn cs ∧ d.name = s.name.name ∧
      CollectedFrom input f.constDecls s d.body := by
    intro d hd
    obtain ⟨s, hs, hname, hbody⟩ := exists_spec_of_mem_collectSpecs h d hd
    obtain ⟨decl, hdecl, hspec, -⟩ := mem_annotatedSpecs.mp hs
    exact ⟨s, hf.typeDecl hdecl s hspec, hname, hbody⟩
  refine ⟨hf.package.isIdentifier, fun d hd => ?_, fun d hd => ?_⟩
  · obtain ⟨s, hs, hname, -⟩ := hspecs d hd
    rw [hname]
    exact hs.name.isIdentifier
  · obtain ⟨s, hs, -, hbody⟩ := hspecs d hd
    exact hbody.lexical hf hs

end Collected

theorem lexical_of_analyze {path text : String} {settings : Settings} {catalogue : Catalogue}
    {a : AnalyzedFile} (h : analyze path text settings catalogue = .ok a) : a.file.Lexical := by
  obtain ⟨tree, declarations, htree, hresult, hfile, -⟩ := exists_of_analyze h
  have hstands := parseSource_settles text
  rw [htree] at hstands
  rw [hfile]
  exact lexical_of_collect hstands hresult path

/-! Reading back what is generated. -/

/-- The file that is generated below a header passes the lexer and the parser. -/
structure AnnotatedFile.PassesFrontEnd (f : AnnotatedFile) (header : String) : Prop where
  /-- The parser finds the package and nothing else. -/
  parses : ∃ tree, parseSource (f.lower header).render = .ok tree ∧
    tree.package.name = f.package ∧ tree.decls = []
  /-- The lexer finds the tokens of the code, where a text in quotes is one token. -/
  tokens : ∃ stream, tokenize (f.lower header).render = .ok stream ∧
    stream.tokens.map Token.kind = (f.lower header).tokens ++ [.eof]
  lexical : ∀ k ∈ (f.lower header).tokens, k.Lexical
  balanced : Balanced (f.lower header).tokens
  /-- Keys of sets are literals, bounds are numbers. -/
  keys : ∀ p ∈ f.enumerations, ∀ key ∈ p.2.allowed.spellings, ∃ kind, IsSigned kind key
  bounds : ∀ p ∈ f.records, ∀ field ∈ p.2, ∀ c ∈ field.checks, IsNumber c.condition.bound.text

/-- Whatever text is analyzed, its generated file passes below every comment of one line. -/
theorem passesFrontEnd_of_analyze {path text header : String} {settings : Settings}
    {catalogue : Catalogue} {a : AnalyzedFile}
    (h : analyze path text settings catalogue = .ok a) (hheader : ['/', '/'] <+: header.toList)
    (hline : '\n' ∉ header.toList) : a.file.PassesFrontEnd header := by
  have hlexical := lexical_of_analyze h
  obtain ⟨more, hmore⟩ := hheader
  have hprinted := hlexical.printed hmore.symm hline
  obtain ⟨stream, hstream, hkinds⟩ := hprinted.exists_tokenize
  have hcovers := settles_tokenize (a.file.lower header).render
  rw [hstream] at hcovers
  have htokens : ∀ k ∈ (a.file.lower header).tokens, k.Lexical := by
    intro k hk
    have hmem : k ∈ stream.tokens.map Token.kind := by
      rw [hkinds]
      exact List.mem_append_left _ hk
    obtain ⟨t, ht, rfl⟩ := List.mem_map.mp hmem
    exact (hcovers.tokens t ht).lexical
  exact {
    parses := hprinted.exists_parseSource
    tokens := ⟨stream, hstream, hkinds⟩
    lexical := htokens
    balanced := hprinted.balanced
    keys := fun p hp => List.forall_mem_map.mpr (hlexical.enumeration hp).2.allowed
    bounds := fun _ _ _ _ c _ => c.condition.bound.isNumber_text }

/-- A bound that is no integer, a message with quotes and a raw literal over two lines. -/
def quotedText : String :=
  "package v1\n\n// +generate:validate\ntype A struct \x7b\n" ++
  "\t// +validate(range(min=0.5, message=\"say \\\"no\\\"\"))\n" ++
  "\tB *float64\n\tC []K\n\x7d\n\n// +generate:validate\ntype K string\n\nconst L K = \x60x\ny\x60\n"

def quotedTree : SourceFile where
  package := ⟨"v1", ⟨8, 10⟩⟩
  decls := [.type ⟨some ⟨[⟨"// +generate:validate", ⟨12, 33⟩⟩], 3, 3, false⟩, false,
      [⟨none, ⟨"A", ⟨39, 40⟩⟩, false, false,
        .struct [⟨some ⟨[⟨"// +validate(range(min=0.5, message=\"say \\\"no\\\"\"))", ⟨51, 101⟩⟩],
            5, 5, false⟩,
          [⟨"B", ⟨103, 104⟩⟩], .pointer (.named none ⟨"float64", ⟨106, 113⟩⟩) ⟨105, 113⟩, none⟩,
          ⟨none, [⟨"C", ⟨115, 116⟩⟩], .slice (.named none ⟨"K", ⟨119, 120⟩⟩) ⟨117, 120⟩, none⟩]
          ⟨41, 122⟩⟩]⟩,
    .type ⟨some ⟨[⟨"// +generate:validate", ⟨124, 145⟩⟩], 10, 10, false⟩, false,
      [⟨none, ⟨"K", ⟨151, 152⟩⟩, false, false, .named none ⟨"string", ⟨153, 159⟩⟩⟩]⟩,
    .const ⟨none, false, [⟨none, 0, [⟨"L", ⟨167, 168⟩⟩], some (.named none ⟨"K", ⟨169, 170⟩⟩),
      [.literal .str "\x60x\ny\x60" ⟨173, 178⟩]⟩]⟩]
  groups := [⟨[⟨"// +generate:validate", ⟨12, 33⟩⟩], 3, 3, false⟩,
    ⟨[⟨"// +validate(range(min=0.5, message=\"say \\\"no\\\"\"))", ⟨51, 101⟩⟩], 5, 5, false⟩,
    ⟨[⟨"// +generate:validate", ⟨124, 145⟩⟩], 10, 10, false⟩]

set_option maxRecDepth 10000 in
theorem parseSource_quotedText : parseSource quotedText = .ok quotedTree := by cbv

theorem passesFrontEnd_of_analyze_quotedText :
    ∃ a, analyze "a.go" quotedText .standard .builtin = .ok a ∧
      ['/', '/'] <+: Settings.standard.header.toList ∧
      '\n' ∉ Settings.standard.header.toList ∧ a.file.PassesFrontEnd Settings.standard.header := by
  obtain ⟨a, ha⟩ : ∃ a, analyze "a.go" quotedText .standard .builtin = .ok a :=
    exists_analyze_of_check parseSource_quotedText (by decide +kernel)
  have hline : '\n' ∉ Settings.standard.header.toList := by decide
  have hheader : ['/', '/'] <+: Settings.standard.header.toList := by decide
  exact ⟨a, ha, hheader, hline, passesFrontEnd_of_analyze ha hheader hline⟩

end FieldRules
