/-
Declarations that are skipped leave no trace.  An import, a variable or a function may be put
into a file after any semicolon between declarations, and the same types and constants are read.
-/
import FieldRules.Proofs.Source.ForkDecls
import FieldRules.Proofs.Source.Skipping
import Mathlib

namespace FieldRules

variable {src : SourceText} {t : Token} {ts r rest : List Token}

/-! Between declarations. -/

/-- After its keyword `t` one declaration is read from `r`, and `rest` is left. -/
inductive OneDeclaration (src : SourceText) (t : Token) (r : List Token) :
    List Decl → List Token → Prop
  | skipped {rest : List Token} {le : rest.length ≤ r.length}
      (ht : t.kind = .ident "import" ∨ t.kind = .ident "var")
      (h : skipDeclaration r = .ok ⟨rest, le⟩) : OneDeclaration src t r [] rest
  | function {rest : List Token} {le : rest.length ≤ r.length} (ht : t.kind = .ident "func")
      (h : skipFunction false r = .ok ⟨rest, le⟩) : OneDeclaration src t r [] rest
  | type {all : Reading (Bool × List TypeSpec) r.length} (ht : t.kind = .ident "type")
      (h : specs (fun _ => typeSpec src) r = .ok all) :
      OneDeclaration src t r [.type ⟨src.docOf t, all.value.1, all.value.2⟩] all.rest
  | const {all : Reading (Bool × List ConstSpec) r.length} (ht : t.kind = .ident "const")
      (h : specs (constSpec src) r = .ok all) :
      OneDeclaration src t r [.const ⟨src.docOf t, all.value.1, all.value.2⟩] all.rest

/-- A reader of the file `ts` stands at `rest`: it has read the package clause and these
declarations, each to its end. -/
inductive Stands (src : SourceText) (ts : List Token) (package : Ident) :
    List Decl → List Token → Prop
  | clause {t u : Token} {rest : List Token} (hdrop : dropSemis ts = t :: u :: rest)
      (ht : t.kind = .ident "package") (hu : u.kind = .ident package.name)
      (hspan : u.span = package.span) : Stands src ts package [] rest
  | declaration {decls one : List Decl} {left r rest : List Token} {t : Token}
      (h : Stands src ts package decls left) (hdrop : dropSemis left = t :: r)
      (hone : OneDeclaration src t r one rest) : Stands src ts package (decls ++ one) rest

theorem OneDeclaration.length_le {one : List Decl} (h : OneDeclaration src t r one rest) :
    rest.length ≤ r.length := by
  cases h with
  | skipped _ _ => assumption
  | function _ _ => assumption
  | @type all _ _ => exact Nat.le_of_lt all.lt
  | @const all _ _ => exact Nat.le_of_lt all.lt

theorem OneDeclaration.declarations_eq {one : List Decl} (h : OneDeclaration src t r one rest)
    (hdrop : dropSemis ts = t :: r) :
    declarations src ts = (declarations src rest).map (one ++ ·) := by
  rw [declarations]
  split
  · rename_i hnil
    cases hnil.symm.trans hdrop
  · rename_i u v hcons
    cases hcons.symm.trans hdrop
    cases h with
    | skipped ht h =>
        rcases ht with ht | ht <;>
          (simp only [ht, h, ok_bind]; cases declarations src rest <;> rfl)
    | function ht h =>
        simp only [ht, h, ok_bind]
        cases declarations src rest <;> rfl
    | @type all ht h =>
        simp only [ht, h, ok_bind]
        cases declarations src all.rest <;> rfl
    | @const all ht h =>
        simp only [ht, h, ok_bind]
        cases declarations src all.rest <;> rfl

/-- Where a reader stands decides what else is in the file. -/
theorem Stands.parseTokens_eq {package : Ident} {decls : List Decl}
    (h : Stands src ts package decls rest) :
    parseTokens src ts =
      (declarations src rest).map fun more => ⟨package, decls ++ more, src.groups⟩ := by
  induction h with
  | @clause t u rest hdrop ht hu hspan =>
      have hkeyword : expectIdent "package clause" (t :: u :: rest) =
          .ok ⟨⟨"package", t.span⟩, u :: rest, t.span.stop, by simp⟩ := by
        simp [expectIdent, ht]
      have hpackage : expectIdent "package name" (u :: rest) =
          .ok ⟨package, rest, u.span.stop, by simp⟩ := by
        simp [expectIdent, hu, hspan]
      unfold parseTokens
      dsimp only
      generalize dropSemis ts = ds at hdrop ⊢
      subst hdrop
      rw [if_pos (show nextKind (t :: u :: rest) = _ from ht), hkeyword]
      simp only [ok_bind, hpackage]
      cases declarations src rest <;> rfl
  | @declaration decls one left r rest t h hdrop hone ih =>
      rw [ih, hone.declarations_eq hdrop]
      cases declarations src rest with
      | error e => rfl
      | ok more => simp [Except.map]

/-! Up to a fork. -/

theorem OneDeclaration.splits {f : Fork} {one : List Decl} {r' : List Token}
    (h : OneDeclaration src t r one rest) (hr : f.Splits r r') (hunread : f.Unread rest) :
    ∃ rest', OneDeclaration src t r' one rest' ∧ f.Splits rest rest' := by
  cases h with
  | skipped ht h =>
      obtain ⟨rest', le, hrest, h'⟩ := f.skipDeclaration_alike hr h hunread
      exact ⟨rest', .skipped ht h', hrest⟩
  | function ht h =>
      obtain ⟨rest', le, hrest, h'⟩ := f.skipFunction_alike false hr h hunread
      exact ⟨rest', .function ht h', hrest⟩
  | type ht h =>
      obtain ⟨rest', lt, hrest, h'⟩ :=
        f.specs_agrees (fun _ _ _ => f.typeSpec_agrees src) hr h hunread
      exact ⟨rest', .type ht h', hrest⟩
  | const ht h =>
      obtain ⟨rest', lt, hrest, h'⟩ :=
        f.specs_agrees (fun index _ _ => f.constSpec_agrees src index) hr h hunread
      exact ⟨rest', .const ht h', hrest⟩

/-- What has been read in front of the semicolon is read in both files. -/
theorem Stands.splits {f : Fork} {package : Ident} {decls : List Decl} {us : List Token}
    (h : Stands src ts package decls rest) (hs : f.Splits ts us) (hunread : f.Unread rest) :
    ∃ rest', Stands src us package decls rest' ∧ f.Splits rest rest' := by
  induction h with
  | clause hdrop ht hu hspan =>
      obtain ⟨r', hdrop', hr⟩ := hs.dropSemis_eq hdrop (Nat.lt_succ_of_lt hunread)
      obtain ⟨rest', rfl, hrest⟩ := hr.tail (Nat.le_refl _) hunread
      exact ⟨rest', .clause hdrop' ht hu hspan, hrest⟩
  | @declaration decls one left r rest t h hdrop hone ih =>
      have hrUnread : f.Unread r := Nat.lt_of_lt_of_le hunread hone.length_le
      have hleft := length_le_of_dropSemis hdrop
      obtain ⟨left', hstands, hleftSplits⟩ :=
        ih (Nat.lt_of_lt_of_le hrUnread (Nat.le_of_succ_le hleft))
      obtain ⟨r', hdrop', hr⟩ := hleftSplits.dropSemis_eq hdrop hrUnread
      obtain ⟨rest', hone', hrest⟩ := hone.splits hr hunread
      exact ⟨rest', .declaration hstands hdrop' hone', hrest⟩

/-! Declarations to insert. -/

/-- An import, a variable or a function, up to the semicolon after it. -/
inductive Skipped : List Token → Prop
  | group {keyword opening closing : Token} {inside : List Token}
      (hkeyword : keyword.kind = .ident "import" ∨ keyword.kind = .ident "var")
      (hopening : opening.kind = .op "(") (hinside : Level inside)
      (hclosing : closing.kind.closes = true) :
      Skipped (keyword :: opening :: (inside ++ [closing]))
  | line {keyword : Token} {tokens : List Token}
      (hkeyword : keyword.kind = .ident "import" ∨ keyword.kind = .ident "var")
      (hfirst : ∀ t ∈ tokens.head?, t.kind ≠ .op "(") (htokens : Unbroken tokens) :
      Skipped (keyword :: tokens)
  | function {keyword opening closing : Token} {header inside : List Token}
      (hkeyword : keyword.kind = .ident "func") (hheader : Header false header)
      (hopening : opening.kind = .op "\x7b") (hend : endsInTypeWord false header = false)
      (hinside : Level inside) (hclosing : closing.kind.closes = true) :
      Skipped (keyword :: (header ++ opening :: (inside ++ [closing])))

theorem skipDeclaration_of_ne (h : nextKind ts ≠ .op "(") :
    skipDeclaration ts = skipUntil endsDeclaration ts := by
  cases ts with
  | nil => rw [skipDeclaration, skipUntil]
  | cons t r => rw [skipDeclaration, if_neg (show t.kind ≠ _ from h)]

/-- It is read up to the semicolon, and gives nothing. -/
theorem Skipped.exists_oneDeclaration {tokens : List Token} {last : Token} (h : Skipped tokens)
    (hlast : last.kind.isSemi = true) (src : SourceText) (rest : List Token) :
    ∃ keyword r, tokens ++ last :: rest = keyword :: r ∧ keyword.kind.isSemi = false ∧
      OneDeclaration src keyword r [] (last :: rest) := by
  cases h with
  | @group keyword opening closing inside hkeyword hopening hinside hclosing =>
      obtain ⟨lt, hclosed⟩ := skipClosed_level opening hinside hclosing (last :: rest)
      have hskip : skipDeclaration (opening :: (inside ++ closing :: last :: rest)) =
          .ok ⟨last :: rest, Nat.le_succ_of_le (Nat.le_of_lt lt)⟩ := by
        rw [skipDeclaration, if_pos hopening, hclosed]
        rfl
      refine ⟨keyword, _, by simp, ?_, .skipped hkeyword hskip⟩
      rcases hkeyword with hkeyword | hkeyword <;> rw [hkeyword] <;> rfl
  | @line keyword tokens hkeyword hfirst htokens =>
      obtain ⟨le, hskip⟩ := skipUntil_unbroken hlast rest tokens htokens
      have hne : nextKind (tokens ++ last :: rest) ≠ .op "(" := by
        cases tokens with
        | nil =>
            intro heq
            rw [show last.kind = _ from heq] at hlast
            cases hlast
        | cons t tokens => exact hfirst t rfl
      rw [← skipDeclaration_of_ne hne] at hskip
      refine ⟨keyword, _, by simp, ?_, .skipped hkeyword hskip⟩
      rcases hkeyword with hkeyword | hkeyword <;> rw [hkeyword] <;> rfl
  | @function keyword opening closing header inside hkeyword hheader hopening hend hinside
      hclosing =>
      obtain ⟨le, hskip⟩ :=
        skipFunction_header hopening hinside hclosing (last :: rest) false header hheader hend
      refine ⟨keyword, _, by simp, by rw [hkeyword]; rfl, .function hkeyword hskip⟩

theorem declarations_of_dropSemis {us : List Token} (h : dropSemis ts = dropSemis us) :
    declarations src ts = declarations src us := by
  rw [declarations.eq_def src us]
  split
  · rename_i hnil
    rw [declarations]
    split
    · rfl
    · rename_i hcons
      cases (hnil.symm.trans h.symm).trans hcons
  · rename_i t r hcons
    rw [declarations.eq_def src ts]
    split
    · rename_i hnil
      cases (hcons.symm.trans h.symm).trans hnil
    · rename_i hcons'
      cases (hcons.symm.trans h.symm).trans hcons'
      rfl

theorem dropSemis_append {semis : List Token} (h : ∀ t ∈ semis, t.kind.isSemi = true)
    (ts : List Token) : dropSemis (semis ++ ts) = dropSemis ts :=
  List.dropWhile_append_of_pos h

/-! Insertion. -/

/-- Semicolon `s` stands after the package clause or a declaration of the file, with `front` before
it and `post` after it. -/
structure SeparatedAt (src : SourceText) (front : List Token) (s : Token) (post : List Token) :
    Prop where
  isSemi : s.kind.isSemi = true
  stands : ∃ package decls semis, (∀ t ∈ semis, t.kind.isSemi = true) ∧
    Stands src (front ++ s :: post) package decls (semis ++ s :: post)

/-- With a declaration that is skipped the same is read. -/
theorem parseTokens_insert_eq {front post tokens : List Token} {s last : Token}
    (hplace : SeparatedAt src front s post) (htokens : Skipped tokens)
    (hlast : last.kind.isSemi = true) :
    parseTokens src (front ++ s :: (tokens ++ last :: post)) =
      parseTokens src (front ++ s :: post) := by
  obtain ⟨package, decls, semis, hsemis, hstands⟩ := hplace.stands
  let f : Fork := ⟨s, hplace.isSemi, post, tokens ++ last :: post⟩
  have hunread : f.Unread (semis ++ s :: post) := by
    simp only [f, Fork.Unread, List.length_append, List.length_cons]
    omega
  obtain ⟨rest', hstands', hrest⟩ := hstands.splits (Fork.Splits.append f front) hunread
  obtain ⟨semis', heq, rfl⟩ := hrest.exists_append
  obtain rfl : semis = semis' := List.append_cancel_right heq
  have hsemis' : ∀ t ∈ semis ++ [s], t.kind.isSemi = true :=
    List.forall_mem_append.mpr ⟨hsemis, List.forall_mem_singleton.mpr hplace.isSemi⟩
  have hdrop : ∀ us, dropSemis (semis ++ s :: us) = dropSemis us := by
    intro us
    rw [← dropSemis_append hsemis' us, List.append_assoc, List.singleton_append]
  -- the inserted tokens are read as one declaration, which leaves the semicolon after them
  obtain ⟨keyword, r, htokens', hkeyword, hone⟩ :=
    htokens.exists_oneDeclaration hlast src post
  have hread : dropSemis (semis ++ s :: (tokens ++ last :: post)) = keyword :: r := by
    rw [hdrop, htokens', dropSemis_cons hkeyword]
  have hrest : declarations src (last :: post) = declarations src (semis ++ s :: post) := by
    apply declarations_of_dropSemis
    rw [hdrop, dropSemis, List.dropWhile_cons_of_pos (by exact hlast)]
    rfl
  have hsame : declarations src (semis ++ s :: (tokens ++ last :: post)) =
      declarations src (semis ++ s :: post) := by
    rw [hone.declarations_eq hread, hrest]
    cases declarations src (semis ++ s :: post) <;> rfl
  rw [hstands.parseTokens_eq, hstands'.parseTokens_eq]
  exact congrArg _ hsame

/-- A file that is accepted stays so, with the same package, types and constants, when an import, a
variable or a function is put after a semicolon between its declarations. -/
theorem parseTokens_insert {front post tokens : List Token} {s last : Token} {file : SourceFile}
    (hfile : parseTokens src (front ++ s :: post) = .ok file)
    (hplace : SeparatedAt src front s post) (htokens : Skipped tokens)
    (hlast : last.kind.isSemi = true) :
    parseTokens src (front ++ s :: (tokens ++ last :: post)) = .ok file :=
  (parseTokens_insert_eq hplace htokens hlast).trans hfile

/-- A token of this kind, at no place. -/
def Token.plain (k : TokenKind) : Token := ⟨k, ⟨0, 0⟩, 1, none⟩

/-- A package clause and an import. -/
def importTokens : List Token :=
  [.ident "package", .ident "p", .semi true, .ident "import", .literal .str "\"fmt\""].map
    Token.plain

/-- A type, and the end of the file. -/
def typeTokens : List Token :=
  [.ident "type", .ident "T", .ident "int", .semi true, .eof].map Token.plain

/-- The head of a method whose result is an interface. -/
def methodHeader : List Token :=
  [.op "(", .ident "T", .op ")", .ident "F", .op "(", .op ")", .ident "interface", .op "\x7b",
    .ident "M", .op "(", .op ")", .semi false, .op "\x7d"].map Token.plain

/-- Its body. -/
def methodBody : List Token :=
  [.op "\x7b", .semi false, .ident "type", .op "\x7d"].map Token.plain

def methodTokens : List Token :=
  .plain (.ident "func") ::
    (methodHeader ++ .plain (.op "\x7b") :: (methodBody ++ [.plain (.op "\x7d")]))

theorem parseTokens_insert_method :
    ∃ file, parseTokens ⟨[], []⟩ (importTokens ++ .plain (.semi true) :: typeTokens) = .ok file ∧
      file.decls.length = 1 ∧
      parseTokens ⟨[], []⟩ (importTokens ++ .plain (.semi true) ::
        (methodTokens ++ .plain (.semi false) :: typeTokens)) = .ok file := by
  have hskip : skipDeclaration
      (.plain (.literal .str "\"fmt\"") :: .plain (.semi true) :: typeTokens) =
      .ok ⟨.plain (.semi true) :: typeTokens, Nat.le_succ _⟩ := by cbv
  have hplace : SeparatedAt ⟨[], []⟩ importTokens (.plain (.semi true)) typeTokens :=
    ⟨rfl, ⟨"p", ⟨0, 0⟩⟩, [], [], List.forall_mem_nil _,
      .declaration (.clause rfl rfl rfl rfl) rfl (.skipped (.inl rfl) hskip)⟩
  have hmethod : Skipped methodTokens :=
    .function rfl (by decide : Header false methodHeader) rfl rfl
      (by decide : Level methodBody) (by decide)
  have h : (parseTokens ⟨[], []⟩ (importTokens ++ .plain (.semi true) :: typeTokens)).map
      (fun file => file.decls.length) = .ok 1 := by cbv
  obtain ⟨file, hfile, hlength⟩ := map_eq_ok.mp h
  exact ⟨file, hfile, hlength, parseTokens_insert hfile hplace hmethod rfl⟩

end FieldRules
