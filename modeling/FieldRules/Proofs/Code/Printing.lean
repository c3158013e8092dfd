/-
The tokens of statements, methods and whole files, and of the lines on which they are written.
-/
import FieldRules.Proofs.Code.Tokens
import FieldRules.Proofs.Code.Indentation

namespace FieldRules

/-! Writing on a sheet. -/

/-- Whatever writes like this adds whole lines, which the lexer reads as these tokens. -/
def Prints (write : Sheet → Sheet) (ks : List TokenKind) : Prop :=
  ∀ s, ∃ cs, write s = ⟨s.depth, s.text ++ String.ofList cs⟩ ∧
    ∀ rest more, Lexes false rest more → Lexes false (cs ++ rest) (ks ++ more)

namespace Prints

variable {write after : Sheet → Sheet} {ks ls : List TokenKind} {body : List Fragment}
  {text header left right : String}

theorem nothing : Prints id [] := fun s =>
  ⟨[], by simp, fun _ _ h => h⟩

theorem comp (hafter : Prints after ls) (h : Prints write ks) :
    Prints (after ∘ write) (ks ++ ls) := by
  intro s
  obtain ⟨cs, hwrite, hlexes⟩ := h s
  obtain ⟨ds, hafter, hmore⟩ := hafter (write s)
  refine ⟨cs ++ ds, ?_, fun rest more hrest => ?_⟩
  · rw [Function.comp_apply, hafter, hwrite]
    simp [String.append_assoc]
  · rw [List.append_assoc, List.append_assoc]
    exact hlexes _ _ (hmore rest more hrest)

/-- Indentation is blank. -/
theorem lexes_tabs {cs : List Char} (h : Lexes false cs ks) (depth : Nat) :
    Lexes false (List.replicate depth '\t' ++ cs) ks := by
  induction depth with
  | zero => exact h
  | succ depth ih =>
      rw [List.replicate_succ, List.cons_append]
      exact ih.blank (.inr rfl)

/-- A line is what the lexer reads up to the line end. -/
theorem addLine (h : ∀ rest more, Lexes false rest more →
      Lexes false (text.toList ++ '\n' :: rest) (ks ++ more)) :
    Prints (·.addLine text) ks := by
  intro s
  refine ⟨List.replicate s.depth '\t' ++ (text.toList ++ ['\n']), ?_, fun rest more hrest => ?_⟩
  · simp [Sheet.addLine, Sheet.tabs, ← String.toList_inj]
  · rw [List.append_assoc, List.append_assoc]
    exact lexes_tabs (h rest more hrest) s.depth

/-- A statement on its own line ends there. -/
theorem statement (h : Spelled endsWord text.toList ks) :
    Prints (·.add (.line text)) (ks ++ [.semi true]) :=
  addLine fun rest more hrest => by
    rw [List.append_assoc]
    exact h.lexes false _ _ (by simp [endsWord]) (hrest.newline true)

/-- A comment on its own line. -/
theorem comment {more : List Char} (h : text.toList = '/' :: '/' :: more)
    (hline : '\n' ∉ text.toList) : Prints (·.add (.line text)) [] :=
  addLine fun rest ks hrest => by
    rw [h] at hline ⊢
    have hmore : '\n' ∉ more := fun hmem => hline (by simp [hmem])
    exact (hrest.newline false).comment hmore

theorem blank : Prints (·.add .blank) [] := fun s =>
  ⟨['\n'], by simp [Sheet.add, Sheet.addBlank], fun _ _ h => h.newline false⟩

theorem addAll_nil : Prints (·.addAll []) [] := nothing

theorem addAll_cons {f : Fragment} (h : Prints (·.add f) ks) (hmore : Prints (·.addAll body) ls) :
    Prints (·.addAll (f :: body)) (ks ++ ls) := hmore.comp h

/-- A fragment below an empty line. -/
theorem paragraph {f : Fragment} (h : Prints (·.add f) ks) : Prints (·.addAll [.blank, f]) ks := by
  have hall := addAll_cons blank (addAll_cons h addAll_nil)
  rwa [List.append_nil] at hall

theorem addAll_append {more : List Fragment} (h : Prints (·.addAll body) ks)
    (hmore : Prints (·.addAll more) ls) : Prints (·.addAll (body ++ more)) (ks ++ ls) := by
  have hall := hmore.comp h
  simp only [Function.comp_def, ← Sheet.addAll_append] at hall
  exact hall

theorem addAll_flatMap {α : Type} {fragments : α → List Fragment} {tokens : α → List TokenKind}
    {as : List α} (h : ∀ a ∈ as, Prints (·.addAll (fragments a)) (tokens a)) :
    Prints (·.addAll (as.flatMap fragments)) (as.flatMap tokens) := by
  induction as with
  | nil => exact addAll_nil
  | cons a as ih =>
      obtain ⟨ha, has⟩ := List.forall_mem_cons.mp h
      exact addAll_append ha (ih has)

/-- The body of a block is one level deeper. -/
theorem indented (h : Prints (·.addAll body) ks) :
    Prints (fun s => (s.indent.addAll body).dedent) ks := by
  intro s
  obtain ⟨cs, hwrite, hlexes⟩ := h s.indent
  have hdeeper : s.indent.addAll body = ⟨s.depth + 1, s.text ++ String.ofList cs⟩ := hwrite
  exact ⟨cs, by simp [hdeeper, Sheet.dedent], hlexes⟩

/-- A block between delimiters. -/
theorem block (hpair : (left, right) ∈ delimiters) (hheader : Spelled endsWord header.toList ks)
    (hbody : Prints (·.addAll body) ls) :
    Prints (·.add (.block (header ++ " " ++ left) body (some right)))
      (ks ++ .op left :: (ls ++ [.op right, .semi true])) := by
  have hdelimiters : ∃ l r : Char, left.toList = [l] ∧ right.toList = [r] ∧
      left ∈ symbols ∧ right ∈ [")", "]", "\x7d"] ∧ (TokenKind.op left).endsStatement = false ∧
      ∀ d, stopsAt (.op left) d = true := by
    simp only [delimiters, List.mem_cons, Prod.mk.injEq, List.not_mem_nil, or_false] at hpair
    rcases hpair with ⟨rfl, rfl⟩ | ⟨rfl, rfl⟩ | ⟨rfl, rfl⟩ <;>
      exact ⟨_, _, rfl, rfl, by decide, by decide, by decide, fun _ => rfl⟩
  obtain ⟨l, r, hleft, hright, hsymbol, hcloses, hends, hstop⟩ := hdelimiters
  have hopen : Prints (·.addLine (header ++ " " ++ left)) (ks ++ [.op left]) :=
    addLine fun rest more hrest => by
      -- an opening delimiter ends no statement, so its line end is blank
      have hbreak : Lexes (TokenKind.op left).endsStatement ('\n' :: rest) more :=
        hends ▸ hrest.newline false
      have hmark := (hbreak.mark true hsymbol fun d _ => hstop d).blank (.inl rfl)
      have hall := hheader.lexes false _ _ (by simp [endsWord]) hmark
      simpa [String.toList_append] using hall
  have hclosing : Spelled endsWord right.toList [.op right] := by
    rw [hright]
    exact .close endsWord r right hright hcloses
  have hclose : Prints (·.add (.line right)) [.op right, .semi true] := statement hclosing
  have hall := hclose.comp ((indented hbody).comp hopen)
  rw [List.append_assoc, List.append_assoc] at hall
  exact hall

end Prints

/-! Statements. -/

namespace SimpleStmt

def tokens : SimpleStmt → List TokenKind
  | define names value =>
      [.op ","].intercalate (names.map fun name => [.ident name]) ++ .op ":=" :: value.tokens
  | assign target value => target.tokens ++ .op "=" :: value.tokens

structure Printed (s : SimpleStmt) : Prop where
  spelled : Spelled endsWord s.text.toList s.tokens
  balanced : Balanced s.tokens

theorem Printed.define {names : List String} {value : Expr}
    (hnames : ∀ name ∈ names, isIdentifier name = true) (h : value.Printed) :
    (SimpleStmt.define names value).Printed where
  spelled := by
    have hitems : ∀ name ∈ names, Spelled endsWord name.toList [.ident name] :=
      fun name hname => (Spelled.ident (hnames name hname)).word
    have hvalue := (h.word.spaced (by decide : ":=" ∈ spacedOperators)).blank
    have hall := hvalue.items (by simp [endsWord]) hitems
    simpa [text, tokens, String.toList_append, String.toList_intercalate,
      Function.comp_def] using hall
  balanced := by
    refine .append (.separated (List.forall_mem_map.mpr fun name _ => ?_)) ?_
    · exact .ident .nil name
    · exact h.balanced.cons rfl rfl (by simp)

theorem Printed.assign {target value : Expr} (htarget : target.Printed) (h : value.Printed) :
    (SimpleStmt.assign target value).Printed where
  spelled := by
    have hall := htarget.word.append h.word.assignment (by simp [endsWord])
    simpa [text, tokens, String.toList_append] using hall
  balanced := htarget.balanced.append (h.balanced.cons rfl rfl (by simp))

end SimpleStmt

/-- A body in braces at the end of a line. -/
def bracedTokens (ks : List TokenKind) : List TokenKind :=
  .op "\x7b" :: (ks ++ [.op "\x7d", .semi true])

theorem balanced_braced {ks : List TokenKind} (h : Balanced ks) : Balanced (bracedTokens ks) := by
  have hbraces : Balanced (.op "\x7b" :: ks ++ [.op "\x7d"]) := .enclosed (by simp [delimiters]) h
  have hall := hbraces.append (Balanced.nil.semi true)
  rwa [List.append_assoc, List.cons_append] at hall

theorem Prints.braced {header : String} {body : List Fragment} {ks ls : List TokenKind}
    (hheader : Spelled endsWord header.toList ks) (hbody : Prints (·.addAll body) ls) :
    Prints (·.add (.braced header body)) (ks ++ bracedTokens ls) := by
  have hall := Prints.block (by simp [delimiters] : ("\x7b", "\x7d") ∈ delimiters) hheader hbody
  rwa [String.append_assoc] at hall

namespace Stmt

/-- The part of a branch before its body. -/
def branchTokens (first : Option SimpleStmt) (condition : Expr) : List TokenKind :=
  match first with
  | some s => .ident "if" :: (s.tokens ++ .semi false :: condition.tokens)
  | none => .ident "if" :: condition.tokens

mutual
def tokens : Stmt → List TokenKind
  | simple s => s.tokens ++ [.semi true]
  | declare name type => [.ident "var", .ident name, .ident type, .semi true]
  | branch first condition body => branchTokens first condition ++ bracedTokens (tokensAll body)
  | loop key value whole body =>
      .ident "for" :: .ident key :: .op "," :: .ident value :: .op ":=" :: .ident "range" ::
        whole.tokens ++ bracedTokens (tokensAll body)
  | result value => .ident "return" :: value.tokens ++ [.semi true]

def tokensAll : List Stmt → List TokenKind
  | [] => []
  | s :: ss => s.tokens ++ tokensAll ss
end

/-- The lexer reads the tokens of a statement from its lines, and their delimiters match. -/
structure Printed (s : Stmt) : Prop where
  prints : Prints (·.add s.fragment) s.tokens
  balanced : Balanced s.tokens

theorem prints_fragments {ss : List Stmt} (h : ∀ s ∈ ss, s.Printed) :
    Prints (·.addAll (fragments ss)) (tokensAll ss) := by
  induction ss with
  | nil => exact Prints.addAll_nil
  | cons s ss ih =>
      obtain ⟨hs, hss⟩ := List.forall_mem_cons.mp h
      exact Prints.addAll_cons hs.prints (ih hss)

theorem balanced_tokensAll {ss : List Stmt} (h : ∀ s ∈ ss, s.Printed) :
    Balanced (tokensAll ss) := by
  induction ss with
  | nil => exact .nil
  | cons s ss ih =>
      obtain ⟨hs, hss⟩ := List.forall_mem_cons.mp h
      exact hs.balanced.append (ih hss)

namespace Printed

variable {first : Option SimpleStmt} {condition value whole : Expr} {body : List Stmt}
  {name type key item : String}

theorem simple {s : SimpleStmt} (h : s.Printed) : (Stmt.simple s).Printed where
  prints := .statement h.spelled
  balanced := h.balanced.append (Balanced.nil.semi true)

theorem declare (hname : isIdentifier name = true) (htype : isIdentifier type = true) :
    (Stmt.declare name type).Printed where
  prints := by
    have hline := ((Spelled.ident htype).word.keyword name hname).keyword "var" (by decide)
    have hall : Prints (·.add (.line ("var " ++ name ++ " " ++ type))) _ :=
      .statement (by simpa [String.toList_append] using hline)
    exact hall
  balanced := .ident (.ident (.ident (Balanced.nil.semi true) type) name) "var"

theorem result (h : value.Printed) : (Stmt.result value).Printed where
  prints := by
    have hline := h.word.keyword "return" (by decide)
    have hall : Prints (·.add (.line ("return " ++ value.text))) _ :=
      .statement (by simpa [String.toList_append] using hline)
    exact hall
  balanced := (h.balanced.ident "return").append (Balanced.nil.semi true)

theorem spelled_branchHeader (hfirst : ∀ s ∈ first, s.Printed) (h : condition.Printed) :
    Spelled endsWord (branchHeader first condition).toList (branchTokens first condition) := by
  cases first with
  | none =>
      have hall := h.word.keyword "if" (by decide)
      simpa [branchHeader, branchTokens, String.toList_append] using hall
  | some s =>
      have hall := ((hfirst s rfl).spelled.append h.word.blank.semicolon
        (by simp [endsWord])).keyword "if" (by decide)
      simpa [branchHeader, branchTokens, String.toList_append] using hall

theorem balanced_branchTokens (hfirst : ∀ s ∈ first, s.Printed) (h : condition.Printed) :
    Balanced (branchTokens first condition) := by
  cases first with
  | none => exact h.balanced.ident "if"
  | some s => exact ((hfirst s rfl).balanced.append (h.balanced.semi false)).ident "if"

theorem branch (hfirst : ∀ s ∈ first, s.Printed) (h : condition.Printed)
    (hbody : ∀ s ∈ body, s.Printed) : (Stmt.branch first condition body).Printed where
  prints := .braced (spelled_branchHeader hfirst h) (prints_fragments hbody)
  balanced := (balanced_branchTokens hfirst h).append (balanced_braced (balanced_tokensAll hbody))

theorem loop (hkey : isIdentifier key = true) (hitem : isIdentifier item = true)
    (h : whole.Printed) (hbody : ∀ s ∈ body, s.Printed) :
    (Stmt.loop key item whole body).Printed where
  prints := by
    have hrange := (h.word.keyword "range" (by decide)).spaced (by decide : ":=" ∈ spacedOperators)
    have hvalue := (Spelled.ident hitem).append hrange.blank (by simp [endsName, endsWord])
    have hkey := (Spelled.ident hkey).append (hvalue.blank.punct ',' "," (by decide))
      (by simp [endsName, endsWord])
    have hheader := hkey.keyword "for" (by decide)
    refine .braced ?_ (prints_fragments hbody)
    simpa [loopHeader, String.toList_append] using hheader
  balanced := by
    have hrange := (h.balanced.ident "range").cons (k := .op ":=") rfl rfl (by simp)
    have hpair := (hrange.ident item).cons (k := .op ",") rfl rfl (by simp)
    exact ((hpair.ident key).ident "for").append (balanced_braced (balanced_tokensAll hbody))

end Printed

end Stmt

/-! Methods and files. -/

namespace Method

def receiverTokens (m : Method) : List TokenKind :=
  .ident "r" :: ((if m.pointer then [.op "*"] else []) ++ [.ident m.receiver])

def tokens (m : Method) : List TokenKind :=
  .ident "func" :: .op "(" :: (m.receiverTokens ++ .op ")" :: .ident m.name :: .op "(" ::
    .op ")" :: .ident "error" :: bracedTokens (Stmt.tokensAll m.body))

/-- The names of a method are identifiers, and its statements are read back. -/
structure Printed (m : Method) : Prop where
  receiver : isIdentifier m.receiver = true
  name : isIdentifier m.name = true
  body : ∀ s ∈ m.body, s.Printed

namespace Printed

variable {m : Method}

theorem spelled_signature (h : m.Printed) : Spelled endsWord m.signature.toList
    (.ident "func" :: .op "(" :: (m.receiverTokens ++ [.op ")", .ident m.name, .op "(", .op ")",
      .ident "error"])) := by
  have herror := (Spelled.ident (by decide : isIdentifier "error" = true)).word.blank
  have hparams := (herror.punct ')' ")" (by decide)).punct '(' "(" (by decide)
  have hname := (Spelled.ident h.name).append hparams (by simp [endsName, endsWord])
  have hreceiver := (Spelled.ident h.receiver).append (hname.blank.punct ')' ")" (by decide))
    (by simp [endsName, endsWord])
  cases hpointer : m.pointer with
  | false =>
      have hopened := (hreceiver.keyword "r" (by decide)).punct '(' "(" (by decide)
      have hall := hopened.keyword "func" (by decide)
      simpa [signature, receiverTokens, hpointer, String.toList_append] using hall
  | true =>
      have hopened := (hreceiver.star.keyword "r" (by decide)).punct '(' "(" (by decide)
      have hall := hopened.keyword "func" (by decide)
      simpa [signature, receiverTokens, hpointer, String.toList_append] using hall

theorem prints (h : m.Printed) : Prints (·.add m.fragment) m.tokens := by
  have hall := Prints.braced h.spelled_signature (Stmt.prints_fragments h.body)
  have htokens : m.tokens = .ident "func" :: .op "(" :: (m.receiverTokens ++
      [.op ")", .ident m.name, .op "(", .op ")", .ident "error"]) ++
        bracedTokens (Stmt.tokensAll m.body) := by
    simp [tokens]
  rw [htokens]
  exact hall

theorem balanced_receiver (m : Method) : Balanced m.receiverTokens := by
  have hname : Balanced [.ident m.receiver] := .ident .nil m.receiver
  unfold receiverTokens
  split
  · exact (hname.cons rfl rfl (by simp)).ident "r"
  · exact hname.ident "r"

end Printed

theorem balanced_tokens {m : Method} (h : m.Printed) : Balanced m.tokens := by
  have hbody := balanced_braced (Stmt.balanced_tokensAll h.body)
  have hparams : Balanced [.op "(", .op ")"] := .enclosed (by simp [delimiters]) .nil
  have hreceiver : Balanced (.op "(" :: m.receiverTokens ++ [.op ")"]) :=
    .enclosed (by simp [delimiters]) (Printed.balanced_receiver m)
  have hall := (hreceiver.append ((hparams.append (hbody.ident "error")).ident m.name)).ident "func"
  simpa [tokens] using hall

end Method

namespace GoFile

def importTokens : List String → List TokenKind
  | [] => []
  | [path] => [.ident "import", .literal .str (quote path), .semi true]
  | paths =>
      .ident "import" :: .op "(" ::
        (paths.flatMap (fun path => [.literal .str (quote path), .semi true]) ++
          [.op ")", .semi true])

/-- The tokens of a file without the end. -/
def tokens (f : GoFile) : List TokenKind :=
  .ident "package" :: .ident f.package :: .semi true ::
    (importTokens f.imports ++ f.methods.flatMap Method.tokens)

/-- A file with a comment as its header, and methods that are read back. -/
structure Printed (f : GoFile) : Prop where
  header : ∃ more, f.header.toList = '/' :: '/' :: more
  line : '\n' ∉ f.header.toList
  package : isIdentifier f.package = true
  methods : ∀ m ∈ f.methods, m.Printed

theorem spelled_quote (path : String) :
    Spelled endsWord (quote path).toList [.literal .str (quote path)] :=
  .literal (isLiteral_quote path)

theorem prints_imports (paths : List String) :
    Prints (·.addAll (importFragments paths)) (importTokens paths) := by
  unfold importFragments importTokens
  split
  · exact Prints.addAll_nil
  · rename_i path
    have hline : Prints (·.add (.line ("import " ++ quote path))) _ :=
      .statement (by
        simpa [String.toList_append] using (spelled_quote path).keyword "import" (by decide))
    exact hline.paragraph
  · have hpaths : Prints (·.addAll (paths.map fun path => .line (quote path)))
        (paths.flatMap fun path => [.literal .str (quote path), .semi true]) := by
      rw [List.map_eq_flatMap]
      refine Prints.addAll_flatMap fun path _ => ?_
      exact Prints.addAll_cons (Prints.statement (spelled_quote path)) Prints.addAll_nil
    have hblock := Prints.block (by simp [delimiters] : ("(", ")") ∈ delimiters)
      (Spelled.ident (by decide : isIdentifier "import" = true)).word hpaths
    simpa using hblock.paragraph

theorem balanced_paths (paths : List String) :
    Balanced (paths.flatMap fun path => [.literal .str (quote path), .semi true]) :=
  .flatMap fun _ _ => (Balanced.nil.semi true).literal .str _

theorem balanced_imports (paths : List String) : Balanced (importTokens paths) := by
  unfold importTokens
  split
  · exact .nil
  · exact ((Balanced.nil.semi true).literal .str _).ident "import"
  · have hblock : Balanced (.op "(" :: _ ++ [.op ")"]) :=
      .enclosed (by simp [delimiters]) (balanced_paths paths)
    have hall := (hblock.append (Balanced.nil.semi true)).ident "import"
    simpa using hall

namespace Printed

variable {f : GoFile}

theorem prints (h : f.Printed) : Prints (·.addAll f.fragments) f.tokens := by
  obtain ⟨more, hheader⟩ := h.header
  have hcomment := Prints.comment hheader h.line
  have hpackage : Prints (·.add (.line ("package " ++ f.package))) _ :=
    .statement (by
      simpa [String.toList_append] using
        (Spelled.ident h.package).word.keyword "package" (by decide))
  have hmethods : Prints (·.addAll (f.methods.flatMap fun m => [.blank, m.fragment]))
      (f.methods.flatMap Method.tokens) :=
    Prints.addAll_flatMap fun m hm => (h.methods m hm).prints.paragraph
  have hclause := Prints.addAll_cons hcomment (Prints.addAll_cons Prints.blank
    (Prints.addAll_cons hpackage Prints.addAll_nil))
  have hfront := Prints.addAll_append hclause (prints_imports f.imports)
  have hall := Prints.addAll_append hfront hmethods
  simpa [fragments, tokens] using hall

theorem balanced (h : f.Printed) : Balanced f.tokens := by
  have hmethods : Balanced (f.methods.flatMap Method.tokens) :=
    .flatMap fun m hm => Method.balanced_tokens (h.methods m hm)
  exact ((((balanced_imports f.imports).append hmethods).semi true).ident f.package).ident "package"

/-- The text starts with the header. -/
theorem head?_render (h : f.Printed) : f.render.toList.head? = some '/' := by
  obtain ⟨more, hheader⟩ := h.header
  obtain ⟨rest, hrest⟩ := f.exists_render_eq
  simp [hrest, hheader]

/-- The lexer reads the tokens of a file from its text. -/
theorem exists_tokenize (h : f.Printed) :
    ∃ stream, tokenize f.render = .ok stream ∧
      stream.tokens.map Token.kind = f.tokens ++ [.eof] := by
  obtain ⟨cs, hwrite, hlexes⟩ := h.prints .empty
  have htext : f.render.toList = cs := by
    have hsheet : Sheet.empty.addAll f.fragments = ⟨0, "" ++ String.ofList cs⟩ := hwrite
    simp [render, Fragment.render, hsheet]
  have hall := hlexes [] _ (lexes_nil false)
  rw [List.append_nil, ← htext] at hall
  refine hall.tokenize ?_
  rw [h.head?_render]
  decide

theorem silent_imports (paths : List String) {ks : List TokenKind} (h : Silent ks) :
    Silent (importTokens paths ++ ks) := by
  unfold importTokens
  split
  · exact h
  · exact h.importLine _
  · simpa using (h.semi true).importBlock (balanced_paths paths)

theorem silent_methods {ms : List Method} (h : ∀ m ∈ ms, m.Printed) {ks : List TokenKind}
    (hks : Silent ks) : Silent (ms.flatMap Method.tokens ++ ks) := by
  induction ms with
  | nil => exact hks
  | cons m ms ih =>
      obtain ⟨hm, hms⟩ := List.forall_mem_cons.mp h
      have hmethod := ((ih hms).semi true).method m.name (Method.Printed.balanced_receiver m)
        (Stmt.balanced_tokensAll hm.body)
      simpa [Method.tokens, bracedTokens] using hmethod

/-- The parser finds the package of a file, and no declarations of types or constants. -/
theorem exists_parseSource (h : f.Printed) :
    ∃ file, parseSource f.render = .ok file ∧ file.package.name = f.package ∧ file.decls = [] := by
  obtain ⟨stream, hstream, hkinds⟩ := h.exists_tokenize
  have hsilent : Silent (.semi true :: (importTokens f.imports ++
      (f.methods.flatMap Method.tokens ++ [.eof]))) :=
    (silent_imports f.imports (silent_methods h.methods .eof)).semi true
  rw [parseSource, hstream]
  exact parseTokens_silent hsilent (by simpa [tokens] using hkinds)

end Printed

end GoFile

end FieldRules
