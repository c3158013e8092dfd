/-
The front end is safe on every text: no reader goes past the token that ends the file, and
whatever is cut out of the text or named in an error is a slice of it.
-/
import FieldRules.Proofs.Source.DeclReaders

namespace FieldRules

variable (src : SourceText) (tokens : List Token)

/-- A reader that may start at any token.  It uses tokens, leaves the one that ends the file
ahead and gives a value with property `P`; or its error names a slice of the text. -/
def ReadsSafely {α : Type} (P : α → Prop)
    (reader : (ts : List Token) → Except SourceError (Reading α ts.length)) : Prop :=
  ∀ ts, Passes tokens ts → Settles src.chars (Takes ts P) (reader ts)

/-- A reader that keeps nothing and may skip nothing. -/
def SkipsSafely (skip : (ts : List Token) → Except SourceError (Remaining ts)) : Prop :=
  ∀ ts, Passes tokens ts → Settles src.chars (fun left => Passes ts left.1) (skip ts)

/-- Every reader, at every token of the file. -/
structure ReadersSafe : Prop where
  /-- From the start of a token to the end of the same or a later one there is a slice. -/
  slices : ∀ t ts rest stop, Passes tokens (t :: ts) → Reaches (t :: ts) rest stop →
    Span.Cuts ⟨t.span.start, stop⟩ src.chars
  op : ∀ symbol, ReadsSafely src tokens (Token.StandsIn src.chars) (expectOp symbol)
  ident : ∀ what, ReadsSafely src tokens (Ident.StandsIn src.chars) (expectIdent what)
  identList : ∀ what, ReadsSafely src tokens (fun names => ∀ i ∈ names, i.StandsIn src.chars)
    (identList what)
  closed : ∀ t ts, Passes tokens (t :: ts) → t.kind.opens = true →
    Settles src.chars (Takes ts fun _ => True) (skipClosed t ts)
  semis : ∀ ts, Passes tokens ts → Passes ts (dropSemis ts)
  skipUntil : ∀ halts, SkipsSafely src tokens (skipUntil halts)
  declaration : SkipsSafely src tokens skipDeclaration
  function : ∀ typeWord, SkipsSafely src tokens (skipFunction typeWord)
  typeParams : SkipsSafely src tokens fun ts => (skipTypeParams ts).map Prod.snd
  namedType : ReadsSafely src tokens (TypeExpr.StandsIn src.chars) (namedType src)
  type : ReadsSafely src tokens (TypeExpr.StandsIn src.chars) (parseType src)
  signature : ReadsSafely src tokens (fun _ => True) (skipSignature src)
  fields : ReadsSafely src tokens (fun lines => ∀ line ∈ lines, line.StandsIn src.chars)
    (structFields src)
  fieldLine : ReadsSafely src tokens (FieldLine.StandsIn src.chars) (fieldLine src)
  exprs : ReadsSafely src tokens (fun values => ∀ v ∈ values, v.StandsIn src.chars) (exprList src)
  constSpec : ∀ index, ReadsSafely src tokens (ConstSpec.StandsIn src.chars) (constSpec src index)
  constSpecs : ReadsSafely src tokens (fun all => ∀ s ∈ all.2, s.StandsIn src.chars)
    (specs (FieldRules.constSpec src))
  typeSpec : ReadsSafely src tokens (TypeSpec.StandsIn src.chars) (typeSpec src)
  typeSpecs : ReadsSafely src tokens (fun all => ∀ s ∈ all.2, s.StandsIn src.chars)
    (specs fun _ => FieldRules.typeSpec src)
  declarations : ∀ ts, Passes tokens ts →
    Settles src.chars (fun decls => ∀ d ∈ decls, d.StandsIn src.chars) (declarations src ts)

variable {src tokens}

theorem Ahead.readersSafe (hsrc : src.Sound) (h : Ahead src.chars tokens) :
    ReadersSafe src tokens where
  slices _ _ _ _ hpasses hreaches := (h.passes hpasses).cuts hreaches
  op symbol _ hpasses := expectOp_settles symbol (h.passes hpasses)
  ident what _ hpasses :=
    (expectIdent_settles what (h.passes hpasses)).mono fun _ hreads => hreads.mono fun _ => And.left
  identList what _ hpasses := identList_settles what (h.passes hpasses)
  closed _ _ hpasses hopens := skipClosed_opens (h.passes hpasses) hopens
  semis _ hpasses := (h.passes hpasses).passes_dropSemis
  skipUntil halts _ hpasses := skipUntil_settles halts (h.passes hpasses)
  declaration _ hpasses := skipDeclaration_settles (h.passes hpasses)
  function typeWord _ hpasses := skipFunction_settles typeWord (h.passes hpasses)
  typeParams _ hpasses := (skipTypeParams_settles (h.passes hpasses)).map fun _ => id
  namedType _ hpasses := namedType_settles (h.passes hpasses)
  type _ hpasses := parseType_settles hsrc _ (h.passes hpasses)
  signature _ hpasses := skipSignature_settles hsrc _ (h.passes hpasses)
  fields _ hpasses :=
    (structFields_settles hsrc _ (h.passes hpasses)).mono fun _ hreads =>
      hreads.mono fun _ => (fieldsStandIn_iff src.chars).mp
  fieldLine _ hpasses := fieldLine_settles hsrc _ (h.passes hpasses)
  exprs _ hpasses := exprList_settles _ (h.passes hpasses)
  constSpec index _ hpasses := constSpec_settles hsrc index (h.passes hpasses)
  constSpecs _ hpasses :=
    specs_settles (fun index _ => constSpec_settles hsrc index) (h.passes hpasses)
  typeSpec _ hpasses := typeSpec_settles hsrc (h.passes hpasses)
  typeSpecs _ hpasses := specs_settles (fun _ _ => typeSpec_settles hsrc) (h.passes hpasses)
  declarations _ hpasses := declarations_settles hsrc _ (h.passes hpasses)

/-- The lexer, every reader and the reading of the whole text. -/
structure FrontEndSafe (text : String) : Prop where
  lexeme : ∀ before c after, text.toList = before ++ c :: after →
    Settles text.toList (fun found => found.2 ≤ after.length)
      (lexemeAt (utf8Length before) c after)
  readers : Settles text.toList
    (fun stream => stream.Covers text.toList ∧
      Ahead text.toList stream.tokens ∧ ReadersSafe ⟨text.toList, stream.groups⟩ stream.tokens)
    (tokenize text)
  tree : Settles text.toList (SourceFile.StandsIn text.toList) (parseSource text)

/-- The front end is safe on every text. -/
theorem frontEnd_safe (text : String) : FrontEndSafe text where
  lexeme _ _ _ htext := htext ▸ settles_lexemeAt
  readers := (settles_tokenize text).mono fun _ hcovers =>
    ⟨hcovers, hcovers.ahead, hcovers.ahead.readersSafe hcovers.sound⟩
  tree := parseSource_settles text

end FieldRules
