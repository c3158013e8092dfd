/-
Types and the lines of structs as tokens, in all forms that Go has.  Tokens come with what they
are, and the grammar tells apart the structs in which some line embeds an instance of a generic
type by its name alone, without a package or a star.
-/
import FieldRules.Proofs.Source.Grammar
import FieldRules.Proofs.Source.Skipping

namespace FieldRules

/-! Tokens. -/

/-- An operator or a delimiter. -/
structure SymbolToken (symbol : String) where
  token : Token
  kind_eq : token.kind = .op symbol

/-- A word of the language. -/
structure KeywordToken (word : String) where
  token : Token
  kind_eq : token.kind = .ident word

/-- A name, which is no word of the language. -/
structure NameToken where
  token : Token
  name : String
  kind_eq : token.kind = .ident name
  plain : name ∉ keywords

def NameToken.ident (n : NameToken) : Ident := ⟨n.name, n.token.span⟩

structure TagToken where
  token : Token
  text : String
  kind_eq : token.kind = .literal .str text

/-- Delimiters with what stands between them. -/
structure Delimited (left right : String) where
  opening : SymbolToken left
  inside : List Token
  level : Level inside
  closing : SymbolToken right

def Delimited.tokens {left right : String} (e : Delimited left right) : List Token :=
  e.opening.token :: (e.inside ++ [e.closing.token])

/-- A part of a line in brackets that is not empty: type arguments, or the length of an array. -/
structure Bracketed extends Delimited "[" "]" where
  nonempty : inside ≠ []
  unbroken : Unbroken inside

/-- The name of a type, with the package before it and type arguments after it where it has
them. -/
structure TypeNameTokens where
  package : Option (NameToken × SymbolToken ".")
  name : NameToken
  arguments : Option Bracketed

def argumentsTokens (arguments : Option Bracketed) : List Token :=
  arguments.elim [] fun a => a.tokens

def TypeNameTokens.tokens (t : TypeNameTokens) : List Token :=
  (t.package.elim [] fun (package, dot) => [package.token, dot.token]) ++
    t.name.token :: argumentsTokens t.arguments

/-! Lines of structs. -/

def tagTokens (tag : Option TagToken) : List Token := tag.elim [] fun t => [t.token]

/-- Names behind a first one. -/
def namesAfter (more : List (SymbolToken "," × NameToken)) : List Token :=
  more.flatMap fun (comma, name) => [comma.token, name.token]

/-- An embedded field. -/
structure Embedding where
  star : Option (SymbolToken "*")
  type : TypeNameTokens
  tag : Option TagToken

/-- Whether an instance of a generic type is embedded by its name alone. -/
def Embedding.isBare (e : Embedding) : Bool :=
  e.star.isNone && e.type.package.isNone && e.type.arguments.isSome

/-- A line of a struct: fields with names, or an embedded one. -/
inductive StructLine where
  | named (first : NameToken) (more : List (SymbolToken "," × NameToken)) (type : List Token)
      (tag : Option TagToken)
  | embedded (e : Embedding)

namespace StructLine

def isEmbedded : StructLine → Bool
  | named _ _ _ _ => false
  | embedded _ => true

/-- The names in front of the type. -/
def names : StructLine → List NameToken
  | named first more _ _ => first :: more.map Prod.snd
  | embedded _ => []

def namesTokens : StructLine → List Token
  | named first more _ _ => first.token :: namesAfter more
  | embedded _ => []

def typeTokens : StructLine → List Token
  | named _ _ type _ => type
  | embedded e => (e.star.elim [] fun star => [star.token]) ++ e.type.tokens

def tag : StructLine → Option TagToken
  | named _ _ _ tag => tag
  | embedded e => e.tag

def tokens (line : StructLine) : List Token :=
  line.namesTokens ++ line.typeTokens ++ tagTokens line.tag

end StructLine

/-- Tokens of lines with a semicolon after each, which the last one may lack. -/
inductive LaidOut : List StructLine → List Token → Prop
  | nil : LaidOut [] []
  | last (line : StructLine) : LaidOut [line] line.tokens
  | cons (line : StructLine) {semi : Token} (hsemi : semi.kind.isSemi = true)
      {lines : List StructLine} {ts : List Token} (hlines : LaidOut lines ts) :
      LaidOut (line :: lines) (line.tokens ++ semi :: ts)

/-! Types. -/

mutual

/-- The tokens of a type.  It is clean if in no struct inside of it an instance is embedded
bare.  What stands in interfaces and among parameters is not looked into. -/
inductive IsType : (clean : Bool) → List Token → Prop
  | name (t : TypeNameTokens) : IsType true t.tokens
  | pointer (star : SymbolToken "*") {clean : Bool} {elem : List Token}
      (helem : IsType clean elem) : IsType clean (star.token :: elem)
  | slice (opening : SymbolToken "[") (closing : SymbolToken "]") {clean : Bool}
      {elem : List Token} (helem : IsType clean elem) :
      IsType clean (opening.token :: closing.token :: elem)
  | array (length : Bracketed) {clean : Bool} {elem : List Token} (helem : IsType clean elem) :
      IsType clean (length.tokens ++ elem)
  | map (word : KeywordToken "map") (opening : SymbolToken "[") (closing : SymbolToken "]")
      {clean clean' : Bool} {key value : List Token} (hkey : IsType clean key)
      (hvalue : IsType clean' value) :
      IsType (clean && clean') (word.token :: opening.token :: (key ++ closing.token :: value))
  | struct (word : KeywordToken "struct") (opening : SymbolToken "\x7b")
      (closing : SymbolToken "\x7d") {clean : Bool} {lines : List StructLine} {body : List Token}
      (hlines : AreLines clean lines) (hbody : LaidOut lines body) :
      IsType clean (word.token :: opening.token :: (body ++ [closing.token]))
  | interface (word : KeywordToken "interface") (body : Delimited "\x7b" "\x7d") :
      IsType true (word.token :: body.tokens)
  | func (word : KeywordToken "func") (parameters : Delimited "(" ")") :
      IsType true (word.token :: parameters.tokens)
  | funcResults (word : KeywordToken "func") (parameters results : Delimited "(" ")") :
      IsType true (word.token :: (parameters.tokens ++ results.tokens))
  | funcResult (word : KeywordToken "func") (parameters : Delimited "(" ")") {clean : Bool}
      {result : List Token} (hresult : IsType clean result) (hparen : nextKind result ≠ .op "(") :
      IsType clean (word.token :: (parameters.tokens ++ result))
  | chan (word : KeywordToken "chan") {clean : Bool} {elem : List Token}
      (helem : IsType clean elem) (harrow : nextKind elem ≠ .op "<-") :
      IsType clean (word.token :: elem)
  | send (word : KeywordToken "chan") (arrow : SymbolToken "<-") {clean : Bool}
      {elem : List Token} (helem : IsType clean elem) :
      IsType clean (word.token :: arrow.token :: elem)
  | receive (arrow : SymbolToken "<-") (word : KeywordToken "chan") {clean : Bool}
      {elem : List Token} (helem : IsType clean elem) :
      IsType clean (arrow.token :: word.token :: elem)
  | parens (opening : SymbolToken "(") (closing : SymbolToken ")") {clean : Bool}
      {inner : List Token} (hinner : IsType clean inner) :
      IsType clean (opening.token :: (inner ++ [closing.token]))

/-- Lines of a struct, whose named fields have types. -/
inductive AreLines : (clean : Bool) → List StructLine → Prop
  | nil : AreLines true []
  | named (first : NameToken) (more : List (SymbolToken "," × NameToken)) (tag : Option TagToken)
      {clean clean' : Bool} {type : List Token} {lines : List StructLine}
      (htype : IsType clean type) (hlines : AreLines clean' lines) :
      AreLines (clean && clean') (.named first more type tag :: lines)
  | embedded (e : Embedding) {clean : Bool} {lines : List StructLine}
      (hlines : AreLines clean lines) : AreLines (!e.isBare && clean) (.embedded e :: lines)

end

end FieldRules
