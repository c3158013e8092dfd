/-
Cutting a Go text into lexemes: blanks, line ends, comments and tokens.  Nothing
is dropped, so the lexemes of a text put together are the text.
-/
import FieldRules.Source.Failure
import FieldRules.Text.Slice

namespace FieldRules

inductive LexemeClass where
  | blank
  | newline
  | comment
  | token (kind : TokenKind)
deriving DecidableEq, Repr

/-- A piece of the text with the place where it starts. -/
structure Lexeme where
  cls : LexemeClass
  chars : List Char
  start : Nat
  line : Nat
deriving DecidableEq, Repr

namespace Lexeme

def stop (x : Lexeme) : Nat := x.start + utf8Length x.chars

def span (x : Lexeme) : Span := ⟨x.start, x.stop⟩

/-- The line of the character after the lexeme. -/
def endLine (x : Lexeme) : Nat := x.line + x.chars.count '\n'

end Lexeme

/-- Operators and delimiters, longer ones before those they start with. -/
def operators : List String :=
  ["<<=", ">>=", "&^=", "...", "&&", "||", "<-", "++", "--", "==", "!=", "<=", ">=", ":=",
   "+=", "-=", "*=", "/=", "%=", "&=", "|=", "^=", "<<", ">>", "&^", "+", "-", "*", "/", "%",
   "&", "|", "^", "<", ">", "=", "!", "(", ")", "[", "]", "\x7b", "\x7d", ",", ".", ":", "~"]

/-- The longest operator at the start of the text. -/
def operatorAt? (cs : List Char) : Option String :=
  operators.find? fun symbol => symbol.toList.isPrefixOf cs

def startsIdent (c : Char) : Bool := isAlphabetic c || c == '_'

def continuesIdent (c : Char) : Bool := isAlphanumeric c || c == '_'

/-- Characters up to and including the end of a block comment. -/
def blockLength? : List Char → Option Nat
  | [] => none
  | [_] => none
  | c :: d :: cs => if c = '*' ∧ d = '/' then some 2 else (blockLength? (d :: cs)).map (· + 1)

/-- Characters up to and including the closing quote, on one line.  A backslash
takes the next character with it. -/
def quotedLength? (quote : Char) : List Char → Option Nat
  | [] => none
  | c :: cs =>
      if c = '\n' then none
      else if c = '\\' then
        match cs with
        | [] => none
        | d :: ds => if d = '\n' then none else (quotedLength? quote ds).map (· + 2)
      else if c = quote then some 1
      else (quotedLength? quote cs).map (· + 1)

/-- Characters up to and including the closing backquote. -/
def rawLength? : List Char → Option Nat
  | [] => none
  | c :: cs => if c = '\x60' then some 1 else (rawLength? cs).map (· + 1)

/-- Whether `c` announces the exponent of a number. -/
def startsExponent (hex : Bool) (c : Char) : Bool :=
  if hex then c == 'p' || c == 'P' else c == 'e' || c == 'E'

/-- How many characters belong to a number, and whether a point or an exponent
is among them.  A sign belongs to it only right after an exponent letter. -/
def numberExtent (hex signed : Bool) : List Char → Nat × Bool
  | [] => (0, false)
  | c :: cs =>
      if signed && (c = '+' || c = '-') then
        let (length, float) := numberExtent hex false cs
        (length + 1, float)
      else if startsExponent hex c then ((numberExtent hex true cs).1 + 1, true)
      else if c = '.' then ((numberExtent hex false cs).1 + 1, true)
      else if c.isAlphanum || c = '_' then
        let (length, float) := numberExtent hex false cs
        (length + 1, float)
      else (0, false)

/-- The kind of number with this spelling. -/
def numberKind (cs : List Char) (float : Bool) : LiteralKind :=
  if cs.getLast? = some 'i' then .imag else if float then .float else .int

/-- A lexeme that is not a comment, starting with `c`: its class and how many
further characters belong to it. -/
def tokenAt (pos : Nat) (c : Char) (cs : List Char) : Except SourceError (TokenKind × Nat) :=
  if startsIdent c then
    let more := (cs.takeWhile continuesIdent).length
    .ok (.ident (String.ofList (c :: cs.take more)), more)
  else if c.isDigit || (c = '.' && (cs.head?.any Char.isDigit)) then
    let hex := c = '0' && (cs.head? == some 'x' || cs.head? == some 'X')
    let (length, float) := numberExtent hex false (c :: cs)
    let spelling := c :: cs.take (length - 1)
    .ok (.literal (numberKind spelling float) (String.ofList spelling), length - 1)
  else if c = '"' then
    match quotedLength? '"' cs with
    | some more => .ok (.literal .str (String.ofList (c :: cs.take more)), more)
    | none => .error (.unterminated .interpreted ⟨pos, pos + 1⟩)
  else if c = '\x60' then
    match rawLength? cs with
    | some more => .ok (.literal .str (String.ofList (c :: cs.take more)), more)
    | none => .error (.unterminated .raw ⟨pos, pos + 1⟩)
  else if c = '\'' then
    match quotedLength? '\'' cs with
    | some more => .ok (.literal .char (String.ofList (c :: cs.take more)), more)
    | none => .error (.unterminated .rune ⟨pos, pos + 1⟩)
  else if c = ';' then .ok (.semi false, 0)
  else
    match operatorAt? (c :: cs) with
    | some symbol => .ok (.op symbol, symbol.length - 1)
    | none => .error (.unexpectedChar c ⟨pos, pos + c.utf8Size⟩)

/-- The lexeme that starts with `c`: its class and how many further characters
belong to it. -/
def lexemeAt (pos : Nat) (c : Char) (cs : List Char) : Except SourceError (LexemeClass × Nat) :=
  if c = ' ' || c = '\t' || c = '\r' then .ok (.blank, 0)
  else if c = '\n' then .ok (.newline, 0)
  else if c = '/' && cs.head? == some '/' then
    .ok (.comment, (cs.takeWhile (· != '\n')).length)
  else if c = '/' && cs.head? == some '*' then
    match blockLength? cs.tail with
    | some more => .ok (.comment, more + 1)
    | none => .error (.unterminated .comment ⟨pos, pos + 2⟩)
  else (tokenAt pos c cs).map fun (kind, more) => (.token kind, more)

/-- Cut a text that starts at byte `pos` on line `line`. -/
def lexemesFrom (pos line : Nat) : List Char → Except SourceError (List Lexeme)
  | [] => .ok []
  | c :: cs => do
      let (cls, more) ← lexemeAt pos c cs
      let x : Lexeme := ⟨cls, c :: cs.take more, pos, line⟩
      let rest ← lexemesFrom x.stop x.endLine (cs.drop more)
      return x :: rest
termination_by cs => cs.length
decreasing_by simp only [List.length_drop, List.length_cons]; omega

/-- The byte order mark that may start a text. -/
def byteOrderMark : Char := Char.ofNat 0xfeff

/-- The lexemes of a text.  A byte order mark at its start counts as a blank. -/
def lexemes : List Char → Except SourceError (List Lexeme)
  | [] => .ok []
  | c :: cs =>
      if c = byteOrderMark then do
        let mark : Lexeme := ⟨.blank, [c], 0, 1⟩
        let rest ← lexemesFrom mark.stop 1 cs
        return mark :: rest
      else lexemesFrom 0 1 (c :: cs)

theorem lexemesFrom_nil (pos line : Nat) : lexemesFrom pos line [] = .ok [] := by
  rw [lexemesFrom]

/-- Cutting loses nothing. -/
theorem flatten_lexemesFrom {pos line : Nat} {cs : List Char} {xs : List Lexeme}
    (h : lexemesFrom pos line cs = .ok xs) : (xs.map Lexeme.chars).flatten = cs := by
  induction pos, line, cs using lexemesFrom.induct generalizing xs with
  | case1 pos line =>
      rw [lexemesFrom_nil] at h
      cases h
      rfl
  | case2 pos line c cs ih =>
      rw [lexemesFrom] at h
      cases hx : lexemeAt pos c cs with
      | error e => simp [hx, bind, Except.bind] at h
      | ok found =>
          obtain ⟨cls, more⟩ := found
          simp only [hx, bind, Except.bind] at h
          split at h
          · cases h
          · rename_i rest hrest
            cases h
            have := ih cls more hrest
            simp [this]

end FieldRules
