/-
From lexemes to tokens and comment groups: line ends that finish a statement
become semicolons, and each token learns which comment group documents it.
-/
import FieldRules.Source.Lexeme

namespace FieldRules

/-- The tokens of a file, ended by one `eof`, and its comment groups. -/
structure TokenStream where
  tokens : List Token
  groups : List CommentGroup
deriving DecidableEq, Repr

namespace Lexeme

/-- A line comment ends before the carriage returns of its line end. -/
def commentText (x : Lexeme) : List Char :=
  if x.chars.take 2 == ['/', '/'] then dropEndWhile (· == '\r') x.chars else x.chars

def toComment (x : Lexeme) : Comment := ⟨String.ofList x.commentText, x.span⟩

end Lexeme

namespace CommentGroup

/-- Whether a comment that starts on `line` belongs to the group.  A trailing
group goes on only along the line where it ends. -/
def adjoins (g : CommentGroup) (line : Nat) : Bool :=
  if g.trailing then line == g.endLine else line ≤ g.endLine + 1

def extend (g : CommentGroup) (x : Lexeme) : CommentGroup :=
  { g with comments := g.comments ++ [x.toComment], endLine := x.endLine }

def single (x : Lexeme) (trailing : Bool) : CommentGroup :=
  ⟨[x.toComment], x.line, x.endLine, trailing⟩

/-- Whether the group documents a token on `line`. -/
def documents (g : CommentGroup) (line : Nat) : Bool :=
  !g.trailing && g.endLine + 1 == line

end CommentGroup

/-- Add a comment to the groups of one gap between tokens.  The first group is
trailing when it starts on the line where the token before the gap ends. -/
def addComment (lastLine : Option Nat) (gap : List CommentGroup) (x : Lexeme) :
    List CommentGroup :=
  match gap.getLast? with
  | none => [.single x (lastLine == some x.line)]
  | some g =>
      if g.adjoins x.line then gap.dropLast ++ [g.extend x] else gap ++ [.single x false]

/-- What the layout remembers between two lexemes. -/
structure LayoutState where
  pos : Nat
  line : Nat
  /-- The last token ends a statement and no semicolon followed yet. -/
  ends : Bool
  /-- The line where the last token ends. -/
  lastLine : Option Nat
  /-- Groups since the last token. -/
  gap : List CommentGroup
  /-- How many groups stand before the gap. -/
  closed : Nat

namespace LayoutState

def initial : LayoutState := ⟨0, 1, false, none, [], 0⟩

/-- The semicolon for a line end at the given place, where one is due. -/
def semi (s : LayoutState) (pos line : Nat) : List Token :=
  if s.ends then [⟨.semi true, ⟨pos, pos⟩, line, none⟩] else []

/-- The group that documents a token on `line`: the last of the gap, if it ends
on the line above. -/
def doc (s : LayoutState) (line : Nat) : Option Nat :=
  match s.gap.getLast? with
  | some g => if g.documents line then some (s.closed + s.gap.length - 1) else none
  | none => none

def past (s : LayoutState) (x : Lexeme) : LayoutState :=
  { s with pos := x.stop, line := x.endLine }

def afterToken (s : LayoutState) (kind : TokenKind) (x : Lexeme) : LayoutState :=
  ⟨x.stop, x.endLine, kind.endsStatement, some x.endLine, [], s.closed + s.gap.length⟩

end LayoutState

/-- Lay out the lexemes that follow state `s`. -/
def layout (s : LayoutState) : List Lexeme → TokenStream
  | [] => ⟨s.semi s.pos s.line ++ [⟨.eof, ⟨s.pos, s.pos⟩, s.line, none⟩], s.gap⟩
  | x :: xs =>
      match x.cls with
      | .blank => layout (s.past x) xs
      | .newline =>
          let rest := layout { s.past x with ends := false } xs
          { rest with tokens := s.semi x.start x.line ++ rest.tokens }
      | .comment =>
          let after := { s.past x with gap := addComment s.lastLine s.gap x }
          if x.chars.contains '\n' then
            let rest := layout { after with ends := false } xs
            { rest with tokens := s.semi x.start x.line ++ rest.tokens }
          else layout after xs
      | .token kind =>
          let token : Token := ⟨kind, x.span, x.line, s.doc x.line⟩
          let rest := layout (s.afterToken kind x) xs
          ⟨token :: rest.tokens, s.gap ++ rest.groups⟩

/-- The tokens and comment groups of a text. -/
def tokenize (text : String) : Except SourceError TokenStream :=
  (lexemes text.toList).map (layout .initial)

end FieldRules
