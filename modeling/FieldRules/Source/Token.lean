/-
Tokens and comments of a Go file.  Comments never stand among the tokens: they
form groups, and a token names the group that documents it.
-/
import FieldRules.Text.Blank

namespace FieldRules

/-- A range of byte offsets. -/
structure Span where
  start : Nat
  stop : Nat
deriving DecidableEq, Repr, Inhabited

namespace Span

/-- The smallest range that covers both. -/
def cover (a b : Span) : Span := ⟨min a.start b.start, max a.stop b.stop⟩

def length (s : Span) : Nat := s.stop - s.start

end Span

inductive LiteralKind where
  | str
  | int
  | float
  | imag
  | char
deriving DecidableEq, Repr

/-- What a token is.  Keywords are identifiers, literals keep their spelling,
and a semicolon is either written or stands for a line end. -/
inductive TokenKind where
  | ident (name : String)
  | literal (kind : LiteralKind) (spelling : String)
  | op (symbol : String)
  | semi (implicit : Bool)
  | eof
deriving DecidableEq, Repr

namespace TokenKind

/-- Whether a line end after this token ends the statement. -/
def endsStatement : TokenKind → Bool
  | ident _ | literal _ _ => true
  | op symbol => symbol ∈ [")", "]", "\x7d", "++", "--"]
  | semi _ | eof => false

/-- The token as an error message names it. -/
def describe : TokenKind → String
  | ident name => s!"'{name}'"
  | literal _ spelling => s!"literal {spelling}"
  | op symbol => s!"'{symbol}'"
  | semi true => "newline"
  | semi false => "';'"
  | eof => "end of file"

def isSemi : TokenKind → Bool
  | semi _ => true
  | _ => false

/-- Whether the token opens a delimited part of the file. -/
def opens : TokenKind → Bool
  | op symbol => symbol ∈ ["(", "[", "\x7b"]
  | _ => false

/-- Whether the token closes a delimited part of the file. -/
def closes : TokenKind → Bool
  | op symbol => symbol ∈ [")", "]", "\x7d"]
  | _ => false

theorem closes_eq_false_of_opens {k : TokenKind} (h : k.opens = true) : k.closes = false := by
  cases k with
  | op symbol =>
      simp only [opens, List.mem_cons, List.not_mem_nil, or_false, decide_eq_true_eq] at h
      rcases h with rfl | rfl | rfl <;> decide
  | _ => rfl

end TokenKind

structure Token where
  kind : TokenKind
  span : Span
  /-- The line of its first character, counted from one. -/
  line : Nat
  /-- The group that documents it, by its place among all groups. -/
  doc : Option Nat
deriving DecidableEq, Repr

/-- A comment with its markers. -/
structure Comment where
  text : String
  span : Span
deriving DecidableEq, Repr

/-- The text between the comment markers. -/
def commentInner (cs : List Char) : List Char :=
  match cs with
  | '/' :: '/' :: rest => rest
  | '/' :: '*' :: rest => if rest.reverse.take 2 == ['/', '*'] then rest.dropLast.dropLast else cs
  | _ => cs

/-- The comment without markers and the white space around it. -/
def Comment.body (c : Comment) : String :=
  String.ofList (trim (commentInner c.text.toList))

/-- Comments on neighbouring lines with no token between them. -/
structure CommentGroup where
  comments : List Comment
  startLine : Nat
  endLine : Nat
  /-- It starts on the line where a token ends, so it documents nothing. -/
  trailing : Bool
deriving DecidableEq, Repr

namespace CommentGroup

/-- The comment bodies in order. -/
def lines (g : CommentGroup) : List String := g.comments.map Comment.body

/-- Whether some comment says `marker` and nothing else. -/
def hasLine (g : CommentGroup) (marker : String) : Bool := g.lines.contains marker

theorem hasLine_iff {g : CommentGroup} {marker : String} :
    g.hasLine marker = true ↔ ∃ c ∈ g.comments, c.body = marker := by
  simp [hasLine, lines]

end CommentGroup

end FieldRules
