/-
The attributes of a directive: pairs `key=value` between commas.  Quotes and
parentheses keep a comma inside a value.
-/
import FieldRules.Text.Name
import FieldRules.Number.Literal
import FieldRules.Rule.Failure

namespace FieldRules

/-- Where a scan of attribute text stands: how many parentheses are open, which
quote is open, and whether a backslash came just before. -/
structure QuoteScan where
  depth : Nat
  quote : Option Char
  escaped : Bool
deriving DecidableEq, Repr

namespace QuoteScan

def initial : QuoteScan := ⟨0, none, false⟩

/-- Read one character.  Only double quotes know escapes, and a parenthesis that
closes nothing is ignored. -/
def step (s : QuoteScan) (c : Char) : QuoteScan :=
  match s.quote with
  | some q =>
      if s.escaped then { s with escaped := false }
      else if c = '\\' && q = '"' then { s with escaped := true }
      else if c = q then { s with quote := none }
      else s
  | none =>
      if c = '"' || c = '\x60' then { s with quote := some c }
      else if c = '(' then { s with depth := s.depth + 1 }
      else if c = ')' then { s with depth := s.depth - 1 }
      else s

/-- Outside quotes and parentheses. -/
def outside (s : QuoteScan) : Bool := s.quote.isNone && s.depth == 0

def run (s : QuoteScan) (cs : List Char) : QuoteScan := cs.foldl step s

end QuoteScan

/-- Put a character in front of the first piece. -/
def consFirst (c : Char) : List (List Char) → List (List Char)
  | [] => [[c]]
  | piece :: pieces => (c :: piece) :: pieces

/-- Cut at the commas that stand outside quotes and parentheses. -/
def splitOutside (s : QuoteScan) : List Char → List (List Char)
  | [] => [[]]
  | c :: cs =>
      if c = ',' && s.outside then [] :: splitOutside s cs
      else consFirst c (splitOutside (s.step c) cs)

def splitTopLevel (cs : List Char) : List (List Char) := splitOutside .initial cs

theorem splitOutside_ne_nil (s : QuoteScan) (cs : List Char) : splitOutside s cs ≠ [] := by
  cases cs with
  | nil => simp [splitOutside]
  | cons c cs =>
      simp only [splitOutside]
      split
      · simp
      · cases splitOutside (s.step c) cs <;> simp [consFirst]

/-- Cut at the first `mark`; none if there is none. -/
def splitOnce? (mark : Char) (cs : List Char) : Option (List Char × List Char) :=
  match cs.span (· != mark) with
  | (_, []) => none
  | (before, _ :: after) => some (before, after)

/-- A pair as written, without white space around key and value. -/
structure Attribute where
  key : String
  value : String
deriving DecidableEq, Repr

/-- Resolve the escapes of a double-quoted body.  Unknown escapes stay as they
are; none when a backslash ends the body, for then it is not closed. -/
def unescape? : List Char → Option (List Char)
  | [] => some []
  | c :: cs =>
      if c = '\\' then
        match cs with
        | [] => none
        | d :: ds =>
            (unescape? ds).map fun rest =>
              if d = '"' || d = '\\' then d :: rest
              else if d = 'n' then '\n' :: rest
              else if d = 't' then '\t' :: rest
              else '\\' :: d :: rest
      else (unescape? cs).map (c :: ·)

namespace Attribute

/-- The key by which attributes are told apart. -/
def folded (a : Attribute) : String := foldKey a.key

def invalid (a : Attribute) (rule : String) (expected : Expected) : RuleError :=
  .invalidValue rule a.key a.value expected

/-- The value without the underscores that group digits. -/
def digits (a : Attribute) : List Char := a.value.toList.filter (· != '_')

def integer (a : Attribute) (rule : String) : Except RuleError Int64 :=
  match readInteger? a.digits with
  | some n => .ok n
  | none => .error (a.invalid rule .integer)

def decimal (a : Attribute) (rule : String) : Except RuleError Double :=
  match readDecimal? a.digits with
  | some d => .ok d
  | none => .error (a.invalid rule .number)

/-- Whether a text of at least two characters starts and ends with `quote`. -/
def between (quote : Char) (cs : List Char) : Bool :=
  2 ≤ cs.length && cs.head? == some quote && cs.getLast? == some quote

/-- The text that a value stands for: quotes are taken off, and a value without
any quote is taken as it is. -/
def textChars? (cs : List Char) : Option (List Char) :=
  if between '"' cs then unescape? cs.tail.dropLast
  else if between '\x60' cs then some cs.tail.dropLast
  else if cs.contains '"' || cs.contains '\x60' then none
  else some cs

def text (a : Attribute) (rule : String) : Except RuleError String :=
  match textChars? a.value.toList with
  | some cs => .ok (String.ofList cs)
  | none => .error (a.invalid rule .quotedString)

end Attribute

/-- Attributes in the order of their keys' first mention, each with its last
value. -/
structure AttributeList where
  entries : List Attribute
deriving DecidableEq, Repr

/-- Put `a` in the place of the entry with its key, or at the end. -/
def insertAttribute (a : Attribute) : List Attribute → List Attribute
  | [] => [a]
  | b :: bs => if b.folded = a.folded then a :: bs else b :: insertAttribute a bs

namespace AttributeList

def empty : AttributeList := ⟨[]⟩

def insert (l : AttributeList) (a : Attribute) : AttributeList :=
  ⟨insertAttribute a l.entries⟩

/-- The attribute that a piece between commas writes; none without an equals
sign. -/
def attributeOf? (piece : List Char) : Option Attribute :=
  (splitOnce? '=' piece).map fun (key, value) =>
    ⟨String.ofList (trim key), String.ofList (trim value)⟩

def ofChars (cs : List Char) : AttributeList :=
  ((splitTopLevel cs).filterMap attributeOf?).foldl insert empty

/-- Read attribute text. -/
def parse (raw : String) : AttributeList := ofChars raw.toList

def get? (l : AttributeList) (key : String) : Option Attribute :=
  l.entries.find? fun a => a.folded == foldKey key

end AttributeList

theorem map_folded_insertAttribute (a : Attribute) (bs : List Attribute) :
    (insertAttribute a bs).map Attribute.folded =
      if a.folded ∈ bs.map Attribute.folded then bs.map Attribute.folded
      else bs.map Attribute.folded ++ [a.folded] := by
  induction bs with
  | nil => simp [insertAttribute]
  | cons b bs ih =>
      simp only [insertAttribute]
      split
      · rename_i h
        simp [h]
      · rename_i h
        have hne : ¬ a.folded = b.folded := fun e => h e.symm
        simp only [List.map_cons, ih, List.mem_cons, hne, false_or]
        split <;> rfl

end FieldRules
