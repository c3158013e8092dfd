/-
The four kinds of strings of a settings file: in double or single quotes, on one
line or, in three quotes, on several.  Only double quotes know escapes.
-/
namespace FieldRules.Toml

/-- Blanks inside a line. -/
def isGap (c : Char) : Bool := c == ' ' || c == '\t'

/-- Characters that may stand for themselves on a line. -/
def isPlain (c : Char) : Bool := c == '\t' || (0x20 ≤ c.toNat && c.toNat ≠ 0x7f)

/-- Cut a text at the first quote; an escape never ends it. -/
def untilQuote (quote : Char) (escapes : Bool) : List Char → Option (List Char × List Char)
  | [] => none
  | c :: cs =>
      if c = quote then some ([], cs)
      else if escapes && c == '\\' then
        match cs with
        | [] => none
        | d :: ds => (untilQuote quote escapes ds).map fun (body, rest) => (c :: d :: body, rest)
      else (untilQuote quote escapes cs).map fun (body, rest) => (c :: body, rest)

/-- Cut a text at the first three quotes.  Up to two more right after them belong
to the text itself. -/
def untilThree (quote : Char) (escapes : Bool) : List Char → Option (List Char × List Char)
  | [] => none
  | c :: cs =>
      match c == quote, cs with
      | true, d :: e :: rest =>
          if d = quote ∧ e = quote then
            let more := (rest.take 2).takeWhile (· == quote)
            some (more, rest.drop more.length)
          else (untilThree quote escapes (d :: e :: rest)).map fun (body, rest) => (c :: body, rest)
      | true, _ => none
      | false, cs =>
          if escapes && c == '\\' then
            match cs with
            | [] => none
            | d :: ds => (untilThree quote escapes ds).map fun (body, rest) => (c :: d :: body, rest)
          else (untilThree quote escapes cs).map fun (body, rest) => (c :: body, rest)

theorem length_of_untilQuote {quote : Char} {escapes : Bool} {cs body rest : List Char}
    (h : untilQuote quote escapes cs = some (body, rest)) : rest.length < cs.length := by
  fun_induction untilQuote quote escapes cs generalizing body rest with
  | case1 => cases h
  | case2 => cases h; simp
  | case3 => cases h
  | case4 c hc he d ds ih =>
    obtain ⟨⟨b, r⟩, hr, e⟩ := Option.map_eq_some_iff.mp h
    cases e
    have := ih hr
    simp only [List.length_cons]
    omega
  | case5 c cs hc he ih =>
    obtain ⟨⟨b, r⟩, hr, e⟩ := Option.map_eq_some_iff.mp h
    cases e
    have := ih hr
    simp only [List.length_cons]
    omega

theorem length_of_untilThree {quote : Char} {escapes : Bool} {cs body rest : List Char}
    (h : untilThree quote escapes cs = some (body, rest)) : rest.length < cs.length := by
  fun_induction untilThree quote escapes cs generalizing body rest with
  | case1 => cases h
  | case2 c d e rest' hde more =>
    cases h
    simp only [List.length_cons, List.length_drop]
    omega
  | case3 c d e rest' hq hde ih =>
    obtain ⟨⟨b, r⟩, hr, e⟩ := Option.map_eq_some_iff.mp h
    cases e
    have := ih hr
    simp only [List.length_cons] at this ⊢
    omega
  | case4 => cases h
  | case5 => cases h
  | case6 c hq he d ds ih =>
    obtain ⟨⟨b, r⟩, hr, e⟩ := Option.map_eq_some_iff.mp h
    cases e
    have := ih hr
    simp only [List.length_cons]
    omega
  | case7 c cs hq he ih =>
    obtain ⟨⟨b, r⟩, hr, e⟩ := Option.map_eq_some_iff.mp h
    cases e
    have := ih hr
    simp only [List.length_cons]
    omega

def hexValue? (c : Char) : Option Nat :=
  if c.isDigit then some (c.toNat - '0'.toNat)
  else if 'a' ≤ c ∧ c ≤ 'f' then some (c.toNat - 'a'.toNat + 10)
  else if 'A' ≤ c ∧ c ≤ 'F' then some (c.toNat - 'A'.toNat + 10)
  else none

/-- The character with a number of so many hexadecimal digits. -/
def numbered? (digits : Nat) (cs : List Char) : Option Char := do
  let values ← cs.mapM hexValue?
  let n := values.foldl (fun n d => 16 * n + d) 0
  if values.length = digits ∧ n.isValidChar then some (Char.ofNat n) else none

/-- How many digits follow an escape that gives a number. -/
def escapeDigits? (c : Char) : Option Nat :=
  if c = 'x' then some 2 else if c = 'u' then some 4 else if c = 'U' then some 8 else none

/-- The character of an escape without a number. -/
def escaped? (c : Char) : Option Char :=
  match c with
  | 'b' => some '\x08'
  | 't' => some '\t'
  | 'n' => some '\n'
  | 'f' => some '\x0c'
  | 'r' => some '\r'
  | 'e' => some '\x1b'
  | '"' => some '"'
  | '\\' => some '\\'
  | _ => none

/-- The text that a body with escapes stands for. -/
def unescape? (cs : List Char) : Option (List Char) :=
  match cs with
  | [] => some []
  | c :: cs =>
      if c = '\\' then
        match cs with
        | [] => none
        | d :: ds =>
            match escapeDigits? d with
            | some digits => do
                let e ← numbered? digits (ds.take digits)
                let rest ← unescape? (ds.drop digits)
                return e :: rest
            | none => do
                let e ← escaped? d
                let rest ← unescape? ds
                return e :: rest
      else (unescape? cs).map (c :: ·)
termination_by cs.length
decreasing_by all_goals simp only [List.length_cons, List.length_drop]; omega

/-- Characters of line ends: a line feed, with or without a carriage return before
it. -/
def isLineEnd (c : Char) : Bool := c == '\n' || c == '\r'

/-- Whether each carriage return has a line feed right after it. -/
def returnsEndLines : List Char → Bool
  | [] => true
  | c :: cs => (c != '\r' || cs.head? == some '\n') && returnsEndLines cs

/-- Whether only blanks stand before the next line end. -/
def endsLine (cs : List Char) : Bool := (cs.dropWhile isGap).head?.any isLineEnd

/-- Leave out each backslash at the end of a line with all blanks and line ends
after it. -/
def joinLines (skipping : Bool) : List Char → List Char
  | [] => []
  | c :: cs =>
      if c = '\\' then
        match cs with
        | [] => [c]
        | d :: ds =>
            if endsLine (d :: ds) then joinLines true ds else c :: d :: joinLines false ds
      else if skipping && (isGap c || isLineEnd c) then joinLines skipping cs
      else c :: joinLines false cs

/-- A line end right after the opening quotes does not count. -/
def dropLineEnd : List Char → List Char
  | '\n' :: cs => cs
  | '\r' :: '\n' :: cs => cs
  | cs => cs

/-- The text of a body on one line. -/
def lineText? (escapes : Bool) (body : List Char) : Option (List Char) :=
  if body.all isPlain then if escapes then unescape? body else some body else none

/-- The text of a body on several lines.  Line ends stay as they are written. -/
def blockText? (escapes : Bool) (body : List Char) : Option (List Char) :=
  if returnsEndLines body && body.all fun c => isPlain c || isLineEnd c then
    let text := dropLineEnd body
    if escapes then unescape? (joinLines false text) else some text
  else none

end FieldRules.Toml
