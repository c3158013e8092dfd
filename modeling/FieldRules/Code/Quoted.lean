/-
Go string literals in double quotes.
-/
namespace FieldRules

/-- The lowercase hexadecimal digit of a number below sixteen. -/
def hexDigit (n : Nat) : Char :=
  if n < 10 then Char.ofNat ('0'.toNat + n) else Char.ofNat ('a'.toNat + (n - 10))

/-- The control characters of ASCII and of the block after it. -/
def isControl (c : Char) : Bool :=
  c.toNat < 0x20 || (0x7f ≤ c.toNat && c.toNat < 0xa0)

/-- One character inside a literal.  A control character without an escape of
its own is written by two hexadecimal digits. -/
def quoteChar (c : Char) : List Char :=
  if c = '"' then ['\\', '"']
  else if c = '\\' then ['\\', '\\']
  else if c = '\n' then ['\\', 'n']
  else if c = '\r' then ['\\', 'r']
  else if c = '\t' then ['\\', 't']
  else if isControl c then ['\\', 'x', hexDigit (c.toNat / 16), hexDigit (c.toNat % 16)]
  else [c]

def quoteChars (cs : List Char) : List Char :=
  '"' :: cs.flatMap quoteChar ++ ['"']

/-- The literal for a text. -/
def quote (s : String) : String := String.ofList (quoteChars s.toList)

theorem quoteChar_ne_nil (c : Char) : quoteChar c ≠ [] := by
  unfold quoteChar
  repeat' split
  all_goals simp

/-- A quote, a backslash or a line end never stands for itself. -/
theorem quoteChar_of_plain {c : Char} (hquote : c ≠ '"') (hslash : c ≠ '\\')
    (hcontrol : isControl c = false) : quoteChar c = [c] := by
  have hline : ∀ d : Char, isControl d = true → c ≠ d := by
    intro d hd h
    rw [h, hd] at hcontrol
    cases hcontrol
  simp [quoteChar, hquote, hslash, hcontrol, hline '\n' rfl, hline '\r' rfl, hline '\t' rfl]

end FieldRules
