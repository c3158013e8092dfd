/-
Settings files.  Each line sets one key to a text or a list of texts; keys that
are not set keep their standard value, and anything else makes the file invalid.
-/
import FieldRules.Settings.Basic
import FieldRules.Settings.Toml.Quoted

namespace FieldRules

namespace Toml

/-- A piece of a settings file. -/
inductive Piece where
  | word (s : List Char)
  /-- A string; one in three quotes cannot be a key. -/
  | text (s : List Char) (key : Bool)
  | symbol (c : Char)
  | lineEnd
deriving DecidableEq, Repr

def isWordChar (c : Char) : Bool := c.isAlphanum || c == '_' || c == '-'

/-- A piece and the shorter text after it; none for blanks and comments. -/
abbrev Cut (cs : List Char) :=
  Option (Option Piece × { rest : List Char // rest.length < cs.length })

/-- Read a string whose first quote has been read. -/
def cutString (quote : Char) (cs : List Char) : Cut (quote :: cs) :=
  let escapes := quote == '"'
  if [quote, quote].isPrefixOf cs then
    match h : untilThree quote escapes (cs.drop 2) with
    | some (body, rest) =>
        (blockText? escapes body).map fun s => (some (.text s false), ⟨rest, by
          have := length_of_untilThree h
          simp only [List.length_drop, List.length_cons] at this ⊢
          omega⟩)
    | none => none
  else
    match h : untilQuote quote escapes cs with
    | some (body, rest) =>
        (lineText? escapes body).map fun s => (some (.text s true), ⟨rest, by
          have := length_of_untilQuote h
          simp only [List.length_cons]
          omega⟩)
    | none => none

theorem length_lt_cons (c : Char) (cs : List Char) : cs.length < (c :: cs).length :=
  Nat.lt_succ_self cs.length

theorem length_tail_lt_cons (c : Char) (cs : List Char) : cs.tail.length < (c :: cs).length := by
  simp only [List.length_tail, List.length_cons]
  omega

theorem length_dropWhile_lt_cons (p : Char → Bool) (c : Char) (cs : List Char) :
    (cs.dropWhile p).length < (c :: cs).length :=
  Nat.lt_succ_of_le (List.dropWhile_sublist p).length_le

/-- Read one piece. -/
def cut (c : Char) (cs : List Char) : Cut (c :: cs) :=
  if isGap c then some (none, ⟨cs, length_lt_cons c cs⟩)
  else if c = '\n' then some (some .lineEnd, ⟨cs, length_lt_cons c cs⟩)
  else if c = '\r' then
    if cs.head? = some '\n' then some (some .lineEnd, ⟨cs.tail, length_tail_lt_cons c cs⟩)
    else none
  else if c = '#' then
    some (none, ⟨cs.dropWhile isPlain, length_dropWhile_lt_cons isPlain c cs⟩)
  else if c = '"' ∨ c = '\'' then cutString c cs
  else if isWordChar c then
    some (some (.word (c :: cs.takeWhile isWordChar)),
      ⟨cs.dropWhile isWordChar, length_dropWhile_lt_cons isWordChar c cs⟩)
  else some (some (.symbol c), ⟨cs, length_lt_cons c cs⟩)

/-- All pieces of a text; none if a string or a line end is not well-formed. -/
def pieces? (cs : List Char) : Option (List Piece) :=
  match cs with
  | [] => some []
  | c :: cs =>
      match cut c cs with
      | none => none
      | some (piece, ⟨rest, _⟩) => (pieces? rest).map (piece.toList ++ ·)
termination_by cs.length
decreasing_by assumption

inductive Value where
  | text (s : String)
  | texts (ss : List String)
deriving DecidableEq, Repr

/-- The rest of a list after its bracket.  `after` tells that an item came last, so
that a comma may follow. -/
def items? (after : Bool) : List Piece → Option (List String × List Piece)
  | [] => none
  | .lineEnd :: ps => items? after ps
  | .symbol ']' :: ps => some ([], ps)
  | .symbol ',' :: ps => if after then items? false ps else none
  | .text s _ :: ps =>
      if after then none
      else (items? true ps).map fun (ss, rest) => (String.ofList s :: ss, rest)
  | _ => none

theorem length_of_items? {after : Bool} {ps rest : List Piece} {ss : List String}
    (h : items? after ps = some (ss, rest)) : rest.length < ps.length := by
  fun_induction items? after ps generalizing ss rest with
  | case1 | case5 | case6 | case8 => cases h
  | case2 after ps ih =>
    have := ih h
    simp only [List.length_cons]
    omega
  | case3 => cases h; simp
  | case4 ps ih =>
    have := ih h
    simp only [List.length_cons]
    omega
  | case7 after s key ps ha ih =>
    obtain ⟨⟨ts, r⟩, hr, e⟩ := Option.map_eq_some_iff.mp h
    cases e
    have := ih hr
    simp only [List.length_cons]
    omega

def key? : Piece → Option (List Char)
  | .word s | .text s true => some s
  | _ => none

/-- A value and the pieces after it. -/
def value? : List Piece → Option (Value × List Piece)
  | .text s _ :: ps => some (.text (String.ofList s), ps)
  | .symbol '[' :: ps => (items? false ps).map fun (ss, rest) => (.texts ss, rest)
  | _ => none

theorem length_of_value? {ps rest : List Piece} {v : Value}
    (h : value? ps = some (v, rest)) : rest.length < ps.length := by
  unfold value? at h
  split at h
  · cases h
    simp
  · obtain ⟨⟨ss, r⟩, hr, e⟩ := Option.map_eq_some_iff.mp h
    cases e
    have := length_of_items? hr
    simp only [List.length_cons]
    omega
  · cases h

/-- The keys and values of all lines, in order. -/
def entries? (ps : List Piece) : Option (List (String × Value)) :=
  match ps with
  | [] => some []
  | .lineEnd :: ps => entries? ps
  | p :: .symbol '=' :: ps =>
      match key? p, h : value? ps with
      | some key, some (v, rest) =>
          have := length_of_value? h
          match rest with
          | [] => some [(String.ofList key, v)]
          | .lineEnd :: rest => (entries? rest).map ((String.ofList key, v) :: ·)
          | _ => none
      | _, _ => none
  | _ => none
termination_by ps.length
decreasing_by all_goals simp_all only [List.length_cons]; omega

end Toml

namespace Settings

/-- Set one key. -/
def set? (s : Settings) (key : String) (value : Toml.Value) : Option Settings :=
  match key, value with
  | "type_marker", .text v => some { s with typeMarker := v }
  | "field_marker", .text v => some { s with fieldMarker := v }
  | "extension", .text v => some { s with extension := v }
  | "output_suffix", .text v => some { s with outputSuffix := v }
  | "header", .text v => some { s with header := v }
  | "skip_dirs", .texts v => some { s with skipDirs := v }
  | "ignore_packages", .texts v => some { s with ignorePackages := v }
  | _, _ => none

/-- A byte order mark in front of a text does not belong to it. -/
def dropMark : List Char → List Char
  | '\ufeff' :: cs => cs
  | cs => cs

/-- The settings of a file.  No key may be set twice. -/
def ofToml? (text : String) : Option Settings := do
  let pieces ← Toml.pieces? (dropMark text.toList)
  let entries ← Toml.entries? pieces
  if (entries.map Prod.fst).Nodup then
    entries.foldlM (fun s (key, value) => s.set? key value) standard
  else none

end Settings

end FieldRules
