/-
Interpreted string literals of Go and the bytes that they denote.  A generated literal denotes
the text it was made for, unless the text has a control character above the ASCII ones: these
are written as single bytes.
-/
import Mathlib.Algebra.Order.BigOperators.Group.List
import Mathlib.Algebra.Order.Ring.Nat
import FieldRules.Code.Quoted

namespace FieldRules

/-! Reading literals, as the language defines them. -/

/-- The value of a digit of any base up to sixteen. -/
def digitOf? (c : Char) : Option Nat :=
  if c.isDigit then some (c.toNat - '0'.toNat)
  else if 'a' ≤ c ∧ c ≤ 'f' then some (c.toNat - 'a'.toNat + 10)
  else if 'A' ≤ c ∧ c ≤ 'F' then some (c.toNat - 'A'.toNat + 10)
  else none

/-- The number that exactly `count` digits stand for, going on from `n`, and what follows. -/
def readDigits? (base : Nat) : Nat → Nat → List Char → Option (Nat × List Char)
  | 0, n, cs => some (n, cs)
  | _ + 1, _, [] => none
  | count + 1, n, c :: cs =>
      (digitOf? c).bind fun d =>
        if d < base then readDigits? base count (base * n + d) cs else none

/-- An escape by a number denotes a byte. -/
def byteOf? (n : Nat) : Option (List UInt8) :=
  if n < 256 then some [UInt8.ofNat n] else none

/-- An escape by a number denotes a character. -/
def characterOf? (n : Nat) : Option (List UInt8) :=
  if n.isValidChar then some (String.utf8EncodeChar (Char.ofNat n)) else none

def numbered? (bytes? : Nat → Option (List UInt8)) (base count : Nat) (cs : List Char) :
    Option (List UInt8 × List Char) :=
  (readDigits? base count 0 cs).bind fun (n, rest) => (bytes? n).map fun bytes => (bytes, rest)

/-- The escapes with a letter or sign of their own. -/
def namedEscape? : Char → Option UInt8
  | 'a' => some 0x07
  | 'b' => some 0x08
  | 't' => some 0x09
  | 'n' => some 0x0a
  | 'v' => some 0x0b
  | 'f' => some 0x0c
  | 'r' => some 0x0d
  | '"' => some 0x22
  | '\\' => some 0x5c
  | _ => none

/-- What an escape denotes, read from behind its backslash, and what follows it. -/
def escape? : List Char → Option (List UInt8 × List Char)
  | [] => none
  | c :: rest =>
      match namedEscape? c with
      | some byte => some ([byte], rest)
      | none =>
          if c = 'x' then numbered? byteOf? 16 2 rest
          else if c = 'u' then numbered? characterOf? 16 4 rest
          else if c = 'U' then numbered? characterOf? 16 8 rest
          else numbered? byteOf? 8 3 (c :: rest)

theorem length_of_readDigits? {base count n : Nat} {cs : List Char} {found : Nat × List Char}
    (h : readDigits? base count n cs = some found) : found.2.length ≤ cs.length := by
  induction count generalizing n cs with
  | zero =>
      cases h
      exact Nat.le_refl _
  | succ count ih =>
      cases cs with
      | nil => cases h
      | cons c cs =>
          obtain ⟨d, -, hd⟩ := Option.bind_eq_some_iff.mp h
          split_ifs at hd
          exact Nat.le_succ_of_le (ih hd)

theorem length_of_numbered? {bytes? : Nat → Option (List UInt8)} {base count : Nat}
    {cs : List Char} {found : List UInt8 × List Char}
    (h : numbered? bytes? base count cs = some found) : found.2.length ≤ cs.length := by
  obtain ⟨number, hnumber, hbytes⟩ := Option.bind_eq_some_iff.mp h
  obtain ⟨bytes, -, rfl⟩ := Option.map_eq_some_iff.mp hbytes
  exact length_of_readDigits? hnumber

theorem length_of_escape? {cs : List Char} {found : List UInt8 × List Char}
    (h : escape? cs = some found) : found.2.length ≤ cs.length := by
  cases cs with
  | nil => cases h
  | cons c rest =>
      rw [escape?] at h
      cases hnamed : namedEscape? c with
      | some byte =>
          rw [hnamed] at h
          cases h
          exact Nat.le_succ _
      | none =>
          rw [hnamed] at h
          dsimp only at h
          split_ifs at h
          · exact Nat.le_succ_of_le (length_of_numbered? h)
          · exact Nat.le_succ_of_le (length_of_numbered? h)
          · exact Nat.le_succ_of_le (length_of_numbered? h)
          · exact length_of_numbered? h

/-- What the rest of a literal denotes, up to the quote that ends it and the text. -/
def restBytes? : List Char → Option (List UInt8)
  | [] => none
  | c :: rest =>
      if c = '"' then if rest.isEmpty then some [] else none
      else if c = '\n' then none
      else if c = '\\' then
        match _h : escape? rest with
        | some (bytes, after) => (restBytes? after).map (bytes ++ ·)
        | none => none
      else (restBytes? rest).map (String.utf8EncodeChar c ++ ·)
termination_by cs => cs.length
decreasing_by
  · exact Nat.lt_succ_of_le (length_of_escape? _h)
  · exact Nat.lt_succ_self _

/-- The bytes that an interpreted string literal denotes; none for any other text. -/
def interpretedBytes? (text : String) : Option (List UInt8) :=
  match text.toList with
  | '"' :: rest => restBytes? rest
  | _ => none

-- Characters by \u and \U, bytes by \x and three octal digits.
example : interpretedBytes? "\"\\u00e9\\303\\251\\xff\\U0001F600\\a\"" =
    some [0xc3, 0xa9, 0xc3, 0xa9, 0xff, 0xf0, 0x9f, 0x98, 0x80, 0x07] := by
  decide +kernel

theorem restBytes?_quote : restBytes? ['"'] = some [] := by
  rw [restBytes?]
  rfl

theorem restBytes?_escape {rest after : List Char} {bytes : List UInt8}
    (h : escape? rest = some (bytes, after)) :
    restBytes? ('\\' :: rest) = (restBytes? after).map (bytes ++ ·) := by
  rw [restBytes?, if_neg (by decide), if_neg (by decide), if_pos rfl]
  split
  · rename_i hfound
    cases hfound.symm.trans h
    rfl
  · rename_i hnone
    cases hnone.symm.trans h

theorem restBytes?_plain {c : Char} (rest : List Char) (hquote : c ≠ '"') (hslash : c ≠ '\\')
    (hline : c ≠ '\n') :
    restBytes? (c :: rest) = (restBytes? rest).map (String.utf8EncodeChar c ++ ·) := by
  rw [restBytes?, if_neg hquote, if_neg hline, if_neg hslash]

/-! Generated literals. -/

/-- The control characters behind the ASCII characters. -/
def isHighControl (c : Char) : Prop := 0x80 ≤ c.toNat ∧ c.toNat < 0xa0

instance : DecidablePred isHighControl := fun _ => inferInstanceAs (Decidable (_ ∧ _))

/-- What a character denotes when it is quoted. -/
def quotedBytes (c : Char) : List UInt8 :=
  if isHighControl c then [UInt8.ofNat c.toNat] else String.utf8EncodeChar c

theorem digitOf?_hexDigit : ∀ n < 16, digitOf? (hexDigit n) = some n := by decide

theorem utf8EncodeChar_of_ascii {c : Char} (h : c.toNat < 0x80) :
    String.utf8EncodeChar c = [UInt8.ofNat c.toNat] := by
  unfold String.utf8EncodeChar
  dsimp only
  exact if_pos (Nat.le_of_lt_succ h)

/-- Two hexadecimal digits denote one byte. -/
theorem escape?_hex {n : Nat} (h : n < 256) (rest : List Char) :
    escape? ('x' :: hexDigit (n / 16) :: hexDigit (n % 16) :: rest) =
      some ([UInt8.ofNat n], rest) := by
  have hhigh : n / 16 < 16 := Nat.div_lt_of_lt_mul h
  have hlow : n % 16 < 16 := Nat.mod_lt n (by decide)
  have hnumber : readDigits? 16 2 0 (hexDigit (n / 16) :: hexDigit (n % 16) :: rest) =
      some (n, rest) := by
    simp [readDigits?, digitOf?_hexDigit _ hhigh, digitOf?_hexDigit _ hlow, hhigh, hlow,
      Nat.div_add_mod]
  simp [escape?, namedEscape?, numbered?, hnumber, byteOf?, h]

/-- A quoted character is read as what it denotes, whatever follows. -/
theorem restBytes?_quoteChar (c : Char) (rest : List Char) :
    restBytes? (quoteChar c ++ rest) = (restBytes? rest).map (quotedBytes c ++ ·) := by
  unfold quoteChar
  split_ifs with hquote hslash hline hreturn htab hcontrol
  · subst hquote
    exact restBytes?_escape rfl
  · subst hslash
    exact restBytes?_escape rfl
  · subst hline
    exact restBytes?_escape rfl
  · subst hreturn
    exact restBytes?_escape rfl
  · subst htab
    exact restBytes?_escape rfl
  · simp only [isControl, Bool.or_eq_true, Bool.and_eq_true, decide_eq_true_eq] at hcontrol
    have hbytes : quotedBytes c = [UInt8.ofNat c.toNat] := by
      unfold quotedBytes
      split_ifs with hhigh
      · rfl
      · exact utf8EncodeChar_of_ascii (by unfold isHighControl at hhigh; omega)
    rw [hbytes]
    exact restBytes?_escape (escape?_hex (by omega) rest)
  · simp only [isControl, Bool.or_eq_true, Bool.and_eq_true, decide_eq_true_eq] at hcontrol
    have hbytes : quotedBytes c = String.utf8EncodeChar c :=
      if_neg (by unfold isHighControl; omega)
    rw [hbytes]
    exact restBytes?_plain rest hquote hslash hline

/-- A generated literal can be read, and denotes what its characters denote. -/
theorem interpretedBytes?_quote (s : String) :
    interpretedBytes? (quote s) = some (s.toList.flatMap quotedBytes) := by
  have hrest : ∀ cs : List Char, restBytes? (cs.flatMap quoteChar ++ ['"']) =
      some (cs.flatMap quotedBytes) := by
    intro cs
    induction cs with
    | nil => exact restBytes?_quote
    | cons c cs ih =>
        rw [List.flatMap_cons, List.append_assoc, restBytes?_quoteChar, ih]
        rfl
  rw [interpretedBytes?, quote, String.toList_ofList, quoteChars, List.cons_append]
  exact hrest s.toList

/-- The bytes of a text in UTF-8. -/
def utf8Bytes (s : String) : List UInt8 := s.toUTF8.data.toList

theorem utf8Bytes_eq (s : String) : utf8Bytes s = s.toList.flatMap String.utf8EncodeChar := by
  rw [utf8Bytes, String.toUTF8_eq_toByteArray, ← String.utf8Encode_toList, List.utf8Encode]
  simp

theorem length_quotedBytes (c : Char) :
    (quotedBytes c).length ≤ (String.utf8EncodeChar c).length := by
  unfold quotedBytes
  split_ifs
  · rw [String.length_utf8EncodeChar]
    exact c.utf8Size_pos
  · exact Nat.le_refl _

theorem length_quotedBytes_of_high {c : Char} (h : isHighControl c) :
    (quotedBytes c).length < (String.utf8EncodeChar c).length := by
  have hne : c.utf8Size ≠ 1 := by
    rw [Ne, Char.utf8Size_eq_one_iff, UInt32.le_iff_toNat_le]
    exact Nat.not_le_of_lt h.1
  rw [quotedBytes, if_pos h, String.length_utf8EncodeChar]
  exact Nat.lt_of_le_of_ne c.utf8Size_pos (Ne.symm hne)

/-- A generated literal denotes the text it was made for, exactly if the text has no control
character that takes two bytes. -/
theorem interpretedBytes?_quote_eq_iff (s : String) :
    interpretedBytes? (quote s) = some (utf8Bytes s) ↔ ∀ c ∈ s.toList, ¬ isHighControl c := by
  rw [interpretedBytes?_quote, Option.some_inj, utf8Bytes_eq]
  constructor
  · intro h c hc hhigh
    have hlength : ((s.toList.map fun c => (quotedBytes c).length).sum : Nat) <
        (s.toList.map fun c => (String.utf8EncodeChar c).length).sum :=
      List.sum_lt_sum _ _ (fun c _ => length_quotedBytes c)
        ⟨c, hc, length_quotedBytes_of_high hhigh⟩
    rw [← List.length_flatMap, ← List.length_flatMap, h] at hlength
    exact Nat.lt_irrefl _ hlength
  · intro h
    exact List.flatMap_congr fun c hc => if_neg (h c hc)

/-- A control character of two bytes is written as one byte, which is no text at all. -/
theorem interpretedBytes?_quote_padding :
    interpretedBytes? (quote "\u0080") = some [0x80] ∧
      interpretedBytes? (quote "\u0080") ≠ some (utf8Bytes "\u0080") := by
  have hread : interpretedBytes? (quote "\u0080") = some [0x80] := interpretedBytes?_quote "\u0080"
  have hbytes : utf8Bytes "\u0080" = [0xc2, 0x80] := utf8Bytes_eq "\u0080"
  refine ⟨hread, ?_⟩
  rw [hread, hbytes]
  decide

end FieldRules
