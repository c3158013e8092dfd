/-
Basic literals of Go and the constants that they denote.  A constant may be spelled in many ways:
a number in several bases, by a character, with separators or as a fraction, and a text with
escapes or as it stands.  The type decides which numbers it may be and rounds fractions.
-/
import FieldRules.Number.Literal
import FieldRules.Model.Declaration
import FieldRules.Proofs.Code.Interpreted
import FieldRules.Proofs.Number.ReadBack

namespace FieldRules

/-! Whole numbers and fractions. -/

def digitBelow? (base : Nat) (c : Char) : Option Nat := (digitOf? c).filter (· < base)

/-- Digits, where a separator may stand before each of them. -/
def moreDigits? (base : Nat) : List Char → Option (List Nat)
  | [] => some []
  | '_' :: c :: cs => do return (← digitBelow? base c) :: (← moreDigits? base cs)
  | c :: cs => do return (← digitBelow? base c) :: (← moreDigits? base cs)

/-- Digits with separators between them. -/
def digits? (base : Nat) (cs : List Char) : Option (List Nat) :=
  if cs.head? = some '_' then none else moreDigits? base cs

/-- The number written by digits, the most significant first. -/
def valueOfDigits (base : Nat) (ds : List Nat) : Nat := ds.foldl (fun n d => base * n + d) 0

/-- A number behind the letter for its base. -/
def prefixed? (base : Nat) (cs : List Char) : Option Nat :=
  if cs.isEmpty then none else (moreDigits? base cs).map (valueOfDigits base)

/-- A whole number: a zero with a letter announces another base, and one with digits announces
octal digits. -/
def whole? : List Char → Option Nat
  | '0' :: c :: cs =>
      if c = 'x' || c = 'X' then prefixed? 16 cs
      else if c = 'b' || c = 'B' then prefixed? 2 cs
      else if c = 'o' || c = 'O' then prefixed? 8 cs
      else prefixed? 8 (c :: cs)
  | cs => if cs.isEmpty then none else (digits? 10 cs).map (valueOfDigits 10)

/-- A power in front of which a letter and perhaps a sign stand. -/
def exponent? : List Char → Option Int
  | [] => some 0
  | _ :: cs =>
      let (negative, ds) := splitSign cs
      if ds.isEmpty then none
      else
        (digits? 10 ds).map fun ds =>
          if negative then -(valueOfDigits 10 ds : Int) else valueOfDigits 10 ds

/-- The letters in front of a power, of two behind hexadecimal digits and of ten otherwise. -/
def marksPower (hex : Bool) (c : Char) : Bool :=
  if hex then c = 'p' || c = 'P' else c = 'e' || c = 'E'

/-- Digits with a point among or around them, and a power. -/
def fraction? (hex : Bool) (cs : List Char) : Option Rat :=
  let base : Nat := if hex then 16 else 10
  let scale : Nat := if hex then 2 else 10
  let (mantissa, power) := cs.span fun c => !marksPower hex c
  let (whole, rest) := mantissa.span (· != '.')
  let decimals := rest.drop 1
  if whole.isEmpty && decimals.isEmpty then none
  else do
    let ws ← moreDigits? base whole
    let ds ← digits? base decimals
    let e ← exponent? power
    return mkRat (valueOfDigits base (ws ++ ds) * scale ^ e.toNat)
      (base ^ ds.length * scale ^ (-e).toNat)

def isHexadecimal : List Char → Bool
  | '0' :: c :: _ => c = 'x' || c = 'X'
  | _ => false

/-- A number without a sign.  Hexadecimal digits are a fraction only with a power. -/
def magnitude? (cs : List Char) : Option Rat :=
  if isHexadecimal cs then
    if cs.any (marksPower true) then fraction? true (cs.drop 2) else (whole? cs).map Nat.cast
  else if cs.any fun c => c = '.' || marksPower false c then fraction? false cs
  else (whole? cs).map Nat.cast

def signed? : List Char → Option Rat
  | '-' :: cs => (magnitude? cs).map (-·)
  | cs => magnitude? cs

/-! Characters and texts. -/

/-- What an escape of a character stands for, read from behind its backslash. -/
def characterEscape? : List Char → Option (Nat × List Char)
  | [] => none
  | c :: rest =>
      if c = '\'' then some (0x27, rest)
      else if c = '"' then none
      else
        match namedEscape? c with
        | some byte => some (byte.toNat, rest)
        | none =>
            if c = 'x' then readDigits? 16 2 0 rest
            else if c = 'u' then (readDigits? 16 4 0 rest).filter (·.1.isValidChar)
            else if c = 'U' then (readDigits? 16 8 0 rest).filter (·.1.isValidChar)
            else (readDigits? 8 3 0 (c :: rest)).filter (·.1 < 256)

/-- The number of a character, read from behind the quote. -/
def character? : List Char → Option Nat
  | '\\' :: cs => (characterEscape? cs).bind fun (n, rest) => if rest = ['\''] then some n else none
  | [c, '\''] => if c = '\'' || c = '\n' then none else some c.toNat
  | _ => none

/-- The bytes of a text between backquotes, read from behind the first; carriage returns are
left out. -/
def rawBytes? (cs : List Char) : Option (List UInt8) :=
  if cs.getLast? = some '\x60' ∧ '\x60' ∉ cs.dropLast then
    some ((cs.dropLast.filter (· ≠ '\r')).flatMap String.utf8EncodeChar)
  else none

/-! Constants of a type. -/

/-- A constant by what it is, however it is spelled. -/
inductive GoConstant where
  | bytes (bs : List UInt8)
  | number (q : Rat)
deriving DecidableEq

def numberOf? (spelling : String) : Option Rat :=
  match spelling.toList with
  | '\'' :: cs => (character? cs).map Nat.cast
  | cs => signed? cs

def bytesOf? (spelling : String) : Option (List UInt8) :=
  match spelling.toList with
  | '\x60' :: cs => rawBytes? cs
  | _ => interpretedBytes? spelling

/-- The bits of an integer type, on a machine of 64 bits. -/
def bitsOf (type : String) : Nat :=
  if type ∈ ["int8", "uint8", "byte"] then 8
  else if type ∈ ["int16", "uint16"] then 16
  else if type ∈ ["int32", "uint32", "rune"] then 32
  else 64

/-- The least integer of a type, and the first one that is too large. -/
def integerBounds (type : String) : Int × Int :=
  if type ∈ ["uint", "uint8", "uint16", "uint32", "uint64", "uintptr", "byte"] then
    (0, 2 ^ bitsOf type)
  else (-2 ^ (bitsOf type - 1), 2 ^ (bitsOf type - 1))

def InRange (type : String) (n : Int) : Prop :=
  (integerBounds type).1 ≤ n ∧ n < (integerBounds type).2

instance (type : String) (n : Int) : Decidable (InRange type n) :=
  inferInstanceAs (Decidable (_ ∧ _))

/-- A floating-point type: its significant bits, how many units of its smallest number are one,
as a power of two, and the power of two that is too large. -/
structure FloatType where
  precision : Nat
  unit : Nat
  limit : Nat

def FloatType.of (type : String) : FloatType :=
  if type = "float32" then ⟨24, 149, 128⟩ else ⟨53, 1074, 1024⟩

/-- The nearest number of the type, of two the even one; none where that is too large. -/
def FloatType.nearest? (t : FloatType) (q : Rat) : Option Rat :=
  let units := q.num.natAbs * 2 ^ t.unit
  let spacing := 2 ^ ((units / q.den).log2 - (t.precision - 1))
  let nearest := roundHalfEven units (q.den * spacing) * spacing
  if nearest < 2 ^ (t.limit + t.unit) then some (mkRat (q.num.sign * nearest) (2 ^ t.unit))
  else none

/-- The constant of a type that a literal, perhaps with a minus sign, denotes. -/
def constantOf? (type spelling : String) : Option GoConstant :=
  match ScalarKind.ofBuiltin? type with
  | some .text => (bytesOf? spelling).map .bytes
  | some .integer => do
      let q ← numberOf? spelling
      if q.den = 1 ∧ InRange type q.num then some (.number q) else none
  | some .float => do
      let q ← numberOf? spelling
      let nearest ← (FloatType.of type).nearest? q
      return .number nearest
  | none => none

-- One number in ten spellings.
example : (["97", "0x61", "0X6_1", "0b110_0001", "0o141", "0141", "9.7e1", "0x.c2p+7", "'a'",
    "'\\141'"].map (constantOf? "int")) = List.replicate 10 (some (.number 97)) := by
  decide +kernel

/-! Plain spellings. -/

/-- Only zero is written with a zero in front. -/
theorem head?_toDigits_ne {n : Nat} (h : 0 < n) : (Nat.toDigits 10 n).head? ≠ some '0' := by
  induction n using Nat.strong_induction_on with
  | h n ih =>
      by_cases hsmall : n < 10
      · have hdigit : ∀ d < 10, 0 < d → [Nat.digitChar d].head? ≠ some '0' := by decide
        rw [Nat.toDigits_of_lt_base hsmall]
        exact hdigit n hsmall h
      · have hrest := ih (n / 10) (by omega) (by omega)
        rw [Nat.toDigits_of_base_le (by omega) (by omega), List.head?_append]
        cases hhead : (Nat.toDigits 10 (n / 10)).head? with
        | none => exact absurd (List.head?_eq_none_iff.mp hhead) Nat.toDigits_ne_nil
        | some c => simpa [hhead] using hrest

section Digits

variable {cs : List Char}

theorem digitBelow?_ten {c : Char} (h : c.isDigit = true) :
    digitBelow? 10 c = some (c.toNat - '0'.toNat) :=
  of_isDigit (p := fun c => digitBelow? 10 c = some (c.toNat - '0'.toNat)) (by decide) h

theorem digits?_ten (h : ∀ c ∈ cs, c.isDigit = true) :
    digits? 10 cs = some (cs.map fun c => c.toNat - '0'.toNat) := by
  have hseparator : ∀ c : Char, c.isDigit = true → c ≠ '_' := fun _ hc =>
    of_isDigit (p := fun c => c ≠ '_') (by decide) hc
  have hmore : moreDigits? 10 cs = some (cs.map fun c => c.toNat - '0'.toNat) := by
    induction cs with
    | nil => rfl
    | cons c cs ih =>
        obtain ⟨hc, hcs⟩ := List.forall_mem_cons.mp h
        rw [moreDigits?, digitBelow?_ten hc, ih hcs]
        · rfl
        · exact fun _ _ heq _ => hseparator c hc heq
  rw [digits?, if_neg ?_, hmore]
  intro hhead
  exact hseparator '_' (h '_' (List.mem_of_head? hhead)) rfl

theorem valueOfDigits_ten (cs : List Char) :
    valueOfDigits 10 (cs.map fun c => c.toNat - '0'.toNat) = digitsValue cs := by
  rw [valueOfDigits, List.foldl_map, digitsValue]

/-- Decimal digits denote their number. -/
theorem magnitude?_toDigits (n : Nat) : magnitude? (Nat.toDigits 10 n) = some (n : Rat) := by
  have hdigits := isDigit_toDigits n
  have hhex : isHexadecimal (Nat.toDigits 10 n) = false := by
    unfold isHexadecimal
    split
    · rename_i c cs heq
      have hc : c.isDigit = true := hdigits c (by rw [heq]; simp)
      exact of_isDigit (p := fun c => (decide (c = 'x') || decide (c = 'X')) = false) (by decide) hc
    · rfl
  have hplain : ∀ c ∈ Nat.toDigits 10 n, ¬ (decide (c = '.') || marksPower false c) = true :=
    fun c hc => of_isDigit (p := fun c => ¬ (decide (c = '.') || marksPower false c) = true)
      (by decide) (hdigits c hc)
  have hwhole : whole? (Nat.toDigits 10 n) = some n := by
    unfold whole?
    split
    · rename_i c cs heq
      rcases Nat.eq_zero_or_pos n with rfl | hpos
      · cases heq
      · exact absurd (by rw [heq]; rfl) (head?_toDigits_ne hpos)
    · rw [if_neg (by simp [Nat.toDigits_ne_nil]), digits?_ten hdigits, Option.map_some,
        valueOfDigits_ten, digitsValue_toDigits]
  rw [magnitude?, if_neg (by simp [hhex]), List.any_eq_false.mpr hplain, if_neg (by simp), hwhole]
  rfl

end Digits

/-- The decimal spelling of an integer denotes it. -/
theorem numberOf?_int (n : Int) : numberOf? (toString n) = some (n : Rat) := by
  have hother : ∀ mark : Char, mark.isDigit = false → mark ≠ '-' →
      ∀ cs, (toString n).toList ≠ mark :: cs := by
    intro mark hdigit hminus cs heq
    rcases mem_int (n := n) (c := mark) (by rw [heq]; exact List.mem_cons_self) with h | h
    · exact hminus h
    · rw [h] at hdigit
      cases hdigit
  have hsigned : signed? (toString n).toList = some (n : Rat) := by
    rw [toList_int]
    by_cases hneg : n < 0
    · have hvalue : -(n.natAbs : Rat) = n := by
        rw [← Int.cast_natCast, ← Int.cast_neg, Int.ofNat_natAbs_of_nonpos (Int.le_of_lt hneg)]
        simp
      rw [if_pos hneg, List.singleton_append, signed?, magnitude?_toDigits, Option.map_some, hvalue]
    · have hvalue : (n.natAbs : Rat) = n := by
        rw [← Int.cast_natCast, Int.natAbs_of_nonneg (Int.not_lt.mp hneg)]
      rw [if_neg hneg, List.nil_append]
      unfold signed?
      split
      · rename_i cs heq
        have hminus := isDigit_toDigits n.natAbs '-' (by rw [heq]; exact List.mem_cons_self)
        cases hminus
      · rw [magnitude?_toDigits, hvalue]
  unfold numberOf?
  split
  · rename_i cs heq
    exact absurd heq (hother '\'' (by decide) (by decide) cs)
  · exact hsigned

/-- A number is no text. -/
theorem bytesOf?_int (n : Int) : bytesOf? (toString n) = none := by
  have hother : ∀ mark ∈ ['"', '\x60'], ∀ cs, (toString n).toList ≠ mark :: cs := by
    intro mark hmark cs heq
    have hmem : mark ∈ (toString n).toList := by
      rw [heq]
      exact List.mem_cons_self
    rcases mem_int hmem with rfl | hdigit
    · exact absurd hmark (by decide)
    · exact of_isDigit (p := fun c => c ∉ ['"', '\x60']) (by decide) hdigit hmark
  unfold bytesOf?
  split
  · rename_i cs heq
    exact absurd heq (hother '\x60' (by decide) cs)
  · unfold interpretedBytes?
    split
    · rename_i cs heq
      exact absurd heq (hother '"' (by decide) cs)
    · rfl

theorem toList_quote (s : String) :
    (quote s).toList = '"' :: (s.toList.flatMap quoteChar ++ ['"']) := by
  rw [quote, String.toList_ofList, quoteChars, List.cons_append]

/-- A quoted text denotes its bytes. -/
theorem bytesOf?_quote {s : String} (h : ∀ c ∈ s.toList, ¬ isHighControl c) :
    bytesOf? (quote s) = some (utf8Bytes s) := by
  have hbytes : s.toList.flatMap quotedBytes = utf8Bytes s := by
    rw [utf8Bytes_eq]
    exact List.flatMap_congr fun c hc => if_neg (h c hc)
  have hread : interpretedBytes? (quote s) = some (utf8Bytes s) := by
    rw [interpretedBytes?_quote, hbytes]
  unfold bytesOf?
  split
  · rename_i cs heq
    rw [toList_quote] at heq
    cases heq
  · exact hread

theorem utf8Bytes_injective {s t : String} (h : utf8Bytes s = utf8Bytes t) : s = t := by
  rw [← String.toByteArray_inj]
  exact ByteArray.ext (Array.toList_inj.mp h)

/-- A text is no number. -/
theorem numberOf?_quote (s : String) : numberOf? (quote s) = none := by
  have hdigits : ∀ base cs, moreDigits? base ('"' :: cs) = none := by
    intro base cs
    rw [moreDigits?]
    · rfl
    · exact fun _ _ heq _ => absurd heq (by decide)
  have hfraction : ∀ cs, fraction? false ('"' :: cs) = none := by
    intro cs
    simp [fraction?, List.span_eq_takeWhile_dropWhile, marksPower, hdigits]
  have hwhole : ∀ cs, whole? ('"' :: cs) = none := by
    intro cs
    simp [whole?, digits?, hdigits]
  rw [numberOf?, toList_quote]
  simp [signed?, magnitude?, isHexadecimal, hfraction, hwhole]

end FieldRules
