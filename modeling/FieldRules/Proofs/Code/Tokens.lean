/-
The tokens of generated code.  Each kind of expression, statement and fragment is written so
that the lexer reads its tokens back, if it reads back those of the parts.
-/
import FieldRules.Proofs.Code.Spelled
import FieldRules.Code.File

namespace FieldRules

/-- The tokens that the lexer finds in a piece of code, without the line end after it. -/
def wordsOf (text : String) : List TokenKind :=
  match lexemesFrom 0 1 text.toList with
  | .ok xs => (kindsFrom false xs).dropLast.dropLast
  | .error _ => []

theorem Spelled.wordsOf_eq {ends : Char → Bool} {text : String} {ks : List TokenKind}
    (h : Spelled ends text.toList ks) : wordsOf text = ks := by
  have hall := h.lexes false [] _ (by simp) (lexes_nil true)
  rw [List.append_nil] at hall
  obtain ⟨xs, hxs, hkinds⟩ := hall 0 1
  rw [wordsOf, hxs]
  simp [hkinds, lineBreak]

/-! Expressions. -/

namespace Expr

def enclosedTokens (e : Expr) (ks : List TokenKind) : List TokenKind :=
  if e.hasOperator then .op "(" :: (ks ++ [.op ")"]) else ks

/-- A key of a set with its empty value. -/
def keyTokens (key : String) : List TokenKind := wordsOf key ++ [.op ":", .op "\x7b", .op "\x7d"]

mutual
def tokens : Expr → List TokenKind
  | ident name => [.ident name]
  | raw text => wordsOf text
  | str text => [.literal .str (quote text)]
  | selector base name => base.enclosedTokens base.tokens ++ [.op ".", .ident name]
  | deref inner => .op "*" :: inner.tokens
  | not inner => .op "!" :: inner.enclosedTokens inner.tokens
  | call function args =>
      function.tokens ++ .op "(" :: ([.op ","].intercalate (tokensAll args) ++ [.op ")"])
  | index base key => base.tokens ++ .op "[" :: (key.tokens ++ [.op "]"])
  | binary left op right => left.tokens ++ .op op :: right.tokens
  | set keyType keys =>
      .ident "map" :: .op "[" :: .ident keyType :: .op "]" :: .ident "struct" ::
        .op "\x7b" :: .op "\x7d" :: .op "\x7b" ::
        ([.op ","].intercalate (keys.map keyTokens) ++ [.op "\x7d"])

def tokensAll : List Expr → List (List TokenKind)
  | [] => []
  | e :: es => e.tokens :: tokensAll es
end

theorem tokensAll_eq_map (es : List Expr) : tokensAll es = es.map tokens := by
  induction es with
  | nil => rfl
  | cons e es ih => simp [tokensAll, ih]

/-- What may follow an expression.  A number would swallow a selector. -/
def ends : Expr → Char → Bool
  | raw _ | str _ | deref _ | not _ | binary _ _ _ => endsWord
  | _ => endsName

theorem ends_of_endsWord {d : Char} (e : Expr) (h : endsWord d = true) : e.ends d = true := by
  have hname : endsName d = true := by simp [endsName, h]
  cases e <;> assumption

/-- A selector may follow, perhaps behind parentheses. -/
def Selectable (e : Expr) : Prop :=
  ∀ d, endsName d = true → e.hasOperator = true ∨ e.ends d = true

theorem selectable_ident (name : String) : (ident name).Selectable := fun _ => .inr

theorem selectable_selector (base : Expr) (name : String) : (selector base name).Selectable :=
  fun _ => .inr

theorem selectable_deref (inner : Expr) : inner.deref.Selectable := fun _ _ => .inl rfl

/-- The lexer reads the tokens of an expression from its text, and their delimiters match. -/
structure Printed (e : Expr) : Prop where
  spelled : Spelled e.ends e.text.toList e.tokens
  balanced : Balanced e.tokens

namespace Printed

variable {e key left right : Expr} {args : List Expr} {keys : List String}
  {name op keyType text : String} {ks : List TokenKind}

theorem word (h : e.Printed) : Spelled endsWord e.text.toList e.tokens :=
  h.spelled.mono fun _ => e.ends_of_endsWord

theorem ident (h : isIdentifier name = true) : (Expr.ident name).Printed where
  spelled := .ident h
  balanced := .ident .nil name

theorem raw (h : Spelled endsWord text.toList ks) (hbalanced : Balanced ks) :
    (Expr.raw text).Printed := by
  have htokens : (Expr.raw text).tokens = ks := by rw [tokens, h.wordsOf_eq]
  exact ⟨htokens ▸ h, htokens ▸ hbalanced⟩

/-- Code that repeats the text of an expression. -/
theorem rawText (h : e.Printed) : (Expr.raw e.text).Printed := .raw h.word h.balanced

theorem str (text : String) : (Expr.str text).Printed where
  spelled := .literal (isLiteral_quote text)
  balanced := .literal .nil .str (quote text)

/-- An expression, in parentheses if it needs them, in front of what may follow it. -/
theorem enclosed {ends : Char → Bool} (h : e.Printed)
    (hends : ∀ d, ends d = true → e.hasOperator = true ∨ e.ends d = true) :
    Spelled ends (e.enclosed e.text).toList (e.enclosedTokens e.tokens) := by
  unfold Expr.enclosed enclosedTokens
  split
  · have hinside := h.word.append (.close ends ')' ")" rfl (by simp)) (by simp [endsWord])
    have hall := hinside.punct '(' "(" (by decide)
    simpa [String.toList_append] using hall
  · rename_i hplain
    exact h.spelled.mono fun d hd => (hends d hd).resolve_left hplain

theorem balanced_enclosed (h : e.Printed) : Balanced (e.enclosedTokens e.tokens) := by
  unfold enclosedTokens
  split
  · exact .enclosed (by simp [delimiters]) h.balanced
  · exact h.balanced

theorem selector (h : e.Printed) (hbase : e.Selectable) (hname : isIdentifier name = true) :
    (e.selector name).Printed where
  spelled := by
    obtain ⟨c, cs, hchars, hstart, -⟩ := exists_of_isIdentifier hname
    have hpoint := (Spelled.ident hname).mark '.' "." rfl (by decide) (by decide) (by
      rw [hchars]
      rintro _ ⟨⟩
      exact stopsAt_point hstart)
    have hall := (h.enclosed hbase).append hpoint (by simp [endsName])
    simpa [text, tokens, String.toList_append, ends] using hall
  balanced :=
    h.balanced_enclosed.append (.cons (.ident .nil name) rfl rfl (by simp))

theorem deref (h : e.Printed) : e.deref.Printed where
  spelled := by
    have hall := h.word.star
    simpa [text, tokens, String.toList_append, ends] using hall
  balanced := h.balanced.cons rfl rfl (by simp)

theorem not (h : e.Printed) : e.not.Printed where
  spelled := by
    have hall := (h.enclosed fun d hd => .inr (e.ends_of_endsWord hd)).negation
    simpa [text, tokens, String.toList_append, ends] using hall
  balanced := h.balanced_enclosed.cons rfl rfl (by simp)

theorem call (h : e.Printed) (hargs : ∀ a ∈ args, a.Printed) : (e.call args).Printed where
  spelled := by
    have hitems : ∀ a ∈ args, Spelled endsWord a.text.toList a.tokens :=
      fun a ha => (hargs a ha).word
    have hinside := (Spelled.close endsName ')' ")" rfl (by simp)).items (by simp [endsWord]) hitems
    have hopened := hinside.punct '(' "(" (by decide)
    have hall := h.word.append hopened (by simp [endsWord])
    simpa [text, texts_eq_map, tokens, tokensAll_eq_map, String.toList_append,
      String.toList_intercalate, ends, Function.comp_def] using hall
  balanced := by
    rw [tokens, tokensAll_eq_map]
    refine h.balanced.append (.enclosed (by simp [delimiters]) (.separated ?_))
    exact List.forall_mem_map.mpr fun a ha => (hargs a ha).balanced

theorem index (h : e.Printed) (hkey : key.Printed) : (e.index key).Printed where
  spelled := by
    have hinside := hkey.word.append (.close endsName ']' "]" rfl (by simp)) (by simp [endsWord])
    have hopened := hinside.punct '[' "[" (by decide)
    have hall := h.word.append hopened (by simp [endsWord])
    simpa [text, tokens, String.toList_append, ends] using hall
  balanced := h.balanced.append (.enclosed (by simp [delimiters]) hkey.balanced)

theorem binary (hleft : left.Printed) (hright : right.Printed) (hop : op ∈ spacedOperators) :
    (left.binary op right).Printed where
  spelled := by
    have hall := hleft.word.append (hright.word.spaced hop).blank (by simp [endsWord])
    simpa [text, tokens, String.toList_append, ends] using hall
  balanced := by
    have hflat : (TokenKind.op op).opens = false ∧ (TokenKind.op op).closes = false := by
      simp only [spacedOperators, List.mem_cons, List.not_mem_nil, or_false] at hop
      rcases hop with rfl | rfl | rfl | rfl | rfl | rfl | rfl | rfl <;> decide
    exact hleft.balanced.append (hright.balanced.cons hflat.1 hflat.2 (by simp))

theorem spelled_key {key : String} (h : Spelled endsWord key.toList ks) :
    Spelled endsWord (key ++ ": \x7b\x7d").toList (keyTokens key) := by
  have hclose := Spelled.close endsWord '\x7d' "\x7d" rfl (by simp)
  have hempty := hclose.punct '\x7b' "\x7b" (by decide)
  have hvalue := hempty.spaced (by decide : ":" ∈ spacedOperators)
  have hall := h.append hvalue (by simp [endsWord])
  rw [keyTokens, h.wordsOf_eq, String.toList_append]
  exact hall

theorem balanced_key {key : String} (h : Spelled endsWord key.toList ks) (hbalanced : Balanced ks) :
    Balanced (keyTokens key) := by
  have hempty : Balanced [.op "\x7b", .op "\x7d"] := .enclosed (by simp [delimiters]) .nil
  rw [keyTokens, h.wordsOf_eq]
  exact hbalanced.append (hempty.cons rfl rfl (by simp))

theorem set (htype : isIdentifier keyType = true)
    (hkeys : ∀ key ∈ keys, ∃ ks, Spelled endsWord key.toList ks ∧ Balanced ks) :
    (Expr.set keyType keys).Printed where
  spelled := by
    have hitems : ∀ key ∈ keys,
        Spelled endsWord (key ++ ": \x7b\x7d").toList (keyTokens key) := by
      intro key hkey
      obtain ⟨ks, hspelled, -⟩ := hkeys key hkey
      exact spelled_key hspelled
    have hinside :=
      (Spelled.close endsName '\x7d' "\x7d" rfl (by simp)).items (by simp [endsWord]) hitems
    have hopened := hinside.punct '\x7b' "\x7b" (by decide)
    have hempty := (hopened.punct '\x7d' "\x7d" (by decide)).punct '\x7b' "\x7b" (by decide)
    have hstruct := (Spelled.ident (by decide : isIdentifier "struct" = true)).append hempty
      (by simp [endsName, endsWord])
    have htyped := (Spelled.ident htype).append (hstruct.punct ']' "]" (by decide))
      (by simp [endsName, endsWord])
    have hall := (Spelled.ident (by decide : isIdentifier "map" = true)).append
      (htyped.punct '[' "[" (by decide)) (by simp [endsName, endsWord])
    simpa [text, tokens, String.toList_append, String.toList_intercalate, ends,
      Function.comp_def] using hall
  balanced := by
    have hkey : Balanced [.op "[", .ident keyType, .op "]"] :=
      .enclosed (by simp [delimiters]) (.ident .nil keyType)
    have hstruct : Balanced [.ident "struct", .op "\x7b", .op "\x7d"] :=
      .ident (.enclosed (by simp [delimiters]) .nil) "struct"
    have hinside : Balanced ([.op ","].intercalate (keys.map keyTokens)) := by
      refine .separated (List.forall_mem_map.mpr fun key hkey => ?_)
      obtain ⟨ks, hspelled, hbalanced⟩ := hkeys key hkey
      exact balanced_key hspelled hbalanced
    exact (hkey.append (hstruct.append (.enclosed (by simp [delimiters]) hinside))).ident "map"

end Printed

end Expr

end FieldRules
