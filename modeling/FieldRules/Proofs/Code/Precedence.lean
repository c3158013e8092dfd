/-
Go's grammar of the expressions that generated code is built from: their tokens, with the
parentheses that are written, and how strongly each operator binds.
-/
import FieldRules.Source.Token

namespace FieldRules

/-- The binary operators of Go, those that bind weakest first. -/
def operatorLevels : List (List String) :=
  [["||"], ["&&"], ["==", "!=", "<", "<=", ">", ">="], ["+", "-", "|", "^"],
    ["*", "/", "%", "<<", ">>", "&", "&^"]]

def binaryOperators : List String := operatorLevels.flatten

/-- How strongly a binary operator binds, from one to five. -/
def precedence (symbol : String) : Nat := operatorLevels.findIdx (symbol ∈ ·) + 1

@[ext]
structure BinaryOperator where
  symbol : String
  mem : symbol ∈ binaryOperators

theorem BinaryOperator.precedence_le (op : BinaryOperator) : precedence op.symbol ≤ 5 := by
  have hall : ∀ symbol ∈ binaryOperators, precedence symbol ≤ 5 := by decide
  exact hall op.symbol op.mem

/-- A binary operator is no delimiter and not the point of a selector. -/
theorem BinaryOperator.symbol_ne (op : BinaryOperator) :
    op.symbol ∉ [".", ",", "(", ")", "[", "]"] := by
  have hall : ∀ symbol ∈ binaryOperators, symbol ∉ [".", ",", "(", ")", "[", "]"] := by decide
  exact hall op.symbol op.mem

/-- The token of a binary operator neither opens nor closes anything and ends no operand. -/
theorem BinaryOperator.plain_symbol (op : BinaryOperator) :
    (TokenKind.op op.symbol).opens = false ∧ (TokenKind.op op.symbol).closes = false ∧
      (TokenKind.op op.symbol).endsStatement = false := by
  have hall : ∀ symbol ∈ binaryOperators, (TokenKind.op symbol).opens = false ∧
      (TokenKind.op symbol).closes = false ∧ (TokenKind.op symbol).endsStatement = false := by
    decide
  exact hall op.symbol op.mem

/-- The operators that stand in front of their operand. -/
inductive PrefixOperator where
  | deref
  | not

def PrefixOperator.symbol : PrefixOperator → String
  | deref => "*"
  | not => "!"

/-- An expression with the parentheses it is written with. -/
inductive ParsedExpr where
  | name (name : String)
  | parens (inside : ParsedExpr)
  | field (base : ParsedExpr) (name : String)
  | call (function : ParsedExpr) (args : List ParsedExpr)
  | index (base key : ParsedExpr)
  | prefixed (op : PrefixOperator) (operand : ParsedExpr)
  | binary (left : ParsedExpr) (op : BinaryOperator) (right : ParsedExpr)

namespace ParsedExpr

/-- The arguments of a call are among the parts of a tree. -/
@[elab_as_elim, induction_eliminator]
theorem induct {motive : ParsedExpr → Prop} (name : ∀ name, motive (.name name))
    (parens : ∀ inside, motive inside → motive (.parens inside))
    (field : ∀ base name, motive base → motive (.field base name))
    (call : ∀ function args, motive function → (∀ a ∈ args, motive a) →
      motive (.call function args))
    (index : ∀ base key, motive base → motive key → motive (.index base key))
    (prefixed : ∀ op operand, motive operand → motive (.prefixed op operand))
    (binary : ∀ left op right, motive left → motive right → motive (.binary left op right))
    (t : ParsedExpr) : motive t :=
  @ParsedExpr.rec motive (fun ts => ∀ a ∈ ts, motive a) name parens field call index prefixed
    binary (List.forall_mem_nil _) (fun _ _ ha has => List.forall_mem_cons.mpr ⟨ha, has⟩) t

mutual
def tokens : ParsedExpr → List TokenKind
  | .name word => [.ident word]
  | parens inside => .op "(" :: (inside.tokens ++ [.op ")"])
  | field base word => base.tokens ++ [.op ".", .ident word]
  | call function args =>
      function.tokens ++ .op "(" :: ([.op ","].intercalate (tokensAll args) ++ [.op ")"])
  | index base key => base.tokens ++ .op "[" :: (key.tokens ++ [.op "]"])
  | prefixed op operand => .op op.symbol :: operand.tokens
  | binary left op right => left.tokens ++ .op op.symbol :: right.tokens

def tokensAll : List ParsedExpr → List (List TokenKind)
  | [] => []
  | t :: ts => t.tokens :: tokensAll ts
end

theorem tokensAll_eq_map (ts : List ParsedExpr) : tokensAll ts = ts.map tokens := by
  induction ts with
  | nil => rfl
  | cons t ts ih => simp [tokensAll, ih]

/-- How strongly what stands outermost binds: a binary operator by its level, then an operator
in front, then all that needs no operator. -/
def strength : ParsedExpr → Nat
  | binary _ op _ => precedence op.symbol
  | prefixed _ _ => 6
  | _ => 7

/-- The trees of Go's grammar.  Selectors, calls and indexing apply to primary expressions, an
operator in front to what has no binary operator outermost, and a binary operator takes on its
left what binds as strongly as itself and on its right what binds more strongly. -/
inductive Grammatical : ParsedExpr → Prop
  | name (name : String) : Grammatical (.name name)
  | parens {t : ParsedExpr} (inside : t.Grammatical) : Grammatical (.parens t)
  | field {b : ParsedExpr} (base : b.Grammatical) (primary : b.strength = 7) (name : String) :
      Grammatical (.field b name)
  | call {f : ParsedExpr} {args : List ParsedExpr} (function : f.Grammatical)
      (primary : f.strength = 7) (each : ∀ a ∈ args, a.Grammatical) : Grammatical (.call f args)
  | index {b k : ParsedExpr} (base : b.Grammatical) (primary : b.strength = 7)
      (key : k.Grammatical) : Grammatical (.index b k)
  | prefixed {t : ParsedExpr} (op : PrefixOperator) (operand : t.Grammatical)
      (unary : 6 ≤ t.strength) : Grammatical (.prefixed op t)
  | binary {l r : ParsedExpr} {op : BinaryOperator} (left : l.Grammatical) (right : r.Grammatical)
      (onLeft : precedence op.symbol ≤ l.strength) (onRight : precedence op.symbol < r.strength) :
      Grammatical (.binary l op r)

end ParsedExpr

end FieldRules
