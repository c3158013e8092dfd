/-
Go expressions and their text.
-/
import FieldRules.Code.Quoted

namespace FieldRules

inductive Expr where
  | ident (name : String)
  /-- A piece of code as it is written. -/
  | raw (text : String)
  /-- A string literal by the text it stands for. -/
  | str (text : String)
  | selector (base : Expr) (name : String)
  | deref (inner : Expr)
  | not (inner : Expr)
  | call (function : Expr) (args : List Expr)
  | index (base key : Expr)
  | binary (left : Expr) (op : String) (right : Expr)
  /-- A set of keys, written as a map to empty structs. -/
  | set (keyType : String) (keys : List String)

namespace Expr

def nil : Expr := raw "nil"

def notNil (e : Expr) : Expr := binary e "!=" nil

/-- Call a method or a function of a package. -/
def method (base : Expr) (name : String) (args : List Expr) : Expr :=
  call (selector base name) args

/-- Whether an operator stands outermost, so that a selector or a negation needs
parentheses around it. -/
def hasOperator : Expr → Bool
  | deref _ | not _ | binary _ _ _ => true
  | _ => false

/-- The text of an expression inside another, if its own is `text`. -/
def enclosed (e : Expr) (text : String) : String :=
  if e.hasOperator then "(" ++ text ++ ")" else text

mutual
def text : Expr → String
  | ident name | raw name => name
  | str text => quote text
  | selector base name => base.enclosed base.text ++ "." ++ name
  | deref inner => "*" ++ inner.text
  | not inner => "!" ++ inner.enclosed inner.text
  | call function args => function.text ++ "(" ++ ", ".intercalate (texts args) ++ ")"
  | index base key => base.text ++ "[" ++ key.text ++ "]"
  | binary left op right => left.text ++ " " ++ op ++ " " ++ right.text
  | set keyType keys =>
      "map[" ++ keyType ++ "]struct\x7b\x7d\x7b" ++
        ", ".intercalate (keys.map fun key => key ++ ": \x7b\x7d") ++ "\x7d"

def texts : List Expr → List String
  | [] => []
  | e :: es => e.text :: texts es
end

theorem texts_eq_map (es : List Expr) : texts es = es.map text := by
  induction es with
  | nil => rfl
  | cons e es ih => simp [texts, ih]

end Expr

end FieldRules
