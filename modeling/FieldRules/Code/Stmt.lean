/-
Go statements, as far as validation needs them.
-/
import FieldRules.Code.Expr
import FieldRules.Code.Fragment

namespace FieldRules

/-- A statement that may stand before the condition of a branch. -/
inductive SimpleStmt where
  | define (names : List String) (value : Expr)
  | assign (target value : Expr)

def SimpleStmt.text : SimpleStmt → String
  | define names value => ", ".intercalate names ++ " := " ++ value.text
  | assign target value => target.text ++ " = " ++ value.text

inductive Stmt where
  | simple (s : SimpleStmt)
  /-- A variable with the zero value of its type. -/
  | declare (name type : String)
  | branch (first : Option SimpleStmt) (condition : Expr) (body : List Stmt)
  | loop (key value : String) (whole : Expr) (body : List Stmt)
  | result (value : Expr)

namespace Stmt

def define (names : List String) (value : Expr) : Stmt := simple (.define names value)

def assign (target value : Expr) : Stmt := simple (.assign target value)

def branchHeader (first : Option SimpleStmt) (condition : Expr) : String :=
  match first with
  | some s => "if " ++ s.text ++ "; " ++ condition.text
  | none => "if " ++ condition.text

def loopHeader (key value : String) (whole : Expr) : String :=
  "for " ++ key ++ ", " ++ value ++ " := range " ++ whole.text

mutual
def fragment : Stmt → Fragment
  | simple s => .line s.text
  | declare name type => .line ("var " ++ name ++ " " ++ type)
  | branch first condition body => .braced (branchHeader first condition) (fragments body)
  | loop key value whole body => .braced (loopHeader key value whole) (fragments body)
  | result value => .line ("return " ++ value.text)

def fragments : List Stmt → List Fragment
  | [] => []
  | s :: ss => s.fragment :: fragments ss
end

theorem fragments_eq_map (ss : List Stmt) : fragments ss = ss.map fragment := by
  induction ss with
  | nil => rfl
  | cons s ss ih => simp [fragments, ih]

end Stmt

end FieldRules
