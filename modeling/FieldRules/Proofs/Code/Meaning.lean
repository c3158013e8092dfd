/-
The meaning of generated code, as far as validation methods use the language: values,
evaluation of expressions and execution of statements.  Following a nil pointer ends a
run with a fault, and so does an operation on a value of another type.
-/
import FieldRules.Code.Lowering
import FieldRules.Number.Literal
import FieldRules.Proofs.Outcome

namespace FieldRules

/-- An error with a text of its own, one wrapped in a text, or several joined.  What a
format prints that does not fit its arguments is left open. -/
inductive GoError where
  | text (message : String)
  | wrapped (message : String) (inner : GoError)
  | garbled (format : String)
  | joined (parts : List GoError)

namespace GoError

mutual
def message : GoError → String
  | text message | wrapped message _ | garbled message => message
  | joined parts => "\n".intercalate (messages parts)

def messages : List GoError → List String
  | [] => []
  | e :: es => e.message :: messages es
end

mutual
/-- The errors behind all joining. -/
def parts : GoError → List GoError
  | joined es => partsOf es
  | e => [e]

def partsOf : List GoError → List GoError
  | [] => []
  | e :: es => e.parts ++ partsOf es
end

end GoError

/-- A number of some numeric type: floating-point types also have infinities and a value
that is no number. -/
inductive GoNumber where
  | finite (q : Rat)
  | infinite (negative : Bool)
  | undefined
deriving DecidableEq

namespace GoNumber

/-- Nothing is below or above a value that is no number, or the same as it. -/
def below : GoNumber → GoNumber → Bool
  | finite p, finite q => p < q
  | infinite s, infinite t => s && !t
  | infinite s, finite _ => s
  | finite _, infinite t => !t
  | _, _ => false

def same : GoNumber → GoNumber → Bool
  | finite p, finite q => p = q
  | infinite s, infinite t => s = t
  | _, _ => false

def compared? (op : String) (x y : GoNumber) : Option Bool :=
  if op = "<" then some (x.below y)
  else if op = "<=" then some (x.below y || x.same y)
  else if op = ">" then some (y.below x)
  else if op = ">=" then some (y.below x || x.same y)
  else if op = "!=" then some (!x.same y)
  else none

end GoNumber

/-- A value that is neither a pointer nor a container, by what a program can find out
about it: its length in bytes, its number, its text and what its Validate method
returns. -/
structure Leaf where
  length : Option Nat
  number : Option GoNumber
  printed : String
  complaint : Option GoError

inductive GoValue where
  /-- The nil of a pointer or of an error. -/
  | absent
  | pointer (target : GoValue)
  | sequence (items : List GoValue)
  /-- Keys with their values, in the order of iteration. -/
  | mapping (entries : List (Leaf × GoValue))
  | leaf (l : Leaf)
  | int (n : Int)
  | number (x : GoNumber)
  | truth (b : Bool)
  | text (s : String)
  | failure (e : GoError)
  | record (fields : String → GoValue)

inductive Fault where
  | nilPointer
  /-- The program does not type-check, or its form is not one that is generated. -/
  | mistyped
deriving DecidableEq, Repr

namespace GoValue

def ofError : Option GoError → GoValue
  | some e => failure e
  | none => absent

def length? : GoValue → Option Nat
  | leaf l => l.length
  | sequence items => some items.length
  | mapping entries => some entries.length
  | _ => none

def number? : GoValue → Option GoNumber
  | leaf l => l.number
  | int n => some (.finite n)
  | number x => some x
  | _ => none

/-- What a pointer points to. -/
def target : GoValue → Except Fault GoValue
  | pointer v => .ok v
  | absent => .error .nilPointer
  | _ => .error .mistyped

/-- A field of a record, also through a pointer. -/
def field (name : String) : GoValue → Except Fault GoValue
  | record fields | pointer (record fields) => .ok (fields name)
  | absent => .error .nilPointer
  | _ => .error .mistyped

/-- The value whose method runs when Validate is called, also through a pointer. -/
def validated : GoValue → Except Fault Leaf
  | leaf l | pointer (leaf l) => .ok l
  | absent => .error .nilPointer
  | _ => .error .mistyped

/-- Keys and values in the order in which a loop takes them. -/
def pairs : GoValue → Except Fault (List (GoValue × GoValue))
  | sequence items => .ok (items.zipIdx.map fun (x, i) => (int i, x))
  | mapping entries => .ok (entries.map fun (k, x) => (leaf k, x))
  | _ => .error .mistyped

def isAbsent? : GoValue → Option Bool
  | absent => some true
  | pointer _ | failure _ => some false
  | _ => none

def negated : GoValue → Except Fault GoValue
  | truth b => .ok (truth !b)
  | _ => .error .mistyped

/-- The text of a value under a verb of a format. -/
def printed? (verb : Char) : GoValue → Option String
  | int n => if verb = 'd' || verb = 'v' then some (toString n) else none
  | leaf l => if verb = 'v' then some l.printed else none
  | failure e => if verb = 'w' then some e.message else none
  | _ => none

def wrappedErrors : GoValue → List GoError
  | failure e => [e]
  | _ => []

end GoValue

/-- Two values under a comparison; only nil and numbers are compared. -/
def GoValue.compared (op : String) (x y : GoValue) : Except Fault GoValue :=
  match y with
  | absent =>
      match x.isAbsent? with
      | some b => if op = "!=" then .ok (truth !b) else .error .mistyped
      | none => .error .mistyped
  | _ =>
      match x.number?, y.number? with
      | some p, some q =>
          match p.compared? op q with
          | some b => .ok (truth b)
          | none => .error .mistyped
      | _, _ => .error .mistyped

/-- Fill the verbs of a format with arguments, and give the errors that it wraps; none
if verbs and arguments do not fit. -/
def expand : List Char → List GoValue → Option (List Char × List GoError)
  | [], args => if args.isEmpty then some ([], []) else none
  | c :: cs, args =>
      if c = '%' then
        match cs, args with
        | [], _ => none
        | verb :: cs, args =>
            if verb = '%' then (expand cs args).map fun (text, inner) => ('%' :: text, inner)
            else
              match args with
              | [] => none
              | arg :: args => do
                  let piece ← arg.printed? verb
                  let (text, inner) ← expand cs args
                  return (piece.toList ++ text, arg.wrappedErrors ++ inner)
      else (expand cs args).map fun (text, inner) => (c :: text, inner)

/-- The error with a formatted text. -/
def formatError (format : String) (args : List GoValue) : GoError :=
  match expand format.toList args with
  | some (text, []) => .text (String.ofList text)
  | some (text, [inner]) => .wrapped (String.ofList text) inner
  | _ => .garbled format

/-- The errors among values, where nil is none. -/
def errorsAmong : List GoValue → Except Fault (List GoError)
  | [] => .ok []
  | .absent :: vs => errorsAmong vs
  | .failure e :: vs => (errorsAmong vs).map (e :: ·)
  | _ :: _ => .error .mistyped

def joinErrors (vs : List GoValue) : Except Fault GoValue :=
  (errorsAmong vs).map fun
    | [] => .absent
    | es => .failure (.joined es)

/-- The packages that generated code imports. -/
def package? : Expr → Option String
  | .ident name => if name = "errors" || name = "fmt" then some name else none
  | _ => none

/-- A call of a function of a package. -/
def libraryCall (package name : String) (args : List GoValue) : Except Fault GoValue :=
  match package, name, args with
  | "errors", "New", [.text message] => .ok (.failure (.text message))
  | "errors", "Join", args => joinErrors args
  | "fmt", "Errorf", .text format :: args => .ok (.failure (formatError format args))
  | _, _, _ => .error .mistyped

def builtinCall (name : String) (args : List GoValue) : Except Fault GoValue :=
  match name, args with
  | "len", [v] =>
      match v.length? with
      | some n => .ok (.int n)
      | none => .error .mistyped
  | _, _ => .error .mistyped

/-- Variables with their values, the innermost first. -/
abbrev Scope := List (String × GoValue)

namespace Scope

def get? : Scope → String → Option GoValue
  | [], _ => none
  | (n, v) :: rest, name => if n = name then some v else get? rest name

/-- Give the innermost variable of a name another value. -/
def set : Scope → String → GoValue → Scope
  | [], _, _ => []
  | (n, v) :: rest, name, x => if n = name then (n, x) :: rest else (n, v) :: set rest name x

end Scope

/-- The number that a literal with an optional sign denotes: a whole number exactly,
any other as the nearest double. -/
def literalNumber? (cs : List Char) : Option Rat :=
  let (negative, digits) := splitSign cs
  if !digits.isEmpty && digits.all Char.isDigit then
    some (if negative then -(digitsValue digits : Rat) else digitsValue digits)
  else (readDecimal? cs).map Double.toRat

/-- What a raw piece of code stands for: a dereference, a field of the receiver, nil or
a number. -/
def rawValue (scope : Scope) : List Char → Except Fault GoValue
  | [] => .error .mistyped
  | c :: cs =>
      if c = '*' then do (← rawValue scope cs).target
      else if c = 'r' && cs.head? == some '.' then
        match scope.get? "r" with
        | some v => v.field (String.ofList cs.tail)
        | none => .error .mistyped
      else if c :: cs = "nil".toList then .ok .absent
      else
        match literalNumber? (c :: cs) with
        | some q => .ok (.number (.finite q))
        | none => .error .mistyped

/-- The variables, and the values whose Validate method was called so far. -/
structure Machine where
  scope : Scope
  calls : List Leaf

namespace Machine

def put (m : Machine) (name : String) (v : GoValue) : Machine :=
  { m with scope := (name, v) :: m.scope }

def depth (m : Machine) : Nat := m.scope.length

/-- Forget the variables of inner blocks. -/
def leave (m : Machine) (depth : Nat) : Machine :=
  { m with scope := m.scope.drop (m.scope.length - depth) }

def lookUp (m : Machine) (name : String) : Except Fault GoValue :=
  match m.scope.get? name with
  | some v => .ok v
  | none => .error .mistyped

def validate (m : Machine) (v : GoValue) : Except Fault (GoValue × Machine) := do
  let l ← v.validated
  return (.ofError l.complaint, { m with calls := m.calls ++ [l] })

end Machine

namespace Expr

mutual
def eval : Expr → Machine → Except Fault (GoValue × Machine)
  | ident name, m => do return (← m.lookUp name, m)
  | raw text, m => do return (← rawValue m.scope text.toList, m)
  | str text, m => .ok (.text text, m)
  | selector base name, m => do
      let (v, m) ← base.eval m
      return (← v.field name, m)
  | deref inner, m => do
      let (v, m) ← inner.eval m
      return (← v.target, m)
  | not inner, m => do
      let (v, m) ← inner.eval m
      return (← v.negated, m)
  | call (ident name) args, m => do
      let (vs, m) ← evalAll args m
      return (← builtinCall name vs, m)
  | call (selector base name) args, m =>
      match package? base with
      | some package => do
          let (vs, m) ← evalAll args m
          return (← libraryCall package name vs, m)
      | none => do
          let (v, m) ← base.eval m
          if name = "Validate" && args.isEmpty then m.validate v else .error .mistyped
  | binary left op right, m => do
      let (x, m) ← left.eval m
      if op = "&&" then
        match x with
        | .truth true => right.eval m
        | .truth false => return (x, m)
        | _ => .error .mistyped
      else do
        let (y, m) ← right.eval m
        return (← x.compared op y, m)
  | _, _ => .error .mistyped

def evalAll : List Expr → Machine → Except Fault (List GoValue × Machine)
  | [], m => .ok ([], m)
  | e :: es, m => do
      let (v, m) ← e.eval m
      let (vs, m) ← evalAll es m
      return (v :: vs, m)
end

end Expr

def SimpleStmt.exec : SimpleStmt → Machine → Except Fault Machine
  | define [name] value, m => do
      let (v, m) ← value.eval m
      return m.put name v
  | assign (.ident name) value, m => do
      let (v, m) ← value.eval m
      let _ ← m.lookUp name
      return { m with scope := m.scope.set name v }
  | _, _ => .error .mistyped

/-- How a statement ends: the next one follows, or the method returns. -/
inductive Flow where
  | next (m : Machine)
  | returned (v : GoValue) (m : Machine)

def Flow.leave (depth : Nat) : Flow → Flow
  | next m => next (m.leave depth)
  | returned v m => returned v m

/-- Do a step for every item, unless one of them returns. -/
def iterate {α : Type} (step : α → Machine → Except Fault Flow) :
    List α → Machine → Except Fault Flow
  | [], m => .ok (.next m)
  | x :: xs, m => do
      match ← step x m with
      | .next m => iterate step xs m
      | .returned v m => return .returned v m

namespace Stmt

mutual
def exec : Stmt → Machine → Except Fault Flow
  | simple s, m => do return .next (← s.exec m)
  | declare name type, m =>
      if type = "error" then .ok (.next (m.put name .absent)) else .error .mistyped
  | branch first condition body, m => do
      let inner ← match first with
        | some s => s.exec m
        | none => .ok m
      let (v, inner) ← condition.eval inner
      match v with
      | .truth true => return (← execAll body inner).leave m.depth
      | .truth false => return .next (inner.leave m.depth)
      | _ => .error .mistyped
  | loop key value whole body, m => do
      let (v, m) ← whole.eval m
      let pairs ← v.pairs
      iterate (fun (k, x) m => do
        return (← execAll body ((m.put key k).put value x)).leave m.depth) pairs m
  | result value, m => do
      let (v, m) ← value.eval m
      return .returned v m

def execAll : List Stmt → Machine → Except Fault Flow
  | [], m => .ok (.next m)
  | s :: ss, m => do
      match ← s.exec m with
      | .next m => execAll ss m
      | .returned v m => return .returned v m
end

end Stmt

/-- Call a method: what it returns, and the values whose Validate method it called. -/
def Method.run (method : Method) (fields : String → GoValue) :
    Except Fault (GoValue × List Leaf) := do
  let self : GoValue := if method.pointer then .pointer (.record fields) else .record fields
  match ← Stmt.execAll method.body ⟨[("r", self)], []⟩ with
  | .returned v m => return (v, m.calls)
  | .next _ => .error .mistyped

end FieldRules
