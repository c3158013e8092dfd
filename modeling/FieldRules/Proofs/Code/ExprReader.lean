/-
A reader for Go's expressions.  It keeps what waits for an operand on a stack.  It finds the
trees of the grammar and no others, so exactly one of them is written with given tokens, if
these are the tokens of any tree.
-/
import FieldRules.Proofs.Code.Precedence
import Mathlib.Data.List.Forall2

namespace FieldRules

namespace ExprReader

/-- What was read in front of an operand that is to come. -/
inductive Frame where
  | parens
  | call (function : ParsedExpr) (done : List ParsedExpr)
  | index (base : ParsedExpr)
  | prefixed (op : PrefixOperator)
  | left (operand : ParsedExpr) (op : BinaryOperator)

/-- Complete what the operators of the stack wait for, from the top down as far as they bind as
strongly as `level`. -/
def reduce (level : Nat) : List Frame → ParsedExpr → List Frame × ParsedExpr
  | .prefixed op :: stack, t =>
      if level ≤ 6 then reduce level stack (.prefixed op t) else (.prefixed op :: stack, t)
  | .left l op :: stack, t =>
      if level ≤ precedence op.symbol then reduce level stack (.binary l op t)
      else (.left l op :: stack, t)
  | stack, t => (stack, t)

/-- Where the reader stands: an operand comes next, or the name of a selector, or what may
follow an operand. -/
inductive State where
  | operand (stack : List Frame)
  | selector (stack : List Frame) (base : ParsedExpr)
  | operator (stack : List Frame) (last : ParsedExpr)

/-- A symbol where an operand is to come. -/
def start (symbol : String) (stack : List Frame) : Option State :=
  if symbol = "*" then some (.operand (.prefixed .deref :: stack))
  else if symbol = "!" then some (.operand (.prefixed .not :: stack))
  else if symbol = "(" then some (.operand (.parens :: stack))
  else if symbol = ")" then
    match stack with
    | .call f [] :: stack => some (.operator stack (.call f []))
    | _ => none
  else none

/-- A symbol that ends what stands between brackets, or an argument. -/
def close (symbol : String) : List Frame × ParsedExpr → Option State
  | (.parens :: stack, t) =>
      if symbol = ")" then some (.operator stack (.parens t)) else none
  | (.call f done :: stack, t) =>
      if symbol = ")" then some (.operator stack (.call f (done ++ [t])))
      else if symbol = "," then some (.operand (.call f (done ++ [t]) :: stack))
      else none
  | (.index b :: stack, t) =>
      if symbol = "]" then some (.operator stack (.index b t)) else none
  | _ => none

/-- A symbol after an operand. -/
def follow (symbol : String) (stack : List Frame) (t : ParsedExpr) : Option State :=
  if symbol = "." then some (.selector stack t)
  else if symbol = "(" then some (.operand (.call t [] :: stack))
  else if symbol = "[" then some (.operand (.index t :: stack))
  else if h : symbol ∈ binaryOperators then
    let (stack, l) := reduce (precedence symbol) stack t
    some (.operand (.left l ⟨symbol, h⟩ :: stack))
  else close symbol (reduce 0 stack t)

def step : State → TokenKind → Option State
  | .operand stack, .ident name => some (.operator stack (.name name))
  | .operand stack, .op symbol => start symbol stack
  | .selector stack t, .ident name => some (.operator stack (.field t name))
  | .operator stack t, .op symbol => follow symbol stack t
  | _, _ => none

def run (s : State) (ks : List TokenKind) : Option State := ks.foldlM step s

/-- The tree that these tokens are read as. -/
def read (ks : List TokenKind) : Option ParsedExpr :=
  match run (.operand []) ks with
  | some (.operator stack t) =>
      match reduce 0 stack t with
      | ([], u) => some u
      | _ => none
  | _ => none

section Run

variable {s s' : State} {k : TokenKind} {ks ls : List TokenKind}

theorem run_nil (s : State) : run s [] = some s := rfl

theorem run_cons (h : step s k = some s') : run s (k :: ks) = run s' ks := by
  rw [run, List.foldlM_cons, h]
  rfl

theorem run_append (h : run s ks = some s') : run s (ks ++ ls) = run s' ls := by
  rw [run] at h
  rw [run, List.foldlM_append, h]
  rfl

end Run

/-! What the reader completes. -/

section Reduce

variable {stack : List Frame} {frame : Frame}

/-- An operator can be completed by what comes after its operand, a bracket only by its other
half. -/
def Frame.isOperator : Frame → Bool
  | .prefixed _ | .left _ _ => true
  | _ => false

theorem reduce_bracket (level : Nat) (h : frame.isOperator = false) (t : ParsedExpr) :
    reduce level (frame :: stack) t = (frame :: stack, t) := by
  cases frame with
  | prefixed op => cases h
  | left l op => cases h
  | _ => rfl

/-- What the frames down to the first bracket are completed to stands on that bracket. -/
theorem reduce_zero (stack : List Frame) (t : ParsedExpr) :
    (reduce 0 stack t).1 = stack.dropWhile Frame.isOperator := by
  induction stack generalizing t with
  | nil => rfl
  | cons frame stack ih =>
      cases frame with
      | prefixed op => simpa [reduce, List.dropWhile_cons, Frame.isOperator] using ih _
      | left l op => simpa [reduce, List.dropWhile_cons, Frame.isOperator] using ih _
      | _ => rfl

/-- Completing operators leaves the brackets as they are. -/
theorem dropWhile_reduce (level : Nat) (stack : List Frame) (t : ParsedExpr) :
    (reduce level stack t).1.dropWhile Frame.isOperator = stack.dropWhile Frame.isOperator := by
  fun_induction reduce level stack t with
  | case1 op stack t hle ih => exact ih
  | case2 op stack t hle => rfl
  | case3 l op stack t hle ih => exact ih
  | case4 l op stack t hle => rfl
  | case5 stack t => rfl

/-- Nothing on the stack binds as strongly as a primary expression. -/
theorem reduce_seven (stack : List Frame) (t : ParsedExpr) : reduce 7 stack t = (stack, t) := by
  unfold reduce
  split
  · simp
  · rename_i l op stack
    have hle := op.precedence_le
    rw [if_neg (by omega)]
  · rfl

/-- What binds this strongly may be the operand that the frame waits for. -/
def Frame.Accepts (strength : Nat) : Frame → Prop
  | .prefixed _ => 6 ≤ strength
  | .left _ op => precedence op.symbol < strength
  | _ => True

def Admits (stack : List Frame) (strength : Nat) : Prop :=
  ∀ frame ∈ stack.head?, frame.Accepts strength

theorem Frame.Accepts.mono {m n : Nat} (h : frame.Accepts m) (hle : m ≤ n) : frame.Accepts n := by
  cases frame with
  | prefixed op => exact Nat.le_trans h hle
  | left l op => exact Nat.lt_of_lt_of_le h hle
  | _ => trivial

theorem Admits.mono {m n : Nat} (h : Admits stack m) (hle : m ≤ n) : Admits stack n :=
  fun frame hframe => (h frame hframe).mono hle

/-- An operator in front may stand wherever an operand may. -/
theorem admits_six (stack : List Frame) : Admits stack 6 := by
  intro frame _
  cases frame with
  | prefixed op => exact Nat.le_refl 6
  | left l op => exact Nat.lt_succ_of_le op.precedence_le
  | _ => trivial

theorem admits_seven (stack : List Frame) : Admits stack 7 :=
  (admits_six stack).mono (by decide)

theorem admits_bracket (h : frame.isOperator = false) (n : Nat) : Admits (frame :: stack) n := by
  rintro _ ⟨⟩
  cases frame with
  | prefixed op => cases h
  | left l op => cases h
  | _ => trivial

/-- A stack that admits a binary operator completes nothing in front of it. -/
theorem reduce_of_admits (op : BinaryOperator) (h : Admits stack (precedence op.symbol))
    (t : ParsedExpr) : reduce (precedence op.symbol) stack t = (stack, t) := by
  have hle := op.precedence_le
  unfold reduce
  split
  · have hsix : 6 ≤ precedence op.symbol := h _ rfl
    omega
  · have hlt : precedence _ < precedence op.symbol := h _ rfl
    rw [if_neg (by omega)]
  · rfl

end Reduce

/-! Steps of the reader. -/

section Read

variable {t : ParsedExpr} {stack : List Frame}

theorem step_prefixed (op : PrefixOperator) (stack : List Frame) :
    step (.operand stack) (.op op.symbol) = some (.operand (.prefixed op :: stack)) := by
  cases op <;> rfl

theorem step_binary (op : BinaryOperator) (stack : List Frame) (t : ParsedExpr) :
    step (.operator stack t) (.op op.symbol) =
      some (.operand (.left (reduce (precedence op.symbol) stack t).2 op ::
        (reduce (precedence op.symbol) stack t).1)) := by
  have hne := op.symbol_ne
  simp only [List.mem_cons, List.not_mem_nil, or_false, not_or] at hne
  simp [step, follow, hne, op.mem]

theorem step_close {symbol : String} (h : symbol ∈ [",", ")", "]"]) (stack : List Frame)
    (t : ParsedExpr) :
    step (.operator stack t) (.op symbol) = close symbol (reduce 0 stack t) := by
  simp only [List.mem_cons, List.not_mem_nil, or_false] at h
  rcases h with rfl | rfl | rfl <;> simp [step, follow, binaryOperators, operatorLevels]

/-- Behind an opening bracket, the tokens of `t` are read as `v`. -/
def ReadsBehind (frame : Frame) (stack : List Frame) (t v : ParsedExpr) : Prop :=
  ∃ stack' u, run (.operand (frame :: stack)) t.tokens = some (.operator stack' u) ∧
    reduce 0 stack' u = (frame :: stack, v)

namespace ReadsBehind

theorem run_close {frame : Frame} {v : ParsedExpr} {s : State} (h : ReadsBehind frame stack t v)
    (symbol : String) (hsymbol : symbol ∈ [",", ")", "]"])
    (hclose : close symbol (frame :: stack, v) = some s) (ks : List TokenKind) :
    run (.operand (frame :: stack)) (t.tokens ++ .op symbol :: ks) = run s ks := by
  obtain ⟨stack', u, hrun, hreduce⟩ := h
  rw [run_append hrun, run_cons]
  rw [step_close hsymbol, hreduce, hclose]

/-- The arguments of a call, each of which is read as something that `P` relates it to. -/
theorem run_args {f : ParsedExpr} {args : List ParsedExpr} {P : ParsedExpr → ParsedExpr → Prop}
    (h : ∀ a ∈ args, ∀ done, ∃ v, ReadsBehind (.call f done) stack a v ∧ P a v)
    (hargs : args ≠ []) (done : List ParsedExpr) :
    ∃ vs, List.Forall₂ P args vs ∧
      run (.operand (.call f done :: stack))
        ([.op ","].intercalate (args.map ParsedExpr.tokens) ++ [.op ")"]) =
          some (.operator stack (.call f (done ++ vs))) := by
  induction args generalizing done with
  | nil => exact absurd rfl hargs
  | cons a args ih =>
      obtain ⟨ha, hmore⟩ := List.forall_mem_cons.mp h
      obtain ⟨v, hread, hv⟩ := ha done
      -- the last argument is ended by the parenthesis, any other by a comma
      cases args with
      | nil =>
          refine ⟨[v], .cons hv .nil, ?_⟩
          simpa [run_nil] using hread.run_close ")" (by simp) rfl []
      | cons b args =>
          obtain ⟨vs, hvs, hrun⟩ := ih hmore (by simp) (done ++ [v])
          refine ⟨v :: vs, .cons hv hvs, ?_⟩
          have hnext := hread.run_close "," (by simp) rfl
            ([.op ","].intercalate ((b :: args).map ParsedExpr.tokens) ++ [.op ")"])
          rw [hrun] at hnext
          simpa [List.intercalate_cons_cons] using hnext

end ReadsBehind

/-- A call with its arguments, after the function in front of them. -/
theorem run_call (stack : List Frame) (f : ParsedExpr) {args : List ParsedExpr}
    {P : ParsedExpr → ParsedExpr → Prop}
    (h : ∀ a ∈ args, ∀ done, ∃ v, ReadsBehind (.call f done) stack a v ∧ P a v) :
    ∃ vs, List.Forall₂ P args vs ∧
      run (.operator stack f) (.op "(" :: ([.op ","].intercalate (ParsedExpr.tokensAll args) ++
        [.op ")"])) = some (.operator stack (.call f vs)) := by
  rw [ParsedExpr.tokensAll_eq_map]
  by_cases hnil : args = []
  · subst hnil
    exact ⟨[], .nil, rfl⟩
  · obtain ⟨vs, hvs, hrun⟩ := ReadsBehind.run_args h hnil []
    exact ⟨vs, hvs, (run_cons rfl).trans hrun⟩

/-! The reader finds every tree of the grammar. -/

/-- Reading the tokens of a tree comes to a stack and an operand that whatever binds no more
strongly than the tree completes to the tree on the stack before. -/
def Finds (stack : List Frame) (t : ParsedExpr) : Prop :=
  ∃ stack' u, run (.operand stack) t.tokens = some (.operator stack' u) ∧
    ∀ level ≤ t.strength, reduce level stack' u = reduce level stack t

namespace Finds

theorem of_run (h : run (.operand stack) t.tokens = some (.operator stack t)) : Finds stack t :=
  ⟨stack, t, h, fun _ _ => rfl⟩

/-- A primary expression is there as soon as its tokens are read. -/
theorem run_primary (h : Finds stack t) (hprimary : t.strength = 7) :
    run (.operand stack) t.tokens = some (.operator stack t) := by
  obtain ⟨stack', u, hrun, hreduce⟩ := h
  have hseven := hreduce 7 (Nat.le_of_eq hprimary.symm)
  rw [reduce_seven, reduce_seven] at hseven
  cases hseven
  exact hrun

theorem readsBehind {frame : Frame} (h : Finds (frame :: stack) t)
    (hbracket : frame.isOperator = false) : ReadsBehind frame stack t t := by
  obtain ⟨stack', u, hrun, hreduce⟩ := h
  exact ⟨stack', u, hrun, by rw [hreduce 0 (Nat.zero_le _), reduce_bracket 0 hbracket]⟩

end Finds

/-- Brackets, selectors and calls are read on the spot.  Operators leave frames on the stack, which
whatever comes after completes. -/
theorem finds_of_grammatical (h : t.Grammatical) {stack : List Frame}
    (hadmits : Admits stack t.strength) : Finds stack t := by
  induction h generalizing stack with
  | name word => exact .of_run rfl
  | parens inside ih =>
      have hinside : ReadsBehind .parens stack _ _ := (ih (admits_bracket rfl _)).readsBehind rfl
      exact .of_run ((run_cons rfl).trans (hinside.run_close ")" (by simp) rfl []))
  | field base primary word ih =>
      have hbase := (ih (primary ▸ admits_seven stack)).run_primary primary
      exact .of_run (run_append hbase)
  | @call f args function primary each ih iheach =>
      have hfunction := (ih (primary ▸ admits_seven stack)).run_primary primary
      obtain ⟨vs, hvs, hargs⟩ := run_call stack f (P := Eq) fun a ha done =>
        ⟨a, (iheach a ha (admits_bracket rfl _)).readsBehind rfl, rfl⟩
      rw [List.forall₂_eq_eq_eq] at hvs
      subst hvs
      exact .of_run ((run_append hfunction).trans hargs)
  | @index b k base primary key ih ihkey =>
      have hbase := (ih (primary ▸ admits_seven stack)).run_primary primary
      have hkey : ReadsBehind (.index b) stack _ _ := (ihkey (admits_bracket rfl _)).readsBehind rfl
      have hbrackets := hkey.run_close "]" (by simp) rfl []
      exact .of_run ((run_append hbase).trans ((run_cons rfl).trans hbrackets))
  | @prefixed operand op _ unary ih =>
      obtain ⟨stack', u, hrun, hreduce⟩ := ih ((admits_six (.prefixed op :: stack)).mono unary)
      refine ⟨stack', u, (run_cons (step_prefixed op stack)).trans hrun, fun level hlevel => ?_⟩
      have hsix : level ≤ 6 := hlevel
      rw [hreduce level (Nat.le_trans hsix unary), reduce, if_pos hsix]
  | @binary l r op left right onLeft onRight ihl ihr =>
      obtain ⟨stack', u, hrun, hreduce⟩ := ihl (hadmits.mono onLeft)
      -- the left operand is complete when its operator comes
      have hleft : reduce (precedence op.symbol) stack' u = (stack, l) := by
        rw [hreduce _ onLeft, reduce_of_admits op hadmits]
      have hbinary : step (.operator stack' u) (.op op.symbol) =
          some (.operand (.left l op :: stack)) := by rw [step_binary, hleft]
      have hbehind : Admits (.left l op :: stack) r.strength := by
        rintro _ ⟨⟩
        exact onRight
      obtain ⟨stack'', v, hrun', hreduce'⟩ := ihr hbehind
      refine ⟨stack'', v, ?_, fun level hlevel => ?_⟩
      · rw [ParsedExpr.tokens, run_append hrun, run_cons hbinary, hrun']
      · have hle : level ≤ precedence op.symbol := hlevel
        rw [hreduce' level (Nat.le_trans hle (Nat.le_of_lt onRight)), reduce, if_pos hle]

theorem read_tokens (h : t.Grammatical) : read t.tokens = some t := by
  have hadmits : Admits [] t.strength := by simp [Admits]
  obtain ⟨stack, u, hrun, hreduce⟩ := finds_of_grammatical h hadmits
  have hall : reduce 0 stack u = ([], t) := hreduce 0 (Nat.zero_le _)
  rw [read, hrun]
  simp only [hall]

/-! The reader gets through whatever is written from a tree, of the grammar or not. -/

/-- Reading the tokens of a tree passes over all brackets it opens. -/
def Passes (stack : List Frame) (t : ParsedExpr) : Prop :=
  ∃ stack' u, run (.operand stack) t.tokens = some (.operator stack' u) ∧
    stack'.dropWhile Frame.isOperator = stack.dropWhile Frame.isOperator

theorem Passes.readsBehind {frame : Frame} (h : Passes (frame :: stack) t)
    (hbracket : frame.isOperator = false) : ∃ v, ReadsBehind frame stack t v := by
  obtain ⟨stack', u, hrun, hbrackets⟩ := h
  refine ⟨(reduce 0 stack' u).2, stack', u, hrun, Prod.ext ?_ rfl⟩
  rw [reduce_zero, hbrackets, List.dropWhile_cons_of_neg (by simp [hbracket])]

theorem passes (t : ParsedExpr) (stack : List Frame) : Passes stack t := by
  induction t generalizing stack with
  | name word => exact ⟨stack, .name word, rfl, rfl⟩
  | parens inside ih =>
      obtain ⟨v, hinside⟩ := (ih (.parens :: stack)).readsBehind rfl
      exact ⟨stack, .parens v,
        (run_cons rfl).trans (hinside.run_close ")" (by simp) rfl []), rfl⟩
  | field base word ih =>
      obtain ⟨stack', u, hrun, hbrackets⟩ := ih stack
      exact ⟨stack', .field u word, run_append hrun, hbrackets⟩
  | call function args ih iheach =>
      obtain ⟨stack', u, hrun, hbrackets⟩ := ih stack
      obtain ⟨vs, -, hargs⟩ := run_call stack' u (P := fun _ _ => True) fun a ha done =>
        let ⟨v, hv⟩ := (iheach a ha (.call u done :: stack')).readsBehind rfl
        ⟨v, hv, trivial⟩
      exact ⟨stack', .call u vs, (run_append hrun).trans hargs, hbrackets⟩
  | index base key ih ihkey =>
      obtain ⟨stack', u, hrun, hbrackets⟩ := ih stack
      obtain ⟨v, hkey⟩ := (ihkey (.index u :: stack')).readsBehind rfl
      have hclose := hkey.run_close "]" (by simp) rfl []
      exact ⟨stack', .index u v, (run_append hrun).trans ((run_cons rfl).trans hclose), hbrackets⟩
  | prefixed op operand ih =>
      obtain ⟨stack', u, hrun, hbrackets⟩ := ih (.prefixed op :: stack)
      exact ⟨stack', u, (run_cons (step_prefixed op stack)).trans hrun, hbrackets⟩
  | binary left op right ihl ihr =>
      obtain ⟨stack', u, hrun, hbrackets⟩ := ihl stack
      obtain ⟨stack'', v, hrun', hbrackets'⟩ := ihr
        (.left (reduce (precedence op.symbol) stack' u).2 op ::
          (reduce (precedence op.symbol) stack' u).1)
      refine ⟨stack'', v, ?_, ?_⟩
      · rw [ParsedExpr.tokens, run_append hrun, run_cons (step_binary op stack' u), hrun']
      · rw [hbrackets', List.dropWhile_cons_of_pos rfl, dropWhile_reduce, hbrackets]

theorem exists_read (t : ParsedExpr) : ∃ u, read t.tokens = some u := by
  obtain ⟨stack, u, hrun, hbrackets⟩ := passes t []
  have hempty : (reduce 0 stack u).1 = [] := by rw [reduce_zero, hbrackets, List.dropWhile_nil]
  refine ⟨(reduce 0 stack u).2, ?_⟩
  have hall : reduce 0 stack u = ([], (reduce 0 stack u).2) := Prod.ext hempty rfl
  rw [read, hrun]
  dsimp only
  rw [hall]

end Read

/-! The reader finds nothing else. -/

section Sound

variable {stack : List Frame} {t : ParsedExpr}

def Frame.tokens : Frame → List TokenKind
  | .parens => [.op "("]
  | .call f done => f.tokens ++ .op "(" :: done.flatMap fun a => a.tokens ++ [.op ","]
  | .index b => b.tokens ++ [.op "["]
  | .prefixed op => [.op op.symbol]
  | .left l op => l.tokens ++ [.op op.symbol]

/-- The tokens that were read into the frames, the last of which are those of the top. -/
def stackTokens : List Frame → List TokenKind
  | [] => []
  | frame :: stack => stackTokens stack ++ frame.tokens

def State.tokens : State → List TokenKind
  | .operand stack => stackTokens stack
  | .selector stack t => stackTokens stack ++ t.tokens ++ [.op "."]
  | .operator stack t => stackTokens stack ++ t.tokens

/-- What stands in the frame is of the grammar, and so is what it completes to, as an operand
of the stack below. -/
def Frame.Fits (stack : List Frame) : Frame → Prop
  | .parens | .prefixed _ => True
  | .call f done => f.Grammatical ∧ f.strength = 7 ∧ ∀ a ∈ done, a.Grammatical
  | .index b => b.Grammatical ∧ b.strength = 7
  | .left l op => l.Grammatical ∧ precedence op.symbol ≤ l.strength ∧
      Admits stack (precedence op.symbol)

inductive Nested : List Frame → Prop
  | nil : Nested []
  | cons {frame : Frame} {stack : List Frame} (top : frame.Fits stack) (below : Nested stack) :
      Nested (frame :: stack)

/-- A state that the grammar allows. -/
def State.Valid : State → Prop
  | .operand stack => Nested stack
  | .selector stack t | .operator stack t => Nested stack ∧ t.Grammatical ∧ t.strength = 7

/-- A stack with an operand on it, and what they complete to. -/
structure Completes (level : Nat) (stack : List Frame) (t : ParsedExpr)
    (result : List Frame × ParsedExpr) : Prop where
  nested : Nested result.1
  grammatical : result.2.Grammatical
  strong : level ≤ result.2.strength
  accepts : Admits result.1 level
  tokens : stackTokens result.1 ++ result.2.tokens = stackTokens stack ++ t.tokens

theorem Completes.of_tokens {level : Nat} {stack stack' : List Frame} {t t' : ParsedExpr}
    {result : List Frame × ParsedExpr} (h : Completes level stack t result)
    (htokens : stackTokens stack ++ t.tokens = stackTokens stack' ++ t'.tokens) :
    Completes level stack' t' result :=
  ⟨h.nested, h.grammatical, h.strong, h.accepts, h.tokens.trans htokens⟩

theorem completes_reduce (level : Nat) (hstack : Nested stack) (ht : t.Grammatical)
    (hadmits : Admits stack t.strength) (hlevel : level ≤ t.strength) :
    Completes level stack t (reduce level stack t) := by
  fun_induction reduce level stack t with
  | case1 op stack t hle ih =>
      cases hstack with
      | cons _ below =>
          -- the frame on top may have this operand, and the stack below what they make
          have hunary : 6 ≤ t.strength := hadmits _ rfl
          refine (ih below (.prefixed op ht hunary) (admits_six stack) hle).of_tokens ?_
          simp [ParsedExpr.tokens, stackTokens, Frame.tokens]
  | case2 op stack t hle =>
      refine ⟨hstack, ht, hlevel, ?_, rfl⟩
      rintro _ ⟨⟩
      exact Nat.le_of_not_le hle
  | case3 l op stack t hle ih =>
      cases hstack with
      | cons top below =>
          obtain ⟨hl, honLeft, hbelow⟩ := top
          have honRight : precedence op.symbol < t.strength := hadmits _ rfl
          refine (ih below (.binary hl ht honLeft honRight) hbelow hle).of_tokens ?_
          simp [ParsedExpr.tokens, stackTokens, Frame.tokens]
  | case4 l op stack t hle =>
      refine ⟨hstack, ht, hlevel, ?_, rfl⟩
      rintro _ ⟨⟩
      exact Nat.lt_of_not_le hle
  | case5 stack t hprefixed hleft =>
      refine ⟨hstack, ht, hlevel, ?_, rfl⟩
      intro frame hframe
      obtain ⟨rest, rfl⟩ := List.head?_eq_some_iff.mp hframe
      cases frame with
      | prefixed op => exact absurd rfl (hprefixed op rest)
      | left l op => exact absurd rfl (hleft l op rest)
      | _ => trivial

theorem start_sound {symbol : String} {s' : State} (h : start symbol stack = some s')
    (hstack : Nested stack) :
    s'.Valid ∧ s'.tokens = stackTokens stack ++ [.op symbol] := by
  unfold start at h
  split at h
  · subst symbol
    cases h
    exact ⟨.cons trivial hstack, rfl⟩
  split at h
  · subst symbol
    cases h
    exact ⟨.cons trivial hstack, rfl⟩
  split at h
  · subst symbol
    cases h
    exact ⟨.cons trivial hstack, rfl⟩
  split at h
  · subst symbol
    split at h
    · cases h
      cases hstack with
      | cons top below =>
          obtain ⟨hf, hprimary, -⟩ := top
          refine ⟨⟨below, .call hf hprimary (List.forall_mem_nil _), rfl⟩, ?_⟩
          simp [State.tokens, stackTokens, Frame.tokens, ParsedExpr.tokens, ParsedExpr.tokensAll]
    · cases h
  · cases h

/-- The arguments that were read before the last one, each with its comma. -/
theorem intercalate_args (done : List ParsedExpr) (t : ParsedExpr) :
    [.op ","].intercalate (done.map ParsedExpr.tokens ++ [t.tokens]) =
      (done.flatMap fun a => a.tokens ++ [.op ","]) ++ t.tokens := by
  induction done with
  | nil => simp
  | cons a done ih =>
      cases done with
      | nil => simp
      | cons b done => simpa [List.intercalate_cons_cons, List.append_assoc] using ih

theorem close_sound {symbol : String} {s' : State} (h : close symbol (stack, t) = some s')
    (hstack : Nested stack) (ht : t.Grammatical) :
    s'.Valid ∧ s'.tokens = stackTokens stack ++ t.tokens ++ [.op symbol] := by
  cases hstack with
  | nil => cases h
  | @cons frame stack top below =>
      cases frame with
      | parens =>
          rw [close] at h
          split at h
          · subst symbol
            cases h
            refine ⟨⟨below, .parens ht, rfl⟩, ?_⟩
            simp [State.tokens, stackTokens, Frame.tokens, ParsedExpr.tokens]
          · cases h
      | call f done =>
          obtain ⟨hf, hprimary, hdone⟩ := top
          have hall : ∀ a ∈ done ++ [t], a.Grammatical :=
            List.forall_mem_append.mpr ⟨hdone, List.forall_mem_singleton.mpr ht⟩
          rw [close] at h
          split at h
          · subst symbol
            cases h
            refine ⟨⟨below, .call hf hprimary hall, rfl⟩, ?_⟩
            simp [State.tokens, stackTokens, Frame.tokens, ParsedExpr.tokens,
              ParsedExpr.tokensAll_eq_map, intercalate_args]
          split at h
          · subst symbol
            cases h
            refine ⟨.cons ⟨hf, hprimary, hall⟩ below, ?_⟩
            simp [State.tokens, stackTokens, Frame.tokens]
          · cases h
      | index b =>
          obtain ⟨hb, hprimary⟩ := top
          rw [close] at h
          split at h
          · subst symbol
            cases h
            refine ⟨⟨below, .index hb hprimary ht, rfl⟩, ?_⟩
            simp [State.tokens, stackTokens, Frame.tokens, ParsedExpr.tokens]
          · cases h
      | prefixed op => cases h
      | left l op => cases h

theorem follow_sound {symbol : String} {s' : State} (h : follow symbol stack t = some s')
    (hstack : Nested stack) (ht : t.Grammatical) (hprimary : t.strength = 7) :
    s'.Valid ∧ s'.tokens = stackTokens stack ++ t.tokens ++ [.op symbol] := by
  have hcompletes : ∀ level ≤ 7, Completes level stack t (reduce level stack t) :=
    fun level hlevel => completes_reduce level hstack ht (hprimary ▸ admits_seven stack)
      (hprimary ▸ hlevel)
  unfold follow at h
  split at h
  · subst symbol
    cases h
    exact ⟨⟨hstack, ht, hprimary⟩, rfl⟩
  split at h
  · subst symbol
    cases h
    refine ⟨.cons ⟨ht, hprimary, List.forall_mem_nil _⟩ hstack, ?_⟩
    simp [State.tokens, stackTokens, Frame.tokens]
  split at h
  · subst symbol
    cases h
    refine ⟨.cons ⟨ht, hprimary⟩ hstack, ?_⟩
    simp [State.tokens, stackTokens, Frame.tokens]
  split at h
  · rename_i hmem
    have hle := BinaryOperator.precedence_le ⟨symbol, hmem⟩
    have hleft := hcompletes (precedence symbol) (Nat.le_trans hle (by decide))
    cases h
    refine ⟨.cons ⟨hleft.grammatical, hleft.strong, hleft.accepts⟩ hleft.nested, ?_⟩
    simp [State.tokens, stackTokens, Frame.tokens, ← hleft.tokens]
  · have hall := hcompletes 0 (Nat.zero_le _)
    obtain ⟨hvalid, htokens⟩ := close_sound h hall.nested hall.grammatical
    exact ⟨hvalid, by rw [htokens, hall.tokens]⟩

theorem step_sound {s s' : State} {k : TokenKind} (h : step s k = some s') (hs : s.Valid) :
    s'.Valid ∧ s'.tokens = s.tokens ++ [k] := by
  unfold step at h
  split at h
  · cases h
    exact ⟨⟨hs, .name _, rfl⟩, rfl⟩
  · exact start_sound h hs
  · obtain ⟨hstack, ht, hprimary⟩ := hs
    cases h
    exact ⟨⟨hstack, .field ht hprimary _, rfl⟩, by simp [State.tokens, ParsedExpr.tokens]⟩
  · obtain ⟨hstack, ht, hprimary⟩ := hs
    exact follow_sound h hstack ht hprimary
  · cases h

theorem run_sound {s s' : State} {ks : List TokenKind} (h : run s ks = some s') (hs : s.Valid) :
    s'.Valid ∧ s'.tokens = s.tokens ++ ks := by
  induction ks generalizing s with
  | nil =>
      cases h
      exact ⟨hs, by simp⟩
  | cons k ks ih =>
      cases hstep : step s k with
      | none => simp [run, hstep] at h
      | some next =>
          rw [run_cons hstep] at h
          obtain ⟨hnext, htokens⟩ := step_sound hstep hs
          obtain ⟨hvalid, hall⟩ := ih h hnext
          exact ⟨hvalid, by rw [hall, htokens, List.append_assoc]; rfl⟩

theorem read_sound {ks : List TokenKind} (h : read ks = some t) :
    t.Grammatical ∧ t.tokens = ks := by
  unfold read at h
  split at h
  · rename_i stack last hrun
    obtain ⟨⟨hstack, hlast, hprimary⟩, htokens⟩ := run_sound hrun .nil
    have hadmits : Admits stack last.strength := hprimary ▸ admits_seven stack
    have hall := completes_reduce 0 hstack hlast hadmits (Nat.zero_le _)
    split at h
    · rename_i u hreduce
      cases h
      rw [hreduce] at hall
      refine ⟨hall.grammatical, ?_⟩
      have hread := hall.tokens.trans htokens
      simpa [stackTokens, State.tokens] using hread
    · cases h
  · cases h

end Sound

end ExprReader

namespace ParsedExpr

variable {t u : ParsedExpr}

/-- The grammar has at most one tree for given tokens. -/
theorem Grammatical.eq_of_tokens (ht : t.Grammatical) (hu : u.Grammatical)
    (h : t.tokens = u.tokens) : t = u := by
  have hread := ExprReader.read_tokens ht
  rw [h, ExprReader.read_tokens hu] at hread
  exact (Option.some.inj hread).symm

/-- Whatever is written without enough parentheses is another tree of the grammar. -/
theorem exists_grammatical (t : ParsedExpr) :
    ∃ u : ParsedExpr, u.Grammatical ∧ u.tokens = t.tokens := by
  obtain ⟨u, hread⟩ := ExprReader.exists_read t
  exact ⟨u, ExprReader.read_sound hread⟩

end ParsedExpr

end FieldRules
