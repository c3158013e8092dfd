/-
The parentheses of an expression.  A tree of Go's grammar without its parentheses and the tokens
it is written with determine where they stand.
-/
import FieldRules.Proofs.Code.Precedence
import FieldRules.Proofs.Source.Balanced
import FieldRules.Code.Expr

namespace FieldRules

def PrefixOperator.apply : PrefixOperator → Expr → Expr
  | deref => .deref
  | not => .not

theorem PrefixOperator.apply_inj {op op' : PrefixOperator} {e e' : Expr}
    (h : op.apply e = op'.apply e') : op = op' ∧ e = e' := by
  cases op <;> cases op' <;> cases h <;> exact ⟨rfl, rfl⟩

/-- Whatever is written behind balanced tokens, the delimiter that closes them is found. -/
theorem Balanced.eq_of_closes {ks ls rest rest' : List TokenKind} {k : TokenKind}
    (hks : Balanced ks) (hls : Balanced ls) (hk : k.closes = true)
    (h : ks ++ k :: rest = ls ++ k :: rest') : ks = ls := by
  let token (kind : TokenKind) : Token := ⟨kind, ⟨0, 0⟩, 1, none⟩
  have hfound : ∀ ms more, Balanced ms →
      closing? 0 ((ms ++ k :: more).map token) = some (token k, more.map token) := by
    intro ms more hms
    rw [List.map_append, closing?_balanced hms (by simp [token, Function.comp_def])]
    exact closing?_found hk
  have hrest : rest.map token = rest'.map token := by
    have hsame := hfound ks rest hks
    rw [h, hfound ls rest' hls] at hsame
    simpa using hsame.symm
  refine List.append_inj_left' h ?_
  simpa using congrArg List.length hrest

namespace ParsedExpr

mutual
/-- The expression without its parentheses. -/
def expr : ParsedExpr → Expr
  | .name word => .ident word
  | .parens inside => inside.expr
  | .field base word => .selector base.expr word
  | .call function args => .call function.expr (exprs args)
  | .index base key => .index base.expr key.expr
  | .prefixed op operand => op.apply operand.expr
  | .binary left op right => .binary left.expr op.symbol right.expr

def exprs : List ParsedExpr → List Expr
  | [] => []
  | t :: ts => t.expr :: exprs ts
end

theorem exprs_eq_map (ts : List ParsedExpr) : exprs ts = ts.map expr := by
  induction ts with
  | nil => rfl
  | cons t ts ih => simp [exprs, ih]

theorem balanced_tokens (t : ParsedExpr) : Balanced t.tokens := by
  induction t with
  | name word => exact .ident .nil word
  | parens inside ih => exact .enclosed (by simp [delimiters]) ih
  | field base word ih => exact ih.append (.cons (.ident .nil word) rfl rfl (by simp))
  | call function args ih iheach =>
      rw [tokens, tokensAll_eq_map]
      exact ih.append (.enclosed (by simp [delimiters])
        (.separated (List.forall_mem_map.mpr iheach)))
  | index base key ih ihkey => exact ih.append (.enclosed (by simp [delimiters]) ihkey)
  | prefixed op operand ih => exact ih.cons (by cases op <;> rfl) (by cases op <;> rfl) (by simp)
  | binary left op right ihl ihr =>
      obtain ⟨hopens, hcloses, -⟩ := op.plain_symbol
      exact ihl.append (ihr.cons hopens hcloses (by simp))

end ParsedExpr

/-! Going on after an operand. -/

mutual
/-- How many selectors, calls, indices and binary operators there are. -/
def Expr.joints : Expr → Nat
  | .selector base _ => base.joints + 1
  | .deref inner | .not inner => inner.joints
  | .call function args => function.joints + (jointsAll args + 1)
  | .index base key => base.joints + (key.joints + 1)
  | .binary left _ right => left.joints + (right.joints + 1)
  | _ => 0

def Expr.jointsAll : List Expr → Nat
  | [] => 0
  | e :: es => e.joints + Expr.jointsAll es
end

/-- What ends an operand without going on with it. -/
def closers : List TokenKind := [.op ")", .op "]", .op ","]

/-- How many tokens go on with an operand, where one has just ended if `ended`. -/
def countJoints (ended : Bool) : List TokenKind → Nat
  | [] => 0
  | k :: ks => (if ended ∧ k ∉ closers then 1 else 0) + countJoints k.endsStatement ks

section CountJoints

variable {k : TokenKind}

theorem countJoints_start (k : TokenKind) (ks : List TokenKind) :
    countJoints false (k :: ks) = countJoints k.endsStatement ks := by simp [countJoints]

theorem countJoints_closer (h : k ∈ closers) (ended : Bool) (ks : List TokenKind) :
    countJoints ended (k :: ks) = countJoints k.endsStatement ks := by simp [countJoints, h]

theorem countJoints_joint (h : k ∉ closers) (ks : List TokenKind) :
    countJoints true (k :: ks) = 1 + countJoints k.endsStatement ks := by simp [countJoints, h]

end CountJoints

theorem BinaryOperator.not_mem_closers (op : BinaryOperator) : .op op.symbol ∉ closers := by
  have hne := op.symbol_ne
  simp only [List.mem_cons, List.not_mem_nil, or_false, not_or] at hne
  simp [closers, hne]

namespace ParsedExpr

theorem countJoints_args {args : List ParsedExpr}
    (h : ∀ a ∈ args, ∀ ks, countJoints false (a.tokens ++ ks) = a.expr.joints + countJoints true ks)
    (ks : List TokenKind) :
    countJoints false ([.op ","].intercalate (args.map tokens) ++ .op ")" :: ks) =
      Expr.jointsAll (args.map expr) + countJoints true ks := by
  have hclose : ∀ ended, countJoints ended (.op ")" :: ks) = countJoints true ks :=
    fun ended => countJoints_closer (by decide) ended ks
  induction args with
  | nil => simp [hclose, Expr.jointsAll]
  | cons a args ih =>
      obtain ⟨ha, hmore⟩ := List.forall_mem_cons.mp h
      cases args with
      | nil => simp [ha, hclose, Expr.jointsAll]
      | cons b args =>
          have hcomma : ∀ more, countJoints true (.op "," :: more) = countJoints false more :=
            countJoints_closer (by decide) true
          have hrest := ih hmore
          simp only [List.map_cons, List.intercalate_cons_cons, List.append_assoc,
            List.cons_append, List.nil_append, ha, hcomma, Expr.jointsAll] at hrest ⊢
          rw [hrest]
          omega

/-- Parentheses around an expression go on with nothing. -/
theorem countJoints_tokens (t : ParsedExpr) (ks : List TokenKind) :
    countJoints false (t.tokens ++ ks) = t.expr.joints + countJoints true ks := by
  induction t generalizing ks with
  | name word => simp [tokens, expr, countJoints_start, Expr.joints, TokenKind.endsStatement]
  | parens inside ih =>
      have hclose : countJoints true (.op ")" :: ks) = countJoints true ks :=
        countJoints_closer (by decide) true ks
      simp [tokens, expr, countJoints_start, TokenKind.endsStatement, ih, hclose]
  | field base word ih =>
      have hpoint : countJoints true (.op "." :: .ident word :: ks) = 1 + countJoints true ks :=
        (countJoints_joint (k := .op ".") (by decide) _).trans
          (congrArg (1 + ·) (countJoints_start (.ident word) ks))
      simp only [tokens, List.append_assoc, List.cons_append, List.nil_append, ih, hpoint, expr,
        Expr.joints, Nat.add_assoc]
  | call function args ih iheach =>
      have hopen : countJoints true (.op "(" :: ([.op ","].intercalate (args.map tokens) ++
          .op ")" :: ks)) =
            1 + countJoints false ([.op ","].intercalate (args.map tokens) ++ .op ")" :: ks) :=
        countJoints_joint (k := .op "(") (by decide) _
      rw [countJoints_args iheach ks] at hopen
      simp only [tokens, tokensAll_eq_map, List.append_assoc, List.cons_append, List.nil_append, ih,
        hopen, expr, exprs_eq_map, Expr.joints]
      omega
  | index base key ih ihkey =>
      have hclose : countJoints true (.op "]" :: ks) = countJoints true ks :=
        countJoints_closer (by decide) true ks
      have hopen : countJoints true (.op "[" :: (key.tokens ++ .op "]" :: ks)) =
          1 + countJoints false (key.tokens ++ .op "]" :: ks) :=
        countJoints_joint (k := .op "[") (by decide) _
      rw [ihkey, hclose] at hopen
      simp only [tokens, List.append_assoc, List.cons_append, List.nil_append, ih, hopen, expr,
        Expr.joints]
      omega
  | prefixed op operand ih =>
      cases op <;>
        simpa [tokens, expr, countJoints_start, Expr.joints, TokenKind.endsStatement,
          PrefixOperator.symbol, PrefixOperator.apply] using ih ks
  | binary left op right ihl ihr =>
      have hjoint := countJoints_joint op.not_mem_closers (right.tokens ++ ks)
      rw [op.plain_symbol.2.2, ihr] at hjoint
      simp only [tokens, List.append_assoc, List.cons_append, ihl, hjoint, expr, Expr.joints]
      omega

/-- The tokens in front of a closing parenthesis are those of no other tree, as far as their
number of joints goes. -/
theorem joints_eq_of_close {t u : ParsedExpr} {rest rest' : List TokenKind}
    (h : t.tokens ++ .op ")" :: rest = u.tokens ++ .op ")" :: rest') :
    t.expr.joints = u.expr.joints := by
  have htokens := t.balanced_tokens.eq_of_closes u.balanced_tokens (by decide) h
  have ht := t.countJoints_tokens []
  rw [htokens, u.countJoints_tokens] at ht
  simpa [countJoints] using ht.symm

theorem tokens_parens (inside : ParsedExpr) (rest : List TokenKind) :
    (parens inside).tokens ++ rest = .op "(" :: (inside.tokens ++ .op ")" :: rest) := by
  simp [tokens]

theorem prefixed_ne_parens (op : PrefixOperator) (operand inside : ParsedExpr)
    (rest rest' : List TokenKind) :
    (prefixed op operand).tokens ++ rest ≠ (parens inside).tokens ++ rest' := by
  cases op <;> simp [tokens, PrefixOperator.symbol]

/-- What starts with parentheses has at least the joints of what stands in them, and more if it
goes on behind them. -/
theorem joints_le_of_parens (t : ParsedExpr) {u : ParsedExpr} {rest rest' : List TokenKind}
    (h : t.tokens ++ rest = (parens u).tokens ++ rest') :
    u.expr.joints ≤ t.expr.joints ∧ ((∀ v, t ≠ parens v) → u.expr.joints < t.expr.joints) := by
  -- what stands in front of a joint starts with the parentheses as well
  have hfront : ∀ {P : Prop} {m : Nat} (n : Nat), u.expr.joints ≤ m →
      u.expr.joints ≤ m + (n + 1) ∧ (P → u.expr.joints < m + (n + 1)) := by
    intro P m n hle
    exact ⟨by omega, fun _ => by omega⟩
  induction t generalizing rest with
  | name word => cases h
  | parens inside ih =>
      rw [tokens_parens, tokens_parens, List.cons.injEq] at h
      exact ⟨Nat.le_of_eq (joints_eq_of_close h.2).symm, fun hne => absurd rfl (hne inside)⟩
  | field base word ih => exact hfront 0 (ih ((List.append_assoc ..).symm.trans h)).1
  | call function args ih _ => exact hfront _ (ih ((List.append_assoc ..).symm.trans h)).1
  | index base key ih _ => exact hfront _ (ih ((List.append_assoc ..).symm.trans h)).1
  | prefixed op operand ih => exact absurd h (prefixed_ne_parens op operand u rest rest')
  | binary left op right ihl _ => exact hfront _ (ihl ((List.append_assoc ..).symm.trans h)).1

/-- An expression without parentheses around it does not start with parentheses around all of
it. -/
theorem tokens_ne_parens {t u : ParsedExpr} (ht : ∀ v, t ≠ parens v)
    (hexpr : t.expr = (parens u).expr) (rest rest' : List TokenKind) :
    t.tokens ++ rest ≠ (parens u).tokens ++ rest' := by
  intro h
  have hlt := (t.joints_le_of_parens h).2 ht
  rw [hexpr] at hlt
  exact Nat.lt_irrefl _ hlt

theorem args_eq_of_tokens {args others : List ParsedExpr} {rest rest' : List TokenKind}
    (h : ∀ a ∈ args, ∀ (b : ParsedExpr) (rest rest' : List TokenKind), a.expr = b.expr →
      a.tokens ++ rest = b.tokens ++ rest' → a = b)
    (hexprs : args.map expr = others.map expr)
    (htokens : [.op ","].intercalate (args.map tokens) ++ rest =
      [.op ","].intercalate (others.map tokens) ++ rest') : args = others := by
  induction args generalizing others with
  | nil => exact (List.map_eq_nil_iff.mp hexprs.symm).symm
  | cons a args ih =>
      obtain ⟨b, others, rfl, hb, hothers⟩ := List.map_eq_cons_iff.mp hexprs.symm
      obtain ⟨ha, hmore⟩ := List.forall_mem_cons.mp h
      cases args with
      | nil =>
          obtain rfl := List.map_eq_nil_iff.mp hothers
          have hlast : a.tokens ++ rest = b.tokens ++ rest' := by simpa using htokens
          rw [ha b _ _ hb.symm hlast]
      | cons c args =>
          obtain ⟨d, others, rfl, -, -⟩ := List.map_eq_cons_iff.mp hothers
          simp only [List.map_cons, List.intercalate_cons_cons, List.append_assoc] at htokens
          obtain rfl := ha b _ _ hb.symm htokens
          rw [List.append_cancel_left_eq, List.append_cancel_left_eq] at htokens
          rw [ih hmore hothers.symm htokens]

/-- The parentheses of an expression stand where its tokens say, whatever comes behind them; so
each part is found in turn. -/
theorem eq_of_tokens {t u : ParsedExpr} {rest rest' : List TokenKind} (hexpr : t.expr = u.expr)
    (htokens : t.tokens ++ rest = u.tokens ++ rest') : t = u := by
  induction t generalizing u rest rest' with
  | name word =>
      cases u with
      | name other =>
          cases hexpr
          rfl
      | parens inside => exact absurd htokens (tokens_ne_parens (by simp) hexpr _ _)
      | prefixed op operand => cases op <;> cases hexpr
      | _ => cases hexpr
  | parens inside ih =>
      cases u with
      | parens other =>
          have hinside : inside.expr = other.expr := hexpr
          rw [tokens_parens, tokens_parens, List.cons.injEq] at htokens
          rw [ih hinside htokens.2]
      | _ => exact absurd htokens.symm (tokens_ne_parens (by simp) hexpr.symm _ _)
  | field base word ih =>
      cases u with
      | field other word' =>
          simp only [expr, Expr.selector.injEq] at hexpr
          simp only [tokens, List.append_assoc] at htokens
          rw [ih hexpr.1 htokens, hexpr.2]
      | parens inside => exact absurd htokens (tokens_ne_parens (by simp) hexpr _ _)
      | prefixed op operand => cases op <;> cases hexpr
      | _ => cases hexpr
  | call function args ih iheach =>
      cases u with
      | call function' args' =>
          simp only [expr, exprs_eq_map, Expr.call.injEq] at hexpr
          simp only [tokens, tokensAll_eq_map, List.append_assoc] at htokens
          obtain rfl := ih hexpr.1 htokens
          rw [List.append_cancel_left_eq, List.cons_append, List.cons_append, List.cons.injEq,
            List.append_assoc, List.append_assoc] at htokens
          rw [args_eq_of_tokens (fun a ha b _ _ => iheach a ha) hexpr.2 htokens.2]
      | parens inside => exact absurd htokens (tokens_ne_parens (by simp) hexpr _ _)
      | prefixed op operand => cases op <;> cases hexpr
      | _ => cases hexpr
  | index base key ih ihkey =>
      cases u with
      | index base' key' =>
          simp only [expr, Expr.index.injEq] at hexpr
          simp only [tokens, List.append_assoc] at htokens
          obtain rfl := ih hexpr.1 htokens
          rw [List.append_cancel_left_eq, List.cons_append, List.cons_append, List.cons.injEq,
            List.append_assoc, List.append_assoc] at htokens
          rw [ihkey hexpr.2 htokens.2]
      | parens inside => exact absurd htokens (tokens_ne_parens (by simp) hexpr _ _)
      | prefixed op operand => cases op <;> cases hexpr
      | _ => cases hexpr
  | prefixed op operand ih =>
      cases u with
      | prefixed op' operand' =>
          obtain ⟨rfl, hoperand⟩ := PrefixOperator.apply_inj hexpr
          rw [tokens, tokens, List.cons_append, List.cons_append, List.cons.injEq] at htokens
          rw [ih hoperand htokens.2]
      | parens inside => exact absurd htokens (tokens_ne_parens (by simp) hexpr _ _)
      | _ => cases op <;> cases hexpr
  | binary left op right ihl ihr =>
      cases u with
      | binary left' op' right' =>
          simp only [expr, Expr.binary.injEq] at hexpr
          simp only [tokens, List.append_assoc] at htokens
          obtain rfl := ihl hexpr.1 htokens
          obtain rfl := BinaryOperator.ext hexpr.2.1
          rw [List.append_cancel_left_eq, List.cons_append, List.cons_append,
            List.cons.injEq] at htokens
          rw [ihr hexpr.2.2 htokens.2]
      | parens inside => exact absurd htokens (tokens_ne_parens (by simp) hexpr _ _)
      | prefixed op operand => cases op <;> cases hexpr
      | _ => cases hexpr

end ParsedExpr

end FieldRules
