/-
Reading from a list of tokens.  Every reader hands back the tokens it left and
a proof that it used some, so loops over readers end.
-/
import FieldRules.Source.Layout
import FieldRules.Source.Declaration

namespace FieldRules

/-- What was read from `n` tokens, the tokens left, and the byte where the last
token read ends. -/
structure Reading (α : Type) (n : Nat) where
  value : α
  rest : List Token
  stop : Nat
  lt : rest.length < n

/-- The text behind the tokens, for pieces that are kept as they stand. -/
structure SourceText where
  chars : List Char
  groups : List CommentGroup

namespace SourceText

def between (s : SourceText) (start stop : Nat) : String :=
  String.ofList (slice s.chars start stop)

/-- The group that documents a token. -/
def docOf (s : SourceText) (t : Token) : Option CommentGroup :=
  t.doc.bind fun i => s.groups[i]?

end SourceText

/-- The kind of the next token; past the last one the file has ended. -/
def nextKind : List Token → TokenKind
  | [] => .eof
  | t :: _ => t.kind

/-- The complaint about the next token. -/
def unexpected (expected : String) : List Token → SourceError
  | [] => .unexpectedToken expected TokenKind.eof.describe ⟨0, 0⟩
  | t :: _ => .unexpectedToken expected t.kind.describe t.span

/-- Drop semicolons. -/
def dropSemis (ts : List Token) : List Token :=
  ts.dropWhile fun t => t.kind.isSemi

theorem length_dropSemis_le (ts : List Token) : (dropSemis ts).length ≤ ts.length :=
  (List.dropWhile_sublist _).length_le

/-- The tokens left after some were skipped, or none. -/
abbrev Remaining (ts : List Token) := { rest : List Token // rest.length ≤ ts.length }

/-- Skip nothing. -/
def Remaining.all (ts : List Token) : Remaining ts := ⟨ts, Nat.le_refl ts.length⟩

/-- Skip one token more, the first. -/
def Remaining.afterToken {r : List Token} (left : Remaining r) (t : Token) : Remaining (t :: r) :=
  ⟨left.1, Nat.le_succ_of_le left.2⟩

/-- Skip what has been read, and more. -/
def Remaining.afterReading {ts : List Token} {one : Reading α ts.length}
    (left : Remaining one.rest) : Remaining ts :=
  ⟨left.1, Nat.le_trans left.2 (Nat.le_of_lt one.lt)⟩

/-- Read one operator. -/
def expectOp (symbol : String) : (ts : List Token) → Except SourceError (Reading Token ts.length)
  | [] => .error (unexpected s!"'{symbol}'" [])
  | t :: r =>
      if t.kind = .op symbol then .ok ⟨t, r, t.span.stop, by simp⟩
      else .error (unexpected s!"'{symbol}'" (t :: r))

/-- Read one identifier; `what` names it in the complaint. -/
def expectIdent (what : String) : (ts : List Token) → Except SourceError (Reading Ident ts.length)
  | [] => .error (unexpected what [])
  | t :: r =>
      match t.kind with
      | .ident name => .ok ⟨⟨name, t.span⟩, r, t.span.stop, by simp⟩
      | _ => .error (unexpected what (t :: r))

/-- Read identifiers separated by commas. -/
def identList (what : String) :
    (ts : List Token) → Except SourceError (Reading (List Ident) ts.length)
  | [] => .error (unexpected what [])
  | t :: r =>
      match t.kind with
      | .ident name =>
          match r with
          | [] => .ok ⟨[⟨name, t.span⟩], [], t.span.stop, by simp⟩
          | u :: rest =>
              if u.kind = .op "," then do
                let more ← identList what rest
                return ⟨⟨name, t.span⟩ :: more.value, more.rest, more.stop, by
                  have := more.lt
                  simp only [List.length_cons]
                  omega⟩
              else .ok ⟨[⟨name, t.span⟩], u :: rest, t.span.stop, by simp⟩
      | _ => .error (unexpected what (t :: r))

/-- The token that closes what is open, with the tokens after it.  Delimiters
are told apart only as opening and closing; `depth` counts those open inside. -/
def closing? (depth : Nat) : List Token → Option (Token × List Token)
  | [] => none
  | t :: r =>
      if t.kind.opens then closing? (depth + 1) r
      else if t.kind.closes then
        match depth with
        | 0 => some (t, r)
        | inner + 1 => closing? inner r
      else if t.kind = .eof then none
      else closing? depth r

theorem length_closing?_lt {depth : Nat} {ts : List Token} {t : Token} {r : List Token}
    (h : closing? depth ts = some (t, r)) : r.length < ts.length := by
  induction ts generalizing depth with
  | nil => simp [closing?] at h
  | cons u us ih =>
      simp only [closing?] at h
      simp only [List.length_cons]
      split at h
      · exact Nat.lt_succ_of_lt (ih h)
      · split at h
        · split at h
          · cases h
            exact Nat.lt_succ_self _
          · exact Nat.lt_succ_of_lt (ih h)
        · split at h
          · cases h
          · exact Nat.lt_succ_of_lt (ih h)

/-- Skip from after the opening delimiter to after the one that closes it. -/
def skipClosed (opening : Token) (ts : List Token) :
    Except SourceError (Reading Unit ts.length) :=
  match h : closing? 0 ts with
  | some (t, r) => .ok ⟨(), r, t.span.stop, length_closing?_lt h⟩
  | none =>
      .error (.unexpectedToken "closing delimiter" TokenKind.eof.describe opening.span)

/-- Skip to the first token that `halts`, or to the end of the file, passing
over delimited parts as a whole. -/
def skipUntil (halts : TokenKind → Bool) (ts : List Token) :
    Except SourceError (Remaining ts) :=
  match ts with
  | [] => .ok (.all [])
  | t :: r =>
      if t.kind.opens then do
        let inside ← skipClosed t r
        let left ← skipUntil halts inside.rest
        return left.afterReading.afterToken t
      else if halts t.kind || t.kind = .eof then .ok (.all (t :: r))
      else do
        let left ← skipUntil halts r
        return left.afterToken t
termination_by ts.length
decreasing_by
  · exact Nat.lt_succ_of_lt inside.lt
  · exact Nat.lt_succ_self _

end FieldRules
