/-
Reading declarations from tokens.  Types and constants are read in full;
imports, variables and functions are skipped by their delimiters.
-/
import FieldRules.Source.Reading

namespace FieldRules

/-- The end of a declaration that is skipped: its semicolon, if it has one. -/
def endsDeclaration (k : TokenKind) : Bool := k.isSemi

def isTypeWord (k : TokenKind) : Bool :=
  k = .ident "struct" || k = .ident "interface"

/-- Whether a type may start with this token, after the parameters of a
function type. -/
def startsResult : TokenKind → Bool
  | .ident _ => true
  | .op symbol => symbol ∈ ["*", "[", "<-"]
  | _ => false

/-- Whether a field line that starts with these tokens embeds a type. -/
def startsEmbedded : List Token → Bool
  | [] => false
  | t :: r =>
      match t.kind with
      | .op symbol => symbol == "*"
      | .ident _ =>
          match nextKind r with
          | .op symbol => symbol == "." || symbol == "\x7d"
          | .semi _ => true
          | .literal .str _ => true
          | _ => false
      | _ => false

/-- Tell type parameters from the length of an array, after a bracket. -/
def startsTypeParams (ts : List Token) : Bool :=
  match nextKind ts, nextKind ts.tail with
  | .ident _, .ident _ => true
  | .ident _, .op symbol => symbol == "," || symbol == "~"
  | _, _ => false

/-- A named type with an optional package before it.  An instance of a generic
type is kept as its text. -/
def namedType (src : SourceText) (ts : List Token) :
    Except SourceError (Reading TypeExpr ts.length) := do
  let first ← expectIdent "type name" ts
  have hfirst := first.lt
  let named : Reading TypeExpr ts.length ←
    if nextKind first.rest = .op "." then do
      let dot ← expectOp "." first.rest
      have hdot := dot.lt
      let name ← expectIdent "type name" dot.rest
      have hname := name.lt
      pure ⟨.named (some first.value) name.value, name.rest, name.stop, by omega⟩
    else pure ⟨.named none first.value, first.rest, first.stop, hfirst⟩
  have hnamed := named.lt
  match hr : named.rest with
  | [] => return named
  | t :: r =>
      if t.kind = .op "[" then do
        let inside ← skipClosed t r
        have hinside := inside.lt
        let span : Span := ⟨first.value.span.start, inside.stop⟩
        return ⟨.verbatim (src.between span.start span.stop) span, inside.rest, inside.stop, by
          simp only [hr, List.length_cons] at hnamed
          omega⟩
      else return named

/-- The field line with these names and this type, and the tag after them, where there
is one. -/
def withTag {n : Nat} (doc : Option CommentGroup) (line : Reading (List Ident × TypeExpr) n) :
    Reading FieldLine n :=
  have hline := line.lt
  let plain : FieldLine := ⟨doc, line.value.1, line.value.2, none⟩
  match hr : line.rest with
  | [] => ⟨plain, [], line.stop, hr ▸ hline⟩
  | t :: r =>
      have hlen : (t :: r).length < n := hr ▸ hline
      match t.kind with
      | .literal .str tag =>
          ⟨{ plain with tag := some tag }, r, t.span.stop, Nat.lt_of_succ_lt hlen⟩
      | _ => ⟨plain, t :: r, line.stop, hlen⟩

mutual

/-- Read one type. -/
def parseType (src : SourceText) (ts : List Token) :
    Except SourceError (Reading TypeExpr ts.length) :=
  match ts with
  | [] => .error (unexpected "type" [])
  | t :: r =>
      let start := t.span.start
      let verbatim (stop : Nat) : TypeExpr :=
        .verbatim (src.between start stop) ⟨start, stop⟩
      match t.kind with
      | .ident word =>
          if word = "struct" then do
            let opening ← expectOp "\x7b" r
            have hopening := opening.lt
            let fields ← structFields src opening.rest
            have hfields := fields.lt
            return ⟨.struct fields.value ⟨start, fields.stop⟩, fields.rest, fields.stop, by
              simp only [List.length_cons]; omega⟩
          else if word = "map" then do
            let opening ← expectOp "[" r
            have hopening := opening.lt
            let key ← parseType src opening.rest
            have hkey := key.lt
            let closing ← expectOp "]" key.rest
            have hclosing := closing.lt
            let value ← parseType src closing.rest
            have hvalue := value.lt
            return ⟨.map key.value value.value ⟨start, value.stop⟩, value.rest, value.stop, by
              simp only [List.length_cons]; omega⟩
          else if word = "interface" then do
            let opening ← expectOp "\x7b" r
            have hopening := opening.lt
            let inside ← skipClosed opening.value opening.rest
            have hinside := inside.lt
            return ⟨verbatim inside.stop, inside.rest, inside.stop, by
              simp only [List.length_cons]; omega⟩
          else if word = "func" then do
            let signature ← skipSignature src r
            have hsignature := signature.lt
            return ⟨verbatim signature.stop, signature.rest, signature.stop, by
              simp only [List.length_cons]; omega⟩
          else if word = "chan" then
            match r with
            | [] => .error (unexpected "type" [])
            | u :: v =>
                if u.kind = .op "<-" then do
                  let elem ← parseType src v
                  have helem := elem.lt
                  return ⟨verbatim elem.stop, elem.rest, elem.stop, by
                    simp only [List.length_cons]; omega⟩
                else do
                  let elem ← parseType src (u :: v)
                  have helem := elem.lt
                  return ⟨verbatim elem.stop, elem.rest, elem.stop, by
                    simp only [List.length_cons] at helem ⊢; omega⟩
          else namedType src (t :: r)
      | .op symbol =>
          if symbol = "*" then do
            let elem ← parseType src r
            have helem := elem.lt
            return ⟨.pointer elem.value ⟨start, elem.stop⟩, elem.rest, elem.stop, by
              simp only [List.length_cons]; omega⟩
          else if symbol = "[" then
            if nextKind r = .op "]" then do
              let closing ← expectOp "]" r
              have hclosing := closing.lt
              let elem ← parseType src closing.rest
              have helem := elem.lt
              return ⟨.slice elem.value ⟨start, elem.stop⟩, elem.rest, elem.stop, by
                simp only [List.length_cons]; omega⟩
            else do
              let ⟨rest, hrest⟩ ← skipUntil (fun k => k.isSemi || k = .op "]") r
              let closing ←
                if nextKind rest = .op "]" then expectOp "]" rest
                else .error (unexpected "']'" rest)
              have hclosing := closing.lt
              let elem ← parseType src closing.rest
              have helem := elem.lt
              let inside := r.take (r.length - rest.length)
              let length :=
                src.between (r.head?.elim 0 fun u => u.span.start)
                  (inside.getLast?.elim 0 fun u => u.span.stop)
              return ⟨.array length elem.value ⟨start, elem.stop⟩, elem.rest, elem.stop, by
                simp only [List.length_cons]; omega⟩
          else if symbol = "<-" then do
            let word ←
              if nextKind r = .ident "chan" then expectIdent "'chan'" r
              else .error (unexpected "'chan'" r)
            have hword := word.lt
            let elem ← parseType src word.rest
            have helem := elem.lt
            return ⟨verbatim elem.stop, elem.rest, elem.stop, by
              simp only [List.length_cons]; omega⟩
          else if symbol = "(" then do
            let inner ← parseType src r
            have hinner := inner.lt
            let closing ← expectOp ")" inner.rest
            have hclosing := closing.lt
            return ⟨inner.value, closing.rest, closing.stop, by
              simp only [List.length_cons]; omega⟩
          else .error (unexpected "type" (t :: r))
      | _ => .error (unexpected "type" (t :: r))
termination_by (ts.length, 0)
decreasing_by
  all_goals
    apply Prod.Lex.left
    simp only [List.length_cons]
    omega

/-- Parameters and optional results of a function type. -/
def skipSignature (src : SourceText) (ts : List Token) :
    Except SourceError (Reading Unit ts.length) := do
  let opening ← expectOp "(" ts
  have hopening := opening.lt
  let inside ← skipClosed opening.value opening.rest
  have hinside := inside.lt
  match hr : inside.rest with
  | [] => return ⟨(), [], inside.stop, by simp only [hr] at hinside; omega⟩
  | t :: r =>
      have hlen : (t :: r).length < opening.rest.length := hr ▸ hinside
      if t.kind = .op "(" then do
        let results ← skipClosed t r
        have hresults := results.lt
        return ⟨(), results.rest, results.stop, by simp only [List.length_cons] at hlen; omega⟩
      else if startsResult t.kind then do
        let result ← parseType src (t :: r)
        have hresult := result.lt
        return ⟨(), result.rest, result.stop, by omega⟩
      else return ⟨(), t :: r, inside.stop, by omega⟩
termination_by (ts.length, 0)
decreasing_by
  all_goals
    apply Prod.Lex.left
    omega

/-- The field lines of a struct and its closing brace. -/
def structFields (src : SourceText) (ts : List Token) :
    Except SourceError (Reading (List FieldLine) ts.length) :=
  have hsemis := length_dropSemis_le ts
  match hd : dropSemis ts with
  | [] => .error (unexpected "field" [])
  | t :: r =>
      have hlen : (t :: r).length ≤ ts.length := hd ▸ hsemis
      if t.kind = .op "\x7d" then
        .ok ⟨[], r, t.span.stop, by simp only [List.length_cons] at hlen; omega⟩
      else do
        let field ← fieldLine src (t :: r)
        have hfield := field.lt
        if (nextKind field.rest).isSemi || nextKind field.rest = .op "\x7d" then
          let more ← structFields src field.rest
          have hmore := more.lt
          return ⟨field.value :: more.value, more.rest, more.stop, by omega⟩
        else .error (unexpected "';' or '\x7d'" field.rest)
termination_by (ts.length, 2)
decreasing_by
  · have := Nat.lt_or_eq_of_le hlen
    rcases this with h | h
    · exact Prod.Lex.left _ _ h
    · rw [h]; exact Prod.Lex.right _ (by omega)
  · apply Prod.Lex.left
    omega

/-- One field line of a struct. -/
def fieldLine (src : SourceText) (ts : List Token) :
    Except SourceError (Reading FieldLine ts.length) := do
  let doc := ts.head?.bind src.docOf
  let line : Reading (List Ident × TypeExpr) ts.length ←
    if startsEmbedded ts then do
      let type ← parseType src ts
      pure ⟨([], type.value), type.rest, type.stop, type.lt⟩
    else
      match nextKind ts with
      | .ident _ => do
          let names ← identList "field name" ts
          have hnames := names.lt
          let type ← parseType src names.rest
          have htype := type.lt
          pure ⟨(names.value, type.value), type.rest, type.stop, Nat.lt_trans htype hnames⟩
      | _ => .error (unexpected "field" ts)
  return withTag doc line
termination_by (ts.length, 1)
decreasing_by
  · exact Prod.Lex.right _ (by omega)
  · apply Prod.Lex.left
    omega

end

/-- Read the specs of a group up to its closing parenthesis.  `spec` reads one
spec, given its place in the group. -/
def specGroup {α : Type}
    (spec : Nat → (ts : List Token) → Except SourceError (Reading α ts.length))
    (index : Nat) (ts : List Token) : Except SourceError (Reading (List α) ts.length) :=
  have hsemis := length_dropSemis_le ts
  match hd : dropSemis ts with
  | [] => .error (unexpected "';' or newline" [])
  | t :: r =>
      have hlen : (t :: r).length ≤ ts.length := hd ▸ hsemis
      if t.kind = .op ")" then
        .ok ⟨[], r, t.span.stop, by simp only [List.length_cons] at hlen; omega⟩
      else do
        let one ← spec index (t :: r)
        have hone := one.lt
        if (nextKind one.rest).isSemi || nextKind one.rest = .op ")" then
          let more ← specGroup spec (index + 1) one.rest
          have hmore := more.lt
          return ⟨one.value :: more.value, more.rest, more.stop, by omega⟩
        else .error (unexpected "';' or newline" one.rest)
termination_by ts.length
decreasing_by omega

/-- Read one spec or a group of them; true for a group. -/
def specs {α : Type}
    (spec : Nat → (ts : List Token) → Except SourceError (Reading α ts.length))
    (ts : List Token) : Except SourceError (Reading (Bool × List α) ts.length) :=
  match ts with
  | [] => do
      let one ← spec 0 []
      return ⟨(false, [one.value]), one.rest, one.stop, one.lt⟩
  | t :: r =>
      if t.kind = .op "(" then do
        let all ← specGroup spec 0 r
        have hall := all.lt
        return ⟨(true, all.value), all.rest, all.stop, by simp only [List.length_cons]; omega⟩
      else do
        let one ← spec 0 (t :: r)
        return ⟨(false, [one.value]), one.rest, one.stop, one.lt⟩

/-- Skip the type parameters of a generic type; true if there are any. -/
def skipTypeParams (ts : List Token) :
    Except SourceError (Bool × Remaining ts) :=
  match ts with
  | [] => .ok (false, .all [])
  | t :: r =>
      if t.kind = .op "[" && startsTypeParams r then do
        let inside ← skipClosed t r
        have hinside := inside.lt
        return (true, ⟨inside.rest, by simp only [List.length_cons]; omega⟩)
      else .ok (false, .all (t :: r))

/-- One type spec: a name, type parameters, an equals sign for an alias, a type. -/
def typeSpec (src : SourceText) (ts : List Token) :
    Except SourceError (Reading TypeSpec ts.length) := do
  let doc := ts.head?.bind src.docOf
  let name ← expectIdent "type name" ts
  have hname := name.lt
  let ⟨generic, rest, hrest⟩ ← skipTypeParams name.rest
  let equals := nextKind rest = .op "="
  let afterEquals := if equals then rest.tail else rest
  have hequals : afterEquals.length ≤ rest.length := by
    simp only [afterEquals]
    split
    · simp
    · exact Nat.le_refl _
  let type ← parseType src afterEquals
  have htype := type.lt
  return ⟨⟨doc, name.value, generic, equals, type.value⟩, type.rest, type.stop, by omega⟩

/-- The expression made of these tokens.  A sign before a whole or decimal
number belongs to the literal; a plus is not written. -/
def constExpr (src : SourceText) (first last : Token) (tokens : List Token) : ConstExpr :=
  let span := first.span.cover last.span
  let verbatim := ConstExpr.verbatim (src.between span.start span.stop) span
  match tokens.map Token.kind with
  | [.ident name] => .ident name span
  | [.literal kind spelling] => .literal kind spelling span
  | [.op sign, .literal kind spelling] =>
      if (sign = "-" || sign = "+") && (kind = .int || kind = .float) then
        .literal kind (if sign = "-" then "-" ++ spelling else spelling) span
      else verbatim
  | _ => verbatim

/-- Where an expression ends: at a comma, a closing delimiter or a semicolon. -/
def endsExpr (k : TokenKind) : Bool :=
  k.closes || k = .op "," || k.isSemi

/-- A token in front of what is left was skipped. -/
theorem length_lt_of_head?_take {ts rest : List Token} {t : Token}
    (h : (ts.take (ts.length - rest.length)).head? = some t) (hle : rest.length ≤ ts.length) :
    rest.length < ts.length := by
  rcases Nat.lt_or_eq_of_le hle with hlt | heq
  · exact hlt
  · simp [heq] at h

/-- Read expressions separated by commas. -/
def exprList (src : SourceText) (ts : List Token) :
    Except SourceError (Reading (List ConstExpr) ts.length) := do
  let ⟨rest, hrest⟩ ← skipUntil endsExpr ts
  let tokens := ts.take (ts.length - rest.length)
  match hf : (ts.take (ts.length - rest.length)).head?, tokens.getLast? with
  | some first, some last =>
      have hlt := length_lt_of_head?_take hf hrest
      let one := constExpr src first last tokens
      match hr : rest with
      | [] => return ⟨[one], [], last.span.stop, hr ▸ hlt⟩
      | t :: r =>
          have hlen : (t :: r).length < ts.length := hr ▸ hlt
          if t.kind = .op "," then do
            let more ← exprList src r
            return ⟨one :: more.value, more.rest, more.stop,
              Nat.lt_trans more.lt (Nat.lt_of_succ_lt hlen)⟩
          else return ⟨[one], t :: r, last.span.stop, hlen⟩
  | _, _ => .error (unexpected "expression" ts)
termination_by ts.length
decreasing_by simp only [List.length_cons] at hlen; omega

/-- The type after the names of constants, where there is one. -/
def typeAfter (src : SourceText) {n : Nat} (names : Reading (List Ident) n) :
    Except SourceError (Reading (Option TypeExpr) n) :=
  let next := nextKind names.rest
  if next = .op "=" || next = .op ")" || next.isSemi then
    .ok ⟨none, names.rest, names.stop, names.lt⟩
  else do
    let type ← parseType src names.rest
    return ⟨some type.value, type.rest, type.stop, Nat.lt_trans type.lt names.lt⟩

/-- The values after an equals sign, where there is one. -/
def valuesAfter (src : SourceText) {α : Type} {n : Nat} (before : Reading α n) :
    Except SourceError (Reading (List ConstExpr) n) :=
  match hr : before.rest with
  | [] => .ok ⟨[], [], before.stop, hr ▸ before.lt⟩
  | t :: r =>
      have hlen : (t :: r).length < n := hr ▸ before.lt
      if t.kind = .op "=" then do
        let values ← exprList src r
        return ⟨values.value, values.rest, values.stop,
          Nat.lt_trans values.lt (Nat.lt_of_succ_lt hlen)⟩
      else .ok ⟨[], t :: r, before.stop, hlen⟩

/-- One constant spec: names, and a type and values where it has them. -/
def constSpec (src : SourceText) (index : Nat) (ts : List Token) :
    Except SourceError (Reading ConstSpec ts.length) := do
  let doc := ts.head?.bind src.docOf
  let names ← identList "constant name" ts
  let typed ← typeAfter src names
  let values ← valuesAfter src typed
  return ⟨⟨doc, index, names.value, typed.value, values.value⟩, values.rest, values.stop, values.lt⟩

/-- Skip an import or variable declaration after its keyword. -/
def skipDeclaration (ts : List Token) :
    Except SourceError (Remaining ts) :=
  match ts with
  | [] => .ok (.all [])
  | t :: r =>
      if t.kind = .op "(" then do
        let inside ← skipClosed t r
        have hinside := inside.lt
        return ⟨inside.rest, by simp only [List.length_cons]; omega⟩
      else skipUntil endsDeclaration (t :: r)

/-- Skip a function after its keyword, up to the end of its body or, without
one, of its line.  `typeWord` tells that a brace here belongs to a type. -/
def skipFunction (typeWord : Bool) (ts : List Token) :
    Except SourceError (Remaining ts) :=
  match ts with
  | [] => .ok (.all [])
  | t :: r =>
      if t.kind = .op "\x7b" && !typeWord then do
        let body ← skipClosed t r
        have hbody := body.lt
        return ⟨body.rest, by simp only [List.length_cons]; omega⟩
      else if t.kind.opens then do
        let inside ← skipClosed t r
        have hinside := inside.lt
        let ⟨rest, hrest⟩ ← skipFunction false inside.rest
        return ⟨rest, by simp only [List.length_cons]; omega⟩
      else if t.kind.isSemi || t.kind = .eof then .ok (.all (t :: r))
      else do
        let ⟨rest, hrest⟩ ← skipFunction (isTypeWord t.kind) r
        return ⟨rest, by simp only [List.length_cons]; omega⟩
termination_by ts.length
decreasing_by all_goals simp only [List.length_cons]; omega

/-- The declarations up to the end of the file. -/
def declarations (src : SourceText) (ts : List Token) : Except SourceError (List Decl) :=
  have hsemis := length_dropSemis_le ts
  match hd : dropSemis ts with
  | [] => .ok []
  | t :: r =>
      have hlen : (t :: r).length ≤ ts.length := hd ▸ hsemis
      have hshort : r.length < ts.length := by simp only [List.length_cons] at hlen; omega
      match t.kind with
      | .eof => .ok []
      | .ident word =>
          if word = "import" || word = "var" then do
            let ⟨rest, hrest⟩ ← skipDeclaration r
            declarations src rest
          else if word = "func" then do
            let ⟨rest, hrest⟩ ← skipFunction false r
            declarations src rest
          else if word = "type" then do
            let all ← specs (fun _ => typeSpec src) r
            have hall := all.lt
            let more ← declarations src all.rest
            return .type ⟨src.docOf t, all.value.1, all.value.2⟩ :: more
          else if word = "const" then do
            let all ← specs (constSpec src) r
            have hall := all.lt
            let more ← declarations src all.rest
            return .const ⟨src.docOf t, all.value.1, all.value.2⟩ :: more
          else .error (unexpected "declaration" (t :: r))
      | _ => .error (unexpected "declaration" (t :: r))
termination_by ts.length
decreasing_by all_goals omega

/-- Read a whole file from its tokens. -/
def parseTokens (src : SourceText) (ts : List Token) : Except SourceError SourceFile := do
  let ts := dropSemis ts
  let keyword ←
    if nextKind ts = .ident "package" then expectIdent "package clause" ts
    else .error (unexpected "package clause" ts)
  let package ← expectIdent "package name" keyword.rest
  let decls ← declarations src package.rest
  return ⟨package.value, decls, src.groups⟩

/-- Read the declarations of a Go text. -/
def parseSource (text : String) : Except SourceError SourceFile := do
  let stream ← tokenize text
  parseTokens ⟨text.toList, stream.groups⟩ stream.tokens

end FieldRules
