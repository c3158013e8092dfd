/-
Tokens whose delimiters match.  Whatever skips a delimited part of a file passes over them as a
whole, so files of imports and functions are read without their insides.
-/
import FieldRules.Proofs.Source.Marks
import FieldRules.Proofs.Source.Steps

namespace FieldRules

/-- Delimiters that belong together. -/
def delimiters : List (String × String) := [("(", ")"), ("[", "]"), ("\x7b", "\x7d")]

/-- Every delimiter among these tokens has its other half among them. -/
inductive Balanced : List TokenKind → Prop
  | nil : Balanced []
  | single {k : TokenKind} (opens : k.opens = false) (closes : k.closes = false)
      (eof : k ≠ .eof) : Balanced [k]
  | append {ks ls : List TokenKind} (first : Balanced ks) (more : Balanced ls) :
      Balanced (ks ++ ls)
  | enclosed {left right : String} {ks : List TokenKind} (pair : (left, right) ∈ delimiters)
      (inside : Balanced ks) : Balanced (.op left :: ks ++ [.op right])

namespace Balanced

variable {k : TokenKind} {ks ls : List TokenKind}

theorem cons (h : Balanced ks) (opens : k.opens = false) (closes : k.closes = false)
    (eof : k ≠ .eof) : Balanced (k :: ks) := (single opens closes eof).append h

theorem ident (h : Balanced ks) (name : String) : Balanced (.ident name :: ks) :=
  h.cons rfl rfl (by simp)

theorem literal (h : Balanced ks) (kind : LiteralKind) (spelling : String) :
    Balanced (.literal kind spelling :: ks) := h.cons rfl rfl (by simp)

theorem semi (h : Balanced ks) (implicit : Bool) : Balanced (.semi implicit :: ks) :=
  h.cons rfl rfl (by simp)

theorem flatMap {α : Type} {f : α → List TokenKind} {as : List α}
    (h : ∀ a ∈ as, Balanced (f a)) : Balanced (as.flatMap f) := by
  induction as with
  | nil => exact .nil
  | cons a as ih =>
      obtain ⟨ha, has⟩ := List.forall_mem_cons.mp h
      exact .append ha (ih has)

/-- Commas between what is balanced. -/
theorem separated {kss : List (List TokenKind)} (h : ∀ ks ∈ kss, Balanced ks) :
    Balanced ([.op ","].intercalate kss) := by
  induction kss with
  | nil => exact .nil
  | cons ks rest ih =>
      obtain ⟨hks, hrest⟩ := List.forall_mem_cons.mp h
      cases rest with
      | nil => simpa using hks
      | cons ls rest =>
          rw [List.intercalate_cons_cons, List.append_assoc]
          exact hks.append ((ih hrest).cons rfl rfl (by simp))

theorem opens_of_pair {left right : String} (h : (left, right) ∈ delimiters) :
    (TokenKind.op left).opens = true ∧ (TokenKind.op right).closes = true := by
  simp only [delimiters, List.mem_cons, Prod.mk.injEq, List.not_mem_nil, or_false] at h
  rcases h with ⟨rfl, rfl⟩ | ⟨rfl, rfl⟩ | ⟨rfl, rfl⟩ <;> decide

end Balanced

/-! Skipping what is balanced. -/

theorem opens_eq_false_of_closes {k : TokenKind} (h : k.closes = true) : k.opens = false := by
  cases hopens : k.opens with
  | false => rfl
  | true =>
      rw [TokenKind.closes_eq_false_of_opens hopens] at h
      cases h

section Closing

variable {t : Token} {r : List Token}

theorem closing?_opens (h : t.kind.opens = true) (depth : Nat) :
    closing? depth (t :: r) = closing? (depth + 1) r := by
  rw [closing?.eq_def]
  simp [h]

theorem closing?_closes (h : t.kind.closes = true) (depth : Nat) :
    closing? (depth + 1) (t :: r) = closing? depth r := by
  rw [closing?.eq_def]
  simp [h, opens_eq_false_of_closes h]

theorem closing?_found (h : t.kind.closes = true) : closing? 0 (t :: r) = some (t, r) := by
  rw [closing?.eq_def]
  simp [h, opens_eq_false_of_closes h]

theorem closing?_pass (hopens : t.kind.opens = false) (hcloses : t.kind.closes = false)
    (heof : t.kind ≠ .eof) (depth : Nat) : closing? depth (t :: r) = closing? depth r := by
  rw [closing?.eq_def]
  simp [hopens, hcloses, heof]

end Closing

/-- What is balanced does not close what is open before it. -/
theorem closing?_balanced {ks : List TokenKind} (h : Balanced ks) {ts : List Token}
    (hts : ts.map Token.kind = ks) (depth : Nat) (rest : List Token) :
    closing? depth (ts ++ rest) = closing? depth rest := by
  induction h generalizing ts depth rest with
  | nil =>
      obtain rfl := List.map_eq_nil_iff.mp hts
      rfl
  | single hopens hcloses heof =>
      obtain ⟨t, rfl, rfl⟩ := List.map_eq_singleton_iff.mp hts
      exact closing?_pass hopens hcloses heof depth
  | append _ _ ih ih' =>
      obtain ⟨us, vs, rfl, hus, hvs⟩ := List.map_eq_append_iff.mp hts
      rw [List.append_assoc, ih hus, ih' hvs]
  | enclosed hpair _ ih =>
      obtain ⟨hopens, hcloses⟩ := Balanced.opens_of_pair hpair
      obtain ⟨t, us, rfl, ht, hus⟩ := List.map_eq_cons_iff.mp hts
      obtain ⟨inside, last, rfl, hinside, hlast⟩ := List.map_eq_append_iff.mp hus
      obtain ⟨u, rfl, hu⟩ := List.map_eq_singleton_iff.mp hlast
      rw [← ht] at hopens
      rw [← hu] at hcloses
      rw [List.cons_append, closing?_opens hopens, List.append_assoc, ih hinside]
      exact closing?_closes hcloses depth

theorem skipClosed_balanced (t : Token) {ts : List Token} {u : Token} (rest : List Token)
    (h : Balanced (ts.map Token.kind)) (hu : u.kind.closes = true) :
    ∃ lt, skipClosed t (ts ++ u :: rest) = .ok ⟨(), rest, u.span.stop, lt⟩ := by
  refine skipClosed_of_closing? t ?_
  rw [closing?_balanced h rfl]
  exact closing?_found hu

/-! Functions. -/

/-- Skipping a function over tokens of kinds `ks` leaves those of kinds `left`. -/
def SkipsFunction (typeWord : Bool) (ks left : List TokenKind) : Prop :=
  ∀ ts, ts.map Token.kind = ks →
    ∃ rest le, skipFunction typeWord ts = .ok ⟨rest, le⟩ ∧ rest.map Token.kind = left

namespace SkipsFunction

variable {k : TokenKind} {ks left inside : List TokenKind}

theorem pass (h : SkipsFunction (isTypeWord k) ks left) (typeWord : Bool)
    (hopens : k.opens = false) (hsemi : k.isSemi = false) (heof : k ≠ .eof) :
    SkipsFunction typeWord (k :: ks) left := by
  intro ts hts
  obtain ⟨t, r, rfl, rfl, hr⟩ := List.map_eq_cons_iff.mp hts
  obtain ⟨rest, le, hskip, hrest⟩ := h r hr
  have hbody : t.kind ≠ .op "\x7b" := by
    intro heq
    rw [heq] at hopens
    cases hopens
  refine ⟨rest, Nat.le_succ_of_le le, ?_, hrest⟩
  rw [skipFunction]
  simp [hbody, hopens, hsemi, heof, hskip]

theorem enclosed (h : SkipsFunction false ks left) (typeWord : Bool) (hinside : Balanced inside) :
    SkipsFunction typeWord (.op "(" :: (inside ++ .op ")" :: ks)) left := by
  intro ts hts
  obtain ⟨t, r, rfl, ht, hr⟩ := List.map_eq_cons_iff.mp hts
  obtain ⟨us, v, rfl, rfl, hv⟩ := List.map_eq_append_iff.mp hr
  obtain ⟨u, w, rfl, hu, hw⟩ := List.map_eq_cons_iff.mp hv
  obtain ⟨rest, le, hskip, hrest⟩ := h w hw
  obtain ⟨lt, hclosed⟩ := skipClosed_balanced t w hinside (by rw [hu]; decide)
  refine ⟨rest, Nat.le_succ_of_le (Nat.le_trans le (Nat.le_of_lt lt)), ?_, hrest⟩
  rw [skipFunction]
  simp [ht, hclosed, hskip, show (TokenKind.op "(").opens = true by decide]

theorem body (hinside : Balanced inside) (left : List TokenKind) :
    SkipsFunction false (.op "\x7b" :: (inside ++ .op "\x7d" :: left)) left := by
  intro ts hts
  obtain ⟨t, r, rfl, ht, hr⟩ := List.map_eq_cons_iff.mp hts
  obtain ⟨us, v, rfl, rfl, hv⟩ := List.map_eq_append_iff.mp hr
  obtain ⟨u, rest, rfl, hu, hrest⟩ := List.map_eq_cons_iff.mp hv
  obtain ⟨lt, hclosed⟩ := skipClosed_balanced t rest hinside (by rw [hu]; decide)
  refine ⟨rest, Nat.le_succ_of_le (Nat.le_of_lt lt), ?_, hrest⟩
  rw [skipFunction]
  simp [ht, hclosed]

end SkipsFunction

/-! Files without types and constants. -/

theorem kinds_dropSemis (ts : List Token) :
    (dropSemis ts).map Token.kind = (ts.map Token.kind).dropWhile TokenKind.isSemi := by
  rw [List.dropWhile_map]
  rfl

/-- Tokens of these kinds, after any semicolons, have no declaration of a type or a constant
among them. -/
def Silent (ks : List TokenKind) : Prop :=
  ∀ src ts, (ts.map Token.kind).dropWhile TokenKind.isSemi = ks.dropWhile TokenKind.isSemi →
    declarations src ts = .ok []

namespace Silent

variable {ks inside : List TokenKind}

theorem eof : Silent [.eof] := by
  intro src ts hts
  rw [← kinds_dropSemis] at hts
  obtain ⟨t, hdrop, ht⟩ := List.map_eq_singleton_iff.mp hts
  exact declarations_eof hdrop ht

theorem semi (h : Silent ks) (implicit : Bool) : Silent (.semi implicit :: ks) := h

theorem of_kinds (h : Silent ks) {src : SourceText} {ts : List Token}
    (hts : ts.map Token.kind = ks) : declarations src ts = .ok [] :=
  h src ts (by rw [hts])

/-- What is skipped after its keyword is not read. -/
theorem skip {word : String} {kinds : List TokenKind}
    (h : ∀ src r, r.map Token.kind = kinds → ∃ left,
      declarations src left = .ok [] ∧
        ((word = "import" ∧ ∃ le, skipDeclaration r = .ok ⟨left, le⟩) ∨
          word = "func" ∧ ∃ le, skipFunction false r = .ok ⟨left, le⟩)) :
    Silent (.ident word :: kinds) := by
  intro src ts hts
  rw [← kinds_dropSemis] at hts
  obtain ⟨t, r, hdrop, ht, hr⟩ := List.map_eq_cons_iff.mp hts
  obtain ⟨left, hleft, hskip⟩ := h src r hr
  rw [declarations]
  split
  · rename_i hnil
    cases hnil.symm.trans hdrop
  · rename_i u v hcons
    cases hcons.symm.trans hdrop
    rcases hskip with ⟨rfl, le, hskip⟩ | ⟨rfl, le, hskip⟩ <;> simp [ht, hskip, hleft]

/-- One import on its line. -/
theorem importLine (h : Silent ks) (spelling : String) :
    Silent (.ident "import" :: .literal .str spelling :: .semi true :: ks) := by
  refine skip fun src r hr => ?_
  obtain ⟨u, v, rfl, hu, hv⟩ := List.map_eq_cons_iff.mp hr
  obtain ⟨w, left, rfl, hw, -⟩ := List.map_eq_cons_iff.mp hv
  have hend : skipUntil endsDeclaration (w :: left) = .ok (.all (w :: left)) :=
    skipUntil_stop (by rw [hw]; rfl) (by rw [hw]; rfl)
  have hpass : skipUntil endsDeclaration (u :: w :: left) =
      .ok (Remaining.afterToken (.all (w :: left)) u) :=
    skipUntil_pass (by rw [hu]; rfl) (by rw [hu]; rfl) (by simp [hu]) hend
  refine ⟨w :: left, (h.semi true).of_kinds hv, .inl ⟨rfl, Nat.le_succ _, ?_⟩⟩
  rw [skipDeclaration, if_neg (by simp [hu]), hpass]
  rfl

/-- Imports in a block. -/
theorem importBlock (h : Silent ks) (hinside : Balanced inside) :
    Silent (.ident "import" :: .op "(" :: (inside ++ .op ")" :: ks)) := by
  refine skip fun src r hr => ?_
  obtain ⟨u, v, rfl, hu, hv⟩ := List.map_eq_cons_iff.mp hr
  obtain ⟨us, w, rfl, hus, hw⟩ := List.map_eq_append_iff.mp hv
  obtain ⟨x, left, rfl, hx, hleft⟩ := List.map_eq_cons_iff.mp hw
  obtain ⟨lt, hclosed⟩ := skipClosed_balanced u left (hus ▸ hinside) (by rw [hx]; decide)
  refine ⟨left, h.of_kinds hleft, .inl ⟨rfl, Nat.le_succ_of_le (Nat.le_of_lt lt), ?_⟩⟩
  rw [skipDeclaration, if_pos hu, hclosed]
  rfl

theorem function {left : List TokenKind} (h : Silent left) (hskips : SkipsFunction false ks left) :
    Silent (.ident "func" :: ks) := by
  refine skip fun src r hr => ?_
  obtain ⟨rest, le, hskip, hrest⟩ := hskips r hr
  exact ⟨rest, h.of_kinds hrest, .inr ⟨rfl, le, hskip⟩⟩

/-- A method without parameters that returns an error. -/
theorem method {receiver body : List TokenKind} (h : Silent ks) (name : String)
    (hreceiver : Balanced receiver) (hbody : Balanced body) :
    Silent (.ident "func" :: .op "(" :: (receiver ++ .op ")" :: .ident name :: .op "(" :: ([] ++
      .op ")" :: .ident "error" :: .op "\x7b" :: (body ++ .op "\x7d" :: ks)))) := by
  have hresult := (SkipsFunction.body hbody ks).pass (k := .ident "error") false rfl rfl (by simp)
  have hparams := (hresult.enclosed (isTypeWord (.ident name)) .nil).pass false rfl rfl (by simp)
  exact h.function (hparams.enclosed false hreceiver)

end Silent

/-- A file with a package clause and nothing else to read. -/
theorem parseTokens_silent {src : SourceText} {ts : List Token} {name : String}
    {ks : List TokenKind} (h : Silent ks) (hts : ts.map Token.kind = .ident "package" :: .ident name :: ks) :
    ∃ file, parseTokens src ts = .ok file ∧ file.package.name = name ∧ file.decls = [] := by
  obtain ⟨t, r, rfl, ht, hr⟩ := List.map_eq_cons_iff.mp hts
  obtain ⟨u, left, rfl, hu, hleft⟩ := List.map_eq_cons_iff.mp hr
  have hdrop : dropSemis (t :: u :: left) = t :: u :: left :=
    dropSemis_cons (by rw [ht]; rfl) (u :: left)
  refine ⟨⟨⟨name, u.span⟩, [], src.groups⟩, ?_, rfl, rfl⟩
  have hkeyword : expectIdent "package clause" (t :: u :: left) =
      .ok ⟨⟨"package", t.span⟩, u :: left, t.span.stop, by simp⟩ := by
    simp [expectIdent, ht]
  have hpackage : expectIdent "package name" (u :: left) =
      .ok ⟨⟨name, u.span⟩, left, u.span.stop, by simp⟩ := by
    simp [expectIdent, hu]
  unfold parseTokens
  dsimp only
  generalize dropSemis (t :: u :: left) = ds at hdrop ⊢
  subst hdrop
  rw [if_pos (show nextKind (t :: u :: left) = _ from ht), hkeyword]
  simp [hpackage, h.of_kinds hleft]

end FieldRules
