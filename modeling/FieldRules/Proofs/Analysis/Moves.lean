/-
What can be done to a session, in any order and any number of times: running phases, adding
diagnostics and taking the collected declarations.  A session that is treated so stays coherent:
it knows nothing that its text does not say, and forgets nothing that is not taken from it.
-/
import Mathlib.Data.List.Induction
import Mathlib.Tactic.Set
import FieldRules.Analysis.Session

namespace FieldRules

/-- One thing that is done to a session. -/
inductive Move where
  | parse
  | index
  | collect
  | lint (lints : List Lint)
  /-- Add a warning about no place in particular. -/
  | warn (phase message : String)
  | add (d : Diagnostic)
  /-- Take the collected declarations out of the session. -/
  | take

/-- The session after a move, and why the move fails, if it does. -/
def Move.run (s : Session) : Move → Outcome
  | parse => runParse s
  | index => runIndex s
  | collect => runCollect s
  | lint lints => runLints lints s
  | warn phase message => (s.report [⟨.warning, phase, message, none⟩], none)
  | add d => (s.report [d], none)
  | take =>
      match s.takeCollected with
      | (after, .ok _) => (after, none)
      | (after, .error e) => (after, some e)

def Move.fails (s : Session) (m : Move) : Bool := (m.run s).2.isSome

namespace Session

/-- The session after some moves, whether they fail or not. -/
def after (s : Session) (moves : List Move) : Session := moves.foldl (fun s m => (m.run s).1) s

/-- The moves with whether each of them failed. -/
def history (s : Session) : List Move → List (Move × Bool)
  | [] => []
  | m :: rest => (m, m.fails s) :: (m.run s).1.history rest

theorem after_append (s : Session) (earlier later : List Move) :
    s.after (earlier ++ later) = (s.after earlier).after later := List.foldl_append

theorem after_concat (s : Session) (moves : List Move) (m : Move) :
    s.after (moves ++ [m]) = (m.run (s.after moves)).1 := s.after_append moves [m]

theorem history_concat (s : Session) (moves : List Move) (m : Move) :
    s.history (moves ++ [m]) = s.history moves ++ [(m, m.fails (s.after moves))] := by
  induction moves generalizing s with
  | nil => rfl
  | cons first rest ih =>
      rw [List.cons_append, history, ih]
      rfl

end Session

/-! What a move can do. -/

/-- All that a move can do to a session: unless it reads, indexes, collects or takes something,
it only reports. -/
inductive Move.Effect (s : Session) : Move → Bool → Session → Prop
  | reported {m : Move} {failed : Bool} (ds : List Diagnostic)
      (collect : m = .collect → failed = true)
      (take : m = .take → failed = true ∧ s.collected = none) : Effect s m failed (s.report ds)
  | parsed {tree : SourceFile} (read : parseSource s.text = .ok tree) :
      Effect s .parse false { s with parsed := some tree }
  | indexed {tree : SourceFile} (known : s.parsed = some tree) :
      Effect s .index false
        { s.report (DeclIndex.ofFile s.settings.typeMarker tree).2 with
          index := some (DeclIndex.ofFile s.settings.typeMarker tree).1 }
  | collected {tree : SourceFile} {index : DeclIndex} {declarations : List Declaration}
      (known : s.parsed = some tree) (indexed : s.index = some index)
      (found : (FieldRules.collect ⟨s.settings, s.catalogue, index⟩ tree).result =
        .ok declarations) :
      Effect s .collect false
        { s.report (FieldRules.collect ⟨s.settings, s.catalogue, index⟩ tree).diagnostics with
          collected := some ⟨s.path, tree.package.name, declarations⟩ }
  | taken {file : AnnotatedFile} (known : s.collected = some file) :
      Effect s .take false { s with collected := none }

theorem Session.report_nil (s : Session) : s.report [] = s := by
  rw [report, List.append_nil]

/-- A move that fails on the spot leaves everything as it is. -/
theorem Move.Effect.refused {s : Session} {m : Move} (take : m = .take → s.collected = none) :
    Effect s m true s := by
  have h : Effect s m true (s.report []) := .reported [] (fun _ => rfl) fun h => ⟨rfl, take h⟩
  rwa [s.report_nil] at h

theorem Move.effect (s : Session) (m : Move) : m.Effect s (m.fails s) (m.run s).1 := by
  unfold fails
  cases m with
  | parse =>
      rw [run, runParse]
      cases hread : parseSource s.text with
      | ok tree => exact .parsed hread
      | error e => exact .refused nofun
  | index =>
      rw [run, runIndex]
      cases hparsed : s.parsed with
      | none => exact .refused nofun
      | some tree => exact .indexed hparsed
  | collect =>
      rw [run, runCollect]
      cases hparsed : s.parsed with
      | none => exact .refused nofun
      | some tree =>
          cases hindex : s.index with
          | none => exact .refused nofun
          | some index =>
              dsimp only
              split
              · exact .reported _ (fun _ => rfl) nofun
              · rename_i declarations hfound
                exact .collected hparsed hindex hfound
  | lint lints =>
      rw [run, runLints]
      cases hcollected : s.collected with
      | none => exact .refused nofun
      | some file =>
          dsimp only
          split
          · exact .reported _ nofun nofun
          · exact .reported _ nofun nofun
  | warn phase message => exact .reported _ nofun nofun
  | add d => exact .reported _ nofun nofun
  | take =>
      rw [run, Session.takeCollected]
      cases hcollected : s.collected with
      | none => exact .refused fun _ => hcollected
      | some file => exact .taken hcollected

/-! What is never lost. -/

namespace Session

/-- The one session goes on from the other: it is about the same file, its diagnostics are those
of the other and more, and it still has a tree and an index. -/
structure Continues (s s' : Session) : Prop where
  path : s'.path = s.path
  text : s'.text = s.text
  settings : s'.settings = s.settings
  catalogue : s'.catalogue = s.catalogue
  diagnostics : s.diagnostics <+: s'.diagnostics
  parsed : s.parsed.isSome → s'.parsed.isSome
  index : s.index.isSome → s'.index.isSome

theorem Continues.refl (s : Session) : s.Continues s :=
  ⟨rfl, rfl, rfl, rfl, List.prefix_rfl, id, id⟩

theorem Continues.trans {s s' s'' : Session} (h : s.Continues s') (h' : s'.Continues s'') :
    s.Continues s'' where
  path := h'.path.trans h.path
  text := h'.text.trans h.text
  settings := h'.settings.trans h.settings
  catalogue := h'.catalogue.trans h.catalogue
  diagnostics := h.diagnostics.trans h'.diagnostics
  parsed := h'.parsed ∘ h.parsed
  index := h'.index ∘ h.index

theorem continues_run (s : Session) (m : Move) : s.Continues (m.run s).1 := by
  have heffect := m.effect s
  generalize m.fails s = failed at heffect
  generalize (m.run s).1 = s' at heffect
  cases heffect with
  | reported ds => exact ⟨rfl, rfl, rfl, rfl, List.prefix_append _ _, id, id⟩
  | parsed => exact ⟨rfl, rfl, rfl, rfl, List.prefix_rfl, fun _ => rfl, id⟩
  | indexed => exact ⟨rfl, rfl, rfl, rfl, List.prefix_append _ _, id, fun _ => rfl⟩
  | collected => exact ⟨rfl, rfl, rfl, rfl, List.prefix_append _ _, id, id⟩
  | taken => exact ⟨rfl, rfl, rfl, rfl, List.prefix_rfl, id, id⟩

theorem continues_after (s : Session) (moves : List Move) : s.Continues (s.after moves) := by
  induction moves generalizing s with
  | nil => exact .refl s
  | cons m rest ih => exact (s.continues_run m).trans (ih (m.run s).1)

/-! What is known. -/

/-- All that is known is what the text says. -/
structure Grounded (s : Session) : Prop where
  parsed : ∀ tree, s.parsed = some tree → parseSource s.text = .ok tree
  index : ∀ index, s.index = some index → ∃ tree, s.parsed = some tree ∧
    index = (DeclIndex.ofFile s.settings.typeMarker tree).1
  collected : ∀ file, s.collected = some file → ∃ tree declarations,
    parseSource s.text = .ok tree ∧
      (collect ⟨s.settings, s.catalogue, (DeclIndex.ofFile s.settings.typeMarker tree).1⟩
        tree).result = .ok declarations ∧
      file = ⟨s.path, tree.package.name, declarations⟩

theorem grounded_start (path text : String) (settings : Settings) (catalogue : Catalogue) :
    (start path text settings catalogue).Grounded :=
  ⟨nofun, nofun, nofun⟩

theorem Grounded.run {s : Session} (h : s.Grounded) (m : Move) : (m.run s).1.Grounded := by
  have heffect := m.effect s
  generalize m.fails s = failed at heffect
  generalize (m.run s).1 = s' at heffect
  cases heffect with
  | reported ds => exact ⟨h.parsed, h.index, h.collected⟩
  | parsed hread =>
      refine ⟨fun tree htree => ?_, fun index hindex => ?_, h.collected⟩
      · cases htree
        exact hread
      · -- the index was made from a tree of the same text, so the new tree is that tree
        obtain ⟨tree, hknown, rfl⟩ := h.index index hindex
        cases hread.symm.trans (h.parsed tree hknown)
        exact ⟨_, rfl, rfl⟩
  | indexed hknown =>
      refine ⟨h.parsed, fun index hindex => ?_, h.collected⟩
      cases hindex
      exact ⟨_, hknown, rfl⟩
  | collected hknown hindex hfound =>
      refine ⟨h.parsed, h.index, fun file hfile => ?_⟩
      cases hfile
      obtain ⟨tree, htree, rfl⟩ := h.index _ hindex
      cases hknown.symm.trans htree
      exact ⟨_, _, h.parsed _ hknown, hfound, rfl⟩
  | taken hknown => exact ⟨h.parsed, h.index, nofun⟩

theorem Grounded.after {s : Session} (h : s.Grounded) (moves : List Move) :
    (s.after moves).Grounded := by
  induction moves generalizing s with
  | nil => exact h
  | cons m rest ih => exact ih (h.run m)

/-- The session after reading, indexing and collecting once. -/
def analyzed (s : Session) : Session := s.after [.parse, .index, .collect]

section Analyzed

variable {path text : String} {settings : Settings} {catalogue : Catalogue} {tree : SourceFile}

theorem parsed_analyzed (h : parseSource text = .ok tree) :
    (start path text settings catalogue).analyzed.parsed = some tree := by
  simp only [analyzed, after, List.foldl_cons, List.foldl_nil, Move.run, runParse, start, h,
    runIndex, runCollect, report]
  split <;> rfl

theorem index_analyzed (h : parseSource text = .ok tree) :
    (start path text settings catalogue).analyzed.index =
      some (DeclIndex.ofFile settings.typeMarker tree).1 := by
  simp only [analyzed, after, List.foldl_cons, List.foldl_nil, Move.run, runParse, start, h,
    runIndex, runCollect, report]
  split <;> rfl

theorem collected_analyzed {declarations : List Declaration} (h : parseSource text = .ok tree)
    (hfound : (collect ⟨settings, catalogue, (DeclIndex.ofFile settings.typeMarker tree).1⟩
      tree).result = .ok declarations) :
    (start path text settings catalogue).analyzed.collected =
      some ⟨path, tree.package.name, declarations⟩ := by
  simp only [analyzed, after, List.foldl_cons, List.foldl_nil, Move.run, runParse, start, h,
    runIndex, runCollect, report, hfound]

end Analyzed

end Session

/-! What is taken. -/

/-- Every collection that went well was followed by one that took it away. -/
def Spent (history : List (Move × Bool)) : Prop :=
  ∀ earlier later, history = earlier ++ (.collect, false) :: later → (.take, false) ∈ later

theorem spent_nil : Spent [] := by
  intro earlier later h
  simp at h

theorem spent_concat {history : List (Move × Bool)} {last : Move × Bool} :
    Spent (history ++ [last]) ↔
      last = (.take, false) ∨ last ≠ (.collect, false) ∧ Spent history := by
  constructor
  · intro h
    refine or_iff_not_imp_left.mpr fun htake => ⟨?_, fun earlier later hsplit => ?_⟩
    · rintro rfl
      cases h history [] rfl
    · have hmem := h earlier (later ++ [last]) (by rw [hsplit, List.append_assoc]; rfl)
      simpa [Ne.symm htake] using hmem
  · intro h earlier later hsplit
    rcases List.eq_nil_or_concat later with rfl | ⟨front, final, rfl⟩
    · obtain ⟨-, hlast⟩ := List.append_inj' hsplit rfl
      cases hlast
      simp at h
    · rw [List.concat_eq_append, ← List.cons_append, ← List.append_assoc] at hsplit
      obtain ⟨hhistory, hlast⟩ := List.append_inj' hsplit rfl
      cases hlast
      rw [List.concat_eq_append]
      rcases h with rfl | ⟨-, hspent⟩
      · exact List.mem_append_right front (List.mem_singleton_self _)
      · exact List.mem_append_left _ (hspent earlier front hhistory)

namespace Session

theorem collected_run_eq_none_iff (s : Session) (m : Move) :
    (m.run s).1.collected = none ↔
      (m, m.fails s) = (.take, false) ∨
        (m, m.fails s) ≠ (.collect, false) ∧ s.collected = none := by
  have heffect := m.effect s
  generalize m.fails s = failed at heffect
  generalize (m.run s).1 = s' at heffect
  cases heffect with
  | reported ds hcollect htake =>
      have htaken : (m, failed) ≠ (.take, false) := by
        rintro ⟨⟩
        cases (htake rfl).1
      have hcollected : (m, failed) ≠ (.collect, false) := by
        rintro ⟨⟩
        cases hcollect rfl
      simp [htaken, hcollected, report]
  | parsed => simp
  | indexed => simp [report]
  | collected => simp
  | taken => simp

/-- Declarations are there unless all that were collected are taken. -/
theorem collected_after_eq_none_iff {s : Session} (h : s.collected = none) (moves : List Move) :
    (s.after moves).collected = none ↔ Spent (s.history moves) := by
  induction moves using List.reverseRecOn with
  | nil => exact iff_of_true h spent_nil
  | append_singleton moves m ih =>
      rw [after_concat, history_concat, spent_concat, collected_run_eq_none_iff, ih]

theorem fails_take_iff (s : Session) : Move.take.fails s = true ↔ s.collected = none := by
  unfold Move.fails Move.run takeCollected
  cases s.collected <;> simp

/-! The whole. -/

/-- What holds of a session after some moves, whichever they are. -/
structure Coherent (s : Session) (moves : List Move) : Prop where
  /-- Diagnostics are only added, at the end. -/
  appended : ∀ earlier later, moves = earlier ++ later →
    (s.after earlier).diagnostics <+: (s.after moves).diagnostics
  parsedStays : ∀ earlier later, moves = earlier ++ later →
    (s.after earlier).parsed.isSome → (s.after moves).parsed.isSome
  indexStays : ∀ earlier later, moves = earlier ++ later →
    (s.after earlier).index.isSome → (s.after moves).index.isSome
  parsedOfIndex : (s.after moves).index.isSome → (s.after moves).parsed.isSome
  /-- What is known is what one pass over the file finds. -/
  parsed : ∀ tree, (s.after moves).parsed = some tree → s.analyzed.parsed = some tree
  index : ∀ index, (s.after moves).index = some index → s.analyzed.index = some index
  collected : ∀ file, (s.after moves).collected = some file → s.analyzed.collected = some file
  /-- A move that fails changes nothing of it. -/
  failed : ∀ m : Move, m.fails (s.after moves) = true →
    (s.after (moves ++ [m])).parsed = (s.after moves).parsed ∧
      (s.after (moves ++ [m])).index = (s.after moves).index ∧
      (s.after (moves ++ [m])).collected = (s.after moves).collected
  /-- There is nothing to take exactly if nothing was collected since it was taken last. -/
  taken : Move.take.fails (s.after moves) = true ↔ Spent (s.history moves)

theorem of_fails {s : Session} {m : Move} (h : m.fails s = true) :
    (m.run s).1.parsed = s.parsed ∧ (m.run s).1.index = s.index ∧
      (m.run s).1.collected = s.collected := by
  have heffect := m.effect s
  rw [h] at heffect
  generalize (m.run s).1 = s' at heffect
  cases heffect with
  | reported ds => exact ⟨rfl, rfl, rfl⟩

/-- A session is coherent whatever is done to it. -/
theorem coherent_after (path text : String) (settings : Settings) (catalogue : Catalogue)
    (moves : List Move) : (start path text settings catalogue).Coherent moves := by
  set s := start path text settings catalogue
  have hgrounded : (s.after moves).Grounded :=
    (grounded_start path text settings catalogue).after moves
  obtain ⟨hpath, htext, hsettings, hcatalogue, -, -, -⟩ := s.continues_after moves
  have hread : ∀ tree, parseSource (s.after moves).text = .ok tree →
      parseSource text = .ok tree := fun tree htree => by rwa [htext] at htree
  have hlater : ∀ earlier later, moves = earlier ++ later →
      (s.after earlier).Continues (s.after moves) := by
    rintro earlier later rfl
    rw [after_append]
    exact (s.after earlier).continues_after later
  constructor
  case appended => exact fun earlier later h => (hlater earlier later h).diagnostics
  case parsedStays => exact fun earlier later h => (hlater earlier later h).parsed
  case indexStays => exact fun earlier later h => (hlater earlier later h).index
  case parsedOfIndex =>
    intro h
    obtain ⟨index, hindex⟩ := Option.isSome_iff_exists.mp h
    obtain ⟨tree, htree, -⟩ := hgrounded.index index hindex
    exact Option.isSome_iff_exists.mpr ⟨tree, htree⟩
  case parsed =>
    intro tree htree
    exact parsed_analyzed (hread tree (hgrounded.parsed tree htree))
  case index =>
    intro index hindex
    obtain ⟨tree, htree, rfl⟩ := hgrounded.index index hindex
    rw [hsettings]
    exact index_analyzed (hread tree (hgrounded.parsed tree htree))
  case collected =>
    intro file hfile
    obtain ⟨tree, declarations, htree, hfound, rfl⟩ := hgrounded.collected file hfile
    rw [hsettings, hcatalogue] at hfound
    rw [hpath]
    exact collected_analyzed (hread tree htree) hfound
  case failed =>
    intro m hfails
    rw [after_concat]
    exact of_fails hfails
  case taken =>
    rw [fails_take_iff]
    exact collected_after_eq_none_iff rfl moves

end Session

end FieldRules
