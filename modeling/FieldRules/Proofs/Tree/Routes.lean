/-
Where paths lead.  A path is followed through directories and looks at nothing else, so it leads
to the same place in every file system that has these directories.
-/
import FieldRules.Proofs.Outcome
import FieldRules.Proofs.Tree.Entries
import FieldRules.Proofs.Tree.Texts
import FieldRules.Tree.Access
import Mathlib.Data.List.Induction

namespace FieldRules

/-- The place after one part of a path. -/
def PathPart.advance (place : List String) : PathPart → List String
  | root => []
  | here => place
  | up => place.dropLast
  | name s => place ++ [s]

namespace FileSystem

open FieldRules.Path (isIdle part? IsName Same segments)
open FieldRules.Forest (entryAt_eq_folder_iff entryAt_eq_file_iff isSome_entryAt)

/-- The place that a path describes, whether or not something is there. -/
def destination (f : FileSystem) (path : String) : List String :=
  (Path.parts path).foldl PathPart.advance f.here

/-- A path that can be followed in some file system. -/
structure Followable (path : String) : Prop where
  noNul : '\x00' ∉ path.toList
  notEmpty : path.toList ≠ []
  notTooLong : isPathTooLong path = false

/-- Where a path starts. -/
def startOf (f : FileSystem) (path : String) : List String :=
  if path.toList.head? = some '/' then [] else f.here

/-- The steps that one segment can make from a directory. -/
inductive Leads (f : FileSystem) (place : List String) (segment : List Char) : List String → Prop
  | idle (h : isIdle segment = true) : Leads f place segment place
  | up (h : segment = ['.', '.']) : Leads f place segment place.dropLast
  | name {name : String} (h : part? segment = some (.name name))
      (short : name.utf8ByteSize ≤ nameLimit)
      (there : (f.root.entryAt (place ++ [name])).isSome) : Leads f place segment (place ++ [name])

/-- A file system with the working directory of another and at least its directories. -/
structure Keeps (f g : FileSystem) : Prop where
  here : g.here = f.here
  folder : ∀ place, f.root.entryAt place = some .folder → g.root.entryAt place = some .folder

/-! One segment. -/

section Segment

variable {f g : FileSystem} {place next start : List String} {segment : List Char}
  {segs : List (List Char)} {inside : Forest} {name : String}

theorem at?_concat (h : f.root.at? place = some (.folder inside)) (name : String) :
    f.root.at? (place ++ [name]) = inside.child? name := by
  rw [Forest.at?_append, h]
  dsimp only
  rw [Forest.at?_cons]
  cases inside.child? name with
  | none => rfl
  | some n => cases n <;> rfl

theorem folderAt_eq_ok_iff :
    f.folderAt place = .ok inside ↔ f.root.at? place = some (.folder inside) := by
  rw [folderAt]
  cases f.root.at? place with
  | none => simp
  | some n => cases n <;> simp

theorem isDots_eq_false_of_name (h : part? segment = some (.name name)) :
    segment ≠ ['.', '.'] ∧ isDots segment = false := by
  have hidle : isIdle segment = false := by
    rw [← Bool.not_eq_true, ← Path.part?_eq_none_iff, h]
    simp
  have hup : segment ≠ ['.', '.'] := by
    rintro rfl
    cases h
  exact ⟨hup, by simpa [isDots, isIdle, hup] using hidle⟩

theorem part?_of_isDots_eq_false (h : isDots segment = false) :
    part? segment = some (.name (String.ofList segment)) := by
  have hnot : ¬(segment = [] ∨ segment = ['.']) ∧ segment ≠ ['.', '.'] := by
    simpa [isDots, and_assoc] using h
  simp [part?, hnot.1, hnot.2]

/-- Following a name in a directory. -/
theorem follow_name (hplace : f.root.at? place = some (.folder inside))
    (h : part? segment = some (.name name)) (short : name.utf8ByteSize ≤ nameLimit) :
    f.follow place segment =
      if (f.root.entryAt (place ++ [name])).isSome then .ok (place ++ [name])
      else .error .notFound := by
  obtain ⟨hup, hdots⟩ := isDots_eq_false_of_name h
  have hlook : lookUp inside name = .ok (inside.child? name) := if_neg (Nat.not_lt.mpr short)
  simp only [follow, folderAt_eq_ok_iff.mpr hplace, ok_bind, hup, hdots, ↓reduceIte,
    Bool.false_eq_true, ← Path.eq_name_of_part? h, hlook, isSome_entryAt, at?_concat hplace]
  rfl

/-- Following a segment that is not the name of an entry. -/
theorem follow_dots (hplace : f.root.at? place = some (.folder inside)) :
    (segment = ['.', '.'] → f.follow place segment = .ok place.dropLast) ∧
      (isIdle segment = true → f.follow place segment = .ok place) := by
  constructor
  · intro hup
    simp [follow, folderAt_eq_ok_iff.mpr hplace, hup]
  · intro hidle
    have hnot : segment ≠ ['.', '.'] := by
      rintro rfl
      cases hidle
    have hdots : isDots segment = true := by simp_all [isDots, isIdle]
    simp [follow, folderAt_eq_ok_iff.mpr hplace, hnot, hdots]

theorem follow_eq_ok_iff :
    f.follow place segment = .ok next ↔
      f.root.entryAt place = some .folder ∧ f.Leads place segment next := by
  rw [entryAt_eq_folder_iff]
  constructor
  · intro h
    have hplace : ∃ inside, f.folderAt place = .ok inside := by
      cases hfolder : f.folderAt place with
      | ok inside => exact ⟨inside, rfl⟩
      | error e => simp [follow, hfolder] at h
    obtain ⟨inside, hinside⟩ := hplace
    rw [folderAt_eq_ok_iff] at hinside
    refine ⟨⟨inside, hinside⟩, ?_⟩
    by_cases hidle : isIdle segment = true
    · rw [(follow_dots hinside).2 hidle] at h
      exact Except.ok.inj h ▸ .idle hidle
    by_cases hup : segment = ['.', '.']
    · rw [(follow_dots hinside).1 hup] at h
      exact Except.ok.inj h ▸ .up hup
    have hdots : isDots segment = false := by simp_all [isDots, isIdle]
    have hpart := part?_of_isDots_eq_false hdots
    by_cases hshort : (String.ofList segment).utf8ByteSize ≤ nameLimit
    · rw [follow_name hinside hpart hshort] at h
      split at h
      · rename_i there
        exact Except.ok.inj h ▸ .name hpart hshort there
      · cases h
    · have hlook : lookUp inside (String.ofList segment) = .error .nameTooLong :=
        if_pos (Nat.lt_of_not_le hshort)
      simp [follow, folderAt_eq_ok_iff.mpr hinside, hup, hdots, hlook] at h
  · rintro ⟨⟨inside, hinside⟩, hleads⟩
    cases hleads with
    | idle h => exact (follow_dots hinside).2 h
    | up h => exact (follow_dots hinside).1 h
    | name h short there => rw [follow_name hinside h short, if_pos there]

end Segment

/-! A whole route. -/

section Route

variable {f g : FileSystem} {place start : List String} {segment : List Char}
  {segs : List (List Char)}

theorem locate_concat (start : List String) (segs : List (List Char)) (segment : List Char) :
    f.locate ⟨start, segs ++ [segment]⟩ =
      f.locate ⟨start, segs⟩ >>= fun place => f.follow place segment := by
  rw [locate, List.foldlM_append]
  refine bind_congr fun place => ?_
  simp only [List.foldlM_cons, List.foldlM_nil, bind_pure]

/-- The last step of a route. -/
theorem locate_concat_eq_ok_iff :
    f.locate ⟨start, segs ++ [segment]⟩ = .ok place ↔
      ∃ dir, f.locate ⟨start, segs⟩ = .ok dir ∧ f.root.entryAt dir = some .folder ∧
        f.Leads dir segment place := by
  rw [locate_concat]
  cases f.locate ⟨start, segs⟩ with
  | error e => simp
  | ok dir => simp [follow_eq_ok_iff]

/-- A route leads to where its parts describe. -/
theorem eq_foldl_of_locate (h : f.locate ⟨start, segs⟩ = .ok place) :
    place = (segs.filterMap part?).foldl PathPart.advance start := by
  induction segs using List.reverseRecOn generalizing place with
  | nil => exact (Except.ok.inj h).symm
  | append_singleton segs segment ih =>
      obtain ⟨dir, hdir, -, hleads⟩ := locate_concat_eq_ok_iff.mp h
      rw [List.filterMap_append, List.foldl_append, ← ih hdir]
      cases hleads with
      | idle hidle => simp [Path.part?_eq_none_iff.mpr hidle]
      | up hup => simp [hup, part?, PathPart.advance]
      | name hpart short there => simp [hpart, PathPart.advance]

/-- Where a route has its directories it leads to the same place. -/
theorem Keeps.locate (hk : Keeps f g) (h : f.locate ⟨start, segs⟩ = .ok place)
    (there : (g.root.entryAt place).isSome) : g.locate ⟨start, segs⟩ = .ok place := by
  induction segs using List.reverseRecOn generalizing place with
  | nil => exact h
  | append_singleton segs segment ih =>
      obtain ⟨dir, hdir, hfolder, hleads⟩ := locate_concat_eq_ok_iff.mp h
      have hdir' := hk.folder dir hfolder
      refine locate_concat_eq_ok_iff.mpr ⟨dir, ih hdir (by simp [hdir']), hdir', ?_⟩
      cases hleads with
      | idle hidle => exact .idle hidle
      | up hup => exact .up hup
      | name hpart short _ => exact .name hpart short there

/-- Segments without meaning make no difference on the way to a directory. -/
theorem locate_filter_iff (hplace : f.root.entryAt place = some .folder) :
    f.locate ⟨start, segs.filter fun s => !isIdle s⟩ = .ok place ↔
      f.locate ⟨start, segs⟩ = .ok place := by
  induction segs using List.reverseRecOn generalizing place with
  | nil => rfl
  | append_singleton segs segment ih =>
      cases hidle : isIdle segment with
      | true =>
          have hfilter : [segment].filter (fun s => !isIdle s) = [] := by simp [hidle]
          rw [List.filter_append, hfilter, List.append_nil, ih hplace, locate_concat_eq_ok_iff]
          constructor
          · exact fun h => ⟨place, h, hplace, .idle hidle⟩
          · rintro ⟨dir, hdir, -, hleads⟩
            cases hleads with
            | idle _ => exact hdir
            | up h => simp [h, isIdle] at hidle
            | name h _ _ =>
                rw [Path.part?_eq_none_iff.mpr hidle] at h
                cases h
      | false =>
          have hfilter : [segment].filter (fun s => !isIdle s) = [segment] := by simp [hidle]
          rw [List.filter_append, hfilter, locate_concat_eq_ok_iff, locate_concat_eq_ok_iff]
          exact exists_congr fun dir => by
            constructor
            · rintro ⟨hdir, hfolder, hleads⟩
              exact ⟨(ih hfolder).mp hdir, hfolder, hleads⟩
            · rintro ⟨hdir, hfolder, hleads⟩
              exact ⟨(ih hfolder).mpr hdir, hfolder, hleads⟩

theorem locate_kept_iff {cs : List Char} (hplace : f.root.entryAt place = some .folder) :
    f.locate ⟨start, Path.kept cs⟩ = .ok place ↔ f.locate ⟨start, segments cs⟩ = .ok place :=
  locate_filter_iff hplace

end Route

/-! A path. -/

section Followed

variable {f g : FileSystem} {path other : String} {place : List String} {n : Node}

theorem route_eq_ok (h : Followable path) :
    f.route path = .ok ⟨f.startOf path, segments path.toList⟩ := by
  simp [route, h.noNul, h.notEmpty, h.notTooLong, startOf]

theorem followable_of_route {r : Route} (h : f.route path = .ok r) : Followable path := by
  rw [route] at h
  split at h
  · cases h
  · rename_i hnul
    split at h
    · cases h
    · rename_i hempty
      split at h
      · cases h
      · rename_i hlong
        exact ⟨hnul, hempty, by simpa using hlong⟩

/-- A path that cannot be followed fails everywhere in the same way. -/
theorem node_of_not_followable (f g : FileSystem) (h : ¬Followable path) :
    f.node path = g.node path := by
  have hroute : ∃ e, ∀ k : FileSystem, k.route path = .error e := by
    by_cases hnul : '\x00' ∈ path.toList
    · exact ⟨.badName, fun k => if_pos hnul⟩
    by_cases hempty : path.toList = []
    · exact ⟨.notFound, fun k => by rw [route, if_neg hnul, if_pos hempty]⟩
    cases hlong : isPathTooLong path with
    | true => exact ⟨.nameTooLong, fun k => by rw [route, if_neg hnul, if_neg hempty, if_pos hlong]⟩
    | false => exact absurd ⟨hnul, hempty, hlong⟩ h
  obtain ⟨e, he⟩ := hroute
  rw [node, node, FileSystem.place, FileSystem.place, he f, he g]
  rfl

theorem node_of_isPathTooLong (f g : FileSystem) (h : isPathTooLong path = true) :
    f.node path = g.node path := by
  refine node_of_not_followable f g fun hfollow => ?_
  rw [hfollow.notTooLong] at h
  cases h

theorem place_eq_ok_iff :
    f.place path = .ok place ↔
      Followable path ∧ f.locate ⟨f.startOf path, segments path.toList⟩ = .ok place := by
  rw [FileSystem.place]
  constructor
  · intro h
    obtain ⟨r, hroute, h⟩ := bind_eq_ok.mp h
    have hfollow := followable_of_route hroute
    obtain rfl := Except.ok.inj ((route_eq_ok hfollow).symm.trans hroute)
    exact ⟨hfollow, h⟩
  · rintro ⟨hfollow, h⟩
    rw [route_eq_ok hfollow, ok_bind, h]

theorem node_eq_ok_iff :
    f.node path = .ok n ↔ ∃ place, f.place path = .ok place ∧ f.root.at? place = some n := by
  rw [node]
  cases f.place path with
  | error e => simp
  | ok place => cases hat : f.root.at? place <;> simp [hat]

theorem followable_of_node (h : f.node path = .ok n) : Followable path := by
  obtain ⟨place, hplace, -⟩ := node_eq_ok_iff.mp h
  exact (place_eq_ok_iff.mp hplace).1

theorem notTooLong_of_node (h : f.node path = .ok n) : isPathTooLong path = false :=
  (followable_of_node h).notTooLong

theorem ne_empty_of_node (h : f.node path = .ok n) : path ≠ "" :=
  mt String.toList_eq_nil_iff.mpr (followable_of_node h).notEmpty

theorem destination_eq (f : FileSystem) (path : String) :
    f.destination path =
      ((segments path.toList).filterMap part?).foldl PathPart.advance (f.startOf path) := by
  rw [destination, Path.parts_eq, List.foldl_append, Path.filterMap_kept, startOf, Path.lead]
  split
  · rfl
  · split <;> rfl

/-- A path leads to the place that it describes. -/
theorem eq_destination_of_place (h : f.place path = .ok place) : place = f.destination path := by
  rw [destination_eq]
  exact eq_foldl_of_locate (place_eq_ok_iff.mp h).2

theorem at?_destination_of_node (h : f.node path = .ok n) :
    f.root.at? (f.destination path) = some n := by
  obtain ⟨place, hplace, hat⟩ := node_eq_ok_iff.mp h
  rwa [← eq_destination_of_place hplace]

theorem Keeps.startOf_eq (hk : Keeps f g) (path : String) : g.startOf path = f.startOf path := by
  rw [startOf, startOf, hk.here]

theorem Keeps.destination_eq (hk : Keeps f g) (path : String) :
    g.destination path = f.destination path := by
  rw [destination, destination, hk.here]

theorem Keeps.place_eq (hk : Keeps f g) (h : f.place path = .ok place)
    (there : (g.root.entryAt place).isSome) : g.place path = .ok place := by
  obtain ⟨hfollow, hlocate⟩ := place_eq_ok_iff.mp h
  exact place_eq_ok_iff.mpr ⟨hfollow, hk.startOf_eq path ▸ hk.locate hlocate there⟩

/-- A path leads to what it led to before, if that is still there. -/
theorem Keeps.node (hk : Keeps f g) (h : f.node path = .ok n) {n' : Node}
    (hat : g.root.at? (f.destination path) = some n') : g.node path = .ok n' := by
  obtain ⟨place, hplace, -⟩ := node_eq_ok_iff.mp h
  rw [← eq_destination_of_place hplace] at hat
  exact node_eq_ok_iff.mpr ⟨place, hk.place_eq hplace (by simp [isSome_entryAt, hat]), hat⟩

theorem Keeps.isFolder (hk : Keeps f g) {inside : Forest} (h : f.node path = .ok (.folder inside)) :
    ∃ inside', g.node path = .ok (.folder inside') := by
  have hat := at?_destination_of_node h
  obtain ⟨inside', hat'⟩ :=
    entryAt_eq_folder_iff.mp (hk.folder _ (entryAt_eq_folder_iff.mpr ⟨inside, hat⟩))
  exact ⟨inside', hk.node h hat'⟩

end Followed

end FileSystem

end FieldRules
