/-
Which files of a file system are sources and which are companions.
-/
import FieldRules.Settings.Companion
import FieldRules.Tree.Access

namespace FieldRules

/-- The messages of a failure, the outermost first. -/
abbrev Causes := List String

/-- A file by the path it was found under. -/
structure Found where
  path : String
  content : Content
deriving DecidableEq, Repr

/-- The text of a file, if it is one that can be read by its path. -/
def Found.text? (c : Found) : Option String :=
  if FileSystem.isPathTooLong c.path then none else c.content.text?

namespace Settings

/-- Whether a directory is not entered. -/
def skips (s : Settings) (name : String) : Bool :=
  name.toList.head? = some '.' || name ∈ s.skipDirs

/-- Whether a file begins with the header of companions.  One without a text does
not. -/
def marksGenerated (s : Settings) (c : Found) : Bool := c.text?.any s.hasHeader

end Settings

/-- The files below a directory that have the extension of sources, in the order of
the tree.  `dir` is the path of the directory. -/
def Forest.candidates (s : Settings) (dir : String) : Forest → List Found
  | empty => []
  | file name content rest =>
      let path := Path.join dir name
      (if s.isSource path then [⟨path, content⟩] else []) ++ rest.candidates s dir
  | folder name inside rest =>
      (if s.skips name then [] else inside.candidates s (Path.join dir name)) ++
        rest.candidates s dir

/-- The path of the first directory that cannot be entered on the way through the tree,
because its path is too long. -/
def Forest.barred? (s : Settings) (dir : String) : Forest → Option String
  | empty => none
  | file _ _ rest => rest.barred? s dir
  | folder name inside rest =>
      let path := Path.join dir name
      if s.skips name then rest.barred? s dir
      else if FileSystem.isPathTooLong path then some path
      else (inside.barred? s path).or (rest.barred? s dir)

namespace Workspace

/-- The failure of going through a root at one of the paths on the way. -/
def walkFailure (root path : String) (e : AccessError) : Causes :=
  [s!"failed to walk '{root}'", s!"IO error for operation on {path}: " ++ e.message, e.message]

/-- The files at or below a root that have the extension of sources. -/
def candidates (s : Settings) (f : FileSystem) (root : String) : Except Causes (List Found) :=
  match f.node root with
  | .ok (.file content) => .ok (if s.isSource root then [⟨root, content⟩] else [])
  | .ok (.folder inside) =>
      match inside.barred? s root with
      | some path => .error (walkFailure root path .nameTooLong)
      | none => .ok (inside.candidates s root)
  | .error e => .error (walkFailure root root e)

/-- The sources: all candidates that are not generated. -/
def sources (s : Settings) (f : FileSystem) (root : String) : Except Causes (List Found) :=
  (candidates s f root).map fun found => found.filter fun c => !s.marksGenerated c

/-- The companions: generated files that are named like one. -/
def companions (s : Settings) (f : FileSystem) (root : String) : Except Causes (List Found) :=
  (candidates s f root).map fun found =>
    found.filter fun c => s.isGeneratedName c.path && s.marksGenerated c

/-- A path as reports show it: seen from the root, or from its directory if the root
is a file. -/
def displayPath (f : FileSystem) (root path : String) : String :=
  let base := if f.isFile root then Path.directory root else root
  (Path.relativeTo? base path).getD path

end Workspace

end FieldRules
