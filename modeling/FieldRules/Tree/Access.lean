/-
Reading and changing a file system by path texts, and how that can fail.  A path
without a slash in front starts in the working directory.
-/
import FieldRules.Tree.FileSystem
import FieldRules.Tree.Path

namespace FieldRules

inductive AccessError where
  | notFound
  | taken
  | notFolder
  | isFolder
  | nameTooLong
  | notText
  | badName
deriving DecidableEq, Repr

def AccessError.message : AccessError → String
  | notFound => "No such file or directory (os error 2)"
  | taken => "File exists (os error 17)"
  | notFolder => "Not a directory (os error 20)"
  | isFolder => "Is a directory (os error 21)"
  | nameTooLong => "File name too long (os error 36)"
  | notText => "stream did not contain valid UTF-8"
  | badName => "file name contained an unexpected NUL byte"

/-- A path as the place where it starts and the segments to follow from there. -/
structure Route where
  start : List String
  segments : List (List Char)
deriving DecidableEq, Repr

namespace FileSystem

/-- A name has at most this many bytes. -/
def nameLimit : Nat := 255

/-- A whole path has fewer bytes than this. -/
def pathLimit : Nat := 4096

/-- Whether a path can be followed at all, however short its names are. -/
def isPathTooLong (path : String) : Bool := pathLimit ≤ path.utf8ByteSize

/-- A segment that is not the name of an entry. -/
def isDots (segment : List Char) : Bool :=
  segment = [] || segment = ['.'] || segment = ['.', '.']

/-- Look up an entry of a directory. -/
def lookUp (inside : Forest) (name : String) : Except AccessError (Option Node) :=
  if nameLimit < name.utf8ByteSize then .error .nameTooLong else .ok (inside.child? name)

/-- The entries of the directory at a place. -/
def folderAt (f : FileSystem) (place : List String) : Except AccessError Forest :=
  match f.root.at? place with
  | some (.folder inside) => .ok inside
  | some (.file _) => .error .notFolder
  | none => .error .notFound

/-- Follow one segment of a path.  Even an empty one needs a directory to start
from.  Above the root is the root. -/
def follow (f : FileSystem) (place : List String) (segment : List Char) :
    Except AccessError (List String) := do
  let inside ← f.folderAt place
  if segment = ['.', '.'] then return place.dropLast
  else if isDots segment then return place
  else
    let name := String.ofList segment
    if (← lookUp inside name).isSome then return place ++ [name] else .error .notFound

/-- The place that a route leads to. -/
def locate (f : FileSystem) (r : Route) : Except AccessError (List String) :=
  r.segments.foldlM f.follow r.start

/-- The route that a path describes. -/
def route (f : FileSystem) (path : String) : Except AccessError Route :=
  let cs := path.toList
  if '\x00' ∈ cs then .error .badName
  else if cs = [] then .error .notFound
  else if isPathTooLong path then .error .nameTooLong
  else .ok ⟨if cs.head? = some '/' then [] else f.here, Path.segments cs⟩

/-- The place that a path leads to. -/
def place (f : FileSystem) (path : String) : Except AccessError (List String) := do
  f.locate (← f.route path)

/-- What a path leads to. -/
def node (f : FileSystem) (path : String) : Except AccessError Node := do
  match f.root.at? (← f.place path) with
  | some n => return n
  | none => .error .notFound

def isFile (f : FileSystem) (path : String) : Bool :=
  match f.node path with
  | .ok (.file _) => true
  | _ => false

def isFolder (f : FileSystem) (path : String) : Bool :=
  match f.node path with
  | .ok (.folder _) => true
  | _ => false

/-- The text of a file. -/
def readText (f : FileSystem) (path : String) : Except AccessError String := do
  match ← f.node path with
  | .folder _ => .error .isFolder
  | .file content =>
      match content.text? with
      | some s => return s
      | none => .error .notText

/-- Write a file, new or not, into a directory that is there. -/
def writeFile (f : FileSystem) (path : String) (content : Content) :
    Except AccessError FileSystem := do
  let r ← f.route path
  let place ← f.locate { r with segments := r.segments.dropLast }
  let inside ← f.folderAt place
  let segment := r.segments.getLast?.getD []
  let name := String.ofList segment
  if isDots segment then .error .isFolder
  else
    match ← lookUp inside name with
    | some (.folder _) => .error .isFolder
    | _ => return { f with root := f.root.putFileAt (place ++ [name]) content }

/-- Make a directory in one that is there. -/
def makeFolder (f : FileSystem) (r : Route) : Except AccessError FileSystem := do
  let place ← f.locate { r with segments := r.segments.dropLast }
  let inside ← f.folderAt place
  let segment := r.segments.getLast?.getD []
  let name := String.ofList segment
  if isDots segment || (← lookUp inside name).isSome then .error .taken
  else return { f with root := f.root.putFolderAt (place ++ [name]) }

/-- Whether a route leads to a directory. -/
def leadsToFolder (f : FileSystem) (r : Route) : Bool :=
  match (f.locate r).toOption.bind f.root.at? with
  | some (.folder _) => true
  | _ => false

/-- A file system after some changes, and why no more of them were made, if so. -/
abbrev Changed := FileSystem × Option AccessError

/-- A failure to make a directory does not count where one is already. -/
def makeFolderIfNew (f : FileSystem) (r : Route) : Changed :=
  match f.makeFolder r with
  | .ok g => (g, none)
  | .error e => (f, if f.leadsToFolder r then none else some e)

/-- Make a directory and those on the way to it, given by its segments backwards.
Those that were made stay if a later one cannot be. -/
def makeFolders (f : FileSystem) (start : List String) : List (List Char) → Changed
  | [] => (f, none)
  | segment :: before =>
      let r : Route := ⟨start, (segment :: before).reverse⟩
      match f.makeFolder r with
      | .error .notFound =>
          match f.makeFolders start before with
          | (g, none) => g.makeFolderIfNew r
          | failed => failed
      | _ => f.makeFolderIfNew r

/-- Make the directory of a path and those on the way to it. -/
def makeFoldersTo (f : FileSystem) (path : String) : Changed :=
  if path.isEmpty then (f, none)
  else
    match f.route path with
    | .error e => (f, some e)
    | .ok r => f.makeFolders r.start r.segments.reverse

/-- Remove a file. -/
def removeFile (f : FileSystem) (path : String) : Except AccessError FileSystem := do
  let place ← f.place path
  match f.root.at? place with
  | some (.file _) => return { f with root := f.root.removeAt place }
  | some (.folder _) => .error .isFolder
  | none => .error .notFound

end FileSystem

end FieldRules
