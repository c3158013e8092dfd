/-
Paths as texts with slashes.  Empty parts and dots inside a path have no meaning,
but the text of what remains is kept as it is written.
-/
namespace FieldRules

/-- A meaningful part of a path. -/
inductive PathPart where
  /-- The slash in front of an absolute path. -/
  | root
  /-- The dot in front of a relative path. -/
  | here
  | up
  | name (s : String)
deriving DecidableEq, Repr

namespace PathPart

def rank : PathPart → Nat
  | root => 0
  | here => 1
  | up => 2
  | name _ => 3

/-- Parts by kind, then names by their characters. -/
def before : PathPart → PathPart → Bool
  | name s, name t => decide (s < t)
  | p, q => p.rank < q.rank

/-- The order of paths, part by part. -/
def listLe : List PathPart → List PathPart → Bool
  | [], _ => true
  | _ :: _, [] => false
  | p :: ps, q :: qs => if p = q then listLe ps qs else p.before q

end PathPart

namespace Path

/-- The texts between slashes; one more than there are slashes. -/
def segments : List Char → List (List Char)
  | [] => [[]]
  | c :: cs =>
      if c = '/' then [] :: segments cs
      else
        match segments cs with
        | [] => [[c]]
        | s :: ss => (c :: s) :: ss

/-- The part that a segment stands for inside a path. -/
def part? (segment : List Char) : Option PathPart :=
  if segment = [] || segment = ['.'] then none
  else if segment = ['.', '.'] then some .up
  else some (.name (String.ofList segment))

def parts (path : String) : List PathPart :=
  match segments path.toList with
  | [] => []
  | [] :: ss => (if ss.isEmpty then [] else [.root]) ++ ss.filterMap part?
  | s :: ss => if s = ['.'] then .here :: ss.filterMap part? else (s :: ss).filterMap part?

/-- Drop slashes and dots without meaning from the end of a path, given backwards.
The first character of the path stays. -/
def trimBack : List Char → List Char
  | '/' :: c :: cs => trimBack (c :: cs)
  | '.' :: '/' :: cs => trimBack ('/' :: cs)
  | cs => cs

/-- Drop slashes and dots without meaning from the front. -/
def trimFront : List Char → List Char
  | '/' :: cs => trimFront cs
  | '.' :: '/' :: cs => trimFront cs
  | ['.'] => []
  | cs => cs

/-- A path without meaningless characters at its end, backwards. -/
def backward (path : String) : List Char := trimBack path.toList.reverse

/-- The last part, if it is a name. -/
def fileName? (path : String) : Option String :=
  match part? ((backward path).takeWhile (· ≠ '/')).reverse with
  | some (.name s) => some s
  | _ => none

/-- The path without its last part. -/
def directory (path : String) : String :=
  String.ofList (trimBack ((backward path).dropWhile (· ≠ '/'))).reverse

/-- A name before its last dot and after it.  A dot in front does not count. -/
def splitName (name : String) : String × Option String :=
  let back := name.toList.reverse
  match back.dropWhile (· ≠ '.') with
  | _ :: c :: cs =>
      (String.ofList (c :: cs).reverse, some (String.ofList (back.takeWhile (· ≠ '.')).reverse))
  | _ => (name, none)

def stem (path : String) : String :=
  match fileName? path with
  | some name => (splitName name).1
  | none => ""

def extension? (path : String) : Option String := (fileName? path).bind fun name => (splitName name).2

/-- A path below a directory.  An absolute path stays what it is. -/
def join (dir path : String) : String :=
  if path.toList.head? = some '/' then path
  else if dir.isEmpty || dir.toList.getLast? = some '/' then dir ++ path
  else dir ++ "/" ++ path

/-- Another name in the same directory. -/
def withFileName (path name : String) : String :=
  match fileName? path with
  | some _ => join (directory path) name
  | none => join path name

/-- Drop one part from the front of a path that begins with it. -/
def dropPart (cs : List Char) : PathPart → List Char
  | .root => cs.drop 1
  | .here => (cs.dropWhile (· ≠ '/')).drop 1
  | .up | .name _ => ((trimFront cs).dropWhile (· ≠ '/')).drop 1

/-- A path as seen from a directory above it. -/
def relativeTo? (base path : String) : Option String :=
  let above := parts base
  if above.isPrefixOf (parts path) then
    let rest := above.foldl dropPart path.toList
    let front := if above.isEmpty then rest else trimFront rest
    some (String.ofList (trimBack front.reverse).reverse)
  else none

/-- The order of paths, part by part. -/
def le (p q : String) : Bool := PathPart.listLe (parts p) (parts q)

end Path

end FieldRules
