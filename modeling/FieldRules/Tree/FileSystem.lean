/-
File systems as a program in one of their directories sees them.
-/
import FieldRules.Tree.Forest

namespace FieldRules

structure FileSystem where
  /-- The entries at the root. -/
  root : Forest
  /-- The names on the way to the working directory. -/
  here : List String
deriving DecidableEq, Repr

namespace FileSystem

/-- What stands in every file system: the usual directories, and the file that is
always empty. -/
def common : Forest :=
  (["bin", "dev", "etc", "home", "tmp", "usr", "var"].foldl (fun f name => f.putFolder name)
    Forest.empty).putFileAt ["dev", "null"] (.text "")

/-- A file system of which only the entries of the working directory are known,
besides what stands in every one. -/
def around (here : List String) (entries : Forest) : FileSystem :=
  ⟨Forest.graft entries here common, here⟩

/-- The entries of the working directory. -/
def entries (f : FileSystem) : Forest :=
  match f.root.at? f.here with
  | some (.folder inside) => inside
  | _ => .empty

end FileSystem

end FieldRules
