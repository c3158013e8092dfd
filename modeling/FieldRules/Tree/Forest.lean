/-
Directory trees.  The entries of a directory stand in the order of their names.
-/
namespace FieldRules

/-- What a file holds: a text, or bytes that are not the text of any. -/
inductive Content where
  | text (s : String)
  | bytes (bs : List UInt8)
deriving DecidableEq, Repr

namespace Content

def ofBytes (b : ByteArray) : Content :=
  match String.fromUTF8? b with
  | some s => text s
  | none => bytes b.toList

def toBytes : Content → ByteArray
  | text s => s.toUTF8
  | bytes bs => ⟨bs.toArray⟩

def text? : Content → Option String
  | text s => some s
  | bytes _ => none

end Content

/-- The entries of a directory. -/
inductive Forest where
  | empty
  | file (name : String) (content : Content) (rest : Forest)
  | folder (name : String) (inside rest : Forest)
deriving DecidableEq, Repr

/-- What a path leads to. -/
inductive Node where
  | file (content : Content)
  | folder (inside : Forest)
deriving DecidableEq, Repr

namespace Forest

/-- The entry of a name. -/
def child? (name : String) : Forest → Option Node
  | empty => none
  | file n content rest => if n = name then some (.file content) else rest.child? name
  | folder n inside rest => if n = name then some (.folder inside) else rest.child? name

/-- What stands at a place, given by the names on the way to it. -/
def at? (f : Forest) : List String → Option Node
  | [] => some (.folder f)
  | name :: names =>
      match f.child? name, names with
      | some (.folder inside), names => inside.at? names
      | some (.file content), [] => some (.file content)
      | _, _ => none

/-- Give a file of this directory its content; a directory of that name stays. -/
def putFile (name : String) (content : Content) : Forest → Forest
  | empty => file name content empty
  | file n c rest =>
      if n = name then file n content rest
      else if name < n then file name content (file n c rest)
      else file n c (rest.putFile name content)
  | folder n inside rest =>
      if n = name then folder n inside rest
      else if name < n then file name content (folder n inside rest)
      else folder n inside (rest.putFile name content)

/-- Make an empty directory in this one, unless the name is taken. -/
def putFolder (name : String) : Forest → Forest
  | empty => folder name empty empty
  | file n c rest =>
      if n = name then file n c rest
      else if name < n then folder name empty (file n c rest)
      else file n c (rest.putFolder name)
  | folder n inside rest =>
      if n = name then folder n inside rest
      else if name < n then folder name empty (folder n inside rest)
      else folder n inside (rest.putFolder name)

/-- Take an entry out of this directory. -/
def remove (name : String) : Forest → Forest
  | empty => empty
  | file n c rest => if n = name then rest else file n c (rest.remove name)
  | folder n inside rest => if n = name then rest else folder n inside (rest.remove name)

/-- Change one directory inside this one. -/
def within (name : String) (change : Forest → Forest) : Forest → Forest
  | empty => empty
  | file n c rest => file n c (rest.within name change)
  | folder n inside rest =>
      if n = name then folder n (change inside) rest
      else folder n inside (rest.within name change)

/-- Make a change of one entry at a place. -/
def changeAt (change : String → Forest → Forest) : List String → Forest → Forest
  | [], f => f
  | [name], f => change name f
  | name :: names, f => f.within name (changeAt change names)

def putFileAt (place : List String) (content : Content) : Forest → Forest :=
  changeAt (fun name => putFile name content) place

def putFolderAt (place : List String) : Forest → Forest := changeAt putFolder place

def removeAt (place : List String) : Forest → Forest := changeAt remove place

/-- Make the directory at a place and those on the way to it, where they are not. -/
def putFoldersAt : List String → Forest → Forest
  | [], f => f
  | name :: names, f => (f.putFolder name).within name (putFoldersAt names)

/-- Give the directory at a place these entries, and make it and those on the way to it
where they are not. -/
def graft (inside : Forest) : List String → Forest → Forest
  | [], _ => inside
  | name :: names, f => (f.putFolder name).within name (graft inside names)

/-- All files, by the names on the way to them. -/
def files : Forest → List (List String × Content)
  | empty => []
  | file name content rest => ([name], content) :: rest.files
  | folder name inside rest =>
      (inside.files.map fun (place, content) => (name :: place, content)) ++ rest.files

/-- All directories below this one, each before those inside it. -/
def folders : Forest → List (List String)
  | empty => []
  | file _ _ rest => rest.folders
  | folder name inside rest => [name] :: inside.folders.map (name :: ·) ++ rest.folders

end Forest

end FieldRules
