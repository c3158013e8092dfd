/-
The command line program: it reads the directories that the command line is about, runs
the command line on what it read and writes back what has changed.
-/
import FieldRules.Command.Run

open FieldRules

/-- Read the entries of a directory.  Links are left out. -/
partial def loadEntries (entries : Array IO.FS.DirEntry) : IO Forest :=
  entries.foldlM (fun f entry => do
    match (← entry.path.symlinkMetadata).type with
    | .dir =>
        let inside ← loadEntries (← entry.path.readDir)
        return (f.putFolder entry.fileName).within entry.fileName fun _ => inside
    | .file =>
        return f.putFile entry.fileName (.ofBytes (← IO.FS.readBinFile entry.path))
    | _ => return f) Forest.empty

/-- The names on the way to an absolute path. -/
def namesOf (path : String) : List String :=
  (Path.parts path).filterMap fun part =>
    match part with
    | .name s => some s
    | _ => none

def pathOf (place : List String) : String := "/" ++ "/".intercalate place

/-- Read the directory that a path leads to, or that of the file that it leads to. -/
def loadRoot (f : FileSystem) (path : String) : IO FileSystem := do
  try
    let real ← IO.FS.realPath path
    let dir := if ← real.isDir then real else real.parent.getD real
    let place := namesOf dir.toString
    if f.here.isPrefixOf place then return f
    return { f with root := Forest.graft (← loadEntries (← dir.readDir)) place f.root }
  catch _ => return f

/-- Read the file that a path leads to. -/
def loadFile (f : FileSystem) (path : String) : IO FileSystem := do
  try
    let place := namesOf (← IO.FS.realPath path).toString
    let content := Content.ofBytes (← IO.FS.readBinFile path)
    return { f with root := (f.root.putFoldersAt place.dropLast).putFileAt place content }
  catch _ => return f

/-- Read all that a request looks at. -/
def load (r : Request) : IO FileSystem := do
  let dir ← IO.currentDir
  let f := FileSystem.around (namesOf dir.toString) (← loadEntries (← dir.readDir))
  match r with
  | .command (.generate input _ _) | .command (.check input _) | .command (.clean input _)
  | .command (.explain input) =>
      let f ← loadRoot f input.path
      match input.config with
      | some path => loadFile f path
      | none => return f
  | _ => return f

/-- Make the directories that are new, write the files that are new or differ, and remove
those that are gone. -/
def store (old new : Forest) : IO Unit := do
  for place in new.folders do
    if (old.at? place).isNone then IO.FS.createDirAll (pathOf place)
  for (place, content) in new.files do
    if old.at? place != some (.file content) then
      IO.FS.writeBinFile (pathOf place) content.toBytes
  for (place, _) in old.files do
    if (new.at? place).isNone then IO.FS.removeFile (pathOf place)

def main (args : List String) : IO UInt32 := do
  let old ← load (readCommandLine args)
  let (new, ending) := runCommandLine old args
  store old.root new.root
  match ending with
  | .finished success lines =>
      for line in lines do
        IO.print line.outText
        IO.eprint line.errText
      return if success then 0 else 1
  | .failed causes =>
      for cause in causes do
        IO.eprintln ("error: " ++ cause)
      return 1
  | .misused =>
      for line in usageLines do
        IO.eprint line.outText
      return 2
