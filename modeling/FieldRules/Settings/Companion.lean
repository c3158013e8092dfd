/-
The companion of a source file: how it is named and how it is recognised.
-/
import FieldRules.Settings.Basic
import FieldRules.Text.Blank
import FieldRules.Tree.Path

namespace FieldRules.Settings

/-- What the names of companions end in. -/
def companionEnd (s : Settings) : String := s.outputSuffix ++ "." ++ s.extension

/-- The companion of a source file, in the same directory. -/
def outputPath (s : Settings) (source : String) : String :=
  Path.withFileName source (Path.stem source ++ s.companionEnd)

/-- A text without the characters at its end, if it ends in them. -/
def dropEnd? (ending cs : List Char) : Option (List Char) :=
  if ending.isSuffixOf cs then some (cs.take (cs.length - ending.length)) else none

/-- The source file of a companion; none if it is not named like one. -/
def sourcePath? (s : Settings) (companion : String) : Option String :=
  match (Path.fileName? companion).bind fun name => dropEnd? s.companionEnd.toList name.toList with
  | some (c :: cs) =>
      some (Path.withFileName companion (String.ofList (c :: cs) ++ "." ++ s.extension))
  | _ => none

/-- Whether a path has the extension of sources. -/
def isSource (s : Settings) (path : String) : Bool := Path.extension? path == some s.extension

def isGeneratedName (s : Settings) (path : String) : Bool :=
  (Path.fileName? path).any fun name => s.companionEnd.toList.isSuffixOf name.toList

/-- The first line of a text, without the blanks at its end; none if the text is
empty. -/
def firstLine? (text : String) : Option String :=
  match text.toList with
  | [] => none
  | cs => some (String.ofList (trimEnd (cs.takeWhile (· ≠ '\n'))))

/-- Whether a text starts with the header of companions. -/
def hasHeader (s : Settings) (text : String) : Bool := firstLine? text == some s.header

end FieldRules.Settings
