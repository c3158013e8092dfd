/-
What a run can be told: the markers of annotations, how files are named and
which directories and packages are left alone.
-/
namespace FieldRules

structure Settings where
  /-- The comment line that marks a type. -/
  typeMarker : String
  /-- What a field directive starts with. -/
  fieldMarker : String
  /-- The extension of source files, without its dot. -/
  extension : String
  /-- What is put after the stem of a source file to name its companion. -/
  outputSuffix : String
  /-- The first line of every companion. -/
  header : String
  /-- Names of directories that are not entered. -/
  skipDirs : List String
  /-- Packages whose types have no Validate method. -/
  ignorePackages : List String
deriving DecidableEq, Repr

namespace Settings

def standard : Settings where
  typeMarker := "+generate:validate"
  fieldMarker := "+validate"
  extension := "go"
  outputSuffix := "_validate"
  header := "// Code generated by valgen. DO NOT EDIT."
  skipDirs := ["vendor", "testdata"]
  ignorePackages := []

/-- Leave a package alone that is not yet listed. -/
def ignoring (s : Settings) (package : String) : Settings :=
  if package ∈ s.ignorePackages then s
  else { s with ignorePackages := s.ignorePackages ++ [package] }

end Settings

end FieldRules
