/-
The catalogue of rule kinds: how each is described and how a rule of that kind
is made from attributes.
-/
import FieldRules.Rule.Basic

namespace FieldRules

/-- What a rule parameter is read as. -/
inductive ParamKind where
  | integer
  | decimal
  | text
deriving DecidableEq, Repr

def ParamKind.describe : ParamKind → String
  | integer => "integer"
  | decimal => "decimal"
  | text => "string"

structure Param where
  name : String
  kind : ParamKind
  description : String
deriving DecidableEq, Repr

structure RuleInfo where
  name : String
  summary : String
  params : List Param
deriving DecidableEq, Repr

abbrev RuleMaker := AttributeList → Except RuleError Rule

structure CatalogueEntry where
  info : RuleInfo
  make : RuleMaker

/-- The form of a rule name by which kinds are told apart. -/
def ruleKey (name : String) : String := snakeCase (trimText name)

def CatalogueEntry.key (e : CatalogueEntry) : String := ruleKey e.info.name

/-- Rule kinds in the order in which their names were first registered. -/
structure Catalogue where
  entries : List CatalogueEntry

/-- Put `e` in the place of the entry with its key, or at the end. -/
def insertEntry (e : CatalogueEntry) : List CatalogueEntry → List CatalogueEntry
  | [] => [e]
  | d :: ds => if d.key = e.key then e :: ds else d :: insertEntry e ds

def messageParams : List Param :=
  [⟨"message", .text, "replaces the default message"⟩,
    ⟨"code", .text, "prefixes the message with [code]"⟩]

def Length.info : RuleInfo :=
  ⟨Length.name, "length of a string, slice or map",
    [⟨"min", .integer, "fails when len < min"⟩,
      ⟨"max", .integer, "fails when len > max"⟩,
      ⟨"equal", .integer, "fails when len != equal"⟩] ++ messageParams⟩

def Range.info : RuleInfo :=
  ⟨Range.name, "numeric bounds on a value",
    [⟨"min", .decimal, "fails when value < min"⟩,
      ⟨"max", .decimal, "fails when value > max"⟩,
      ⟨"exclusive_min", .decimal, "fails when value <= exclusive_min"⟩,
      ⟨"exclusive_max", .decimal, "fails when value >= exclusive_max"⟩] ++ messageParams⟩

def Length.make : RuleMaker := fun attributes => (Length.ofAttributes attributes).map .length

def Range.make : RuleMaker := fun attributes => (Range.ofAttributes attributes).map .range

namespace Catalogue

def empty : Catalogue := ⟨[]⟩

/-- Add a rule kind; one of the same name is replaced. -/
def register (c : Catalogue) (info : RuleInfo) (make : RuleMaker) : Catalogue :=
  ⟨insertEntry ⟨info, make⟩ c.entries⟩

/-- The rule kinds that are always there. -/
def builtin : Catalogue :=
  (empty.register Length.info Length.make).register Range.info Range.make

def lookup? (c : Catalogue) (name : String) : Option RuleMaker :=
  (c.entries.find? fun e => e.key == ruleKey name).map CatalogueEntry.make

/-- Make the named rule from attribute text. -/
def construct (c : Catalogue) (name raw : String) : Except RuleError Rule :=
  match c.lookup? name with
  | some make => make (.parse raw)
  | none => .error (.unsupported (trimText name))

def infos (c : Catalogue) : List RuleInfo := c.entries.map CatalogueEntry.info

end Catalogue

end FieldRules
