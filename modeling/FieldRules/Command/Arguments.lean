/-
Command lines: a subcommand with its options and at most one operand.
-/
namespace FieldRules

/-- What the commands that look at files are told. -/
structure Input where
  path : String
  /-- A settings file to use in place of the one that is looked for. -/
  config : Option String
  /-- Packages to ignore besides those of the settings. -/
  packages : List String
deriving DecidableEq, Repr

inductive Command where
  /-- No number of workers means as many as there are processors; so does zero. -/
  | generate (input : Input) (dryRun : Bool) (workers : Option Nat)
  | check (input : Input) (json : Bool)
  | clean (input : Input) (dryRun : Bool)
  | rules
  | explain (input : Input)
  | completions (shell : String)
deriving DecidableEq, Repr

/-- What a command line asks for. -/
inductive Request where
  | command (c : Command)
  | help
  | version
  /-- It is not well-formed. -/
  | misuse
deriving DecidableEq, Repr

inductive Subcommand where
  | generate
  | check
  | clean
  | rules
  | explain
  | completions
deriving DecidableEq, Repr

def subcommands : List (String × Subcommand) :=
  [("generate", .generate), ("check", .check), ("clean", .clean), ("rules", .rules),
    ("explain", .explain), ("completions", .completions)]

inductive Switch where
  | verbose
  | help
  | dryRun
  | json
  | config
  | ignorePackage
  | jobs
deriving DecidableEq, Repr

namespace Switch

def long : Switch → String
  | verbose => "verbose"
  | help => "help"
  | dryRun => "dry-run"
  | json => "json"
  | config => "config"
  | ignorePackage => "ignore-package"
  | jobs => "jobs"

def short? : Switch → Option Char
  | verbose => some 'v'
  | help => some 'h'
  | config => some 'c'
  | jobs => some 'j'
  | _ => none

def takesValue : Switch → Bool
  | config | ignorePackage | jobs => true
  | _ => false

end Switch

namespace Subcommand

/-- Whether a subcommand looks at files. -/
def hasInput : Subcommand → Bool
  | generate | check | clean | explain => true
  | rules | completions => false

def switches (s : Subcommand) : List Switch :=
  [.verbose, .help] ++ (if s.hasInput then [.config, .ignorePackage] else []) ++
    match s with
    | generate => [.dryRun, .jobs]
    | check => [.json]
    | clean => [.dryRun]
    | _ => []

end Subcommand

def shells : List String := ["bash", "elvish", "fish", "powershell", "zsh"]

/-- A number of workers: digits, perhaps after a plus, within 64 bits. -/
def workerCount? (s : String) : Option Nat :=
  let digits :=
    match s.toList with
    | '+' :: cs => cs
    | cs => cs
  let count := digits.foldl (fun n c => 10 * n + (c.toNat - '0'.toNat)) 0
  if !digits.isEmpty && digits.all Char.isDigit && count < UInt64.size then some count else none

/-- What has been read of a command line behind its subcommand. -/
structure Given where
  operand : Option String
  /-- Switches without a value, except those that may be repeated. -/
  flags : List Switch
  config : Option String
  packages : List String
  workers : Option Nat
deriving DecidableEq, Repr

namespace Given

def nothing : Given := ⟨none, [], none, [], none⟩

/-- Take a switch without a value.  Only `--verbose` may be repeated. -/
def addFlag (g : Given) : Switch → Except Request Given
  | .verbose => .ok g
  | .help => .error .help
  | s => if s ∈ g.flags then .error .misuse else .ok { g with flags := s :: g.flags }

/-- Take a switch with its value.  Only packages may be given repeatedly. -/
def addValue (g : Given) (s : Switch) (value : String) : Except Request Given :=
  match s with
  | .config =>
      if value.isEmpty || g.config.isSome then .error .misuse
      else .ok { g with config := some value }
  | .jobs =>
      match workerCount? value, g.workers with
      | some count, none => .ok { g with workers := some count }
      | _, _ => .error .misuse
  | .ignorePackage => .ok { g with packages := g.packages ++ [value] }
  | _ => .error .misuse

/-- Take an operand: a path that is not empty, or a known shell. -/
def addOperand (g : Given) (s : Subcommand) (value : String) : Except Request Given :=
  let valid := if s.hasInput then !value.isEmpty else s = .completions && value ∈ shells
  if valid && g.operand.isNone then .ok { g with operand := some value } else .error .misuse

def input (g : Given) : Input := ⟨g.operand.getD ".", g.config, g.packages⟩

/-- The command that a subcommand makes of all this. -/
def request (g : Given) : Subcommand → Request
  | .generate => .command (.generate g.input (.dryRun ∈ g.flags) g.workers)
  | .check => .command (.check g.input (.json ∈ g.flags))
  | .clean => .command (.clean g.input (.dryRun ∈ g.flags))
  | .rules => .command .rules
  | .explain => .command (.explain g.input)
  | .completions =>
      match g.operand with
      | some shell => .command (.completions shell)
      | none => .misuse

end Given

/-- A switch that waits for its value, if any, after what has been read. -/
abbrev Reached := Except Request (Given × Option Switch)

/-- Read switches by their letters.  What follows the letter of a switch with a
value is that value. -/
def readLetters (s : Subcommand) (g : Given) : List Char → Reached
  | [] => .ok (g, none)
  | c :: cs =>
      match s.switches.find? fun w => w.short? == some c with
      | none => .error .misuse
      | some w =>
          if w.takesValue then
            match cs with
            | [] => .ok (g, some w)
            | '=' :: value => do return (← g.addValue w (String.ofList value), none)
            | value => do return (← g.addValue w (String.ofList value), none)
          else do readLetters s (← g.addFlag w) cs

/-- Read a switch by its name, with or without a value behind an equals sign. -/
def readName (s : Subcommand) (g : Given) (cs : List Char) : Reached :=
  let name := String.ofList (cs.takeWhile (· ≠ '='))
  match s.switches.find? fun w => w.long == name, cs.dropWhile (· ≠ '=') with
  | none, _ => .error .misuse
  | some w, [] =>
      if w.takesValue then .ok (g, some w) else do return (← g.addFlag w, none)
  | some w, _ :: value =>
      if w.takesValue then do return (← g.addValue w (String.ofList value), none)
      else .error .misuse

/-- Read the arguments after two dashes, all of them operands. -/
def readOperands (s : Subcommand) (g : Given) (args : List String) : Except Request Given :=
  args.foldlM (fun g a => g.addOperand s a) g

/-- Read the arguments behind a subcommand.  `waiting` is a switch whose value comes
next. -/
def readArguments (s : Subcommand) (g : Given) (waiting : Option Switch) :
    List String → Except Request Given
  | [] => if waiting.isSome then .error .misuse else .ok g
  | a :: args =>
      match a.toList, waiting with
      | '-' :: _ :: _, some _ => .error .misuse
      | ['-', '-'], none => readOperands s g args
      | '-' :: '-' :: name, none => do
          let (g, waiting) ← readName s g name
          readArguments s g waiting args
      | '-' :: c :: cs, none => do
          let (g, waiting) ← readLetters s g (c :: cs)
          readArguments s g waiting args
      | _, some w => do readArguments s (← g.addValue w a) none args
      | _, none => do readArguments s (← g.addOperand s a) none args

/-- What a subcommand and its arguments ask for. -/
def readSubcommand (s : Subcommand) (args : List String) : Request :=
  match readArguments s .nothing none args with
  | .ok g => g.request s
  | .error r => r

/-- Read letters in front of the subcommand; none if they ask for nothing yet. -/
def readFrontLetters : List Char → Option Request
  | [] => none
  | 'v' :: cs => readFrontLetters cs
  | 'h' :: _ => some .help
  | 'V' :: _ => some .version
  | _ => some .misuse

/-- What a request for help names. -/
def readHelp : List String → Request
  | [] => .help
  | [name] => if name = "help" || subcommands.any fun s => s.1 == name then .help else .misuse
  | _ => .misuse

/-- What a command line asks for. -/
def readCommandLine : List String → Request
  | [] => .misuse
  | "help" :: args => readHelp args
  | "--verbose" :: args => readCommandLine args
  | "--help" :: _ => .help
  | "--version" :: _ => .version
  | a :: args =>
      match a.toList, subcommands.find? fun s => s.1 == a with
      | '-' :: c :: cs, _ =>
          match readFrontLetters (c :: cs) with
          | some r => r
          | none => readCommandLine args
      | _, some (_, s) => readSubcommand s args
      | _, none => .misuse

end FieldRules
