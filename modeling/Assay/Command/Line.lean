/-!
# Command lines

A command line is words: options, each with two dashes or as a letter behind one, and operands.
`Given.scan` sorts the words by the `Shape` of a command, up to the word that begins another
command.
-/

namespace Assay.Command

inductive UsageError where
  | help
  | version
  | nothingGiven
  | missingCommand
  | unknownCommand (word : String)
  | unknownArgument (word : String)
  | missingOperand (name : String)
  | missingValue (option : String)
  | refusedValue (option : String) (value : String)
  | repeated (option : String)
  /-- A value stands with an option that takes none. -/
  | unneededValue (option : String)
  deriving DecidableEq, Repr

def UsageError.message : UsageError → String
  | help => "help was asked for"
  | version => "the version was asked for"
  | nothingGiven => "no command was given"
  | missingCommand => "a command is required"
  | unknownCommand word => "unknown command " ++ word
  | unknownArgument word => "unexpected argument " ++ word
  | missingOperand name => "missing " ++ name
  | missingValue option => "a value is required for --" ++ option
  | refusedValue option value => "--" ++ option ++ " cannot be " ++ value
  | repeated option => "--" ++ option ++ " cannot be used more than once"
  | unneededValue option => "--" ++ option ++ " takes no value"

inductive Effect where
  | set
  | askHelp
  | askVersion
  deriving DecidableEq, Repr

/-- An option without a value. -/
structure Flag where
  name : String
  letter : Option Char
  effect : Effect
  deriving DecidableEq, Repr

/-- An option with a value. -/
structure Setting where
  name : String
  /-- The values to choose from, if not every one will do. -/
  choices : Option (List String)
  repeats : Bool
  deriving DecidableEq, Repr

structure Shape where
  flags : List Flag
  settings : List Setting
  /-- The words that begin another command. -/
  commands : List String
  limit : Option Nat

structure Given where
  flags : List String
  settings : List (String × String)
  /-- The last setting with its value once that is read. It is checked when the next word needs it,
  so a word that is wrong by itself is reported before it. -/
  pending : Option (Setting × Option String)
  operands : List String

namespace Given

def nothing : Given := ⟨[], [], none, []⟩

def hasFlag (g : Given) (name : String) : Bool := g.flags.contains name

def values (g : Given) (name : String) : List String :=
  g.settings.filterMap fun (setting, value) => if setting = name then some value else none

def value? (g : Given) (name : String) : Option String := (g.values name).head?

def assign (g : Given) (s : Setting) (value : String) : Except UsageError Given :=
  if !s.repeats && !(g.values s.name).isEmpty then .error (.repeated s.name)
  else if s.choices.any (!·.contains value) then .error (.refusedValue s.name value)
  else .ok { g with settings := g.settings ++ [(s.name, value)] }

def settle (g : Given) : Except UsageError Given :=
  match g.pending with
  | none => .ok g
  | some (s, none) => .error (.missingValue s.name)
  | some (s, some value) => assign { g with pending := none } s value

/-- Sets an option that takes no value, or stops there. -/
def raise (g : Given) (f : Flag) : Except UsageError Given := do
  let g ← g.settle
  match f.effect with
  | .askHelp => .error .help
  | .askVersion => .error .version
  | .set =>
    if g.hasFlag f.name then .error (.repeated f.name)
    else .ok { g with flags := g.flags ++ [f.name] }

def addOperand (g : Given) (word : String) : Except UsageError Given := do
  let g ← g.settle
  return { g with operands := g.operands ++ [word] }

/-- Reads an option behind two dashes; a value may follow an equals sign. -/
def readOption (shape : Shape) (g : Given) (text : List Char) : Except UsageError Given :=
  let name := String.ofList (text.takeWhile (· ≠ '='))
  let value : Option String :=
    match text.dropWhile (· ≠ '=') with
    | [] => none
    | _ :: value => some (String.ofList value)
  match shape.settings.find? (·.name = name), shape.flags.find? (·.name = name), value with
  | some s, _, some value => do (← g.settle).assign s value
  | some s, _, none => do return { ← g.settle with pending := some (s, none) }
  | none, some f, some _ => .error (.unneededValue f.name)
  | none, some f, none => g.raise f
  | none, none, _ => .error (.unknownArgument ("--" ++ name))

def readLetters (shape : Shape) (g : Given) : List Char → Except UsageError Given
  | [] => .ok g
  | c :: rest =>
    match shape.flags.find? (·.letter = some c) with
    | some f => do readLetters shape (← g.raise f) rest
    | none => .error (.unknownArgument (String.ofList ['-', c]))

def surplus (shape : Shape) (word : String) : UsageError :=
  if shape.commands.isEmpty then .unknownArgument word else .unknownCommand word

def hasRoom (shape : Shape) (g : Given) : Bool := shape.limit.all (g.operands.length < ·)

def readOperand (shape : Shape) (g : Given) (word : String) : Except UsageError Given :=
  if hasRoom shape g then g.addOperand word else .error (surplus shape word)

def readOperands (shape : Shape) (g : Given) : List String → Except UsageError Given
  | [] => g.settle
  | word :: rest =>
    if !hasRoom shape g && shape.commands.contains word then .error (.unknownArgument word)
    else do readOperands shape (← readOperand shape g word) rest

/-- Reads words up to one that begins another command, which is returned with the words after it.
What is pending then stays so. -/
def scan (shape : Shape) (g : Given) :
    List String → Except UsageError (Given × Option (String × List String))
  | [] => do return (← g.settle, none)
  | word :: rest =>
    let isAwaited := g.pending.any (·.2.isNone)
    if !isAwaited && shape.commands.contains word then .ok (g, some (word, rest))
    else
      match word.toList with
      | ['-', '-'] => do return (← readOperands shape g rest, none)
      | '-' :: '-' :: text => do scan shape (← readOption shape g text) rest
      | '-' :: letter :: letters => do scan shape (← readLetters shape g (letter :: letters)) rest
      | _ =>
        match g.pending with
        | some (s, none) => scan shape { g with pending := some (s, some word) } rest
        | _ => do scan shape (← readOperand shape g word) rest

end Given

end Assay.Command
