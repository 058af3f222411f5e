import Assay.Command.Line

/-!
# Invocations

The commands of the program and what each is given on the command line.
-/

namespace Assay.Command

def programName : String := "luna-instrument"

def programVersion : String := "0.9.5"

structure InstrumentArguments where
  paths : List String
  /-- Where instrumented files are written; without it they are printed. -/
  outDir : Option String
  inlineMap : Bool
  callee : Option String
  /-- Globs of files to leave out of directories. -/
  ignore : List String
  deriving DecidableEq, Repr

inductive Format where
  | json
  | runtime
  | summary
  deriving DecidableEq, Repr

structure CoverageArguments where
  coverage : String
  ignore : Option String
  root : Option String
  format : Format
  deriving DecidableEq, Repr

structure TraceArguments where
  coverage : String
  /-- The file of the trace; without it the trace is on the standard input. -/
  trace : Option String
  deriving DecidableEq, Repr

inductive Request where
  | instrument (arguments : InstrumentArguments)
  | coverage (arguments : CoverageArguments)
  | trace (arguments : TraceArguments)
  deriving DecidableEq, Repr

structure Invocation where
  config : Option String
  verbose : Bool
  request : Request
  deriving DecidableEq, Repr

inductive Verb where
  | instrument
  | coverage
  | trace
  deriving DecidableEq, Repr

namespace Verb

def word : Verb → String
  | instrument => "rewrite"
  | coverage => "coverage"
  | trace => "remap-trace"

def all : List Verb := [instrument, coverage, trace]

def ofWord? (word : String) : Option Verb := all.find? (·.word = word)

end Verb

def helpWord : String := "help"

def Format.ofWord? : String → Option Format
  | "json" => some .json
  | "runtime" => some .runtime
  | "summary" => some .summary
  | _ => none

namespace Shape

def setting (name : String) : Setting := ⟨name, none, false⟩

def sharedFlags : List Flag := [⟨"verbose", some 'v', .set⟩, ⟨"help", some 'h', .askHelp⟩]

def sharedSettings : List Setting := [setting "config"]

def top : Shape where
  flags := sharedFlags ++ [⟨"version", some 'V', .askVersion⟩]
  settings := sharedSettings
  commands := Verb.all.map Verb.word ++ [helpWord]
  limit := some 0

def ofVerb : Verb → Shape
  | .instrument =>
    { flags := ⟨"inline-map", none, .set⟩ :: sharedFlags
      settings := setting "out-dir" :: setting "callee" :: ⟨"ignore", none, true⟩ :: sharedSettings
      commands := []
      limit := none }
  | .coverage =>
    { flags := sharedFlags
      settings := setting "ignore" :: setting "root" ::
        ⟨"format", some ["json", "runtime", "summary"], false⟩ :: sharedSettings
      commands := []
      limit := some 1 }
  | .trace =>
    { flags := sharedFlags
      settings := sharedSettings
      commands := []
      limit := some 2 }

end Shape

namespace Request

def ofGiven (g : Given) : Verb → Except UsageError Request
  | .instrument =>
    match g.operands with
    | [] => .error (.missingOperand "paths")
    | paths => .ok (.instrument ⟨paths, g.value? "out-dir", g.hasFlag "inline-map",
        g.value? "callee", g.values "ignore"⟩)
  | .coverage =>
    match g.operands with
    | [] => .error (.missingOperand "coverage")
    | path :: _ => .ok (.coverage ⟨path, g.value? "ignore", g.value? "root",
        ((g.value? "format").bind Format.ofWord?).getD .json⟩)
  | .trace =>
    match g.operands with
    | [] => .error (.missingOperand "coverage")
    | path :: rest => .ok (.trace ⟨path, rest.head?⟩)

end Request

/-- What the help command answers: help if it is asked about nothing or about one command. -/
def helpAnswer : List String → UsageError
  | [] => .help
  | word :: rest =>
    if Shape.top.commands.contains word then
      match rest with
      | [] => .help
      | other :: _ => .unknownCommand other
    else .unknownCommand word

namespace Invocation

/-- The invocation of a command. What stands before the command is checked last, and an option
after the command outweighs the same one before it. -/
def ofCommand (before : Given) (verb : Verb) (words : List String) :
    Except UsageError Invocation := do
  let (after, _) ← Given.nothing.scan (Shape.ofVerb verb) words
  let request ← Request.ofGiven after verb
  let before ← before.settle
  return ⟨(after.value? "config").or (before.value? "config"),
    after.hasFlag "verbose" || before.hasFlag "verbose", request⟩

def ofWords (words : List String) : Except UsageError Invocation := do
  match ← Given.nothing.scan Shape.top words with
  | (before, none) =>
    .error (if before.flags.isEmpty && before.settings.isEmpty then .nothingGiven
      else .missingCommand)
  | (before, some (word, rest)) =>
    match Verb.ofWord? word with
    | some verb => ofCommand before verb rest
    | none => .error (helpAnswer rest)

end Invocation

end Assay.Command
