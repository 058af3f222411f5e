import Assay.Command.Config
import Assay.Command.InstrumentRun
import Assay.Coverage.Report
import Assay.Coverage.Trace

/-!
# Running commands

`execute` runs a command line in a workspace with a parser for the modules in it, and `program` adds
the exit code and what goes to the standard output and the standard error.
-/

namespace Assay.Command

structure Output where
  text : List Char
  /-- The line of totals, which does not belong to the text. -/
  summary : Option String
  deriving DecidableEq, Repr

variable {m : Type → Type} [Monad m] [Workspace m]

def readConfig (path : String) : ExceptT Error m Config := do
  match ← Workspace.readText (m := m) path with
  | none => throw (.configUnreadable path)
  | some text =>
    match Config.ofText? text with
    | none => throw (.configInvalid path)
    | some config => return config

/-- The configuration in the file that is named, or in the default one if that is there. -/
def loadConfig : Option String → ExceptT Error m Config
  | some path => readConfig path
  | none => do
    if ← Workspace.isPresent (m := m) Config.fileName then readConfig Config.fileName
    else return .empty

def readCaptured (path : String) : ExceptT Error m (List Coverage.Script) := do
  match ← Workspace.readText (m := m) path with
  | none => throw (.unreadable path)
  | some text =>
    match (Json.read? text.toList).bind (Json.list? Coverage.Script.ofJson?) with
    | none => throw (.coverageInvalid path)
    | some scripts => return scripts

def coverageText (options : Coverage.Options) (scripts : List Coverage.Script) :
    Format → Except Coverage.Error String
  | .runtime => do
    let records ← match scripts with
      | [] => .ok []
      | script :: _ => Coverage.resolve script options
    return (Json.array ((Coverage.runtimeScripts records).map (·.toJson))).pretty
  | .json => (Coverage.reportOfScripts scripts options).map (·.toJson.pretty)
  | .summary => (Coverage.reportOfScripts scripts options).map (·.table)

def runCoverage (options : Coverage.Options) (a : CoverageArguments) :
    ExceptT Error m (List Char) := do
  let scripts ← readCaptured a.coverage
  let text ← (coverageText options scripts a.format).mapError Error.coverage
  return text.toList

def readTrace : Option String → ExceptT Error m (List Char)
  | some path => do
    match ← Workspace.readText (m := m) path with
    | none => throw (.unreadable path)
    | some text => return text.toList
  | none => do
    match ← Workspace.readInput (m := m) with
    | none => throw (.unreadable "<stdin>")
    | some text => return text.toList

def runTrace (a : TraceArguments) : ExceptT Error m (List Char) := do
  let scripts ← readCaptured a.coverage
  let trace ← readTrace a.trace
  (Trace.remapByScripts trace scripts).mapError Error.coverage

def run (parser : ModuleParser) (config : Config) : Request → ExceptT Error m Output
  | .instrument a => do
    let (totals, text) ← runInstrument parser (config.calleeFor a) a
    return ⟨text, some totals.message⟩
  | .coverage a => do return ⟨← runCoverage (config.coverageOptions a) a, none⟩
  | .trace a => do return ⟨← runTrace a, none⟩

def execute (parser : ModuleParser) (words : List String) : ExceptT Error m Output := do
  let invocation ← (Invocation.ofWords words).mapError Error.usage
  let config ← loadConfig invocation.config
  run parser config invocation.request

structure Exit where
  code : Nat
  output : List Char
  notices : List String
  deriving DecidableEq, Repr

def endLine (text : List Char) : List Char :=
  if text.isEmpty || text.getLast? = some '\n' then text else text ++ ['\n']

def versionText : String := programName ++ " " ++ programVersion ++ "\n"

def helpText : String := String.intercalate "\n" [
  "Usage: luna-instrument [OPTIONS] <COMMAND>",
  "",
  "Commands:",
  "  rewrite <PATHS>...            Rewrite assertion statements in test files",
  "  coverage <COVERAGE>           Attribute captured browser coverage to original sources",
  "  remap-trace <COVERAGE> [TRACE]  Map stack trace locations back to original sources",
  "  help                          Print this message",
  "",
  "Options:",
  "      --config <CONFIG>  Path to a luna.config.json file",
  "  -v, --verbose          Enable debug logging",
  "  -h, --help             Print help",
  "  -V, --version          Print version",
  ""]

namespace Exit

def ofUsage : UsageError → Exit
  | .help => ⟨0, helpText.toList, []⟩
  | .version => ⟨0, versionText.toList, []⟩
  | cause => ⟨2, [], [cause.message]⟩

def ofResult : Except Error Output → Exit
  | .ok output => ⟨0, endLine output.text, output.summary.toList⟩
  | .error (.usage cause) => ofUsage cause
  | .error (.coverage (.sourceMap .overflow)) => ⟨101, [], [SourceMapError.overflow.message]⟩
  | .error cause => ⟨1, [], [cause.message]⟩

end Exit

def program (parser : ModuleParser) (words : List String) : m Exit := do
  return Exit.ofResult (← (execute parser words).run)

end Assay.Command
