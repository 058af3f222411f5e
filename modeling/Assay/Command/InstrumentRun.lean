import Assay.Command.Invocation
import Assay.Command.ScriptFile

/-!
# Instrumenting files

Each script is instrumented by itself and then written below the output directory or printed. The
totals of a run are the sums of those of its scripts.
-/

namespace Assay.Command

structure InstrumentResult where
  path : String
  code : List Char
  count : Nat
  deriving DecidableEq, Repr

namespace InstrumentResult

def ofSource (parser : ModuleParser) (callee : String) (inlineMap : Bool) (path source : String) :
    Except InstrumentError InstrumentResult :=
  (Instrument.sizedScript parser callee source.toList path).map fun
    | some r => ⟨path, if inlineMap then r.codeWithMap source.toList path else r.code, r.count⟩
    | none => ⟨path, source.toList, 0⟩

/-- What is printed of a script; nothing if no assertion was instrumented. -/
def printed (titled : Bool) (r : InstrumentResult) : List Char :=
  if r.count = 0 then []
  else (if titled then "// ".toList ++ r.path.toList ++ ['\n'] else []) ++ r.code

end InstrumentResult

def printedResults (results : List InstrumentResult) : List Char :=
  results.flatMap (InstrumentResult.printed (1 < results.length))

structure Totals where
  files : Nat
  /-- The files with assertions. -/
  instrumented : Nat
  assertions : Nat
  deriving DecidableEq, Repr

namespace Totals

def zero : Totals := ⟨0, 0, 0⟩

def add (a b : Totals) : Totals :=
  ⟨a.files + b.files, a.instrumented + b.instrumented, a.assertions + b.assertions⟩

def ofResult (r : InstrumentResult) : Totals := ⟨1, if r.count = 0 then 0 else 1, r.count⟩

def ofResults (results : List InstrumentResult) : Totals :=
  results.foldr (fun r t => (ofResult r).add t) zero

/-- A count with its noun, which is in the plural unless there is one. -/
def counted (n : Nat) (noun : String) : String :=
  toString n ++ " " ++ noun ++ if n = 1 then "" else "s"

def message (t : Totals) : String :=
  programName ++ " rewrote " ++ counted t.assertions "assertion" ++ " in " ++
    counted t.instrumented "file" ++ " (" ++ toString t.files ++ " scanned)"

end Totals

variable {m : Type → Type} [Monad m] [Workspace m]

def instrumentFile (parser : ModuleParser) (callee : String) (inlineMap : Bool)
    (file : ScriptFile) : ExceptT Error m InstrumentResult := do
  match ← Workspace.readText (m := m) file.path with
  | none => throw (.unreadable file.path)
  | some source =>
    (InstrumentResult.ofSource parser callee inlineMap file.path source).mapError Error.instrument

def writeResult (outDir : String) (file : ScriptFile) (result : InstrumentResult) :
    ExceptT Error m Unit := do
  let target := Path.join outDir file.relative
  let directory := Path.parent target
  unless ← Workspace.makeDirectories (m := m) directory do throw (.unwritable directory)
  unless ← Workspace.writeText (m := m) target (String.ofList result.code) do
    throw (.unwritable target)

/-- Instruments the scripts, and writes each before the next if there is an output directory. -/
def instrumentFiles (parser : ModuleParser) (callee : String) (a : InstrumentArguments)
    (files : List ScriptFile) : ExceptT Error m (List InstrumentResult) :=
  files.mapM fun file => do
    let result ← instrumentFile parser callee a.inlineMap file
    if let some outDir := a.outDir then writeResult outDir file result
    return result

def runInstrument (parser : ModuleParser) (callee : String) (a : InstrumentArguments) :
    ExceptT Error m (Totals × List Char) := do
  let callee ← (Instrument.callee? callee).mapError Error.instrument
  let ignored ← ScriptFile.ignoredGlobs a.ignore
  let files ← ScriptFile.selectAll (m := m) ignored a.paths
  if a.outDir.isSome then ScriptFile.checkCollisions files
  let results ← instrumentFiles parser callee a files
  return (.ofResults results, if a.outDir.isSome then [] else printedResults results)

end Assay.Command
