import Assay.Assertion.Instrument
import Assay.Command.Line
import Assay.Coverage.Attribution
import Assay.Files.Glob
import Assay.Files.Path

/-!
# Script files

Which files are instrumented. A file is taken as it is named; a directory stands for the scripts
below it that no glob leaves out. An `Error` is a failure of a command, here or later.
-/

namespace Assay.Command

inductive Error where
  | usage (cause : UsageError)
  | configUnreadable (path : String)
  | configInvalid (path : String)
  | unreadable (path : String)
  | unwritable (path : String)
  | invalidGlob (pattern : String)
  /-- Two files would be written to one path below the output directory. -/
  | collision (relative first second : String)
  | coverageInvalid (path : String)
  | instrument (cause : InstrumentError)
  | coverage (cause : Coverage.Error)
  deriving DecidableEq, Repr

def Error.message : Error → String
  | usage cause => cause.message
  | configUnreadable path => "failed to read " ++ path
  | configInvalid path => "failed to parse " ++ path
  | unreadable path => "failed to read " ++ path
  | unwritable path => "failed to write " ++ path
  | invalidGlob pattern => "invalid glob pattern: " ++ pattern
  | collision relative first second =>
    first ++ " and " ++ second ++ " would both be written to " ++ relative
  | coverageInvalid path => "failed to parse captured coverage " ++ path
  | instrument cause => cause.message
  | coverage cause => cause.message

structure ScriptFile where
  path : String
  /-- The path below the output directory. -/
  relative : String
  deriving DecidableEq, Repr

namespace ScriptFile

def extensions : List String := ["js", "mjs", "cjs", "jsx", "ts", "mts", "cts", "tsx"]

def alwaysIgnored : List String := ["**/node_modules/**", "**/.git/**"]

def readGlob (pattern : String) : Except Error Glob :=
  match Glob.ofText? pattern with
  | some glob => .ok glob
  | none => .error (.invalidGlob pattern)

def ignoredGlobs (patterns : List String) : Except Error (List Glob) :=
  (patterns ++ alwaysIgnored).mapM readGlob

def isScript (names : List String) : Bool :=
  (names.getLast?.bind Path.extension?).any extensions.contains

def ofPath (path : String) : ScriptFile := ⟨path, (Path.fileName? path).getD path⟩

def compareChars (a b : Char) : Ordering :=
  if a.toNat < b.toNat then .lt else if b.toNat < a.toNat then .gt else .eq

/-- The order of files by the names that lead to them, the first name first. -/
def compareNames (a b : List String) : Ordering :=
  List.compareLex (fun a b => List.compareLex compareChars a.toList b.toList) a b

/-- The scripts among the files below a directory, in the order of their names. -/
def ofDirectory (ignored : List Glob) (path : String) (files : List (List String)) :
    List ScriptFile :=
  let scripts := files.filter fun names =>
    isScript names && !ignored.any (·.isMatch (Path.ofNames names))
  (scripts.mergeSort fun a b => (compareNames a b).isLE).map fun names =>
    ⟨Path.join path (Path.ofNames names), Path.ofNames names⟩

def select [Monad m] [Workspace m] (ignored : List Glob) (path : String) : m (List ScriptFile) := do
  if ← Workspace.isDirectory path then
    return ofDirectory ignored path (← Workspace.filesBelow path)
  else return [ofPath path]

def selectAll [Monad m] [Workspace m] (ignored : List Glob) (paths : List String) :
    m (List ScriptFile) := do
  return (← paths.mapM (select ignored)).flatten

/-- The first file whose relative path is also that of a file before it, with that one in front. -/
def collision? (before : List ScriptFile) : List ScriptFile → Option (ScriptFile × ScriptFile)
  | [] => none
  | file :: rest =>
    match before.find? fun earlier => Path.same earlier.relative file.relative with
    | some earlier => some (earlier, file)
    | none => collision? (before ++ [file]) rest

def checkCollisions (files : List ScriptFile) : Except Error Unit :=
  match collision? [] files with
  | none => .ok ()
  | some (first, second) => .error (.collision second.relative first.path second.path)

end ScriptFile

end Assay.Command
