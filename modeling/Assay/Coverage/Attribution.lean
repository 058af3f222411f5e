import Assay.Coverage.Options
import Assay.SourceMap.Document
import Assay.SourceMap.Lookup

/-!
# Attributing executed ranges

The ranges that a generated script executed are brought back to its sources. A range whose ends
come from different sources is split into one piece for each run of lines of one source.
-/

namespace Assay.Coverage

inductive Error where
  | sourceMap (cause : SourceMapError)
  /-- A lookup answered with a source that the map does not list. -/
  | unknownSource (index : Nat)
  deriving DecidableEq, Repr

namespace Error

def message : Error → String
  | sourceMap cause => "failed to read the script source map: " ++ cause.message
  | unknownSource index => "lookup resolved to unknown source index " ++ toString index

end Error

structure Script where
  url : String
  text : String
  ranges : List Span
  deriving DecidableEq, Repr

def Script.ofJson? (j : Json) : Option Script :=
  match Json.slots? ["url", "text", "ranges"] j with
  | some [url, text, ranges] => do
    return ⟨← Json.required? Json.text? url, ← Json.required? Json.text? text,
      ← Json.required? (Json.list? Span.ofJson?) ranges⟩
  | _ => none

structure Record where
  url : String
  ranges : List Span
  text : String
  deriving DecidableEq, Repr

inductive PieceEnd where
  | position (p : Position)
  | lineEnd (line : Nat)
  deriving DecidableEq, Repr

structure RangePiece where
  source : Nat
  start : Position
  stop : PieceEnd
  deriving DecidableEq, Repr

/-- A run of lines of one source, with the first and the last place that were resolved. -/
structure Run where
  source : Nat
  first : Position
  last : Position
  deriving DecidableEq, Repr

/-- Adds a resolved place to runs, the latest of which comes first. -/
def extendRuns (runs : List Run) (found : SourcePosition) : List Run :=
  match runs with
  | run :: rest =>
    if run.source = found.source then { run with last := found.position } :: rest
    else ⟨found.source, found.position, found.position⟩ :: run :: rest
  | [] => [⟨found.source, found.position, found.position⟩]

/-- The places at which the lines of a range are resolved: its start and then the start of each
line, save a last line of which the range holds nothing. -/
def linePlaces (start stop : Position) : List Position :=
  let places := (List.range' start.line (stop.line + 1 - start.line)).map fun line =>
    (⟨line, if line = start.line then start.column else 0⟩ : Position)
  if stop.column = 0 ∧ start.line < stop.line then places.dropLast else places

/-- Where a run ends: at the end of the range if that is resolved to its source, else with the line
of its last place. -/
def runEnd (stop : Option SourcePosition) (run : Run) : PieceEnd :=
  match stop with
  | some stop => if stop.source = run.source then .position stop.position else .lineEnd run.last.line
  | none => .lineEnd run.last.line

/-- The pieces of runs, the latest of which comes first and alone may end with the range. -/
def piecesOfRuns (stop : Option SourcePosition) : List Run → List RangePiece
  | [] => []
  | run :: rest =>
    (⟨run.source, run.first, runEnd stop run⟩ ::
      rest.map fun run => ⟨run.source, run.first, .lineEnd run.last.line⟩).reverse

/-- The pieces of a range whose ends differ in source, by the lines it covers. -/
def splitByLines (lookup : Lookup) (start stop : Position) (last : Option SourcePosition) :
    List RangePiece :=
  let found := (linePlaces start stop).filterMap (lookup · .following)
  piecesOfRuns last (found.foldl extendRuns [])

def splitRange (lookup : Lookup) (start stop : Position) : List RangePiece :=
  match lookup start .following, lookup stop .following with
  | none, none => []
  | some first, some last =>
    if first.source = last.source then
      [⟨first.source, first.position, .position last.position⟩]
    else splitByLines lookup start stop (some last)
  | _, last => splitByLines lookup start stop last

/-- The span of a piece in a source; an end before the start is raised to it. -/
def RangePiece.span (piece : RangePiece) (source : LineIndex) : Span :=
  let start := source.offset piece.start
  let stop := match piece.stop with
    | .position p => source.offset p
    | .lineEnd line => (source.lineEnd? line).getD source.length
  ⟨start, max stop start⟩

def piecesOfRange (generated : LineIndex) (lookup : Lookup) (range : Span) : List RangePiece :=
  match generated.position? range.start, generated.position? range.stop with
  | some start, some stop => splitRange lookup start stop
  | _, _ => []

def unknownSource? (count : Nat) (pieces : List RangePiece) : Option Nat :=
  (pieces.find? (count ≤ ·.source)).map (·.source)

def recordOf (pieces : List RangePiece) (index : Nat) (url text : String) : Record :=
  let lines := LineIndex.ofText text.toList
  ⟨url, (pieces.filter (·.source = index)).map (·.span lines), text⟩

/-- Attributes ranges of a generated text to the sources of a map, in the order of the map. Sources
are left out only after all ranges have been attributed. -/
def records (map : SourceMap) (lookup : Lookup) (text : List Char) (ranges : List Span)
    (options : Options) : Except Error (List Record) :=
  let generated := LineIndex.ofText text
  let sources := map.sources.zip map.contents
  let pieces := ranges.flatMap (piecesOfRange generated lookup)
  match unknownSource? sources.length pieces with
  | some index => .error (.unknownSource index)
  | none =>
    .ok <| (sources.zipIdx.map fun ((url, content), index) =>
      recordOf pieces index url content).filter (!options.isExcluded ·.url)

def resolve (script : Script) (options : Options) : Except Error (List Record) :=
  match SourceMap.ofInline script.text.toList with
  | .error cause => .error (.sourceMap cause)
  | .ok map =>
    records map (LookupSession.ofMap map).sourcePosition? script.text.toList script.ranges
      options

end Assay.Coverage
