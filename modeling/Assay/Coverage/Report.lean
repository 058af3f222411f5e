import Assay.Coverage.Attribution
import Assay.Text.Decimal
import Assay.Text.Lines
import Assay.Text.Search

/-!
# Coverage reports

Attributed ranges in the shape of a runtime's coverage, the report that counts every line that is
not blank as a statement, and the table that sums a report up.
-/

namespace Assay.Coverage

structure CountedRange where
  span : Span
  count : Nat
  deriving DecidableEq, Repr

/-- The coverage of one source as a runtime reports it: functions, each a list of ranges. -/
structure RuntimeScript where
  id : Nat
  path : String
  text : String
  functions : List (List CountedRange)
  deriving DecidableEq, Repr

/-- Each source as one function whose ranges were executed once. -/
def runtimeScripts (records : List Record) : List RuntimeScript :=
  records.zipIdx.map fun (r, id) => ⟨id, r.url, r.text, [r.ranges.map (⟨·, 1⟩)]⟩

namespace RuntimeScript

def rangeToJson (r : CountedRange) : Json :=
  .object [("startOffset", .nat r.span.start), ("endOffset", .nat r.span.stop),
    ("count", .nat r.count)]

def functionToJson (ranges : List CountedRange) : Json :=
  .object [("ranges", .array (ranges.map rangeToJson)), ("isBlockCoverage", .bool true)]

def toJson (s : RuntimeScript) : Json :=
  .object [("scriptId", .nat s.id), ("url", .string ("file://" ++ s.path)),
    ("functions", .array (s.functions.map functionToJson))]

end RuntimeScript

structure Statement where
  start : Position
  stop : Position
  hits : Nat
  deriving DecidableEq, Repr

structure Tally where
  total : Nat
  covered : Nat
  deriving DecidableEq, Repr

namespace Tally

def ofHits (hits : List Nat) : Tally := ⟨hits.length, hits.countP (0 < ·)⟩

def add (a b : Tally) : Tally := ⟨a.total + b.total, a.covered + b.covered⟩

/-- The double nearest to the percentage of statements that were hit, 100 of none. -/
def percent (t : Tally) : Dyadic :=
  if t.total = 0 then ⟨100, 0⟩ else .nearest (t.covered * 100) t.total

end Tally

structure FileReport where
  path : String
  statements : List Statement
  deriving DecidableEq, Repr

namespace FileReport

def tally (f : FileReport) : Tally := .ofHits (f.statements.map (·.hits))

def positionToJson (p : Position) : Json :=
  .object [("line", .nat p.line), ("column", .nat p.column)]

/-- The report as JSON: statements are numbered from 0, and there are no functions or branches. -/
def toJson (f : FileReport) : Json :=
  let numbered (value : Statement → Json) : Json :=
    .object (f.statements.zipIdx.map fun (s, i) => (toString i, value s))
  .object [("path", .string f.path),
    ("statementMap", numbered fun s =>
      .object [("start", positionToJson s.start), ("end", positionToJson s.stop)]),
    ("s", numbered (.nat ·.hits)), ("fnMap", .object []), ("f", .object []),
    ("branchMap", .object []), ("b", .object [])]

end FileReport

/-- Values by path, in the order in which the paths came first. -/
abbrev ByPath (α : Type) := List (String × α)

/-- Puts a value under a path; a path that is there already keeps its place. -/
def ByPath.put (path : String) (value : α) : ByPath α → ByPath α
  | [] => [(path, value)]
  | (p, v) :: rest => if p = path then (path, value) :: rest else (p, v) :: put path value rest

abbrev Report := ByPath FileReport

def Report.toJson (r : Report) : Json := .object (r.map fun (path, file) => (path, file.toJson))

/-! ### Statements by lines -/

/-- The span of the text of a line without the white space around it, none if it is blank. -/
def contentSpan? (line : List Char) : Option Span :=
  let indent := Text.units (line.takeWhile Text.isBlank)
  let content := Text.trim line
  if content.isEmpty then none else some ⟨indent, indent + Text.units content⟩

def statementsOf (executed : List Span) (number offset : Nat) : List (List Char) → List Statement
  | [] => []
  | line :: rest =>
    let after := statementsOf executed (number + 1) (offset + Text.units line + 1) rest
    match contentSpan? (Text.dropCarriageReturn line) with
    | none => after
    | some content =>
      let span : Span := ⟨offset + content.start, offset + content.stop⟩
      ⟨⟨number, content.start⟩, ⟨number, content.stop⟩,
        if executed.any (·.overlaps span) then 1 else 0⟩ :: after

/-- The path of a report: without its scheme, and below the root if it is relative. -/
def reportPath (root : Option String) (path : String) : String :=
  let path := (Text.after? "file://".toList path.toList).getD path.toList
  match root with
  | none => String.ofList path
  | some root =>
    if path.head? = some '/' then String.ofList path
    else
      let root := root.toList
      let slash := if root.isEmpty ∨ root.getLast? = some '/' then [] else ['/']
      String.ofList (root ++ slash ++ path)

/-- The report of one script: a statement is hit if an executed range overlaps it. -/
def fileReport (root : Option String) (script : RuntimeScript) : FileReport :=
  let executed := (script.functions.flatten.filter (0 < ·.count)).map (·.span)
  ⟨reportPath root script.path, statementsOf executed 1 0 (Text.lines script.text.toList)⟩

/-- The reports of scripts by path; of two with one path the later counts. -/
def report (root : Option String) (scripts : List RuntimeScript) : Report :=
  scripts.foldl (fun r s => let file := fileReport root s; ByPath.put file.path file r) []

/-- The report of captured scripts, which is that of the first. -/
def reportOfScripts (scripts : List Script) (options : Options) : Except Error Report :=
  match scripts with
  | [] => .ok []
  | script :: _ => (resolve script options).map fun records =>
      report options.root (runtimeScripts records)

/-! ### The table -/

def padRight (width : Nat) (s : List Char) : List Char :=
  s ++ List.replicate (width - s.length) ' '

def padLeft (width : Nat) (s : List Char) : List Char :=
  List.replicate (width - s.length) ' ' ++ s

def tableLine (width : Nat) (label middle right : List Char) : List Char :=
  padRight width label ++ ' ' :: ' ' :: padLeft 9 middle ++ ' ' :: ' ' :: padLeft 7 right ++ ['\n']

def tableRow (width : Nat) (label : String) (t : Tally) : List Char :=
  tableLine width label.toList (Nat.toDigits 10 t.covered ++ '/' :: Nat.toDigits 10 t.total)
    (t.percent.fixed 2)

def table (tallies : ByPath Tally) : String :=
  let all := "All files"
  let width := (tallies.map fun (path, _) => Text.bytes path.toList).foldl max all.length
  let total := tallies.foldl (fun sum (_, t) => sum.add t) ⟨0, 0⟩
  String.ofList <|
    tableLine width "File".toList "Stmts".toList "% Stmts".toList ++
      tallies.flatMap (fun (path, t) => tableRow width path t) ++ tableRow width all total

def Report.table (r : Report) : String :=
  Coverage.table (r.map fun (path, file) => (path, file.tally))

end Assay.Coverage
