import Assay.Coverage.Attribution
import Assay.Text.Decimal
import Assay.Text.Lines

/-!
# Stack traces

A line of a trace that ends in a place of the generated script, in parentheses, is changed to
name the place in the source. All else stays as it is.
-/

namespace Assay.Trace

structure Reference where
  path : List Char
  line : List Char
  column : List Char
  deriving DecidableEq, Repr

def splitLast? (c : Char) (s : List Char) : Option (List Char × List Char) :=
  let after := s.reverse.takeWhile (· ≠ c)
  match s.reverse.drop after.length with
  | _ :: before => some (before.reverse, after.reverse)
  | [] => none

def Reference.ofText? (s : List Char) : Option Reference := do
  let (rest, column) ← splitLast? ':' s
  let (path, line) ← splitLast? ':' rest
  return ⟨path, line, column⟩

/-- The text of a line before its last opening parenthesis and, if the line ends in a closing one,
the text between the two. -/
def lastGroup? (line : List Char) : Option (List Char × List Char) :=
  if line.getLast? = some ')' then splitLast? '(' line.dropLast else none

def resolve? (session : LookupSession) (group : List Char) : Option (String × Position) := do
  let reference ← Reference.ofText? group
  let line ← Text.word? reference.line
  let column ← Text.word? reference.column
  let found ← session.sourcePosition? ⟨line, column⟩ .following
  let path ← session.map.source? found.source
  return (path, found.position)

def remapLine (session : LookupSession) (line : List Char) : List Char :=
  match lastGroup? line with
  | none => line
  | some (before, group) =>
    match resolve? session group with
    | none => line
    | some (path, p) =>
      before ++ '(' :: path.toList ++ ':' :: Nat.toDigits 10 p.line ++
        ':' :: Nat.toDigits 10 p.column ++ [')']

def remap (session : LookupSession) (trace : List Char) : List Char :=
  Text.unlines ((Text.lines trace).map (remapLine session))

/-- Remaps a trace by the map of the first captured script, if there is one. -/
def remapByScripts (trace : List Char) (scripts : List Coverage.Script) :
    Except Coverage.Error (List Char) :=
  match scripts with
  | [] => .ok trace
  | script :: _ =>
    match SourceMap.ofInline script.text.toList with
    | .error cause => .error (.sourceMap cause)
    | .ok map => .ok (remap (LookupSession.ofMap map) trace)

end Assay.Trace
