import Assay.Bisect
import Assay.Text.Units

/-!
# Lines and columns

A position is a line, counted from 1, and a column in UTF-16 code units. A line index holds the
offsets at which the lines of a text start and converts between offsets and positions.
-/

namespace Assay

structure Position where
  line : Nat
  column : Nat
  deriving DecidableEq, Repr, Inhabited

namespace Position

/-- The order of the text: by line, then by column. -/
def le (p q : Position) : Bool := p.line < q.line || (p.line == q.line && p.column ≤ q.column)

def origin : Position := ⟨1, 0⟩

end Position

structure LineIndex where
  /-- The offset at which each line starts, in ascending order. -/
  starts : Array Nat
  length : Nat

namespace LineIndex

/-- The offsets just after the newlines of a text that starts at `offset`. -/
def startsAfter (offset : Nat) : List Char → List Nat
  | [] => []
  | c :: r =>
    let next := offset + Text.charUnits c
    if c = '\n' then next :: startsAfter next r else startsAfter next r

def ofText (s : List Char) : LineIndex := ⟨(0 :: startsAfter 0 s).toArray, Text.units s⟩

def lineCount (x : LineIndex) : Nat := x.starts.size

def isEmpty (x : LineIndex) : Bool := x.length == 0

/-- The position of an offset, none beyond the end of the text. -/
def position? (x : LineIndex) (offset : Nat) : Option Position :=
  if x.length < offset then none
  else
    let line := firstFalse (· ≤ offset) x.starts
    x.starts[line - 1]?.map fun start => ⟨line, offset - start⟩

def lineStart? (x : LineIndex) (line : Nat) : Option Nat :=
  if line = 0 then none else x.starts[line - 1]?

/-- The offset of the newline that ends a line, or of the end of the text. -/
def lineEnd? (x : LineIndex) (line : Nat) : Option Nat :=
  if line = 0 ∨ x.starts.size < line then none
  else match x.starts[line]? with
    | some next => some (next - 1)
    | none => some x.length

/-- The offset of a position. A column beyond its line means the end of the line, a line beyond the
text the end of the text. -/
def offset (x : LineIndex) (p : Position) : Nat :=
  let line := max p.line 1
  match x.lineStart? line, x.lineEnd? line with
  | some start, some stop => start + min p.column (stop - start)
  | _, _ => x.length

end LineIndex

end Assay
