import Assay.Bisect
import Assay.SourceMap.Basic
import Assay.Text.Units

/-!
# Offset maps

An offset map says for each piece of an edited text which span of the source it stands for, and
whether it is a copy of it. A builder collects the pieces front to back. `toSourceMap` renders the
map as a source map of one source.
-/

namespace Assay

structure Piece where
  generated : Span
  source : Span
  /-- The piece is a copy of the source. -/
  verbatim : Bool
  deriving DecidableEq, Repr, Inhabited

structure OffsetMap where
  pieces : Array Piece

namespace OffsetMap

def size (m : OffsetMap) : Nat := m.pieces.size

def isEmpty (m : OffsetMap) : Bool := m.pieces.isEmpty

def pieceAt? (m : OffsetMap) (offset : Nat) : Option Piece :=
  m.pieces[firstFalse (·.generated.start ≤ offset) m.pieces - 1]?.filter
    (·.generated.contains offset)

/-- The place of a piece that an offset in it stands for: the same place of a copy, the start of
what a replacement replaces. -/
def originOf (p : Piece) (offset : Nat) : Nat :=
  if p.verbatim then p.source.start + (offset - p.generated.start) else p.source.start

def sourceOffset? (m : OffsetMap) (offset : Nat) : Option Nat :=
  (m.pieceAt? offset).map (originOf · offset)

/-- The token of an offset of a piece. A replacement has tokens only where it or a line of it
starts. -/
def token? (generated source : LineIndex) (p : Piece) (offset : Nat) : Option MapToken := do
  let position ← generated.position? offset
  if !p.verbatim && offset != p.generated.start && position.column != 0 then none
  else
    let origin ← source.position? (originOf p offset)
    return ⟨position, some ⟨0, origin.line, origin.column, none⟩⟩

/-- Of tokens that follow each other at one place only the first. -/
def dropRepeats : List MapToken → List MapToken
  | [] => []
  | t :: r => t :: dropRepeats (r.dropWhile (·.generated = t.generated))
termination_by l => l.length
decreasing_by
  have := (List.dropWhile_sublist (fun u => decide (u.generated = t.generated)) (l := r)).length_le
  simp only [List.length_cons]
  omega

/-- The map as a source map: a token for every offset of a copy and for every line of a
replacement. -/
def toSourceMap (m : OffsetMap) (generated source : List Char) (file : String) : SourceMap :=
  let generatedIndex := LineIndex.ofText generated
  let sourceIndex := LineIndex.ofText source
  let tokens := m.pieces.toList.flatMap fun p =>
    (List.range' p.generated.start p.generated.length).filterMap
      (token? generatedIndex sourceIndex p)
  .ofTokens [file] [String.ofList source] (dropRepeats tokens)

/-- Pieces collected so far, last first, and the length of their text. -/
structure Builder where
  pieces : List Piece
  length : Nat

namespace Builder

def empty : Builder := ⟨[], 0⟩

def push (b : Builder) (source : Span) (length : Nat) (verbatim : Bool) : Builder :=
  ⟨⟨⟨b.length, b.length + length⟩, source, verbatim⟩ :: b.pieces, b.length + length⟩

def addSource (b : Builder) (start : Nat) (text : List Char) : Builder :=
  let length := Text.units text
  if length = 0 then b else b.push ⟨start, start + length⟩ length true

def addTransformed (b : Builder) (source : Span) (text : List Char) : Builder :=
  b.push source (Text.units text) false

def build (b : Builder) : OffsetMap := ⟨b.pieces.reverse.toArray⟩

end Builder

end OffsetMap

end Assay
