import Assay.Edit.OffsetMap

/-!
# Edits

An edit replaces a range of bytes of a text. `apply` makes all replacements at once and gives the
edited text with the offset map that leads from it back to the text before.
-/

namespace Assay

structure Edit where
  /-- First byte that is replaced. -/
  start : Nat
  /-- First byte after what is replaced. -/
  stop : Nat
  replacement : String
  deriving DecidableEq, Repr, Inhabited

namespace Edit

/-- What remains to be edited: the text after `byte` bytes, which are `offset` code units. -/
structure Remainder where
  byte : Nat
  offset : Nat
  text : List Char

def assemble (b : OffsetMap.Builder) (rest : Remainder) :
    List Edit → List Char × OffsetMap.Builder
  | [] => (rest.text, b.addSource rest.offset rest.text)
  | e :: edits =>
    let (unchanged, after) := Text.splitAtByte (e.start - rest.byte) rest.text
    let (replaced, after) := Text.splitAtByte (e.stop - e.start) after
    let start := rest.offset + Text.units unchanged
    let stop := start + Text.units replaced
    let b := (b.addSource rest.offset unchanged).addTransformed ⟨start, stop⟩ e.replacement.toList
    let (text, b) := assemble b ⟨e.stop, stop, after⟩ edits
    (unchanged ++ e.replacement.toList ++ text, b)

/-- The edits in the order of their starts; of two with one start the earlier stays first. -/
def sort (edits : List Edit) : List Edit := edits.mergeSort fun a b => a.start ≤ b.start

/-- Makes the replacements, which must not overlap and must fall between characters. -/
def apply (edits : List Edit) (source : List Char) : List Char × OffsetMap :=
  let (text, b) := assemble .empty ⟨0, 0, source⟩ (sort edits)
  (text, b.build)

end Edit

end Assay
