import Assay.Edit.Basic

/-!
# Edited texts

`Spliced` says what the edited text is: what no edit touches stays, and each range gives way to its
replacement. `apply_spliced` shows that applying edits gives that text.
-/

namespace Assay.Edit

/-- A text that starts at a byte, edits of it from the front on, and the text with the range of each
edit replaced. -/
inductive Spliced : Nat → List Char → List Edit → List Char → Prop where
  | nil (byte : Nat) (s : List Char) : Spliced byte s [] s
  | cons {byte : Nat} {e : Edit} {es : List Edit} {code : List Char} (gap old rest : List Char)
      (start : e.start = byte + Text.bytes gap) (stop : e.stop = e.start + Text.bytes old)
      (after : Spliced e.stop rest es code) :
      Spliced byte (gap ++ old ++ rest) (e :: es) (gap ++ e.replacement.toList ++ code)

namespace Spliced

theorem le_start {byte : Nat} {s code : List Char} {es : List Edit}
    (h : Spliced byte s es code) : ∀ e ∈ es, byte ≤ e.start := by
  induction h with
  | nil => simp
  | cons gap old rest start stop _ ih =>
    intro e he
    rcases List.mem_cons.mp he with rfl | he
    · omega
    · have := ih e he
      omega

theorem pairwise {byte : Nat} {s code : List Char} {es : List Edit}
    (h : Spliced byte s es code) : es.Pairwise (·.start ≤ ·.start) := by
  induction h with
  | nil => exact List.Pairwise.nil
  | cons gap old rest start stop after ih =>
    refine List.pairwise_cons.mpr ⟨fun e he => ?_, ih⟩
    have := after.le_start e he
    omega

end Spliced

theorem sort_of_pairwise {es : List Edit} (h : es.Pairwise (·.start ≤ ·.start)) : sort es = es :=
  List.mergeSort_of_pairwise (h.imp fun h => by simpa using h)

/-- Assembling gives the spliced text, whatever the builder holds. -/
theorem assemble_spliced {byte : Nat} {s code : List Char} {es : List Edit}
    (h : Spliced byte s es code) (b : OffsetMap.Builder) (offset : Nat) :
    (assemble b ⟨byte, offset, s⟩ es).1 = code := by
  induction h generalizing b offset with
  | nil => rfl
  | @cons byte e es code gap old rest start stop _ ih =>
    have hgap : e.start - byte = Text.bytes gap := by omega
    have hold : e.stop - e.start = Text.bytes old := by omega
    simp only [assemble, hgap, List.append_assoc, Text.splitAtByte_bytes, hold, ih]

theorem apply_spliced {s code : List Char} {es : List Edit} (h : Spliced 0 s es code) :
    (apply es s).1 = code := by
  simp only [apply, sort_of_pairwise h.pairwise]
  exact assemble_spliced h .empty 0

end Assay.Edit
