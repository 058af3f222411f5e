import Assay.Proofs.Edit.Parts

/-!
# Edits in any order

Edits that keep clear of each other can be recorded in any order: `apply_perm` gives one text and one
map for all of them, and the text is what comes of replacing the ranges one at a time in the text
itself, the last range first.
-/

namespace Assay.Edit

/-- Edits between characters of which no two overlap or have one start. -/
structure Disjoint (source : List Char) (edits : List Edit) : Prop where
  ordered : ∀ e ∈ edits, e.start ≤ e.stop
  boundaries : ∀ e ∈ edits, Boundary 0 source e.start ∧ Boundary 0 source e.stop
  apart : edits.Pairwise fun e e' => e.stop ≤ e'.start ∨ e'.stop ≤ e.start
  distinct : edits.Pairwise (·.start ≠ ·.start)

/-- The text with the range of one edit replaced, if the range stands between characters of it. -/
def replaceRange (s : List Char) (e : Edit) : Option (List Char) :=
  let (before, rest) := Text.splitAtByte e.start s
  let (old, after) := Text.splitAtByte (e.stop - e.start) rest
  if Text.bytes before = e.start ∧ e.start + Text.bytes old = e.stop then
    some (before ++ e.replacement.toList ++ after)
  else none

theorem replaceRange_append {e : Edit} (before old after : List Char)
    (start : e.start = Text.bytes before) (stop : e.stop = e.start + Text.bytes old) :
    replaceRange (before ++ old ++ after) e = some (before ++ e.replacement.toList ++ after) := by
  have hold : e.stop - e.start = Text.bytes old := by omega
  have hbefore := Text.splitAtByte_bytes before (old ++ after)
  have hafter := Text.splitAtByte_bytes old after
  rw [← start] at hbefore
  simp only [replaceRange, List.append_assoc, hbefore, hold, hafter]
  rw [if_pos ⟨start.symm, stop.symm⟩]

/-- What is spliced front to back comes of replacing the ranges back to front, where the ranges in
front still stand at their places. -/
theorem Spliced.foldlM_replaceRange {byte : Nat} {s code : List Char} {es : List Edit}
    (h : Spliced byte s es code) (front : List Char) (hfront : Text.bytes front = byte) :
    es.reverse.foldlM replaceRange (front ++ s) = some (front ++ code) := by
  induction h generalizing front with
  | nil => rfl
  | @cons byte e es code gap old rest start stop _ ih =>
    have hgap : Text.bytes (front ++ gap) = e.start := by
      rw [Text.bytes_append, hfront, start]
    have hold : Text.bytes (front ++ gap ++ old) = e.stop := by
      rw [Text.bytes_append, hgap, stop]
    have hafter := ih (front ++ gap ++ old) hold
    have hlast := replaceRange_append (front ++ gap) old code hgap.symm stop
    rw [List.reverse_cons, List.foldlM_append,
      show front ++ (gap ++ old ++ rest) = front ++ gap ++ old ++ rest by simp, hafter]
    simpa using hlast

theorem sort_perm (edits : List Edit) : (sort edits).Perm edits :=
  List.mergeSort_perm edits _

theorem sort_pairwise_le (edits : List Edit) : (sort edits).Pairwise (·.start ≤ ·.start) := by
  have hsorted : (sort edits).Pairwise fun a b => decide (a.start ≤ b.start) := by
    refine List.pairwise_mergeSort (fun a b c hab hbc => ?_) (fun a b => ?_) edits
    · simp only [decide_eq_true_eq] at hab hbc ⊢
      omega
    · simp only [Bool.or_eq_true, decide_eq_true_eq]
      omega
  exact hsorted.imp fun h => by simpa using h

namespace Disjoint

variable {source : List Char} {edits edits' : List Edit}

theorem perm (h : Disjoint source edits) (p : edits'.Perm edits) : Disjoint source edits' where
  ordered e he := h.ordered e (p.mem_iff.mp he)
  boundaries e he := h.boundaries e (p.mem_iff.mp he)
  apart := (p.pairwise_iff fun h => h.symm).mpr h.apart
  distinct := (p.pairwise_iff fun h => h.symm).mpr h.distinct

theorem sort_strict (h : Disjoint source edits) : (sort edits).Pairwise (·.start < ·.start) := by
  have hdistinct := (h.perm (sort_perm edits)).distinct
  exact (sort_pairwise_le edits).imp₂ (fun _ _ hle hne => Nat.lt_of_le_of_ne hle hne) hdistinct

/-- Two orders of the same starts are one list once they are sorted. -/
theorem sort_eq (h : Disjoint source edits) (p : edits'.Perm edits) : sort edits' = sort edits := by
  have hperm : (sort edits').Perm (sort edits) :=
    (sort_perm edits').trans (p.trans (sort_perm edits).symm)
  refine hperm.eq_of_pairwise (fun a b _ _ hab hba => ?_) (h.perm p).sort_strict h.sort_strict
  exact absurd hab (Nat.lt_asymm hba)

theorem sort_apart (h : Disjoint source edits) : (sort edits).Pairwise (·.stop ≤ ·.start) := by
  have hsorted := h.perm (sort_perm edits)
  refine (List.Pairwise.and h.sort_strict hsorted.apart).imp_of_mem ?_
  rintro e e' - he' ⟨hlt, hle | hle⟩
  · exact hle
  · have := hsorted.ordered e' he'
    omega

theorem exists_spliced (h : Disjoint source edits) : ∃ code, Spliced 0 source (sort edits) code := by
  have hsorted := h.perm (sort_perm edits)
  obtain ⟨parts, hparts⟩ := exists_parted h.sort_apart hsorted.ordered
    (fun e _ => Nat.zero_le e.start) hsorted.boundaries
  exact ⟨_, hparts.spliced⟩

end Disjoint

/-- Edits that keep clear of each other give one text and one map in every order, and the text is
what comes of replacing the ranges one at a time from the last to the first. -/
theorem apply_perm {source : List Char} {edits : List Edit} (h : Disjoint source edits) :
    (∀ edits' : List Edit, edits'.Perm edits → apply edits' source = apply edits source) ∧
      ∃ order : List Edit, order.Perm edits ∧
        order.Pairwise (fun later earlier => earlier.start < later.start) ∧
        order.foldlM replaceRange source = some (apply edits source).1 := by
  refine ⟨fun edits' p => ?_, (sort edits).reverse, ?_, ?_, ?_⟩
  · simp only [apply, h.sort_eq p]
  · exact (List.reverse_perm _).trans (sort_perm edits)
  · exact List.pairwise_reverse.mpr h.sort_strict
  · obtain ⟨code, hcode⟩ := h.exists_spliced
    have happly : (apply edits source).1 = code := assemble_spliced hcode .empty 0
    rw [happly]
    exact hcode.foldlM_replaceRange [] rfl

/-- Out of order in a text with characters of several bytes: a deletion at the very start, an
insertion right behind it, a range that becomes longer, and an insertion at the very end. -/
theorem apply_perm_insertions :
    let source := "é€a\nb".toList
    let edits : List Edit := [⟨8, 8, "!"⟩, ⟨5, 7, "𝄞"⟩, ⟨0, 2, ""⟩, ⟨2, 2, "+"⟩]
    Disjoint source edits ∧
      (apply edits source).1 = "+€𝄞b!".toList ∧
      (∀ edits' : List Edit, edits'.Perm edits → apply edits' source = apply edits source) ∧
      ∃ order : List Edit, order.Perm edits ∧
        order.Pairwise (fun later earlier => earlier.start < later.start) ∧
        order.foldlM replaceRange source = some (apply edits source).1 := by
  have h : Disjoint "é€a\nb".toList [⟨8, 8, "!"⟩, ⟨5, 7, "𝄞"⟩, ⟨0, 2, ""⟩, ⟨2, 2, "+"⟩] :=
    { ordered := by decide
      boundaries := fun e he => by
        refine ⟨boundary_of_splitAtByte ?_, boundary_of_splitAtByte ?_⟩ <;>
          revert e <;> decide
      apart := by decide
      distinct := by decide }
  have hall := apply_perm h
  have hsorted := hall.1 [⟨0, 2, ""⟩, ⟨2, 2, "+"⟩, ⟨5, 7, "𝄞"⟩, ⟨8, 8, "!"⟩] (by decide)
  refine ⟨h, ?_, hall⟩
  rw [← hsorted, apply, sort_of_pairwise (by decide)]
  decide

end Assay.Edit
