import Assay.Assertion.Scan
import Assay.Bisect

/-!
# Looking up masked places

The masked regions of a script come one after the other, so a bisection by their ends finds the one
that a byte is in. `isMasked_eq_bisect` says that it answers as a look at all of them does.
-/

namespace Assay.Mask

/-- Regions from a byte on, each beginning where the one before has ended or later. -/
inductive Ascending : Nat → List (Nat × Nat) → Prop where
  | nil (byte : Nat) : Ascending byte []
  | cons {byte : Nat} {region : Nat × Nat} {regions : List (Nat × Nat)} (start : byte ≤ region.1)
      (nonempty : region.1 < region.2) (later : Ascending region.2 regions) :
      Ascending byte (region :: regions)

namespace Ascending

theorem mono {byte byte' : Nat} {regions : List (Nat × Nat)} (h : Ascending byte regions)
    (hle : byte' ≤ byte) : Ascending byte' regions := by
  cases h with
  | nil => exact .nil byte'
  | cons start nonempty later => exact .cons (Nat.le_trans hle start) nonempty later

theorem le_start {byte : Nat} {regions : List (Nat × Nat)} (h : Ascending byte regions) :
    ∀ region ∈ regions, byte ≤ region.1 ∧ region.1 < region.2 := by
  induction h with
  | nil => simp
  | @cons byte region regions start nonempty later ih =>
    refine List.forall_mem_cons.mpr ⟨⟨start, nonempty⟩, fun r hr => ⟨?_, (ih r hr).2⟩⟩
    have := (ih r hr).1
    omega

/-- The regions that have ended at a place, and those that have not. -/
theorem exists_split {byte : Nat} {regions : List (Nat × Nat)} (h : Ascending byte regions)
    (place : Nat) : ∃ front back, regions = front ++ back ∧ (∀ r ∈ front, r.2 ≤ place) ∧
      (∀ r ∈ back, place < r.2) ∧ Ascending byte back := by
  induction h with
  | nil byte => exact ⟨[], [], rfl, by simp, by simp, .nil byte⟩
  | @cons byte region regions start nonempty later ih =>
    by_cases hended : region.2 ≤ place
    · obtain ⟨front, back, rfl, hfront, hback, hascending⟩ := ih
      exact ⟨region :: front, back, rfl, List.forall_mem_cons.mpr ⟨hended, hfront⟩, hback,
        hascending.mono (by omega)⟩
    · refine ⟨[], region :: regions, rfl, by simp, ?_, .cons start nonempty later⟩
      refine List.forall_mem_cons.mpr ⟨by omega, fun r hr => ?_⟩
      have := later.le_start r hr
      omega

end Ascending

theorem bytes_pos_of_mem_pieces {s : List Char} {p : Piece} (h : p ∈ pieces s) :
    0 < Text.bytes p.text := by
  have hne (n : Nat) (s : List Char) : ∀ p ∈ piecesUpTo n s, p.text ≠ [] := by
    induction n generalizing s with
    | zero => simp [piecesUpTo]
    | succ n ih =>
      cases s with
      | nil => simp [piecesUpTo]
      | cons c r => exact List.forall_mem_cons.mpr ⟨takePiece_text_ne_nil c r, ih _⟩
  obtain ⟨c, text, htext⟩ := List.exists_cons_of_ne_nil (hne _ s p h)
  have := c.utf8Size_pos
  rw [htext, Text.bytes_cons]
  omega

theorem ascending_regionsOf {ps : List Piece} (h : ∀ p ∈ ps, 0 < Text.bytes p.text)
    (byte : Nat) : Ascending byte (regionsOf byte ps) := by
  induction ps generalizing byte with
  | nil => exact .nil byte
  | cons p ps ih =>
    obtain ⟨hp, hps⟩ := List.forall_mem_cons.mp h
    unfold regionsOf
    dsimp only
    split
    · exact .cons (Nat.le_refl byte) (Nat.lt_add_of_pos_right hp) (ih hps _)
    · exact (ih hps _).mono (Nat.le_add_right _ _)

theorem ascending_maskedRegions (s : List Char) : Ascending 0 (maskedRegions s) :=
  ascending_regionsOf (fun _ h => bytes_pos_of_mem_pieces h) 0

end Assay.Mask

namespace Assay.Scan

theorem isMasked_append (front back : List (Nat × Nat)) (byte : Nat) :
    isMasked (front ++ back) byte = (isMasked front byte || isMasked back byte) :=
  List.any_append

/-- The first region that has not ended at a byte is the only one that the byte can be in. -/
theorem isMasked_eq_bisect (s : List Char) (byte : Nat) :
    isMasked (Mask.maskedRegions s) byte =
      ((Mask.maskedRegions s)[firstFalse (·.2 ≤ byte) (Mask.maskedRegions s).toArray]?).any
        (·.1 ≤ byte) := by
  obtain ⟨front, back, hsplit, hfront, hback, hascending⟩ :=
    (Mask.ascending_maskedRegions s).exists_split byte
  have hfirst : firstFalse (·.2 ≤ byte) (front ++ back).toArray = front.length :=
    firstFalse_append (by simpa using hfront) (by simpa using hback)
  have hended : isMasked front byte = false := by
    rw [isMasked, List.any_eq_false]
    intro r hr
    have := hfront r hr
    simp only [Bool.and_eq_true, decide_eq_true_eq, not_and, Nat.not_lt]
    exact fun _ => this
  rw [hsplit, hfirst, isMasked_append, hended, Bool.false_or,
    List.getElem?_append_right (Nat.le_refl _), Nat.sub_self]
  cases hascending with
  | nil => rfl
  | @cons _ region regions start nonempty later =>
    have hstop := hback region List.mem_cons_self
    rw [isMasked, List.any_cons, List.getElem?_cons_zero, Option.any_some]
    by_cases hstart : region.1 ≤ byte
    · simp [hstart, hstop]
    · have hlater : isMasked regions byte = false := by
        rw [isMasked, List.any_eq_false]
        intro r hr
        have := (later.le_start r hr).1
        simp only [Bool.and_eq_true, decide_eq_true_eq, not_and, Nat.not_lt]
        omega
      rw [isMasked] at hlater
      simp [hstart, hlater]

end Assay.Scan
