import Assay.Text.Decimal

/-!
# Numbers below 2^32

`word?_eq_some` says which texts are read as a number, and as which one.
-/

namespace Assay

namespace Text

/-- A number below 2^32 in decimal digits, perhaps after a plus sign. -/
def IsWord (s : List Char) (n : Nat) : Prop :=
  ∃ digits, (s = digits ∨ s = '+' :: digits) ∧ digits ≠ [] ∧ (∀ c ∈ digits, c.isDigit = true) ∧
    Nat.ofDigitChars 10 digits 0 = n ∧ n < 0x100000000

def withoutPlus : List Char → List Char
  | '+' :: r => r
  | s => s

theorem eq_withoutPlus (s : List Char) : s = withoutPlus s ∨ s = '+' :: withoutPlus s := by
  unfold withoutPlus
  split
  next r => exact Or.inr rfl
  next => exact Or.inl rfl

theorem withoutPlus_digits {digits : List Char} (h : ∀ c ∈ digits, c.isDigit = true) :
    withoutPlus digits = digits := by
  unfold withoutPlus
  split
  next r => exact absurd (h '+' List.mem_cons_self) (by decide)
  next => rfl

theorem word?_eq (s : List Char) : word? s =
    if (withoutPlus s).isEmpty ∨ ¬ (withoutPlus s).all Char.isDigit then none
    else if Nat.ofDigitChars 10 (withoutPlus s) 0 < 0x100000000 then
      some (Nat.ofDigitChars 10 (withoutPlus s) 0)
    else none := by
  rw [Nat.ofDigitChars_eq_foldl]
  simp only [Nat.mul_comm 10, show ('0' : Char).toNat = 48 from rfl]
  rfl

theorem word?_eq_some {s : List Char} {n : Nat} : word? s = some n ↔ IsWord s n := by
  rw [word?_eq]
  constructor
  · intro h
    split at h
    next => cases h
    next hdigits =>
      split at h
      next hlt =>
        obtain rfl := Option.some.inj h
        rw [not_or, Decidable.not_not, List.isEmpty_iff, List.all_eq_true] at hdigits
        exact ⟨withoutPlus s, eq_withoutPlus s, hdigits.1, hdigits.2, rfl, hlt⟩
      next => cases h
  · rintro ⟨digits, hs, hne, hdigits, rfl, hlt⟩
    have hplus : withoutPlus s = digits := by
      rcases hs with rfl | rfl
      · exact withoutPlus_digits hdigits
      · rfl
    rw [hplus, if_neg, if_pos hlt]
    rw [not_or, Decidable.not_not, List.isEmpty_iff, List.all_eq_true]
    exact ⟨hne, hdigits⟩

end Text

end Assay
