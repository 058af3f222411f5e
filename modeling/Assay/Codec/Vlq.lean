import Assay.Codec.Base64

/-!
# Variable length quantities

A quantity is written in base64 digits of five bits, least first, with a sixth bit on every digit
but the last. Its lowest bit is the sign. `encode` writes the fewest digits; `decode?` adds the
digits up in 64-bit two's complement and accepts thirteen of them.
-/

namespace Assay.Vlq

/-- A sum in 64-bit two's complement. -/
def wrap64 (n : Int) : Int := n.bmod UInt64.size

theorem wrap64_of_small (n : Int) (h : -0x8000000000000000 ≤ n ∧ n < 0x8000000000000000) :
    wrap64 n = n := by
  simp only [wrap64, Int.bmod, show ((UInt64.size : Nat) : Int) = 0x10000000000000000 from rfl]
  split <;> omega

/-- The magnitude shifted left, the sign in the lowest bit. -/
def fold (value : Int) : Nat := 2 * value.natAbs + (if value < 0 then 1 else 0)

def unfold (n : Int) : Int := if n % 2 = 1 then -(n / 2) else n / 2

theorem unfold_fold (v : Int) : unfold (fold v) = v := by
  unfold unfold fold
  split <;> split at * <;> omega

def encodeNat (n : Nat) : List Char :=
  if n < 32 then [Base64.digit n] else Base64.digit (n % 32 + 32) :: encodeNat (n / 32)
termination_by n
decreasing_by omega

def encode (value : Int) : List Char := encodeNat (fold value)

/-- Adds up the digits at the front of a text; `count` of them have been read and give `sum`. -/
def decodeFrom (sum : Int) (count : Nat) : List Char → Option (Int × Nat)
  | [] => none
  | c :: r =>
    match Base64.value? c with
    | none => none
    | some d =>
      if 12 < count then none
      else
        let sum := wrap64 (sum + wrap64 (Int.ofNat ((d % 32) <<< (5 * count))))
        if d < 32 then some (unfold sum, count + 1) else decodeFrom sum (count + 1) r

def decode? (s : List Char) : Option (Int × Nat) := decodeFrom 0 0 s

end Assay.Vlq
