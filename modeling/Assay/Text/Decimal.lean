/-!
# Decimal numbers in text

`word?` reads a number below 2^32. `Dyadic.nearest` rounds a ratio to the 53 significant bits of a
double and `Dyadic.fixed` writes such a number with a fixed count of decimals; both take the even
neighbour of a tie.
-/

namespace Assay

/-- The integer nearest to a ratio, the even one of two. -/
def roundDiv (num den : Nat) : Nat :=
  let q := num / den
  let twice := 2 * (num % den)
  if den < twice ∨ (den = twice ∧ q % 2 = 1) then q + 1 else q

/-- A mantissa divided by a power of two. -/
structure Dyadic where
  mantissa : Nat
  scale : Nat
  deriving DecidableEq, Repr

namespace Dyadic

/-- The double nearest to a ratio below 2^52. -/
def nearest (num den : Nat) : Dyadic :=
  if num = 0 ∨ den = 0 then ⟨0, 0⟩
  else
    let scale := 52 + den.log2 - num.log2
    let scale := if (num <<< scale) / den < 0x10000000000000 then scale + 1 else scale
    ⟨roundDiv (num <<< scale) den, scale⟩

def fixed (d : Dyadic) (places : Nat) : List Char :=
  let unit := Nat.pow 10 places
  let n := roundDiv (d.mantissa * unit) (1 <<< d.scale)
  let decimals := Nat.toDigits 10 (n % unit)
  Nat.toDigits 10 (n / unit) ++
    '.' :: List.replicate (places - decimals.length) '0' ++ decimals

end Dyadic

namespace Text

/-- Reads a number below 2^32: decimal digits, perhaps after a plus sign. -/
def word? (s : List Char) : Option Nat :=
  let ds := match s with
    | '+' :: r => r
    | r => r
  if ds.isEmpty ∨ ¬ ds.all Char.isDigit then none
  else
    let n := ds.foldl (fun n c => n * 10 + (c.toNat - 48)) 0
    if n < 0x100000000 then some n else none

end Text

end Assay
