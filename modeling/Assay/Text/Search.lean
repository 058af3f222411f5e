/-!
# Pieces of a text

`after?` takes a piece off the front of a text, `occurs` looks for one anywhere in it. `after?_iff`
says that the piece and the rest make up the text. `trimStart` and `trimEnd` drop blank characters
from one side of a text, and `firstWord` is the text up to the first blank after the leading ones.
-/

namespace Assay.Text

def after? : List Char → List Char → Option (List Char)
  | [], s => some s
  | _ :: _, [] => none
  | p :: ps, c :: cs => if p = c then after? ps cs else none

theorem after?_iff (p s r : List Char) : after? p s = some r ↔ s = p ++ r := by
  induction p generalizing s with
  | nil => simp [after?]
  | cons a p ih =>
    cases s with
    | nil => simp [after?]
    | cons c s =>
      unfold after?
      split
      next h => simp [ih, h]
      next h => simpa using fun e => absurd e.symm h

def occurs (piece : List Char) : List Char → Bool
  | [] => piece.isEmpty
  | c :: r => (after? piece (c :: r)).isSome || occurs piece r

theorem occurs_iff (piece s : List Char) : occurs piece s ↔ ∃ a b, s = a ++ piece ++ b := by
  induction s with
  | nil => simp [occurs]
  | cons c r ih =>
    simp only [occurs, Bool.or_eq_true, Option.isSome_iff_exists, after?_iff, ih]
    constructor
    · rintro (⟨b, h⟩ | ⟨a, b, h⟩)
      · exact ⟨[], b, by simpa using h⟩
      · exact ⟨c :: a, b, by simp [h]⟩
    · rintro ⟨a, b, h⟩
      cases a with
      | nil => exact Or.inl ⟨b, by simpa using h⟩
      | cons d a =>
        simp only [List.cons_append, List.cons.injEq] at h
        exact Or.inr ⟨a, b, h.2⟩

/-! ### White space -/

/-- The Unicode property White_Space. -/
def isBlank (c : Char) : Bool :=
  let n := c.toNat
  (9 ≤ n && n ≤ 13) || n == 0x20 || n == 0x85 || n == 0xA0 || n == 0x1680 ||
    (0x2000 ≤ n && n ≤ 0x200A) || n == 0x2028 || n == 0x2029 || n == 0x202F || n == 0x205F ||
    n == 0x3000

def trimStart (s : List Char) : List Char := s.dropWhile isBlank

def trimEnd (s : List Char) : List Char := (s.reverse.dropWhile isBlank).reverse

def trim (s : List Char) : List Char := trimEnd (trimStart s)

/-- The first run of characters that are not blank, empty if there is none. -/
def firstWord (s : List Char) : List Char := (trimStart s).takeWhile (!isBlank ·)

end Assay.Text
