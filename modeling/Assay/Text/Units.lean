import Assay.Json.Printer
import Assay.Json.Record

/-!
# Measures of a text

A text is a list of characters. `units` counts it in UTF-16 code units and `bytes` in UTF-8 bytes;
both are additive, so an offset in either is the measure of what stands before it. A span is a
half-open range of offsets in code units.
-/

namespace Assay

structure Span where
  start : Nat
  stop : Nat
  deriving DecidableEq, Repr, Inhabited

namespace Span

def length (s : Span) : Nat := s.stop - s.start

def isEmpty (s : Span) : Bool := s.stop ≤ s.start

def contains (s : Span) (offset : Nat) : Bool := s.start ≤ offset && offset < s.stop

/-- Each span starts before the other one ends. -/
def overlaps (s t : Span) : Bool := s.start < t.stop && t.start < s.stop

def toJson (s : Span) : Json := .object [("start", .nat s.start), ("end", .nat s.stop)]

def ofJson? (j : Json) : Option Span :=
  match Json.slots? ["start", "end"] j with
  | some [start, stop] => do
    return ⟨← Json.required? Json.word? start, ← Json.required? Json.word? stop⟩
  | _ => none

theorem contains_iff (s : Span) (o : Nat) : s.contains o ↔ s.start ≤ o ∧ o < s.stop := by
  simp [contains]

end Span

namespace Text

/-- The UTF-16 code units of a character: two outside the basic plane. -/
def charUnits (c : Char) : Nat := if c.toNat < 0x10000 then 1 else 2

/-- The length of a text in UTF-16 code units. -/
def units (s : List Char) : Nat := s.foldl (fun n c => n + charUnits c) 0

/-- The length of a text in UTF-8 bytes. -/
def bytes (s : List Char) : Nat := s.foldl (fun n c => n + c.utf8Size) 0

theorem charUnits_pos (c : Char) : 0 < charUnits c := by
  unfold charUnits; split <;> omega

theorem foldl_add_eq (f : Char → Nat) (s : List Char) (n : Nat) :
    s.foldl (fun n c => n + f c) n = n + s.foldl (fun n c => n + f c) 0 := by
  induction s generalizing n with
  | nil => simp
  | cons c s ih => rw [List.foldl_cons, List.foldl_cons, ih, ih (0 + f c)]; omega

@[simp] theorem units_nil : units [] = 0 := rfl

@[simp] theorem units_cons (c : Char) (r : List Char) : units (c :: r) = charUnits c + units r := by
  rw [units, List.foldl_cons, foldl_add_eq, Nat.zero_add]; rfl

@[simp] theorem bytes_nil : bytes [] = 0 := rfl

@[simp] theorem bytes_cons (c : Char) (r : List Char) : bytes (c :: r) = c.utf8Size + bytes r := by
  rw [bytes, List.foldl_cons, foldl_add_eq, Nat.zero_add]; rfl

@[simp] theorem units_append (s t : List Char) : units (s ++ t) = units s + units t := by
  induction s with
  | nil => simp
  | cons c s ih => simp [ih, Nat.add_assoc]

@[simp] theorem bytes_append (s t : List Char) : bytes (s ++ t) = bytes s + bytes t := by
  induction s with
  | nil => simp
  | cons c s ih => simp [ih, Nat.add_assoc]

/-- Splits a text after `n` bytes, before the character that would go beyond. -/
def splitAtByte : Nat → List Char → List Char × List Char
  | _, [] => ([], [])
  | n, c :: r =>
    if c.utf8Size ≤ n then
      let (before, after) := splitAtByte (n - c.utf8Size) r
      (c :: before, after)
    else ([], c :: r)

theorem splitAtByte_append (n : Nat) (s : List Char) :
    (splitAtByte n s).1 ++ (splitAtByte n s).2 = s := by
  induction s generalizing n with
  | nil => rfl
  | cons c r ih => unfold splitAtByte; split <;> simp [ih]

theorem splitAtByte_bytes (s t : List Char) : splitAtByte (bytes s) (s ++ t) = (s, t) := by
  induction s with
  | nil => cases t with
    | nil => rfl
    | cons c t => simp [splitAtByte, Nat.not_le.mpr c.utf8Size_pos]
  | cons c s ih => simp [splitAtByte, ih]

/-- What stands between two bytes of a text, if no character stands across one of them. -/
def slice? (start stop : Nat) (s : List Char) : Option (List Char) :=
  let (front, _) := splitAtByte stop s
  let (before, text) := splitAtByte start front
  if bytes front = stop ∧ bytes before = start then some text else none

theorem slice?_bytes (before text after : List Char) :
    slice? (bytes before) (bytes before + bytes text) (before ++ (text ++ after)) = some text := by
  have hfront : splitAtByte (bytes before + bytes text) (before ++ (text ++ after)) =
      (before ++ text, after) := by
    rw [← bytes_append, ← List.append_assoc, splitAtByte_bytes]
  simp only [slice?, hfront, splitAtByte_bytes, bytes_append, and_self, if_true]

end Text

end Assay
