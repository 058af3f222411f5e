import Assay.Codec.Vlq
import Assay.Text.Units
import Mathlib.Data.List.SplitBy
import Mathlib.Data.Nat.Digits.Defs

/-!
# The text of a quantity

A quantity is up to thirteen digits, all but the last with their sixth bit set, and its value is the
number that their other bits spell. `decode?_texts` says that decoding reads the first such text off
a longer one, whatever comes behind.
-/

namespace Assay.Vlq

/-- A digit that another one of its quantity follows. -/
def continues (c : Char) : Bool := (Base64.value? c).any (32 ≤ ·)

/-- A text cut behind each character that no other one of its quantity follows. -/
def texts (s : List Char) : List (List Char) := s.splitBy fun c _ => continues c

/-- The number that digits spell with their low five bits, the least first. -/
def magnitude (digits : List Nat) : Nat := Nat.ofDigits 32 (digits.map (· % 32))

/-- The quantity that a whole text spells, in 64-bit two's complement with the sign in the lowest
bit. -/
def quantity? (s : List Char) : Option Int :=
  match s.mapM Base64.value? with
  | some digits =>
    if digits.length ≤ 13 ∧ s.dropLast.all continues ∧ digits.getLast?.any (· < 32) then
      some (unfold (wrap64 (magnitude digits)))
    else none
  | none => none

/-! ### Sums of digits -/

theorem wrap64_add_wrap64 (m n : Int) : wrap64 (m + wrap64 n) = wrap64 (m + n) := Int.add_bmod_bmod

theorem wrap64_wrap64_add (m n : Int) : wrap64 (wrap64 m + n) = wrap64 (m + n) := Int.bmod_add_bmod

theorem magnitude_cons (d : Nat) (digits : List Nat) :
    magnitude (d :: digits) = d % 32 + 32 * magnitude digits := by
  rw [magnitude, List.map_cons, Nat.ofDigits_cons]
  rfl

theorem digit_shiftLeft (d count : Nat) : (d % 32) <<< (5 * count) = 32 ^ count * (d % 32) := by
  rw [Nat.shiftLeft_eq, Nat.pow_mul, Nat.mul_comm]

/-- The sum with one digit more, as decoding has it after `count` digits. -/
def addDigit (sum : Int) (count d : Nat) : Int :=
  wrap64 (sum + wrap64 (Int.ofNat ((d % 32) <<< (5 * count))))

theorem addDigit_last (sum : Int) (count d : Nat) :
    addDigit sum count d = wrap64 (sum + ((32 ^ count * magnitude [d] : Nat) : Int)) := by
  rw [addDigit, wrap64_add_wrap64, digit_shiftLeft, magnitude_cons]
  rfl

theorem addDigit_cons (sum : Int) (count d : Nat) (digits : List Nat) :
    wrap64 (addDigit sum count d + ((32 ^ (count + 1) * magnitude digits : Nat) : Int)) =
      wrap64 (sum + ((32 ^ count * magnitude (d :: digits) : Nat) : Int)) := by
  rw [addDigit, wrap64_add_wrap64, wrap64_wrap64_add, digit_shiftLeft, magnitude_cons,
    Int.ofNat_eq_natCast]
  congr 1
  push_cast
  ring

theorem continues_iff {c : Char} :
    continues c = true ↔ ∃ d, Base64.value? c = some d ∧ 32 ≤ d := by
  simp [continues, Option.any_eq_true]

/-! ### Decoding digits -/

theorem decodeFrom_of_lt {count : Nat} (h : 12 < count) (sum : Int) (s : List Char) :
    decodeFrom sum count s = none := by
  cases s with
  | nil => rfl
  | cons c s =>
    unfold decodeFrom
    split
    · rfl
    · exact if_pos h

theorem decodeFrom_last {c : Char} {d count : Nat} (hc : Base64.value? c = some d)
    (hlast : d < 32) (hcount : count ≤ 12) (sum : Int) (s : List Char) :
    decodeFrom sum count (c :: s) = some (unfold (addDigit sum count d), count + 1) := by
  unfold decodeFrom
  simp only [hc, Nat.not_lt.mpr hcount, hlast, if_true, if_false]
  rfl

theorem decodeFrom_more {c : Char} {d count : Nat} (hc : Base64.value? c = some d)
    (hmore : 32 ≤ d) (hcount : count ≤ 12) (sum : Int) (s : List Char) :
    decodeFrom sum count (c :: s) = decodeFrom (addDigit sum count d) (count + 1) s := by
  rw [decodeFrom]
  simp only [hc, Nat.not_lt.mpr hcount, Nat.not_lt.mpr hmore, if_false]
  rfl

/-- Digits up to the last one of a quantity, by induction on those before it; the sum and the count
of what was read stand for any digits in front. -/
theorem decodeFrom_complete {front : List Char} (hfront : ∀ x ∈ front, continues x) {c : Char}
    {d : Nat} (hc : Base64.value? c = some d) (hlast : d < 32) {digits : List Nat}
    (hdigits : (front ++ [c]).mapM Base64.value? = some digits) (rest : List Char) (sum : Int)
    (count : Nat) :
    decodeFrom sum count (front ++ c :: rest) =
      if count + front.length ≤ 12 then
        some (unfold (wrap64 (sum + ((32 ^ count * magnitude digits : Nat) : Int))),
          count + front.length + 1)
      else none := by
  by_cases hcount : 12 < count
  · rw [decodeFrom_of_lt hcount, if_neg (by omega)]
  have hcount : count ≤ 12 := Nat.not_lt.mp hcount
  induction front generalizing digits sum count with
  | nil =>
    obtain rfl : [d] = digits := by simpa [hc] using hdigits
    rw [List.nil_append, decodeFrom_last hc hlast hcount, addDigit_last]
    exact (if_pos hcount).symm
  | cons x front ih =>
    obtain ⟨hx, hfront⟩ := List.forall_mem_cons.mp hfront
    obtain ⟨e, he, hmore⟩ := continues_iff.mp hx
    obtain ⟨digits', hdigits', rfl⟩ : ∃ digits', (front ++ [c]).mapM Base64.value? = some digits' ∧
        e :: digits' = digits := by
      rw [List.cons_append, List.mapM_cons, he] at hdigits
      simpa [Option.bind_eq_some_iff] using hdigits
    rw [List.cons_append, decodeFrom_more he hmore hcount, List.length_cons, ← Nat.add_assoc,
      Nat.add_right_comm count]
    by_cases hnext : count + 1 ≤ 12
    · rw [ih hfront hdigits' _ _ (by omega) hnext, addDigit_cons]
    · rw [decodeFrom_of_lt (by omega), if_neg (by omega)]

/-- Digits that all continue, with no digit behind them. -/
theorem decodeFrom_unfinished {front rest : List Char} (hfront : ∀ x ∈ front, continues x)
    (hrest : ∀ c ∈ rest.head?, Base64.value? c = none) (sum : Int) (count : Nat) :
    decodeFrom sum count (front ++ rest) = none := by
  induction front generalizing sum count with
  | nil =>
    cases rest with
    | nil => rfl
    | cons c rest =>
      rw [List.nil_append, decodeFrom, hrest c rfl]
  | cons x front ih =>
    obtain ⟨hx, hfront⟩ := List.forall_mem_cons.mp hfront
    obtain ⟨e, he, hmore⟩ := continues_iff.mp hx
    by_cases hcount : 12 < count
    · exact decodeFrom_of_lt hcount _ _
    · rw [List.cons_append, decodeFrom_more he hmore (Nat.not_lt.mp hcount)]
      exact ih hfront _ _

/-! ### Texts of quantities -/

theorem isChain_continues {front : List Char} {c : Char} :
    (front ++ [c]).IsChain (fun x _ => continues x) ↔ ∀ x ∈ front, continues x := by
  induction front with
  | nil => simp
  | cons x front ih =>
    rw [List.cons_append, List.isChain_cons, ih, List.forall_mem_cons]
    refine and_congr_left fun _ => ⟨fun h => ?_, fun h _ _ => h⟩
    cases front with
    | nil => exact h c rfl
    | cons y front => exact h y rfl

theorem texts_cons {s chunk : List Char} {chunks : List (List Char)}
    (h : texts s = chunk :: chunks) :
    ∃ front c, chunk = front ++ [c] ∧ s = front ++ c :: chunks.flatten ∧
      texts chunks.flatten = chunks ∧ (∀ x ∈ front, continues x) ∧
      (continues c → chunks = []) := by
  obtain ⟨rfl, hnil, hchain, hborder⟩ := List.splitBy_eq_iff.mp h
  obtain ⟨hne, hnil'⟩ := List.ne_and_not_mem_of_not_mem_cons hnil
  obtain ⟨hchunk, hchain'⟩ := List.forall_mem_cons.mp hchain
  obtain rfl | ⟨front, c, rfl⟩ := List.eq_nil_or_concat' chunk
  · exact absurd rfl hne
  have htexts : texts chunks.flatten = chunks :=
    List.splitBy_flatten hnil' hchain' hborder.tail
  refine ⟨front, c, rfl, by simp, htexts, isChain_continues.mp hchunk, fun hc => ?_⟩
  cases chunks with
  | nil => rfl
  | cons next chunks =>
    obtain ⟨hlast, -, hstop⟩ := hborder.rel
    rw [List.getLast_concat, hc] at hstop
    cases hstop

theorem texts_tail {s chunk : List Char} {chunks : List (List Char)}
    (h : texts s = chunk :: chunks) :
    chunk ≠ [] ∧ s = chunk ++ chunks.flatten ∧ texts chunks.flatten = chunks := by
  obtain ⟨front, c, rfl, rfl, htexts, -, -⟩ := texts_cons h
  exact ⟨List.concat_ne_nil c front, by simp, htexts⟩

theorem mapM_continues {front : List Char} (hfront : ∀ x ∈ front, continues x) :
    ∃ digits, front.mapM Base64.value? = some digits ∧ digits.length = front.length := by
  induction front with
  | nil => exact ⟨[], rfl, rfl⟩
  | cons x front ih =>
    obtain ⟨hx, hfront⟩ := List.forall_mem_cons.mp hfront
    obtain ⟨d, hd, -⟩ := continues_iff.mp hx
    obtain ⟨digits, hdigits, hlength⟩ := ih hfront
    refine ⟨d :: digits, ?_, by rw [List.length_cons, hlength, List.length_cons]⟩
    rw [List.mapM_cons, hd, hdigits]
    rfl

theorem quantity?_of_none {front : List Char} (hfront : ∀ x ∈ front, continues x) {c : Char}
    (hc : Base64.value? c = none) : quantity? (front ++ [c]) = none := by
  obtain ⟨digits, hdigits, -⟩ := mapM_continues hfront
  have hmapM : (front ++ [c]).mapM Base64.value? = none := by
    rw [List.mapM_append, hdigits, List.mapM_cons, hc]
    rfl
  rw [quantity?, hmapM]

theorem quantity?_of_some {front : List Char} (hfront : ∀ x ∈ front, continues x) {c : Char}
    {d : Nat} (hc : Base64.value? c = some d) :
    ∃ digits, (front ++ [c]).mapM Base64.value? = some digits ∧
      quantity? (front ++ [c]) =
        if front.length ≤ 12 ∧ d < 32 then some (unfold (wrap64 (magnitude digits))) else none := by
  obtain ⟨digits, hdigits, hlength⟩ := mapM_continues hfront
  have hmapM : (front ++ [c]).mapM Base64.value? = some (digits ++ [d]) := by
    rw [List.mapM_append, hdigits, List.mapM_cons, hc]
    rfl
  refine ⟨digits ++ [d], hmapM, ?_⟩
  rw [quantity?, hmapM]
  simp only [List.length_append, hlength, List.length_singleton, List.dropLast_concat,
    List.all_eq_true.mpr hfront, List.getLast?_concat, Option.any_some, decide_eq_true_eq, true_and,
    Nat.succ_le_succ_iff]

theorem utf8Size_of_value? {c : Char} {d : Nat} (h : Base64.value? c = some d) :
    c.utf8Size = 1 := by
  have hascii : c.toNat ≤ 127 := by
    refine Nat.le_of_not_lt fun hlt => ?_
    have hplus : c ≠ '+' := by
      rintro rfl
      exact absurd hlt (by decide)
    have hslash : c ≠ '/' := by
      rintro rfl
      exact absurd hlt (by decide)
    unfold Base64.value? at h
    rw [if_neg (by omega), if_neg (by omega), if_neg (by omega), if_neg hplus, if_neg hslash] at h
    cases h
  exact Char.utf8Size_eq_one_iff.mpr (UInt32.le_iff_toNat_le.mpr hascii)

theorem bytes_of_quantity? {s : List Char} {v : Int} (h : quantity? s = some v) :
    Text.bytes s = s.length := by
  rw [quantity?] at h
  split at h
  next digits hdigits =>
    clear h
    induction s generalizing digits with
    | nil => rfl
    | cons c s ih =>
      rw [List.mapM_cons] at hdigits
      obtain ⟨d, hd, hdigits⟩ := Option.bind_eq_some_iff.mp hdigits
      obtain ⟨digits', hdigits', -⟩ := Option.bind_eq_some_iff.mp hdigits
      rw [Text.bytes_cons, utf8Size_of_value? hd, ih digits' hdigits', List.length_cons,
        Nat.add_comm]
  next => cases h

/-- Decoding reads the first text of a quantity and nothing behind it. -/
theorem decode?_texts {s chunk rest : List Char} {chunks : List (List Char)}
    (h : texts s = chunk :: chunks) (hrest : ∀ c ∈ rest.head?, Base64.value? c = none) :
    decode? (s ++ rest) = (quantity? chunk).map (·, chunk.length) := by
  obtain ⟨front, c, rfl, rfl, -, hfront, hend⟩ := texts_cons h
  cases hc : Base64.value? c with
  | none =>
    rw [quantity?_of_none hfront hc, List.append_assoc]
    exact decodeFrom_unfinished hfront (by simpa using hc) 0 0
  | some d =>
    obtain ⟨digits, hdigits, hquantity⟩ := quantity?_of_some hfront hc
    rw [hquantity]
    by_cases hlast : d < 32
    · rw [List.append_assoc, List.cons_append, decode?,
        decodeFrom_complete hfront hc hlast hdigits]
      simp only [Nat.zero_add, Nat.pow_zero, Nat.one_mul, Int.zero_add, hlast, and_true]
      split
      · rw [List.length_append]
        rfl
      · rfl
    · have hmore : continues c := continues_iff.mpr ⟨d, hc, Nat.not_lt.mp hlast⟩
      have hall : ∀ x ∈ front ++ [c], continues x := by
        simpa [or_imp, forall_and, hmore] using hfront
      obtain rfl := hend hmore
      rw [if_neg fun h => hlast h.2, List.flatten_nil]
      exact decodeFrom_unfinished hall hrest 0 0

end Assay.Vlq
