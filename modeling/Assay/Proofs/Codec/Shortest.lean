import Assay.Proofs.Codec.Quantity
import Assay.Proofs.Codec.Vlq

/-!
# The shortest text of a quantity

Several texts spell one quantity: zero digits may be added behind the others, and zero has two signs.
`eq_encode_iff` says that encoding writes the shortest text, and a zero without a sign.
-/

namespace Assay

theorem Base64.digit_of_value? {c : Char} {d : Nat} (h : value? c = some d) :
    d < 64 ∧ digit d = c := by
  have hc : Char.ofNat c.toNat = c := Char.ofNat_toNat c
  unfold value? at h
  dsimp only at h
  split at h
  next hn =>
    obtain rfl := Option.some.inj h
    refine ⟨by omega, ?_⟩
    rw [digit, if_pos (by omega), show 65 + (c.toNat - 65) = c.toNat by omega, hc]
  split at h
  next hn =>
    obtain rfl := Option.some.inj h
    refine ⟨by omega, ?_⟩
    rw [digit, if_neg (by omega), if_pos (by omega), show 71 + (c.toNat - 71) = c.toNat by omega, hc]
  split at h
  next hn =>
    obtain rfl := Option.some.inj h
    refine ⟨by omega, ?_⟩
    rw [digit, if_neg (by omega), if_neg (by omega), if_pos (by omega),
      show c.toNat + 4 - 4 = c.toNat by omega, hc]
  split at h
  next hplus =>
    obtain rfl := Option.some.inj h
    exact ⟨by decide, hplus.symm⟩
  split at h
  next hslash =>
    obtain rfl := Option.some.inj h
    exact ⟨by decide, hslash.symm⟩
  next => cases h

namespace Vlq

/-- No shorter text spells the same quantity. -/
def IsShortest (s : List Char) : Prop := ∀ t, quantity? t = quantity? s → s.length ≤ t.length

/-- The text spells zero with the sign of what is below zero. -/
def IsNegativeZero (s : List Char) : Prop :=
  quantity? s = some 0 ∧ (s.head?.bind Base64.value?).any (· % 2 = 1)

/-- The digits of a quantity: all but the last have their sixth bit set. -/
inductive Spelling : List Nat → Prop where
  | last {d : Nat} (small : d < 32) : Spelling [d]
  | more {d : Nat} {digits : List Nat} (large : 32 ≤ d) (digit : d < 64) (after : Spelling digits) :
      Spelling (d :: digits)

theorem Spelling.ne_nil {digits : List Nat} (h : Spelling digits) : digits ≠ [] := by
  cases h <;> exact List.cons_ne_nil _ _

theorem Spelling.length_pos {digits : List Nat} (h : Spelling digits) : 0 < digits.length :=
  List.length_pos_iff.mpr h.ne_nil

theorem spelling_of_mapM {s : List Char} {digits : List Nat}
    (hdigits : s.mapM Base64.value? = some digits) (hfront : s.dropLast.all continues)
    (hlast : digits.getLast?.any (· < 32)) : Spelling digits ∧ s = digits.map Base64.digit := by
  induction s generalizing digits with
  | nil =>
    obtain rfl : [] = digits := Option.some.inj hdigits
    cases hlast
  | cons c s ih =>
    rw [List.mapM_cons] at hdigits
    obtain ⟨d, hd, hdigits⟩ := Option.bind_eq_some_iff.mp hdigits
    obtain ⟨rest, hrest, hdigits⟩ := Option.bind_eq_some_iff.mp hdigits
    obtain rfl : d :: rest = digits := Option.some.inj hdigits
    obtain ⟨hsmall, hc⟩ := Base64.digit_of_value? hd
    cases s with
    | nil =>
      obtain rfl : [] = rest := Option.some.inj hrest
      exact ⟨.last (by simpa using hlast), by rw [List.map_singleton, hc]⟩
    | cons e s =>
      simp only [List.dropLast_cons_of_ne_nil (List.cons_ne_nil e s), List.all_cons,
        Bool.and_eq_true] at hfront
      obtain ⟨d', hd', hlarge⟩ := continues_iff.mp hfront.1
      obtain rfl : d = d' := Option.some.inj (hd.symm.trans hd')
      have hne : rest ≠ [] := by
        rintro rfl
        rw [List.mapM_cons] at hrest
        obtain ⟨_, _, hrest⟩ := Option.bind_eq_some_iff.mp hrest
        obtain ⟨_, _, hrest⟩ := Option.bind_eq_some_iff.mp hrest
        cases hrest
      rw [List.getLast?_cons_of_ne_nil hne] at hlast
      obtain ⟨hspelling, hs⟩ := ih hrest hfront.2 hlast
      exact ⟨.more hlarge hsmall hspelling, by rw [List.map_cons, hc, ← hs]⟩

theorem quantity?_eq_some {s : List Char} {v : Int} (h : quantity? s = some v) :
    ∃ digits, Spelling digits ∧ s = digits.map Base64.digit ∧ digits.length ≤ 13 ∧
      v = unfold (wrap64 (magnitude digits)) := by
  rw [quantity?] at h
  split at h
  next digits hdigits =>
    split at h
    next hok =>
      obtain ⟨hspelling, hs⟩ := spelling_of_mapM hdigits hok.2.1 hok.2.2
      exact ⟨digits, hspelling, hs, hok.1, (Option.some.inj h).symm⟩
    next => cases h
  next => cases h

/-! ### Encoding writes the fewest digits -/

theorem encodeNat_of_lt {n : Nat} (h : n < 32) : encodeNat n = [Base64.digit n] := by
  rw [encodeNat, if_pos h]

theorem encodeNat_of_le {n : Nat} (h : 32 ≤ n) :
    encodeNat n = Base64.digit (n % 32 + 32) :: encodeNat (n / 32) := by
  rw [encodeNat, if_neg (Nat.not_lt.mpr h)]

theorem magnitude_singleton {d : Nat} (h : d < 32) : magnitude [d] = d := by
  rw [magnitude_cons]
  exact Nat.mod_eq_of_lt h

/-- The number that digits spell is encoded with no more digits, and with these if they are no
fewer. By induction on the digits, which encoding writes in the same order. -/
theorem Spelling.encodeNat_magnitude {digits : List Nat} (h : Spelling digits) :
    (encodeNat (magnitude digits)).length ≤ digits.length ∧
      (digits.length ≤ (encodeNat (magnitude digits)).length →
        encodeNat (magnitude digits) = digits.map Base64.digit) := by
  induction h with
  | @last d small =>
    rw [magnitude_singleton small, encodeNat_of_lt small]
    exact ⟨Nat.le_refl 1, fun _ => rfl⟩
  | @more d digits large digit after ih =>
    have hpos := after.length_pos
    have hsplit := magnitude_cons d digits
    by_cases hn : magnitude (d :: digits) < 32
    · rw [encodeNat_of_lt hn]
      have hlength : (d :: digits).length = digits.length + 1 := rfl
      have hone : [Base64.digit (magnitude (d :: digits))].length = 1 := rfl
      exact ⟨by omega, fun h => absurd h (by omega)⟩
    · rw [encodeNat_of_le (Nat.not_lt.mp hn), hsplit,
        show (d % 32 + 32 * magnitude digits) % 32 + 32 = d by omega,
        show (d % 32 + 32 * magnitude digits) / 32 = magnitude digits by omega]
      simp only [List.length_cons, List.map_cons]
      exact ⟨by omega, fun h => by rw [ih.2 (by omega)]⟩

theorem encodeNat_length_le {k n : Nat} (h : n < 32 ^ (k + 1)) : (encodeNat n).length ≤ k + 1 := by
  induction k generalizing n with
  | zero =>
    rw [encodeNat_of_lt (by simpa using h)]
    exact Nat.le_refl 1
  | succ k ih =>
    by_cases hn : n < 32
    · rw [encodeNat_of_lt hn]
      exact Nat.succ_le_succ (Nat.zero_le _)
    · rw [encodeNat_of_le (Nat.not_lt.mp hn), List.length_cons]
      exact Nat.succ_le_succ (ih (by rw [Nat.pow_succ] at h; omega))

/-- Encoding writes the digits of a quantity. -/
theorem exists_spelling (n : Nat) :
    ∃ digits, Spelling digits ∧ encodeNat n = digits.map Base64.digit := by
  induction n using Nat.strongRecOn with
  | ind n ih =>
    by_cases hn : n < 32
    · exact ⟨[n], .last hn, encodeNat_of_lt hn⟩
    · obtain ⟨digits, hdigits, hrest⟩ := ih (n / 32) (by omega)
      refine ⟨(n % 32 + 32) :: digits, .more (by omega) (by omega) hdigits, ?_⟩
      rw [encodeNat_of_le (Nat.not_lt.mp hn), hrest, List.map_cons]

/-- The digits of a quantity are some that continue and one that does not. -/
theorem Spelling.cut {digits : List Nat} (h : Spelling digits) :
    ∃ front c, digits.map Base64.digit = front ++ [c] ∧ (∀ x ∈ front, continues x) ∧
      continues c = false := by
  induction h with
  | @last d small =>
    refine ⟨[], Base64.digit d, rfl, by simp, ?_⟩
    rw [continues, Base64.value?_digit d (by omega)]
    simpa using small
  | @more d digits large digit after ih =>
    obtain ⟨front, c, hdigits, hfront, hc⟩ := ih
    refine ⟨Base64.digit d :: front, c, ?_, ?_, hc⟩
    · rw [List.map_cons, hdigits, List.cons_append]
    · exact List.forall_mem_cons.mpr ⟨continues_iff.mpr ⟨d, Base64.value?_digit d digit, large⟩, hfront⟩

theorem Spelling.texts_append {digits : List Nat} (h : Spelling digits) (rest : List Char) :
    texts (digits.map Base64.digit ++ rest) = digits.map Base64.digit :: texts rest := by
  obtain ⟨front, c, hcut, hfront, hc⟩ := h.cut
  have hlast : ∀ x ∈ (digits.map Base64.digit).getLast?, ∀ y ∈ rest.head?, continues x = false := by
    intro x hx y _
    rw [hcut, List.getLast?_concat] at hx
    obtain rfl := Option.some.inj hx
    exact hc
  have hne : digits.map Base64.digit ≠ [] := by
    rw [hcut]
    exact List.concat_ne_nil c front
  have hwhole : texts (digits.map Base64.digit) = [digits.map Base64.digit] :=
    List.splitBy_of_isChain hne (by rw [hcut]; exact isChain_continues.mpr hfront)
  rw [texts, List.splitBy_append hlast, ← texts, hwhole]
  rfl

theorem texts_encode_append (v : Int) (rest : List Char) :
    texts (encode v ++ rest) = encode v :: texts rest := by
  obtain ⟨digits, hdigits, hencode⟩ := exists_spelling (fold v)
  rw [encode, hencode]
  exact hdigits.texts_append rest

/-- Quantities that are written one behind the other are found again. -/
theorem texts_flatMap_encode (vs : List Int) : texts (vs.flatMap encode) = vs.map encode := by
  induction vs with
  | nil => rfl
  | cons v vs ih => rw [List.flatMap_cons, texts_encode_append, ih, List.map_cons]

theorem quantity?_encode {v : Int} (h : v.natAbs < 0x4000000000000000) :
    quantity? (encode v) = some v := by
  have htexts := texts_encode_append v []
  have hdecode := decode?_texts htexts (show ∀ c ∈ ([] : List Char).head?, Base64.value? c = none by
    simp)
  rw [List.append_nil, decode?_encode_append v [] h] at hdecode
  obtain ⟨w, hw, heq⟩ := Option.map_eq_some_iff.mp hdecode.symm
  rw [hw, (Prod.mk.inj heq).1]

/-! ### The shortest text -/

theorem magnitude_lt {digits : List Nat} : magnitude digits < 32 ^ digits.length := by
  induction digits with
  | nil => exact Nat.one_pos
  | cons d digits ih =>
    rw [magnitude_cons, List.length_cons, Nat.pow_succ]
    omega

/-- A number of twelve digits is not wrapped, so it is that of the quantity, or zero with a sign. -/
theorem magnitude_of_unfold {digits : List Nat} (hlength : digits.length ≤ 12) {v : Int}
    (h : v = unfold (wrap64 (magnitude digits))) :
    magnitude digits = fold v ∨ (v = 0 ∧ magnitude digits = 1) := by
  have hpow : 32 ^ digits.length ≤ 32 ^ 12 := Nat.pow_le_pow_right (by decide) hlength
  have hlt := Nat.lt_of_lt_of_le magnitude_lt hpow
  rw [wrap64_of_small _ (by omega)] at h
  unfold unfold at h
  unfold fold
  split at h <;> split <;> omega

theorem encode_zero : encode 0 = ['A'] := encodeNat_of_lt (by decide)

/-- Quantities of up to eight digits, far more than two numbers of 32 bits can differ. -/
def Short (v : Int) : Prop := v.natAbs < 0x10000000000

theorem Short.length_encode_le {v : Int} (h : Short v) : (encode v).length ≤ 9 := by
  refine encodeNat_length_le (k := 8) ?_
  unfold Short at h
  unfold fold
  split <;> omega

/-- Of the texts that spell a quantity, encoding writes the shortest one that is no negative zero. -/
theorem eq_encode_iff {s : List Char} {v : Int} (h : quantity? s = some v) (hv : Short v) :
    s = encode v ↔ IsShortest s ∧ ¬ IsNegativeZero s := by
  have hencode : quantity? (encode v) = some v := quantity?_encode (by unfold Short at hv; omega)
  have hshort := hv.length_encode_le
  constructor
  · rintro rfl
    constructor
    · intro t ht
      obtain ⟨digits, hspelling, rfl, -, hvalue⟩ := quantity?_eq_some (ht.trans h)
      rw [List.length_map]
      by_cases hlength : digits.length ≤ 12
      · rcases magnitude_of_unfold hlength hvalue with hfold | ⟨rfl, -⟩
        · rw [encode, ← hfold]
          exact hspelling.encodeNat_magnitude.1
        · rw [encode_zero]
          exact hspelling.length_pos
      · omega
    · rintro ⟨hzero, hsign⟩
      obtain rfl : v = 0 := Option.some.inj (h.symm.trans hzero)
      rw [encode_zero] at hsign
      revert hsign
      decide
  · rintro ⟨hshortest, hsign⟩
    have hle := hshortest (encode v) (hencode.trans h.symm)
    obtain ⟨digits, hspelling, rfl, -, hvalue⟩ := quantity?_eq_some h
    rw [List.length_map] at hle
    rcases magnitude_of_unfold (by omega) hvalue with hfold | ⟨rfl, hone⟩
    · have hsame := hspelling.encodeNat_magnitude.2
      rw [hfold] at hsame
      exact (hsame hle).symm
    · refine absurd ⟨h, ?_⟩ hsign
      obtain ⟨d, rest, rfl, hd⟩ : ∃ d rest, digits = d :: rest ∧ d < 64 := by
        cases hspelling with
        | last small => exact ⟨_, _, rfl, by omega⟩
        | more _ digit => exact ⟨_, _, rfl, digit⟩
      rw [magnitude_cons] at hone
      rw [List.map_cons, List.head?_cons, Option.bind_some, Base64.value?_digit d hd,
        Option.any_some, decide_eq_true_eq]
      omega

end Vlq

end Assay
