import Assay.Proofs.Codec.Shortest

/-!
# Quantities at the front of a text

Decoding reads the one front of a text that spells a quantity: `decode?_eq_some_iff`.
`decode?_delimited` says that nothing behind this front matters, and `encode_shortest` which of the
fronts with the same value encoding writes.
-/

namespace Assay.Vlq

theorem decode?_eq_some_iff {s : List Char} {v : Int} {n : Nat} :
    decode? s = some (v, n) ↔
      ∃ front rest, s = front ++ rest ∧ front.length = n ∧ quantity? front = some v := by
  have hnil : ∀ c ∈ ([] : List Char).head?, Base64.value? c = none := by simp
  constructor
  · intro h
    cases htexts : texts s with
    | nil =>
      obtain rfl : s = [] := List.splitBy_eq_nil.mp htexts
      cases h
    | cons front chunks =>
      have hdecode := decode?_texts htexts hnil
      rw [List.append_nil, h] at hdecode
      obtain ⟨w, hw, heq⟩ := Option.map_eq_some_iff.mp hdecode.symm
      obtain ⟨rfl, rfl⟩ := Prod.mk.inj heq
      exact ⟨front, chunks.flatten, (texts_tail htexts).2.1, rfl, hw⟩
  · rintro ⟨front, rest, rfl, rfl, hfront⟩
    obtain ⟨digits, hdigits, rfl, -, -⟩ := quantity?_eq_some hfront
    have hdecode := decode?_texts (hdigits.texts_append rest) hnil
    rw [List.append_nil, hfront] at hdecode
    exact hdecode

/-- What encoding writes is read again before any text. Decoding reads between one and thirteen
characters, each of one byte, and its answer depends on these alone. The characters are arbitrary,
so that they may also stand for the bytes of no text. -/
theorem decode?_delimited :
    (∀ (v : Int) (rest : List Char), v.natAbs < 2 ^ 62 →
      decode? (encode v ++ rest) = some (v, (encode v).length)) ∧
    ∀ (s : List Char) (v : Int) (n : Nat), decode? s = some (v, n) →
      1 ≤ n ∧ n ≤ 13 ∧ n ≤ s.length ∧ Text.bytes (s.take n) = n ∧
        ∀ t : List Char, t.take n = s.take n → decode? t = some (v, n) := by
  constructor
  · intro v rest hv
    exact decode?_encode_append v rest hv
  · intro s v n h
    obtain ⟨front, rest, rfl, rfl, hfront⟩ := decode?_eq_some_iff.mp h
    obtain ⟨digits, hdigits, hspelled, hlength, -⟩ := quantity?_eq_some hfront
    have hcount : front.length = digits.length := by rw [hspelled, List.length_map]
    have hpos := hdigits.length_pos
    rw [List.take_left]
    refine ⟨by omega, by omega, by simp, bytes_of_quantity? hfront, ?_⟩
    intro t ht
    have hsplit := List.take_append_drop front.length t
    rw [ht] at hsplit
    exact decode?_eq_some_iff.mpr ⟨front, t.drop front.length, hsplit.symm, rfl, hfront⟩

/-- The largest magnitude of the first part, and zero with a sign and a padding before a character
of no digit. -/
theorem decode?_delimited_limits :
    decode? (encode (1 - 2 ^ 62) ++ ['A', ';']) = some (1 - 2 ^ 62, (encode (1 - 2 ^ 62)).length) ∧
      decode? ['h', 'A', '?', 'C'] = some (0, 2) ∧ decode? ['h', 'A'] = some (0, 2) :=
  ⟨decode?_delimited.1 (1 - 2 ^ 62) ['A', ';'] (by decide), by decide,
    (decode?_delimited.2 ['h', 'A', '?', 'C'] 0 2 (by decide)).2.2.2.2 ['h', 'A'] (by decide)⟩

/-! ### Padding -/

theorem Spelling.getLast?_of_magnitude {digits : List Nat} (h : Spelling digits)
    (hzero : magnitude digits = 0) : digits.getLast? = some 0 := by
  induction h with
  | @last d small =>
    rw [magnitude_singleton small] at hzero
    rw [hzero]
    rfl
  | @more d digits large digit after ih =>
    rw [magnitude_cons] at hzero
    rw [List.getLast?_cons_of_ne_nil after.ne_nil]
    exact ih (by omega)

/-- Encoding gives the digits back unless the last of several is a zero. By induction on the digits,
with the case of a rest that is all zeros apart, because encoding stops before it. -/
theorem Spelling.encodeNat_eq_iff {digits : List Nat} (h : Spelling digits) :
    encodeNat (magnitude digits) = digits.map Base64.digit ↔
      digits.length = 1 ∨ digits.getLast? ≠ some 0 := by
  induction h with
  | @last d small =>
    rw [magnitude_singleton small, encodeNat_of_lt small]
    simp
  | @more d digits large digit after ih =>
    have hpos := after.length_pos
    have hsplit := magnitude_cons d digits
    rw [List.getLast?_cons_of_ne_nil after.ne_nil, List.length_cons]
    by_cases hn : magnitude (d :: digits) < 32
    · have hlast := after.getLast?_of_magnitude (by omega)
      have hlength : (encodeNat (magnitude (d :: digits))).length = 1 := by
        rw [encodeNat_of_lt hn]
        rfl
      constructor
      · intro heq
        rw [heq, List.length_map, List.length_cons] at hlength
        omega
      · rintro (hone | hne)
        · omega
        · exact absurd hlast hne
    · rw [encodeNat_of_le (Nat.not_lt.mp hn), List.map_cons,
        show magnitude (d :: digits) % 32 + 32 = d by omega,
        show magnitude (d :: digits) / 32 = magnitude digits by omega, List.cons.injEq, ih]
      constructor
      · rintro ⟨-, hone | hne⟩
        · right
          intro hlast
          obtain ⟨e, rfl⟩ := List.length_eq_one_iff.mp hone
          obtain rfl : e = 0 := by simpa using hlast
          exact hn (by rw [hsplit, magnitude_singleton (by decide)]; omega)
        · exact Or.inr hne
      · rintro (hone | hne)
        · omega
        · exact ⟨rfl, Or.inr hne⟩

theorem digit_eq_A_iff {d : Nat} (h : d < 64) : Base64.digit d = 'A' ↔ d = 0 := by
  constructor
  · intro hd
    have hvalue := Base64.value?_digit d h
    rw [hd] at hvalue
    exact (Option.some.inj hvalue).symm
  · rintro rfl
    rfl

theorem Spelling.lt_of_mem {digits : List Nat} (h : Spelling digits) : ∀ d ∈ digits, d < 64 := by
  induction h with
  | @last d small =>
    intro e he
    obtain rfl := List.mem_singleton.mp he
    omega
  | more large digit after ih => exact List.forall_mem_cons.mpr ⟨digit, ih⟩

/-- The last digit is a zero exactly if its character is `A`. -/
theorem Spelling.getLast?_map_digit {digits : List Nat} (h : Spelling digits) :
    (digits.map Base64.digit).getLast? = some 'A' ↔ digits.getLast? = some 0 := by
  rw [List.getLast?_map, Option.map_eq_some_iff]
  constructor
  · rintro ⟨d, hd, hA⟩
    obtain rfl := (digit_eq_A_iff (h.lt_of_mem d (List.mem_of_getLast? hd))).mp hA
    exact hd
  · intro hlast
    exact ⟨0, hlast, rfl⟩

theorem Spelling.isNegativeZero_iff {digits : List Nat} (h : Spelling digits)
    (hzero : quantity? (digits.map Base64.digit) = some 0) :
    IsNegativeZero (digits.map Base64.digit) ↔ magnitude digits % 2 = 1 := by
  obtain ⟨d, rest, rfl⟩ := List.exists_cons_of_ne_nil h.ne_nil
  have hd := h.lt_of_mem d List.mem_cons_self
  rw [IsNegativeZero, hzero, magnitude_cons, List.map_cons, List.head?_cons, Option.bind_some,
    Base64.value?_digit d hd, Option.any_some, decide_eq_true_eq]
  constructor
  · rintro ⟨-, hodd⟩
    omega
  · intro hodd
    exact ⟨rfl, by omega⟩

/-- Of the texts of up to twelve digits with one value, encoding writes the one that has no zero
digit behind the others and no sign on a zero; the others are no shorter. -/
theorem encode_shortest {s : List Char} {v : Int} {n : Nat} (h : decode? s = some (v, n))
    (hn : n ≤ 12) :
    (encode v).length ≤ n ∧
      (encode v = s.take n ↔
        (n = 1 ∨ s[n - 1]? ≠ some 'A') ∧ ¬ IsNegativeZero (s.take n)) := by
  obtain ⟨front, rest, rfl, rfl, hfront⟩ := decode?_eq_some_iff.mp h
  obtain ⟨digits, hdigits, rfl, -, hv⟩ := quantity?_eq_some hfront
  have hlast : (digits.map Base64.digit ++ rest)[(digits.map Base64.digit).length - 1]? =
      (digits.map Base64.digit).getLast? := by
    have hpos := hdigits.length_pos
    rw [List.getLast?_eq_getElem?, List.getElem?_append_left (by simpa using hpos)]
  rw [List.take_left, hlast, Ne, hdigits.getLast?_map_digit]
  rw [List.length_map] at hn ⊢
  rcases magnitude_of_unfold hn hv with hfold | ⟨rfl, hone⟩
  · have hencode : encode v = encodeNat (magnitude digits) := by rw [hfold]; rfl
    have hsign : ¬ IsNegativeZero (digits.map Base64.digit) := by
      intro hzero
      obtain rfl : v = 0 := Option.some.inj (hfront.symm.trans hzero.1)
      have hodd := (hdigits.isNegativeZero_iff hfront).mp hzero
      rw [hfold] at hodd
      exact absurd hodd (by decide)
    rw [hencode, hdigits.encodeNat_eq_iff]
    exact ⟨hdigits.encodeNat_magnitude.1, by simp [hsign]⟩
  · have hsign : IsNegativeZero (digits.map Base64.digit) :=
      (hdigits.isNegativeZero_iff hfront).mpr (by rw [hone])
    have hne : encode 0 ≠ digits.map Base64.digit := by
      intro heq
      rw [← heq, encode_zero] at hsign
      exact absurd hsign.2 (by decide)
    rw [encode_zero] at hne ⊢
    exact ⟨hdigits.length_pos, iff_of_false hne fun h => h.2 hsign⟩

/-- Two digits before another quantity: if the second is a zero, encoding writes one digit less, and
otherwise both of them. -/
theorem encode_shortest_padded :
    ((encode 3).length ≤ 2 ∧
      (encode 3 = ['m', 'A', 'C'].take 2 ↔
        (2 = 1 ∨ ['m', 'A', 'C'][2 - 1]? ≠ some 'A') ∧
          ¬ IsNegativeZero (['m', 'A', 'C'].take 2))) ∧
      encode 19 = ['m', 'B', 'C'].take 2 := by
  have hsign : ¬ IsNegativeZero (['m', 'B', 'C'].take 2) := by
    rintro ⟨hzero, -⟩
    exact absurd hzero (by decide)
  have hpadded := encode_shortest (s := ['m', 'A', 'C']) (v := 3) (n := 2) (by decide) (by decide)
  have hshortest := encode_shortest (s := ['m', 'B', 'C']) (v := 19) (n := 2) (by decide) (by decide)
  exact ⟨hpadded, hshortest.2.mpr ⟨.inr (by decide), hsign⟩⟩

end Assay.Vlq
