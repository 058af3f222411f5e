import Assay.Codec.Vlq

/-!
# Quantities there and back

`decode?_encode_append` says that decoding inverts encoding at the front of any text, for every
quantity that fits 63 bits with its sign.
-/

namespace Assay.Vlq

theorem encodeNat_ne_nil (n : Nat) : encodeNat n ≠ [] := by
  rw [encodeNat]
  split
  · exact List.cons_ne_nil _ _
  · exact List.cons_ne_nil _ _

theorem encode_ne_nil (v : Int) : encode v ≠ [] := encodeNat_ne_nil _

theorem encodeNat_digits (n : Nat) : ∀ c ∈ encodeNat n, ∃ d < 64, c = Base64.digit d := by
  induction n using Nat.strongRecOn with
  | ind n ih =>
    rw [encodeNat]
    split
    next h => exact fun c hc => ⟨n, by omega, List.mem_singleton.mp hc⟩
    next h =>
      intro c hc
      rcases List.mem_cons.mp hc with rfl | hc
      · exact ⟨n % 32 + 32, by omega, rfl⟩
      · exact ih (n / 32) (by omega) c hc

/-- A sum that fits is not wrapped, nor is what is added to it. -/
theorem wrap64_add {m n : Nat} (h : m + n < 0x8000000000000000) :
    wrap64 (m + wrap64 (Int.ofNat n)) = ((m + n : Nat) : Int) := by
  rw [Int.ofNat_eq_natCast, wrap64_of_small n (by omega), wrap64_of_small _ (by omega)]
  rfl

theorem shiftLeft_split (n k : Nat) : n <<< k = (n % 32) <<< k + (n / 32) <<< (k + 5) := by
  have hsplit : n = n % 32 + (n / 32) * 32 := by omega
  have hpow : (n / 32) <<< (k + 5) = (n / 32 * 32) <<< k := by
    rw [Nat.add_comm k 5, Nat.shiftLeft_add, Nat.shiftLeft_eq (n / 32) 5]
  rw [hpow, Nat.shiftLeft_eq, Nat.shiftLeft_eq, Nat.shiftLeft_eq, ← Nat.add_mul, ← hsplit]

/-- A quantity above zero that fits has no more than thirteen digits. -/
theorem count_le_of_shiftLeft_lt {n k : Nat} (hn : 0 < n) (h : n <<< (5 * k) < 0x8000000000000000) :
    k ≤ 12 := by
  refine Nat.le_of_not_lt fun hk => ?_
  have hpow : 2 ^ 65 ≤ 2 ^ (5 * k) := Nat.pow_le_pow_right (by decide) (by omega)
  have hmul : 2 ^ (5 * k) ≤ n * 2 ^ (5 * k) := Nat.le_mul_of_pos_left _ hn
  rw [Nat.shiftLeft_eq] at h
  omega

theorem decodeFrom_encodeNat (n count sum : Nat) (rest : List Char) (hcount : count ≤ 12)
    (h : sum + n <<< (5 * count) < 0x8000000000000000) :
    decodeFrom sum count (encodeNat n ++ rest) =
      some (unfold ((sum + n <<< (5 * count) : Nat) : Int), count + (encodeNat n).length) := by
  induction n using Nat.strongRecOn generalizing count sum with
  | ind n ih =>
    rw [encodeNat]
    split
    next hn =>
      simp only [List.singleton_append, decodeFrom, Base64.value?_digit n (by omega),
        Nat.not_lt.mpr hcount, if_false, hn, if_true, Nat.mod_eq_of_lt hn, wrap64_add h,
        List.length_singleton]
    next hn =>
      have hmod : (n % 32 + 32) % 32 = n % 32 := by omega
      have hdigit := Base64.value?_digit (n % 32 + 32) (by omega)
      have hnext : 5 * count + 5 = 5 * (count + 1) := by omega
      rw [shiftLeft_split n (5 * count), hnext, ← Nat.add_assoc] at h ⊢
      have hlow := Nat.lt_of_le_of_lt (Nat.le_add_right _ _) h
      have hhigh := Nat.lt_of_le_of_lt (Nat.le_add_left _ _) h
      have hcount' : count + 1 ≤ 12 := count_le_of_shiftLeft_lt (by omega) hhigh
      simp only [List.cons_append, decodeFrom, hdigit, Nat.not_lt.mpr hcount, if_false, hmod,
        wrap64_add hlow, Nat.not_lt.mpr (Nat.le_add_left 32 (n % 32))]
      rw [ih (n / 32) (by omega) (count + 1) _ hcount' h, List.length_cons, Nat.add_right_comm count,
        Nat.add_assoc count]

theorem decode?_encode_append (v : Int) (rest : List Char) (h : v.natAbs < 0x4000000000000000) :
    decode? (encode v ++ rest) = some (v, (encode v).length) := by
  have hfold : fold v < 0x8000000000000000 := by
    unfold fold
    split <;> omega
  have := decodeFrom_encodeNat (fold v) 0 0 rest (by decide) (by simpa using hfold)
  simpa [decode?, encode, unfold_fold] using this

end Assay.Vlq
