import Assay.Codec.Base64
import Assay.Text.Search

/-!
# Base64 there and back

An encoding is the digits of the sextets of its bytes and a padding. `decode?_encode` says that
decoding inverts it, and `encode_chars` what it is spelled with.
-/

namespace Assay.Base64

/-- The sextets of bytes, those of the last group filled up with zero bits. -/
def sextets : List UInt8 → List Nat
  | [] => []
  | [a] => [a.toNat / 4, a.toNat % 4 * 16]
  | [a, b] => [a.toNat / 4, a.toNat % 4 * 16 + b.toNat / 16, b.toNat % 16 * 4]
  | a :: b :: c :: r =>
    a.toNat / 4 :: (a.toNat % 4 * 16 + b.toNat / 16) :: (b.toNat % 16 * 4 + c.toNat / 64) ::
      c.toNat % 64 :: sextets r

def padding : List UInt8 → Nat
  | [] => 0
  | [_] => 2
  | [_, _] => 1
  | _ :: _ :: _ :: r => padding r

theorem encode_eq (bytes : List UInt8) :
    encode bytes = (sextets bytes).map digit ++ List.replicate (padding bytes) '=' := by
  fun_induction encode bytes with
  | case1 => rfl
  | case2 => rfl
  | case3 => rfl
  | case4 a b c r ih => simp only [sextets, padding, List.map_cons, List.cons_append, ih]

theorem sextets_lt (bytes : List UInt8) : ∀ n ∈ sextets bytes, n < 64 := by
  have lt (a : UInt8) : a.toNat < 256 := a.toNat_lt
  fun_induction sextets bytes with
  | case1 => simp
  | case2 a =>
    have := lt a
    simp only [List.mem_cons, List.not_mem_nil, or_false]
    omega
  | case3 a b =>
    have := lt a
    have := lt b
    simp only [List.mem_cons, List.not_mem_nil, or_false]
    omega
  | case4 a b c r ih =>
    have := lt a
    have := lt b
    have := lt c
    intro n hn
    simp only [List.mem_cons] at hn
    rcases hn with rfl | rfl | rfl | rfl | hn
    · omega
    · omega
    · omega
    · omega
    · exact ih n hn

theorem ofSextets?_sextets (bytes : List UInt8) : ofSextets? (sextets bytes) = some bytes := by
  have lt (a : UInt8) : a.toNat < 256 := a.toNat_lt
  have byte (a : UInt8) (n : Nat) (h : n = a.toNat) : UInt8.ofNat n = a := by
    rw [h, UInt8.ofNat_toNat]
  fun_induction sextets bytes with
  | case1 => rfl
  | case2 a =>
    simp only [ofSextets?]
    rw [if_pos (by omega), byte a _ (by omega)]
  | case3 a b =>
    have := lt b
    simp only [ofSextets?]
    rw [if_pos (by omega), byte a _ (by omega), byte b _ (by omega)]
  | case4 a b c r ih =>
    have := lt b
    have := lt c
    simp only [ofSextets?, ih, Option.map_some]
    rw [byte a _ (by omega), byte b _ (by omega), byte c _ (by omega)]

theorem mapM_value?_digits {ns : List Nat} (h : ∀ n ∈ ns, n < 64) :
    (ns.map digit).mapM value? = some ns := by
  induction ns with
  | nil => rfl
  | cons n ns ih =>
    rw [List.map_cons, List.mapM_cons, value?_digit n (h n List.mem_cons_self),
      ih fun m hm => h m (List.mem_cons_of_mem n hm)]
    rfl

/-! ### Padding -/

theorem digit_ne_padding (n : Nat) (h : n < 64) : digit n ≠ '=' := by
  intro he
  have hvalue := value?_digit n h
  rw [he, show value? '=' = none from rfl] at hvalue
  cases hvalue

/-- The padding is what stands at the end of an encoding. -/
theorem takeWhile_reverse_encode (bytes : List UInt8) :
    ((encode bytes).reverse.takeWhile (· == '=')).length = padding bytes := by
  rw [encode_eq, List.reverse_append, List.reverse_replicate,
    List.takeWhile_append_of_pos (by simp), List.length_append, List.length_replicate]
  have hstop : ((sextets bytes).map digit).reverse.takeWhile (· == '=') = [] := by
    rw [← List.map_reverse]
    cases hs : (sextets bytes).reverse with
    | nil => rfl
    | cons n ns =>
      have hmem : n ∈ sextets bytes := by
        rw [← List.mem_reverse, hs]
        exact List.mem_cons_self
      simp [digit_ne_padding n (sextets_lt bytes n hmem)]
  rw [hstop, List.length_nil, Nat.add_zero]

theorem padding_le_maxPadding (bytes : List UInt8) :
    padding bytes ≤ maxPadding (sextets bytes).length := by
  fun_induction sextets bytes with
  | case1 => exact Nat.le_refl _
  | case2 => exact Nat.le_refl _
  | case3 => exact Nat.le_refl _
  | case4 a b c r ih =>
    simp only [padding, List.length_cons, maxPadding] at ih ⊢
    omega

theorem decode?_encode (bytes : List UInt8) : decode? (encode bytes) = some bytes := by
  have hbody : (encode bytes).take ((encode bytes).length - padding bytes) =
      (sextets bytes).map digit := by
    rw [encode_eq]
    simp
  simp only [decode?, takeWhile_reverse_encode, hbody, List.length_map, padding_le_maxPadding,
    if_true, mapM_value?_digits (sextets_lt bytes), ofSextets?_sextets, Option.bind_eq_bind,
    Option.bind_some]

/-! ### Spelling -/

theorem encode_chars (bytes : List UInt8) : ∀ c ∈ encode bytes, c = '=' ∨ ∃ n < 64, c = digit n := by
  intro c hc
  rw [encode_eq, List.mem_append, List.mem_map, List.mem_replicate] at hc
  rcases hc with ⟨n, hn, rfl⟩ | ⟨-, rfl⟩
  · exact Or.inr ⟨n, sextets_lt bytes n hn, rfl⟩
  · exact Or.inl rfl

theorem digit_plain : ∀ n < 64, Text.isBlank (digit n) = false ∧ digit n ≠ '#' := by decide

theorem encode_plain (bytes : List UInt8) :
    ∀ c ∈ encode bytes, Text.isBlank c = false ∧ c ≠ '#' := by
  intro c hc
  rcases encode_chars bytes c hc with rfl | ⟨n, hn, rfl⟩
  · decide
  · exact digit_plain n hn

theorem encode_eq_nil {bytes : List UInt8} (h : encode bytes = []) : bytes = [] := by
  have := decode?_encode bytes
  rw [h] at this
  exact (Option.some.inj this).symm

end Assay.Base64
