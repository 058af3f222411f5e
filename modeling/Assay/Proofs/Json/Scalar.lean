import Assay.Json.Printer
import Assay.Json.Reader

/-!
# JSON strings and numbers there and back

`stringBody_quote` and `number?_intText` say that reading the literal of a text or of an integer
gives it back, whatever stands after it.
-/

namespace Assay.Json

/-! ### Strings -/

theorem hexValue?_hexDigit : ∀ n < 16, hexValue? (hexDigit n) = some n := by decide

/-- The code of a control character has two zeros in front. -/
theorem hex4?_control {n : Nat} (h : n < 0x20) :
    hex4? '0' '0' (hexDigit (n / 16)) (hexDigit (n % 16)) = some n := by
  have hhigh := hexValue?_hexDigit (n / 16) (by omega)
  have hlow := hexValue?_hexDigit (n % 16) (by omega)
  simp only [hex4?, show hexValue? '0' = some 0 from rfl, hhigh, hlow, Option.bind_eq_bind,
    Option.bind_some, Option.pure_def, Option.some.injEq]
  omega

theorem stringBody_cons {acc : List Nat} {c : Char} {r : List Char} (hquote : c ≠ '"')
    (hslash : c ≠ '\\') (hspace : ¬ c.toNat < 0x20) :
    stringBody acc (c :: r) = stringBody (c.toNat :: acc) r := by
  rw [stringBody.eq_def]
  split
  · contradiction
  · next heq => exact absurd (List.cons.inj heq).1 hquote
  · next heq => exact absurd (List.cons.inj heq).1 hslash
  · next heq => exact absurd (List.cons.inj heq).1 hslash
  · next heq =>
    obtain ⟨rfl, rfl⟩ := List.cons.inj heq
    rw [if_neg (by simp [hspace, hslash])]

theorem stringBody_escape (acc : List Nat) (c : Char) (r : List Char) :
    stringBody acc (escape c ++ r) = stringBody (c.toNat :: acc) r := by
  unfold escape
  split
  next h => subst h; rfl
  split
  next h => subst h; rfl
  split
  next hspace =>
    split
    next h => subst h; rfl
    split
    next h => subst h; rfl
    split
    next h => subst h; rfl
    split
    next h =>
      rw [h]
      rfl
    split
    next h =>
      rw [h]
      rfl
    simp only [List.cons_append, List.nil_append, stringBody, hex4?_control hspace,
      Option.bind_some]
  next hquote hslash hspace => exact stringBody_cons hquote hslash hspace

theorem stringBody_quote (acc : List Nat) (s r : List Char) :
    stringBody acc (s.flatMap escape ++ '"' :: r) = some (acc.reverse ++ s.map Char.toNat, r) := by
  induction s generalizing acc with
  | nil => simp [stringBody]
  | cons c s ih =>
    rw [List.flatMap_cons, List.append_assoc, stringBody_escape, ih]
    simp

theorem joinUnits_toNat (s : List Char) : joinUnits (s.map Char.toNat) = some s := by
  induction s with
  | nil => rfl
  | cons c s ih =>
    have hvalid : c.toNat < 0xD800 ∨ 0xDFFF < c.toNat ∧ c.toNat < 0x110000 := c.valid
    rw [List.map_cons, joinUnits.eq_def]
    dsimp only
    rw [if_neg (by omega), if_neg (by omega), ih, Option.map_some, Char.ofNat_toNat]

/-! ### Numbers -/

/-- What may stand after a number: nothing that could be part of it. -/
def EndsNumber (rest : List Char) : Prop :=
  ∀ c r, rest = c :: r → c.isDigit = false ∧ c ≠ '.' ∧ c ≠ 'e' ∧ c ≠ 'E'

theorem endsNumber_nil : EndsNumber [] := fun _ _ h => nomatch h

theorem endsNumber_cons {c : Char} (r : List Char)
    (h : c.isDigit = false ∧ c ≠ '.' ∧ c ≠ 'e' ∧ c ≠ 'E') : EndsNumber (c :: r) := by
  intro d r' heq
  rw [← (List.cons.inj heq).1]
  exact h

theorem natText_digits (n : Nat) : ∀ c ∈ natText n, c.isDigit = true :=
  fun _ hc => Nat.isDigit_of_mem_toDigits (by decide) (by decide) hc

theorem natText_zero : natText 0 = ['0'] := Nat.toDigits_zero 10

theorem natText_head {n : Nat} (h : 0 < n) : ∃ c r, natText n = c :: r ∧ c ≠ '0' := by
  induction n using Nat.strongRecOn with
  | ind n ih =>
    unfold natText at ih ⊢
    by_cases hn : n < 10
    · refine ⟨n.digitChar, [], Nat.toDigits_of_lt_base hn, ?_⟩
      rw [ne_eq, Nat.digitChar_eq_zero]
      omega
    · obtain ⟨c, r, hr, hc⟩ := ih (n / 10) (by omega) (by omega)
      rw [Nat.toDigits_of_base_le (by decide) (by omega), hr]
      exact ⟨c, _, rfl, hc⟩

theorem digitsValue_natText (n : Nat) : digitsValue (natText n) = n := by
  have h := Nat.ofDigitChars_toDigits (b := 10) (n := n) (by decide) (by decide)
  rw [Nat.ofDigitChars_eq_foldl] at h
  rw [digitsValue, natText]
  simpa only [Nat.mul_comm 10, show ('0' : Char).toNat = 48 from rfl] using h

theorem digits_append {ds rest : List Char} (h : ∀ c ∈ ds, c.isDigit = true)
    (hrest : EndsNumber rest) : digits (ds ++ rest) = (ds, rest) := by
  rw [digits, List.takeWhile_append_of_pos h, List.dropWhile_append_of_pos h]
  cases rest with
  | nil => simp
  | cons c r => simp [(hrest c r rfl).1]

theorem fractionExponent?_ends {rest : List Char} (hrest : EndsNumber rest) :
    fractionExponent? rest = some ([], rest) := by
  cases rest with
  | nil => rfl
  | cons c r =>
    obtain ⟨-, hpoint, he, hE⟩ := hrest c r rfl
    unfold fractionExponent?
    split
    next heq => exact absurd (List.cons.inj heq).1 hpoint
    next => simp [he, hE]

theorem digits_natText {n : Nat} (hn : 0 < n) {rest : List Char} (hrest : EndsNumber rest) :
    ∃ c r, natText n ++ rest = c :: r ∧ c ≠ '-' ∧ c ≠ '0' ∧ digits (c :: r) = (natText n, rest) ∧
      natText n ≠ [] ∧ natText n ≠ ['0'] := by
  obtain ⟨c, r, hr, hc⟩ := natText_head hn
  have hdigits := digits_append (natText_digits n) hrest
  have hdigit := natText_digits n c (by rw [hr]; exact List.mem_cons_self)
  have hminus : c ≠ '-' := by
    rintro rfl
    exact absurd hdigit (by decide)
  rw [hr, List.cons_append] at hdigits ⊢
  exact ⟨c, r ++ rest, rfl, hminus, hc, hdigits, List.cons_ne_nil c r, by simp [hc]⟩

theorem number?_natText (n : Nat) {rest : List Char} (hrest : EndsNumber rest) :
    number? (natText n ++ rest) = some (.int n, rest) := by
  rcases Nat.eq_zero_or_pos n with rfl | hn
  · simp [natText_zero, number?, fractionExponent?_ends hrest, digitsValue]
  · obtain ⟨c, r, htext, hminus, hzero, hdigits, hnil, -⟩ := digits_natText hn hrest
    rw [htext]
    simp [number?, hminus, hzero, hdigits, hnil, fractionExponent?_ends hrest, digitsValue_natText]

theorem number?_neg_natText {n : Nat} (hn : 0 < n) {rest : List Char} (hrest : EndsNumber rest) :
    number? ('-' :: natText n ++ rest) = some (.int (-n), rest) := by
  obtain ⟨c, r, htext, -, hzero, hdigits, hnil, hne⟩ := digits_natText hn hrest
  rw [List.cons_append, htext]
  simp [number?, hzero, hdigits, hnil, hne, fractionExponent?_ends hrest, digitsValue_natText]

theorem number?_intText (value : Int) {rest : List Char} (hrest : EndsNumber rest) :
    number? (intText value ++ rest) = some (.int value, rest) := by
  cases value with
  | ofNat n => exact number?_natText n hrest
  | negSucc n => exact number?_neg_natText (Nat.succ_pos n) hrest

end Assay.Json
