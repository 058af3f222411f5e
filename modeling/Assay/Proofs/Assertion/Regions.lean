import Assay.Proofs.Assertion.Literals
import Assay.Proofs.Assertion.Masked

/-!
# What masked regions cover

The masked regions of a script are read off its text from the front. `sound_maskedRegions` says that
each is one whole comment or literal; `Closed` describes the scripts that leave nothing open, and
`maskedRegions_of_closed` that their regions are all of their comments and literals.
-/

namespace Assay.Mask

/-! ### The regions of a text -/

theorem piecesUpTo_of_length_le {n m : Nat} {s : List Char} (hn : s.length ≤ n)
    (hm : s.length ≤ m) : piecesUpTo n s = piecesUpTo m s := by
  induction n generalizing m s with
  | zero =>
    obtain rfl := List.eq_nil_of_length_eq_zero (Nat.le_zero.mp hn)
    cases m <;> rfl
  | succ n ih =>
    cases s with
    | nil => cases m <;> rfl
    | cons c r =>
      obtain ⟨m, rfl⟩ := Nat.exists_eq_succ_of_ne_zero (show m ≠ 0 by simp at hm; omega)
      have hlength := congrArg List.length (takePiece_append c r)
      have hpos := List.length_pos_iff.mpr (takePiece_text_ne_nil c r)
      simp only [List.length_append, List.length_cons] at hlength hn hm
      simp only [piecesUpTo]
      rw [ih (show (takePiece c r).2.length ≤ n by omega) (show _ ≤ m by omega)]

theorem pieces_cons (c : Char) (r : List Char) :
    pieces (c :: r) = (takePiece c r).1 :: pieces (takePiece c r).2 := by
  have hlength := congrArg List.length (takePiece_append c r)
  have hpos := List.length_pos_iff.mpr (takePiece_text_ne_nil c r)
  simp only [List.length_append, List.length_cons] at hlength
  have hrest := piecesUpTo_of_length_le (show (takePiece c r).2.length ≤ r.length by omega)
    (Nat.le_refl _)
  simp only [pieces, List.length_cons, piecesUpTo, hrest]

/-- The byte ranges of the comments and literals of a text that starts at a byte. -/
def regionsFrom (byte : Nat) (s : List Char) : List (Nat × Nat) := regionsOf byte (pieces s)

theorem regionsFrom_nil (byte : Nat) : regionsFrom byte [] = [] := rfl

theorem regionsFrom_cons {byte : Nat} {c : Char} {r text rest : List Char} {masked : Bool}
    (h : takePiece c r = (⟨masked, text⟩, rest)) : regionsFrom byte (c :: r) =
      if masked then (byte, byte + Text.bytes text) :: regionsFrom (byte + Text.bytes text) rest
      else regionsFrom (byte + Text.bytes text) rest := by
  rw [regionsFrom, pieces_cons, h]
  rfl

theorem regionsFrom_complete {byte : Nat} {text after : List Char} (h : Complete text after) :
    regionsFrom byte (text ++ after) =
      (byte, byte + Text.bytes text) :: regionsFrom (byte + Text.bytes text) after := by
  obtain ⟨c, later, rfl⟩ := List.exists_cons_of_ne_nil h.ne_nil
  exact regionsFrom_cons (takePiece_of_complete h)

theorem takePiece_plain {c : Char} (h : isPlain c) (r : List Char) :
    takePiece c r = (⟨false, c :: r.takeWhile isPlain⟩, r.dropWhile isPlain) := by
  simp only [isPlain, Bool.and_eq_true, bne_iff_ne, Bool.not_eq_true'] at h
  unfold takePiece
  rw [if_neg (by simp [h.2]), if_neg h.1]

/-- Code can be cut anywhere without changing the regions. -/
theorem regionsFrom_plain {c : Char} (h : isPlain c) (byte : Nat) (r : List Char) :
    regionsFrom byte (c :: r) = regionsFrom (byte + c.utf8Size) r := by
  rw [regionsFrom_cons (takePiece_plain h r), if_neg (by simp), Text.bytes_cons, ← Nat.add_assoc]
  cases r with
  | nil => rfl
  | cons d r =>
    by_cases hd : isPlain d
    · rw [regionsFrom_cons (takePiece_plain hd r), if_neg (by simp),
        List.takeWhile_cons_of_pos hd, List.dropWhile_cons_of_pos hd]
    · rw [List.takeWhile_cons_of_neg hd, List.dropWhile_cons_of_neg hd]
      rfl

/-- A slash that opens no comment is code. -/
theorem regionsFrom_slash {r : List Char} (h : r.head? ≠ some '/' ∧ r.head? ≠ some '*')
    (byte : Nat) : regionsFrom byte ('/' :: r) = regionsFrom (byte + 1) r := by
  have hpiece : takePiece '/' r = (⟨false, ['/']⟩, r) := by
    unfold takePiece
    rw [if_neg (by decide), if_pos rfl]
    split
    · exact absurd rfl h.1
    · exact absurd rfl h.2
    · rfl
  exact regionsFrom_cons hpiece

theorem regionsFrom_add (n byte : Nat) (s : List Char) :
    regionsFrom (n + byte) s = (regionsFrom byte s).map fun r => (n + r.1, n + r.2) := by
  have hpieces (ps : List Piece) (byte : Nat) :
      regionsOf (n + byte) ps = (regionsOf byte ps).map fun r => (n + r.1, n + r.2) := by
    induction ps generalizing byte with
    | nil => rfl
    | cons p ps ih =>
      simp only [regionsOf]
      rw [Nat.add_assoc, ih]
      split <;> rfl
  exact hpieces _ byte

/-! ### What is masked -/

/-- A region of a text is a whole comment or literal in it. -/
theorem complete_of_mem_regionsFrom {byte : Nat} {s : List Char} {region : Nat × Nat}
    (h : region ∈ regionsFrom byte s) : ∃ before text after, s = before ++ text ++ after ∧
      Complete text after ∧ region = (byte + Text.bytes before,
        byte + Text.bytes before + Text.bytes text) := by
  match s, h with
  | [], h => cases h
  | c :: r, h =>
    obtain ⟨⟨⟨masked, text⟩, rest⟩, hpiece⟩ : ∃ piece, takePiece c r = piece := ⟨_, rfl⟩
    have happend := takePiece_append c r
    have hne := takePiece_text_ne_nil c r
    rw [hpiece] at happend hne
    have hlength := congrArg List.length happend
    have hpos := List.length_pos_iff.mpr hne
    simp only [List.length_append, List.length_cons] at hlength
    have hlater (h : region ∈ regionsFrom (byte + Text.bytes text) rest) :
        ∃ before text after, c :: r = before ++ text ++ after ∧ Complete text after ∧
          region = (byte + Text.bytes before, byte + Text.bytes before + Text.bytes text) := by
      obtain ⟨before, found, after, rfl, hcomplete, hregion⟩ := complete_of_mem_regionsFrom h
      refine ⟨text ++ before, found, after, ?_, hcomplete, ?_⟩
      · rw [← happend]
        simp only [List.append_assoc]
      · rw [hregion, Text.bytes_append, Nat.add_assoc byte]
    rw [regionsFrom_cons hpiece] at h
    split at h
    next hmasked =>
      subst hmasked
      rcases List.mem_cons.mp h with rfl | h
      · exact ⟨[], text, rest, happend.symm, complete_of_takePiece hpiece, rfl⟩
      · exact hlater h
    next => exact hlater h
termination_by s.length
decreasing_by all_goals simp_all; omega

/-- Masked regions are not empty, come one after the other, and each is one whole comment or literal
of the script. -/
structure Sound (s : List Char) (regions : List (Nat × Nat)) : Prop where
  complete : ∀ region ∈ regions, ∃ before text after, s = before ++ text ++ after ∧
    Complete text after ∧ region = (Text.bytes before, Text.bytes before + Text.bytes text)
  nonempty : ∀ region ∈ regions, region.1 < region.2
  ascending : regions.Pairwise fun region later => region.2 ≤ later.1

theorem Ascending.pairwise {byte : Nat} {regions : List (Nat × Nat)} (h : Ascending byte regions) :
    regions.Pairwise fun region later => region.2 ≤ later.1 := by
  induction h with
  | nil => exact List.Pairwise.nil
  | cons start nonempty later ih =>
    exact List.pairwise_cons.mpr ⟨fun r hr => (later.le_start r hr).1, ih⟩

theorem sound_maskedRegions (s : List Char) : Sound s (maskedRegions s) where
  complete region h := by
    obtain ⟨before, text, after, hs, hcomplete, hregion⟩ := complete_of_mem_regionsFrom h
    rw [Nat.zero_add] at hregion
    exact ⟨before, text, after, hs, hcomplete, hregion⟩
  nonempty region h := ((ascending_maskedRegions s).le_start region h).2
  ascending := (ascending_maskedRegions s).pairwise

/-! ### Texts that leave nothing open -/

/-- A text that starts at a byte and leaves no comment, literal or template open, with the byte
ranges of all that are in it. Outside of them there are only plain characters and slashes that open
no comment, also with what follows the text. -/
inductive Closed (after : List Char) : Nat → List Char → List (Nat × Nat) → Prop where
  | nil (byte : Nat) : Closed after byte [] []
  | plain {byte : Nat} {c : Char} {r : List Char} {regions : List (Nat × Nat)} (plain : isPlain c)
      (later : Closed after (byte + c.utf8Size) r regions) : Closed after byte (c :: r) regions
  | slash {byte : Nat} {r : List Char} {regions : List (Nat × Nat)}
      (alone : (r ++ after).head? ≠ some '/' ∧ (r ++ after).head? ≠ some '*')
      (later : Closed after (byte + 1) r regions) : Closed after byte ('/' :: r) regions
  | complete {byte : Nat} {text r : List Char} {regions : List (Nat × Nat)}
      (whole : Complete text (r ++ after))
      (later : Closed after (byte + Text.bytes text) r regions) :
      Closed after byte (text ++ r) ((byte, byte + Text.bytes text) :: regions)

theorem regionsFrom_of_closed {after s : List Char} {byte : Nat} {regions : List (Nat × Nat)}
    (h : Closed after byte s regions) :
    regionsFrom byte (s ++ after) = regions ++ regionsFrom (byte + Text.bytes s) after := by
  induction h with
  | nil byte => rfl
  | plain hplain later ih =>
    rw [List.cons_append, regionsFrom_plain hplain, ih, Text.bytes_cons, Nat.add_assoc]
  | slash alone later ih =>
    rw [List.cons_append, regionsFrom_slash alone, ih, Text.bytes_cons, Nat.add_assoc]
    rfl
  | complete whole later ih =>
    rw [List.append_assoc, regionsFrom_complete whole, ih, Text.bytes_append, Nat.add_assoc]
    rfl

theorem maskedRegions_of_closed {s : List Char} {regions : List (Nat × Nat)}
    (h : Closed [] 0 s regions) : maskedRegions s = regions := by
  have hregions := regionsFrom_of_closed h
  rwa [List.append_nil, regionsFrom_nil, List.append_nil] at hregions

end Assay.Mask
