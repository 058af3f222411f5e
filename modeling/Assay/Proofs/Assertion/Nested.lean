import Assay.Proofs.Assertion.Regions
import Assay.Proofs.Assertion.Reported

/-!
# Templates in templates

A template is masked with its substitutions up to the next backtick, which is taken for its end even
if it opens another template. `maskedRegions_nested` says what is masked of a template with another
one in its substitution, and that what stands in that one is not.
-/

namespace Assay

open Text (bytes bytes_append bytes_cons)

namespace Mask

/-- Text without any character that begins or ends a literal, a comment or a substitution. -/
def Bare (s : List Char) : Prop :=
  ∀ c ∈ s, c ∉ ['\x60', '"', '\'', '/', '\\', '$', '\x7b', '\x7d']

instance (s : List Char) : Decidable (Bare s) := List.decidableBAll _ s

/-- A template between backticks. -/
def ticked (s : List Char) : List Char := '\x60' :: s ++ ['\x60']

/-- A template with one substitution. -/
def template (before inner after : List Char) : List Char :=
  ticked (before ++ '$' :: '\x7b' :: inner ++ '\x7d' :: after)

variable {p q r s : List Char}

theorem Bare.isPlain (h : Bare s) : ∀ c ∈ s, isPlain c := by
  intro c hc
  have hnone := h c hc
  simp only [List.mem_cons, List.not_mem_nil, or_false, not_or] at hnone
  simp [Mask.isPlain, isQuote, hnone]

theorem Bare.closes (h : Bare s) : ∀ c ∈ s, c ≠ '\x60' ∧ c ≠ '\\' := by
  intro c hc
  have hnone := h c hc
  simp only [List.mem_cons, List.not_mem_nil, or_false, not_or] at hnone
  exact ⟨hnone.1, hnone.2.2.2.2.1⟩

theorem inside_of_forall (h : ∀ c ∈ s, c ≠ '\x60' ∧ c ≠ '\\') : Inside '\x60' s := by
  induction s with
  | nil => exact inside_nil
  | cons c s ih =>
    obtain ⟨⟨hquote, hslash⟩, hs⟩ := List.forall_mem_cons.mp h
    exact (inside_cons hslash).mpr ⟨hquote, fun hne => absurd rfl hne, ih hs⟩

theorem complete_ticked (h : ∀ c ∈ s, c ≠ '\x60' ∧ c ≠ '\\') (after : List Char) :
    Complete (ticked s) after :=
  .quoted rfl ⟨s, inside_of_forall h, rfl⟩

theorem regionsFrom_code (h : ∀ c ∈ s, isPlain c) (byte : Nat) (rest : List Char) :
    regionsFrom byte (s ++ rest) = regionsFrom (byte + bytes s) rest := by
  induction s generalizing byte with
  | nil => rfl
  | cons c s ih =>
    obtain ⟨hc, hs⟩ := List.forall_mem_cons.mp h
    rw [List.cons_append, regionsFrom_plain hc, ih hs, bytes_cons, Nat.add_assoc]

/-- A template without a backtick inside is masked whole, whatever it substitutes. -/
theorem maskedRegions_ticked (h : ∀ c ∈ s, c ≠ '\x60' ∧ c ≠ '\\') :
    maskedRegions (ticked s) = [(0, bytes (ticked s))] := by
  have hregions : regionsFrom 0 (ticked s ++ []) = _ := regionsFrom_complete (complete_ticked h [])
  rwa [List.append_nil, regionsFrom_nil, Nat.zero_add] at hregions

theorem bytes_ticked (s : List Char) : bytes (ticked s) = bytes s + 2 := by
  have htick : '\x60'.utf8Size = 1 := by decide
  rw [ticked, List.cons_append, bytes_cons, bytes_append, bytes_cons, htick, Text.bytes_nil]
  omega

/-- The backtick that opens the inner template ends the outer one. -/
theorem template_ticked (p q r : List Char) : template p (ticked q) r =
    ticked (p ++ ['$', '\x7b']) ++ (q ++ ticked ('\x7d' :: r)) := by
  simp [template, ticked]

/-- Of a template inside a template only the backticks are masked. -/
theorem maskedRegions_nested (hp : Bare p) (hq : Bare q) (hr : Bare r) :
    maskedRegions (template p (ticked q) r) =
      [(0, bytes p + 4), (bytes p + 4 + bytes q, bytes (template p (ticked q) r))] := by
  have hfront : ∀ c ∈ p ++ ['$', '\x7b'], c ≠ '\x60' ∧ c ≠ '\\' :=
    List.forall_mem_append.mpr ⟨hp.closes, by simp⟩
  have hback : ∀ c ∈ '\x7d' :: r, c ≠ '\x60' ∧ c ≠ '\\' :=
    List.forall_mem_cons.mpr ⟨by decide, hr.closes⟩
  have hlength : bytes (ticked (p ++ ['$', '\x7b'])) = bytes p + 4 := by
    rw [bytes_ticked, bytes_append]
    rfl
  have hregions : regionsFrom 0 (template p (ticked q) r) =
      (0, bytes p + 4) :: regionsFrom (bytes p + 4 + bytes q) (ticked ('\x7d' :: r) ++ []) := by
    rw [template_ticked, regionsFrom_complete (complete_ticked hfront _), hlength, Nat.zero_add,
      regionsFrom_code hq.isPlain, List.append_nil]
  rw [regionsFrom_complete (complete_ticked hback []), regionsFrom_nil] at hregions
  rw [maskedRegions, ← regionsFrom, hregions, template_ticked, bytes_append, bytes_append, hlength,
    Nat.add_assoc (bytes p + 4)]

end Mask

namespace Scan

open Mask (Bare template ticked maskedRegions)

variable {callee p q r s : List Char}

theorem start_lt_bytes {m : Match} (h : m ∈ candidates callee s) : m.start < bytes s := by
  have hlocated := matchesFrom_located callee 0 none 0 s
  have hne := text_ne_nil_of_mem_matchesFrom h
  obtain ⟨before, after, hs, hstart⟩ := hlocated.mem m (by simpa [candidates] using h)
  obtain ⟨c, text, htext⟩ := List.exists_cons_of_ne_nil hne
  have hc := c.utf8Size_pos
  have hbytes := congrArg bytes hs
  rw [htext] at hbytes
  simp only [List.drop_zero, List.take_zero, bytes_append, bytes_cons, Text.bytes_nil] at hbytes hstart
  omega

/-- What stands in a template inside of another one is masked, and no statement in it is
reported. -/
def HidesNested (callee p q r : List Char) : Prop :=
  (∀ byte, bytes p + 4 ≤ byte → byte < bytes p + 4 + bytes q →
    Masked (template p (ticked q) r) byte) ∧
  ∀ m ∈ statements callee (template p (ticked q) r),
    ¬ (bytes p + 4 ≤ m.start ∧ m.start < bytes p + 4 + bytes q)

theorem hidesNested_iff (hp : Bare p) (hq : Bare q) (hr : Bare r) :
    HidesNested callee p q r ↔ q = [] := by
  constructor
  · rintro ⟨hmasked, -⟩
    cases q with
    | nil => rfl
    | cons c q =>
      have hpos : 0 < bytes (c :: q) := by
        have := c.utf8Size_pos
        rw [bytes_cons]
        omega
      obtain ⟨region, hregion, hstart, hstop⟩ := hmasked (bytes p + 4) (Nat.le_refl _) (by omega)
      rw [Mask.maskedRegions_nested hp hq hr] at hregion
      simp only [List.mem_cons, List.not_mem_nil, or_false] at hregion
      rcases hregion with rfl | rfl <;> dsimp only at hstart hstop <;> omega
  · rintro rfl
    refine ⟨fun byte hstart hstop => ?_, fun m _ hm => ?_⟩
    · rw [Text.bytes_nil] at hstop
      omega
    · rw [Text.bytes_nil] at hm
      omega

/-- A template with a substitution is masked whole and hides every statement, if no backtick stands
in it. Of a template in its substitution only the backticks are masked: the statements that are
reported are all those that start there. -/
theorem statements_template (hp : Bare p) (hq : Bare q) (hr : Bare r) :
    (maskedRegions (template p q r) = [(0, bytes (template p q r))] ∧
      ∀ callee, statements callee (template p q r) = []) ∧
    maskedRegions (template p (ticked q) r) =
      [(0, bytes p + 4), (bytes p + 4 + bytes q, bytes (template p (ticked q) r))] ∧
    ∀ callee, (HidesNested callee p q r ↔ q = []) ∧
      statements callee (template p (ticked q) r) =
        (candidates callee (template p (ticked q) r)).filter fun m =>
          bytes p + 4 ≤ m.start ∧ m.start < bytes p + 4 + bytes q := by
  have hwhole : ∀ c ∈ p ++ '$' :: '\x7b' :: q ++ '\x7d' :: r, c ≠ '\x60' ∧ c ≠ '\\' := by
    rw [List.forall_mem_append, List.forall_mem_append]
    simp only [List.forall_mem_cons]
    exact ⟨⟨hp.closes, by decide, by decide, hq.closes⟩, by decide, hr.closes⟩
  have hregions : maskedRegions (template p q r) = [(0, bytes (template p q r))] :=
    Mask.maskedRegions_ticked hwhole
  have hnested := Mask.maskedRegions_nested hp hq hr
  refine ⟨⟨hregions, fun callee => ?_⟩, hnested, fun callee => ⟨hidesNested_iff hp hq hr, ?_⟩⟩
  · refine List.filter_eq_nil_iff.mpr fun m hm => ?_
    have hlt := start_lt_bytes hm
    rw [hregions]
    simpa [isMasked] using hlt
  · refine List.filter_congr fun m hm => ?_
    have hlt := start_lt_bytes hm
    rw [hnested, Bool.eq_iff_iff]
    simp only [isMasked, List.any_cons, List.any_nil, Bool.or_false, Bool.not_or, Bool.and_eq_true,
      Bool.not_eq_true', Bool.and_eq_false_iff, decide_eq_false_iff_not, decide_eq_true_iff]
    omega

/-- Two lines of text in a template, of which one looks like a statement. -/
def quotedStatement : List Char := "\nt.assert(a);\n".toList

theorem statements_template_quotedStatement :
    Bare "é".toList ∧ Bare quotedStatement ∧ Bare [] ∧
      maskedRegions (template "é".toList quotedStatement []) = [(0, 21)] ∧
      statements "t.assert".toList (template "é".toList quotedStatement []) = [] ∧
      maskedRegions (template "é".toList (ticked quotedStatement) []) = [(0, 6), (20, 23)] ∧
      (candidates "t.assert".toList (template "é".toList (ticked quotedStatement) [])).filter
        (fun m => 6 ≤ m.start ∧ m.start < 20) = [⟨7, "t.assert(a);".toList⟩] := by
  have hp : Bare "é".toList := by decide
  have hq : Bare quotedStatement := by decide
  have hr : Bare [] := by decide
  obtain ⟨⟨hwhole, hnone⟩, hnested, hcallee⟩ := statements_template hp hq hr
  refine ⟨hp, hq, hr, hwhole, hnone _, hnested, ?_⟩
  decide +kernel

/-- A line of the inner template is reported as a statement. -/
theorem not_hidesNested :
    Bare [] ∧ Bare quotedStatement ∧
      template [] (ticked quotedStatement) [] = "\x60$\x7b\x60\nt.assert(a);\n\x60\x7d\x60".toList ∧
      ⟨5, "t.assert(a);".toList⟩ ∈
        statements "t.assert".toList (template [] (ticked quotedStatement) []) ∧
      ¬ HidesNested "t.assert".toList [] quotedStatement [] := by
  have hreported : ⟨5, "t.assert(a);".toList⟩ ∈
      statements "t.assert".toList (template [] (ticked quotedStatement) []) := by
    decide +kernel
  refine ⟨by decide, by decide, by decide, hreported, fun h => ?_⟩
  exact h.2 _ hreported (by decide)

end Scan

end Assay
