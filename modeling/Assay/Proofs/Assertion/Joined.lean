import Assay.Proofs.Assertion.ByLine
import Assay.Proofs.Assertion.Regions

/-!
# Masks and statements of joined scripts

A script that leaves no comment or literal open and ends with a newline can be put before any other:
both keep their masked regions and their statements. `maskedRegions_local` says so, and that every
masked region is one whole comment or literal.
-/

namespace Assay

namespace Mask

/-! ### Regions of joined scripts -/

/-- A text whose last character, if there is one, is a newline. -/
def EndsLine (s : List Char) : Prop := ∀ c ∈ s.getLast?, c = '\n'

theorem EndsLine.of_append (front : List Char) {s : List Char} (h : EndsLine (front ++ s)) :
    EndsLine s := by
  intro c hc
  refine h c ?_
  rw [List.getLast?_append, Option.mem_def.mp hc]
  rfl

/-- What follows the newline at the end of a script does not lengthen a comment or literal in it. -/
theorem Complete.append {text r : List Char} (h : Complete text r) (hline : EndsLine (text ++ r))
    (t : List Char) : Complete text (r ++ t) := by
  cases h with
  | @line body _ inside stop =>
    cases r with
    | nil =>
      have hlast := hline _ (List.getLast?_eq_some_getLast (by simp))
      have hmem := List.getLast_mem (show '/' :: '/' :: body ++ [] ≠ [] by simp)
      rw [hlast] at hmem
      simp only [List.append_nil, List.mem_cons, show '\n' ≠ '/' by decide, false_or] at hmem
      exact absurd hmem inside
    | cons c r => exact .line inside stop
  | block closes => exact .block closes
  | quoted kind closes => exact .quoted kind closes

theorem Closed.append {byte : Nat} {s : List Char} {regions : List (Nat × Nat)}
    (h : Closed [] byte s regions) (hline : EndsLine s) (t : List Char) :
    Closed t byte s regions := by
  induction h with
  | nil byte => exact .nil byte
  | @plain byte c r regions plain later ih =>
    exact .plain plain (ih (hline.of_append [c]))
  | @slash byte r regions alone later ih =>
    cases r with
    | nil => exact absurd (hline '/' rfl) (by decide)
    | cons c r => exact .slash alone (ih (hline.of_append ['/']))
  | @complete byte text r regions whole later ih =>
    rw [List.append_nil] at whole
    exact .complete (whole.append hline t) (ih (hline.of_append text))

theorem maskedRegions_append {s : List Char} {regions : List (Nat × Nat)}
    (h : Closed [] 0 s regions) (hline : EndsLine s) (t : List Char) :
    maskedRegions (s ++ t) = maskedRegions s ++
      (maskedRegions t).map fun r => (Text.bytes s + r.1, Text.bytes s + r.2) := by
  have hregions := regionsFrom_of_closed (h.append hline t)
  rw [Nat.zero_add, ← Nat.add_zero (Text.bytes s), regionsFrom_add] at hregions
  rw [maskedRegions_of_closed h]
  exact hregions

theorem stop_le_of_mem_maskedRegions {s : List Char} {region : Nat × Nat}
    (h : region ∈ maskedRegions s) : region.2 ≤ Text.bytes s := by
  obtain ⟨before, text, after, rfl, -, rfl⟩ := (sound_maskedRegions s).complete region h
  simp only [Text.bytes_append]
  omega

end Mask

namespace Scan

/-! ### Matches of joined scripts -/

def Match.shift (n : Nat) (m : Match) : Match := ⟨n + m.start, m.text⟩

variable {callee : List Char}

theorem LineMatches.append {byte : Nat} {lines lines' : List (List Char)} {ms ms' : List Match}
    (h : LineMatches callee byte lines ms)
    (h' : LineMatches callee (byte + Text.bytes (lines.flatMap (· ++ ['\n']))) lines' ms') :
    LineMatches callee byte (lines ++ lines') (ms ++ ms') := by
  have hbytes (line : List Char) (rest : List (List Char)) :
      Text.bytes ((line :: rest).flatMap (· ++ ['\n'])) =
        Text.bytes line + 1 + Text.bytes (rest.flatMap (· ++ ['\n'])) := by
    rw [List.flatMap_cons, Text.bytes_append, Text.bytes_append]
    rfl
  induction h with
  | nil byte => exact h'
  | call first later ih =>
    rw [hbytes, ← Nat.add_assoc, ← Nat.add_assoc] at h'
    exact .call first (ih h')
  | without none later ih =>
    rw [hbytes, ← Nat.add_assoc, ← Nat.add_assoc] at h'
    exact .without none (ih h')

theorem LineMatches.shift {byte : Nat} {lines : List (List Char)} {ms : List Match}
    (h : LineMatches callee byte lines ms) (n : Nat) :
    LineMatches callee (n + byte) lines (ms.map (Match.shift n)) := by
  induction h with
  | nil byte => exact .nil _
  | @call byte line before call lines ms first later ih =>
    rw [← Nat.add_assoc, ← Nat.add_assoc] at ih
    rw [List.map_cons, Match.shift, ← Nat.add_assoc]
    exact .call first ih
  | without none later ih =>
    rw [← Nat.add_assoc, ← Nat.add_assoc] at ih
    exact .without none ih

/-- A script that ends with a newline is made of ended lines. -/
theorem exists_lines_of_endsLine {s : List Char} (h : Mask.EndsLine s) :
    ∃ lines : List (List Char), s = lines.flatMap (· ++ ['\n']) ∧ ∀ line ∈ lines, '\n' ∉ line := by
  obtain ⟨last, hmem, hs⟩ := exists_last_line s
  have hlines := Text.newline_not_mem_lines s
  refine ⟨(Text.lines s).dropLast, ?_,
    fun line h => hlines line ((List.dropLast_sublist _).subset h)⟩
  cases hlast : last.getLast? with
  | none => rwa [List.getLast?_eq_none_iff.mp hlast, List.append_nil] at hs
  | some c =>
    rw [hs] at h
    have hc : c = '\n' := h.of_append _ c hlast
    exact absurd (hc ▸ List.mem_of_getLast? hlast) (hlines last hmem)

theorem candidates_append (hcallee : '\n' ∉ callee) {s : List Char} (hline : Mask.EndsLine s)
    (t : List Char) : candidates callee (s ++ t) =
      candidates callee s ++ (candidates callee t).map (Match.shift (Text.bytes s)) := by
  obtain ⟨front, rfl, hfront⟩ := exists_lines_of_endsLine hline
  obtain ⟨last, hmem, ht⟩ := exists_last_line t
  have hlines := Text.newline_not_mem_lines t
  have hback : ∀ line ∈ (Text.lines t).dropLast, '\n' ∉ line :=
    fun line h => hlines line ((List.dropLast_sublist _).subset h)
  obtain ⟨ms, hms⟩ := exists_lineMatches callee 0 front
  obtain ⟨ms', hms'⟩ := exists_lineMatches callee 0 (Text.lines t).dropLast
  have hms'' := hms'.shift (Text.bytes (front.flatMap (· ++ ['\n'])))
  rw [Nat.add_comm] at hms''
  have hjoined := matchesFrom_lines hcallee (hms.append hms'')
    (List.forall_mem_append.mpr ⟨hfront, hback⟩) (hlines last hmem) (Or.inl rfl)
  have hs := matchesFrom_lines hcallee hms hfront List.not_mem_nil (Or.inl rfl)
  have ht' := matchesFrom_lines hcallee hms' hback (hlines last hmem) (Or.inl rfl)
  rw [List.flatMap_append, List.append_assoc, ← ht] at hjoined
  rw [List.append_nil] at hs
  rw [← ht] at ht'
  simp only [candidates]
  rw [hjoined, hs, ht']

theorem isMasked_shift (n byte : Nat) (regions : List (Nat × Nat)) :
    isMasked (regions.map fun r => (n + r.1, n + r.2)) (n + byte) = isMasked regions byte := by
  simp only [isMasked, List.any_map, Function.comp_def, Nat.add_le_add_iff_left,
    Nat.add_lt_add_iff_left]

theorem isMasked_eq_false {regions : List (Nat × Nat)} {byte : Nat}
    (h : ∀ r ∈ regions, r.2 ≤ byte ∨ byte < r.1) : isMasked regions byte = false := by
  rw [isMasked, List.any_eq_false]
  intro r hr
  have := h r hr
  simp only [Bool.and_eq_true, decide_eq_true_eq, not_and, Nat.not_lt]
  omega

/-- A match stands within its script. -/
theorem within_of_mem_candidates {s : List Char} {m : Match} (h : m ∈ candidates callee s) :
    m.start < m.stop ∧ m.stop ≤ Text.bytes s := by
  have hlocated := matchesFrom_located callee 0 none 0 s
  obtain ⟨before, after, hs, hstart⟩ := hlocated.mem m h
  obtain ⟨c, text, htext⟩ := List.exists_cons_of_ne_nil (text_ne_nil_of_mem_matchesFrom h)
  have hpos := c.utf8Size_pos
  rw [List.drop_zero] at hs
  rw [hs, Match.stop, htext, hstart]
  simp only [List.take_zero, Text.bytes_nil, Text.bytes_append, Text.bytes_cons]
  omega

theorem statements_append (hcallee : '\n' ∉ callee) {s : List Char} {regions : List (Nat × Nat)}
    (h : Mask.Closed [] 0 s regions) (hline : Mask.EndsLine s) (t : List Char) :
    statements callee (s ++ t) =
      statements callee s ++ (statements callee t).map (Match.shift (Text.bytes s)) := by
  simp only [statements]
  rw [candidates_append hcallee hline, Mask.maskedRegions_append h hline, List.filter_append,
    List.filter_map]
  congr 1
  · refine List.filter_congr fun m hm => ?_
    have hwithin := within_of_mem_candidates hm
    have hlater : isMasked ((Mask.maskedRegions t).map fun r =>
        (Text.bytes s + r.1, Text.bytes s + r.2)) m.start = false := by
      refine isMasked_eq_false fun r hr => ?_
      obtain ⟨r, -, rfl⟩ := List.mem_map.mp hr
      exact Or.inr (by dsimp only; omega)
    rw [isMasked_append, hlater, Bool.or_false]
  · refine congrArg _ (List.filter_congr fun m hm => ?_)
    have hearlier : isMasked (Mask.maskedRegions s) (Text.bytes s + m.start) = false := by
      refine isMasked_eq_false fun r hr => ?_
      have := Mask.stop_le_of_mem_maskedRegions hr
      omega
    simp only [Function.comp_apply, Match.shift]
    rw [isMasked_append, hearlier, Bool.false_or, isMasked_shift]

/-- Every masked region is one whole comment or literal, and they come one after the other. A script
that leaves nothing open and ends with a newline has all of its comments and literals for regions,
and when it is put before another script the regions and the statements of both stay, those of the
second moved by the length of the first. -/
theorem maskedRegions_local :
    (∀ s, Mask.Sound s (Mask.maskedRegions s)) ∧
      ∀ s regions, s.getLast? = some '\n' → Mask.Closed [] 0 s regions →
        Mask.maskedRegions s = regions ∧
        (∀ t, Mask.maskedRegions (s ++ t) = Mask.maskedRegions s ++
          (Mask.maskedRegions t).map fun r => (Text.bytes s + r.1, Text.bytes s + r.2)) ∧
        ∀ callee, '\n' ∉ callee → ∀ t, statements callee (s ++ t) =
          statements callee s ++ (statements callee t).map (Match.shift (Text.bytes s)) := by
  refine ⟨Mask.sound_maskedRegions, fun s regions hlast hclosed => ?_⟩
  have hline : Mask.EndsLine s := by
    intro c hc
    rw [hlast] at hc
    exact (Option.some.inj hc).symm
  exact ⟨Mask.maskedRegions_of_closed hclosed, Mask.maskedRegions_append hclosed hline,
    fun callee hcallee => statements_append hcallee hclosed hline⟩

/-- A string that holds its own quote, a division and a line comment. -/
def closedScript : List Char :=
  ['\'', '\\', '\'', '\''] ++ '/' :: ' ' :: (['/', '/', ' ', 'b'] ++ ['\n'])

theorem closed_closedScript : Mask.Closed [] 0 closedScript [(0, 4), (6, 10)] := by
  have hstring : Mask.Closes '\'' ['\\', '\'', '\''] :=
    (Mask.closes_pair (by decide)).mpr ((Mask.closes_cons (by decide)).mpr (Or.inl ⟨rfl, rfl⟩))
  refine .complete (.quoted rfl hstring) (.slash (by decide) (.plain rfl ?_))
  exact .complete (.line (by decide) rfl) (.plain rfl (.nil _))

/-- Before a script whose last template is not closed. -/
theorem maskedRegions_local_closedScript :
    closedScript.getLast? = some '\n' ∧ Mask.Closed [] 0 closedScript [(0, 4), (6, 10)] ∧
      Mask.maskedRegions (closedScript ++ "f(1)\n`".toList) = [(0, 4), (6, 10)] ∧
      '\n' ∉ ['f'] ∧
      statements ['f'] (closedScript ++ "f(1)\n`".toList) = [⟨11, "f(1)".toList⟩] := by
  have hline : closedScript.getLast? = some '\n' := rfl
  obtain ⟨hregions, hmasks, hstatements⟩ := maskedRegions_local.2 _ _ hline closed_closedScript
  refine ⟨hline, closed_closedScript, ?_, by decide, ?_⟩
  · rw [hmasks, hregions]
    decide +kernel
  · rw [hstatements ['f'] (by decide)]
    decide +kernel

end Scan

end Assay
