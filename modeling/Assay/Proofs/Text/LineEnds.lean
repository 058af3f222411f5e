import Assay.Proofs.Text.LineIndex

/-!
# Where the lines of a text end

Every line of a text ends before the next one starts, and what lies beyond the text is its end.
`offset_le_offset` says that places on later lines have no smaller offsets.
-/

namespace Assay

namespace LineIndex

theorem le_of_mem_startsAfter {offset start : Nat} {s : List Char}
    (h : start ∈ startsAfter offset s) : start ≤ offset + Text.units s := by
  induction s generalizing offset with
  | nil => cases h
  | cons c r ih =>
    rw [Text.units_cons, ← Nat.add_assoc]
    unfold startsAfter at h
    split at h
    next =>
      rcases List.mem_cons.mp h with rfl | h
      · exact Nat.le_add_right _ _
      · exact ih h
    next => exact ih h

theorem start_le_length {s : List Char} {n start : Nat}
    (h : (ofText s).starts[n]? = some start) : start ≤ (ofText s).length := by
  rw [ofText, List.getElem?_toArray] at h
  rcases List.mem_cons.mp (List.mem_of_getElem? h) with rfl | h
  · exact Nat.zero_le _
  · have hle := le_of_mem_startsAfter h
    rwa [Nat.zero_add] at hle

variable {s : List Char} {line : Nat} {p q : Position}

/-- A line of a text starts and ends in it, and ends before the next one starts. -/
theorem exists_line (hone : 1 ≤ line) (hline : line ≤ (ofText s).starts.size) :
    ∃ start stop, (ofText s).lineStart? line = some start ∧
      (ofText s).lineEnd? line = some stop ∧ start ≤ stop ∧ stop ≤ (ofText s).length ∧
      ∀ n next, line ≤ n → (ofText s).starts[n]? = some next → stop ≤ next := by
  have hstart := Array.getElem?_eq_getElem (show line - 1 < (ofText s).starts.size by omega)
  rw [lineStart?, if_neg (by omega), lineEnd?, if_neg (by omega)]
  cases hnext : (ofText s).starts[line]? with
  | none =>
    refine ⟨_, _, hstart, rfl, start_le_length hstart, Nat.le_refl _, fun n next hn hlater => ?_⟩
    have hsize := Array.getElem?_eq_none_iff.mp hnext
    obtain ⟨hlt, -⟩ := Array.getElem?_eq_some_iff.mp hlater
    omega
  | some next =>
    have hlt := start_lt_start (show line - 1 < line by omega) hstart hnext
    have hle := start_le_length hnext
    refine ⟨_, _, hstart, rfl, by omega, by omega, fun n later hn hlater => ?_⟩
    rcases Nat.lt_or_eq_of_le hn with hn | rfl
    · have := start_lt_start hn hnext hlater
      omega
    · rw [hnext] at hlater
      have := Option.some.inj hlater
      omega

theorem lineEnd?_beyond (hline : (ofText s).starts.size < line) :
    (ofText s).lineEnd? line = none := by
  rw [lineEnd?, if_pos (Or.inr hline)]

theorem offset_beyond (hline : (ofText s).starts.size < p.line) :
    (ofText s).offset p = (ofText s).length := by
  rw [offset, Nat.max_eq_left (by omega), lineEnd?_beyond hline]
  split
  next h => cases h
  next => rfl

/-- The offset of a place in a line is between the ends of the line. -/
theorem offset_of_line {start stop : Nat} (hone : 1 ≤ p.line)
    (hstart : (ofText s).lineStart? p.line = some start)
    (hstop : (ofText s).lineEnd? p.line = some stop) :
    (ofText s).offset p = start + min p.column (stop - start) := by
  rw [offset, Nat.max_eq_left hone, hstart, hstop]

theorem lineEnd_le_length :
    ((ofText s).lineEnd? line).getD (ofText s).length ≤ (ofText s).length := by
  rcases Nat.eq_zero_or_pos line with rfl | hone
  · exact Nat.le_refl _
  rcases Nat.lt_or_ge (ofText s).starts.size line with hbeyond | hline
  · exact Nat.le_of_eq (by rw [lineEnd?_beyond hbeyond, Option.getD_none])
  · obtain ⟨_, stop, -, hstop, -, hlength, -⟩ := exists_line hone hline
    rwa [hstop, Option.getD_some]

/-- No offset on a line is behind the end of the line. -/
theorem offset_le_lineEnd (hone : 1 ≤ p.line) :
    (ofText s).offset p ≤ ((ofText s).lineEnd? p.line).getD (ofText s).length := by
  rcases Nat.lt_or_ge (ofText s).starts.size p.line with hbeyond | hline
  · exact Nat.le_of_eq (by rw [offset_beyond hbeyond, lineEnd?_beyond hbeyond, Option.getD_none])
  · obtain ⟨start, stop, hstart, hstop, hle, -, -⟩ := exists_line hone hline
    rw [offset_of_line hone hstart hstop, hstop, Option.getD_some]
    omega

/-- No offset on a later line is before the end of a line. -/
theorem lineEnd_le_offset (hone : 1 ≤ line) (hlater : line < p.line) :
    ((ofText s).lineEnd? line).getD (ofText s).length ≤ (ofText s).offset p := by
  rcases Nat.lt_or_ge (ofText s).starts.size line with hbeyond | hline
  · rw [lineEnd?_beyond hbeyond, Option.getD_none]
    exact Nat.le_of_eq (offset_beyond (Nat.lt_trans hbeyond hlater)).symm
  · obtain ⟨start, stop, -, hstop, -, hlength, hnext⟩ := exists_line hone hline
    rw [hstop, Option.getD_some]
    rcases Nat.lt_or_ge (ofText s).starts.size p.line with hbeyond | hline'
    · rwa [offset_beyond hbeyond]
    · have hone' : 1 ≤ p.line := by omega
      obtain ⟨start', stop', hstart', hstop', -, -, -⟩ := exists_line hone' hline'
      rw [offset_of_line hone' hstart' hstop']
      rw [lineStart?, if_neg (by omega)] at hstart'
      have := hnext (p.line - 1) start' (by omega) hstart'
      omega

/-- There is no line 0: it counts as the first one. -/
theorem offset_line_zero (column : Nat) :
    (ofText s).offset ⟨0, column⟩ = (ofText s).offset ⟨1, column⟩ :=
  rfl

theorem offset_le_length : (ofText s).offset p ≤ (ofText s).length := by
  obtain ⟨_ | line, column⟩ := p
  · rw [offset_line_zero]
    exact Nat.le_trans (offset_le_lineEnd (Nat.le_refl 1)) lineEnd_le_length
  · exact Nat.le_trans (offset_le_lineEnd (Nat.succ_pos line)) lineEnd_le_length

theorem offset_le_offset (hone : 1 ≤ p.line) (hlater : p.line < q.line) :
    (ofText s).offset p ≤ (ofText s).offset q :=
  Nat.le_trans (offset_le_lineEnd hone) (lineEnd_le_offset hone hlater)

end LineIndex

end Assay
