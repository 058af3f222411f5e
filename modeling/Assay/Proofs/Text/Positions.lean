import Assay.Proofs.Text.LineEnds
import Assay.Proofs.Text.LineStarts

/-!
# Places in the lines of a text

The offsets of a text and the places in its lines stand for each other, in the same order. Any other
position is taken to the end of its line or of the text. `converts_ofText` says all of it.
-/

namespace Assay

namespace LineIndex

variable {s : List Char} {front : List (List Char)} {line : List Char} {back : List (List Char)}
  {column : Nat}

theorem position?_eq_none_iff {o : Nat} : (ofText s).position? o = none ↔ Text.units s < o := by
  refine ⟨fun h => Nat.lt_of_not_le fun hle => ?_, fun h => if_pos h⟩
  obtain ⟨n, start, hp, -⟩ := position?_of_le hle
  rw [h] at hp
  cases hp

/-- A line of a text by its number, with the lines before it and behind it. -/
theorem exists_lines_append {n : Nat} (hone : 1 ≤ n) (h : (Text.lines s)[n - 1]? = some line) :
    ∃ front back, Text.lines s = front ++ line :: back ∧ n = front.length + 1 := by
  obtain ⟨hn, rfl⟩ := List.getElem?_eq_some_iff.mp h
  refine ⟨(Text.lines s).take (n - 1), (Text.lines s).drop (n - 1 + 1), ?_, ?_⟩
  · rw [← List.drop_eq_getElem_cons hn, List.take_append_drop]
  · rw [List.length_take_of_le (Nat.le_of_lt hn), Nat.sub_add_cancel hone]

theorem inLine_of_lines (h : Text.lines s = front ++ line :: back)
    (hcolumn : column ≤ Text.units line) :
    InLine s (Text.linesUnits front + column) front.length (Text.linesUnits front) := by
  have hstart := lineStart?_of_lines h
  have hstop := lineEnd?_of_lines h
  rw [lineStart?, if_neg (Nat.succ_ne_zero _), Nat.add_sub_cancel] at hstart
  refine ⟨hstart, Nat.le_add_right _ _, fun next hnext => ?_⟩
  have hsize := (Array.getElem?_eq_some_iff.mp hnext).1
  -- the next line does not start at 0, so the newline before it has an offset
  have hpos := le_start hnext
  rw [lineEnd?, if_neg (by omega), hnext] at hstop
  have := Option.some.inj hstop
  omega

theorem position?_offset_of_lines (h : Text.lines s = front ++ line :: back)
    (hcolumn : column ≤ Text.units line) :
    (ofText s).position? ((ofText s).offset ⟨front.length + 1, column⟩) =
      some ⟨front.length + 1, column⟩ := by
  have hle : (ofText s).offset ⟨front.length + 1, column⟩ ≤ Text.units s := offset_le_length
  rw [offset_of_lines h hcolumn] at hle ⊢
  rw [position?_of_inLine hle (inLine_of_lines h hcolumn), Nat.add_sub_cancel_left]

/-- A column behind its line stands for the end of the line. -/
theorem lineEnd?_eq_offset (h : Text.lines s = front ++ line :: back)
    (hcolumn : Text.units line ≤ column) :
    (ofText s).lineEnd? (front.length + 1) =
      some ((ofText s).offset ⟨front.length + 1, column⟩) := by
  rw [offset_of_line (Nat.le_add_left 1 _) (lineStart?_of_lines h) (lineEnd?_of_lines h),
    lineEnd?_of_lines h, Nat.add_sub_cancel_left, Nat.min_eq_right hcolumn]

theorem offset_mono {p q : Position} (hone : 1 ≤ p.line) (hle : p.le q) :
    (ofText s).offset p ≤ (ofText s).offset q := by
  rcases Position.le_iff.mp hle with hlater | ⟨hline, hcolumn⟩
  · exact offset_le_offset hone hlater
  rcases Nat.lt_or_ge (ofText s).starts.size p.line with hbeyond | hwithin
  · exact Nat.le_of_eq (by rw [offset_beyond hbeyond, offset_beyond (hline ▸ hbeyond)])
  · obtain ⟨start, stop, hstart, hstop, -, -, -⟩ := exists_line hone hwithin
    rw [offset_of_line hone hstart hstop,
      offset_of_line (hline ▸ hone) (hline ▸ hstart) (hline ▸ hstop)]
    omega

/-- How the offsets and the positions of a text are converted. -/
structure Converts (s : List Char) : Prop where
  /-- Every offset up to the end of the text, even one within a character, has a position with that
  offset. Its line is at most one more than the offset, its column at most the offset. -/
  offset_position : ∀ o ≤ Text.units s, ∃ p, (ofText s).position? o = some p ∧
    (ofText s).offset p = o ∧ 1 ≤ p.line ∧ p.line ≤ o + 1 ∧ p.column ≤ o
  position_beyond : ∀ o, (ofText s).position? o = none ↔ Text.units s < o
  position_lt : ∀ o o' p p', o < o' → (ofText s).position? o = some p →
    (ofText s).position? o' = some p' →
      p.line < p'.line ∨ (p.line = p'.line ∧ p.column < p'.column)
  lineCount : (ofText s).lineCount = (Text.lines s).length
  position_offset : ∀ p line, 1 ≤ p.line → (Text.lines s)[p.line - 1]? = some line →
    p.column ≤ Text.units line → (ofText s).position? ((ofText s).offset p) = some p
  offset_le : ∀ p, (ofText s).offset p ≤ Text.units s
  offset_column : ∀ p line, 1 ≤ p.line → (Text.lines s)[p.line - 1]? = some line →
    Text.units line ≤ p.column → (ofText s).lineEnd? p.line = some ((ofText s).offset p)
  offset_line : ∀ p, (ofText s).lineCount < p.line → (ofText s).offset p = Text.units s
  offset_zero : ∀ column, (ofText s).offset ⟨0, column⟩ = (ofText s).offset ⟨1, column⟩
  offset_mono : ∀ p q, 1 ≤ p.line →
    (p.line < q.line ∨ (p.line = q.line ∧ p.column ≤ q.column)) →
      (ofText s).offset p ≤ (ofText s).offset q

/-- The index of every text converts in this way: offsets and places in lines are inverse and in
the same order, and the offset of any position is in the text. -/
theorem converts_ofText (s : List Char) : Converts s where
  offset_position o ho := by
    obtain ⟨p, hp, hoffset⟩ := offset_of_position? s o ho
    exact ⟨p, hp, hoffset, position?_bounds hp⟩
  position_beyond _ := position?_eq_none_iff
  position_lt o o' p p' hlt hp hp' := by
    have := Position.le_eq_false_iff.mp (position?_lt hlt hp hp')
    omega
  lineCount := size_starts s
  position_offset := by
    rintro ⟨n, column⟩ line hone hline hcolumn
    obtain ⟨front, back, hlines, rfl⟩ := exists_lines_append hone hline
    exact position?_offset_of_lines hlines hcolumn
  offset_le p := offset_le_length
  offset_column := by
    rintro ⟨n, column⟩ line hone hline hcolumn
    obtain ⟨front, back, hlines, rfl⟩ := exists_lines_append hone hline
    exact lineEnd?_eq_offset hlines hcolumn
  offset_line p hbeyond := offset_beyond hbeyond
  offset_zero := offset_line_zero
  offset_mono p q hone hle := offset_mono hone (Position.le_iff.mpr hle)

/-- A character of two code units, and an empty line at the end. -/
def wideText : List Char := "a😀\nb\n".toList

/-- The middle of the character, the last line, and places beyond a line and beyond the text. -/
theorem converts_ofText_wideText :
    (∃ p, (ofText wideText).position? 2 = some p ∧ (ofText wideText).offset p = 2) ∧
      (ofText wideText).position? 7 = none ∧
      (ofText wideText).position? ((ofText wideText).offset ⟨3, 0⟩) = some ⟨3, 0⟩ ∧
      (ofText wideText).lineEnd? 1 = some ((ofText wideText).offset ⟨1, 9⟩) ∧
      (ofText wideText).offset ⟨4, 2⟩ = 6 ∧
      (ofText wideText).offset ⟨1, 9⟩ ≤ (ofText wideText).offset ⟨2, 0⟩ := by
  have h := converts_ofText wideText
  obtain ⟨p, hp, hoffset, -⟩ := h.offset_position 2 (by decide)
  refine ⟨⟨p, hp, hoffset⟩, (h.position_beyond 7).mpr (by decide), ?_, ?_, ?_, ?_⟩
  · exact h.position_offset ⟨3, 0⟩ [] (by decide) rfl (by decide)
  · exact h.offset_column ⟨1, 9⟩ "a😀".toList (by decide) rfl (by decide)
  · exact h.offset_line ⟨4, 2⟩ (by decide)
  · exact h.offset_mono ⟨1, 9⟩ ⟨2, 0⟩ (by decide) (Or.inl (by decide))

end LineIndex

end Assay
