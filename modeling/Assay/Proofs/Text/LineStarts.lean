import Assay.Text.LineIndex
import Assay.Text.Lines

/-!
# Where the lines of a text start

The starts that a line index holds are those of the lines that the text splits into.
`offset_of_lines` gives the offset of a place in a line from the lines before it.
-/

namespace Assay

/-- The length of lines, each with its newline, in code units. -/
def Text.linesUnits : List (List Char) → Nat
  | [] => 0
  | line :: lines => Text.units line + 1 + Text.linesUnits lines

theorem Text.linesUnits_append (front back : List (List Char)) :
    Text.linesUnits (front ++ back) = Text.linesUnits front + Text.linesUnits back := by
  induction front with
  | nil => rw [List.nil_append, Text.linesUnits, Nat.zero_add]
  | cons line front ih =>
    rw [List.cons_append, Text.linesUnits, Text.linesUnits, ih, ← Nat.add_assoc]

/-- The lines of a text have a newline more than the text. -/
theorem Text.linesUnits_lines (s : List Char) :
    Text.linesUnits (Text.lines s) = Text.units s + 1 := by
  induction s with
  | nil => rfl
  | cons c r ih =>
    rw [Text.lines_cons, Text.units_cons]
    unfold Text.consLines
    split
    next h =>
      subst h
      rw [Text.linesUnits, ih, show Text.charUnits '\n' = 1 from rfl, Text.units_nil]
      omega
    next h =>
      cases hl : Text.lines r with
      | nil => exact absurd hl (Text.lines_ne_nil r)
      | cons line lines =>
        rw [hl, Text.linesUnits] at ih
        rw [Text.linesUnits, Text.units_cons]
        omega

theorem Text.consLines_of_ne {c : Char} (h : c ≠ '\n') (line : List Char)
    (lines : List (List Char)) : Text.consLines c (line :: lines) = (c :: line) :: lines :=
  if_neg h

/-- A character other than a newline stands in a line, behind the lines before it. -/
theorem Text.exists_line_of_eq_append {text before after : List Char} {c : Char}
    (h : text = before ++ c :: after) (hc : c ≠ '\n') :
    ∃ front pre post back, Text.lines text = front ++ (pre ++ c :: post) :: back ∧
      Text.units before = Text.linesUnits front + Text.units pre := by
  subst h
  induction before with
  | nil =>
    rw [List.nil_append, Text.lines_cons]
    cases hl : Text.lines after with
    | nil => exact absurd hl (Text.lines_ne_nil after)
    | cons line lines => exact ⟨[], [], line, lines, Text.consLines_of_ne hc line lines, rfl⟩
  | cons d before ih =>
    obtain ⟨front, pre, post, back, hlines, hunits⟩ := ih
    rw [List.cons_append, Text.lines_cons, hlines, Text.units_cons, hunits]
    by_cases hd : d = '\n'
    · subst hd
      refine ⟨[] :: front, pre, post, back, rfl, ?_⟩
      rw [Text.linesUnits, Text.units_nil, show Text.charUnits '\n' = 1 from rfl]
      omega
    · cases front with
      | nil =>
        refine ⟨[], d :: pre, post, back, Text.consLines_of_ne hd _ _, ?_⟩
        rw [Text.units_cons, Text.linesUnits]
        omega
      | cons line front =>
        refine ⟨(d :: line) :: front, pre, post, back, Text.consLines_of_ne hd _ _, ?_⟩
        rw [Text.linesUnits, Text.linesUnits, Text.units_cons]
        omega

namespace LineIndex

/-- The offsets at which lines start that begin at an offset. -/
def lineStarts (offset : Nat) : List (List Char) → List Nat
  | [] => []
  | line :: lines => offset :: lineStarts (offset + Text.units line + 1) lines

theorem cons_startsAfter (offset : Nat) (s : List Char) :
    offset :: startsAfter offset s = lineStarts offset (Text.lines s) := by
  induction s generalizing offset with
  | nil => rfl
  | cons c r ih =>
    rw [Text.lines_cons]
    unfold startsAfter Text.consLines
    split
    next h =>
      subst h
      dsimp only
      rw [ih]
      rfl
    next h =>
      have hr := ih (offset + Text.charUnits c)
      cases hl : Text.lines r with
      | nil => exact absurd hl (Text.lines_ne_nil r)
      | cons line lines =>
        rw [hl, lineStarts] at hr
        rw [(List.cons.inj hr).2, lineStarts, Text.units_cons, ← Nat.add_assoc]

theorem getElem?_lineStarts (offset : Nat) (front : List (List Char)) (line : List Char)
    (back : List (List Char)) :
    (lineStarts offset (front ++ line :: back))[front.length]? =
      some (offset + Text.linesUnits front) := by
  induction front generalizing offset with
  | nil => rfl
  | cons first front ih =>
    rw [List.cons_append, lineStarts, List.length_cons, List.getElem?_cons_succ, ih,
      Text.linesUnits]
    congr 1
    omega

theorem length_lineStarts (offset : Nat) (lines : List (List Char)) :
    (lineStarts offset lines).length = lines.length := by
  induction lines generalizing offset with
  | nil => rfl
  | cons line lines ih => rw [lineStarts, List.length_cons, List.length_cons, ih]

theorem starts_ofText (s : List Char) :
    (ofText s).starts = (lineStarts 0 (Text.lines s)).toArray := by
  rw [← cons_startsAfter]
  rfl

theorem size_starts (s : List Char) : (ofText s).starts.size = (Text.lines s).length := by
  rw [starts_ofText, List.size_toArray, length_lineStarts]

variable {s : List Char} {front : List (List Char)} {line : List Char} {back : List (List Char)}

theorem lineStart?_of_lines (h : Text.lines s = front ++ line :: back) :
    (ofText s).lineStart? (front.length + 1) = some (Text.linesUnits front) := by
  rw [lineStart?, if_neg (Nat.succ_ne_zero _), starts_ofText, h, List.getElem?_toArray,
    Nat.add_sub_cancel, getElem?_lineStarts, Nat.zero_add]

theorem lineEnd?_of_lines (h : Text.lines s = front ++ line :: back) :
    (ofText s).lineEnd? (front.length + 1) =
      some (Text.linesUnits front + Text.units line) := by
  have hsize : (ofText s).starts.size = front.length + 1 + back.length := by
    rw [size_starts, h, List.length_append, List.length_cons]
    omega
  rw [lineEnd?, if_neg (by omega), starts_ofText, h, List.getElem?_toArray]
  cases back with
  | nil =>
    have hunits := Text.linesUnits_lines s
    rw [h, Text.linesUnits_append, Text.linesUnits, Text.linesUnits] at hunits
    rw [List.getElem?_eq_none (by simp [length_lineStarts])]
    exact congrArg some (show Text.units s = _ by omega)
  | cons next back =>
    have hnext := getElem?_lineStarts 0 (front ++ [line]) next back
    rw [List.length_append, List.append_assoc, Text.linesUnits_append, Text.linesUnits,
      Text.linesUnits] at hnext
    rw [show front ++ line :: next :: back = front ++ ([line] ++ next :: back) from rfl,
      show front.length + 1 = front.length + [line].length from rfl, hnext]
    exact congrArg some (by omega)

/-- The offset of a place in a line, or at its end. -/
theorem offset_of_lines (h : Text.lines s = front ++ line :: back) {column : Nat}
    (hcolumn : column ≤ Text.units line) :
    (ofText s).offset ⟨front.length + 1, column⟩ = Text.linesUnits front + column := by
  have hline : max (front.length + 1) 1 = front.length + 1 := by omega
  simp only [offset, hline, lineStart?_of_lines h, lineEnd?_of_lines h]
  omega

end LineIndex

end Assay
