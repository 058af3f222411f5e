import Assay.Proofs.Text.Encodings
import Assay.Proofs.Text.Positions
import Mathlib.Data.List.Basic

/-!
# Positions by counting

A position can be counted from the code units of a text: its line is one more than the newlines
before it, its column what stands behind the last of them. `counted_ofText` says that a line index
answers so, and that its lines are the pieces between the newlines.
-/

namespace Assay

namespace Text

theorem lines_eq_splitOn (s : List Char) : lines s = s.splitOn '\n' := by
  induction s with
  | nil => rfl
  | cons c s ih =>
    obtain ⟨line, lines, hlines⟩ := List.exists_cons_of_ne_nil (lines_ne_nil s)
    rw [lines_cons, List.splitOn_cons_eq_if_modifyHead, ← ih, hlines]
    unfold consLines
    by_cases hc : c = '\n'
    · rw [if_pos hc, if_pos (beq_iff_eq.mpr hc)]
    · rw [if_neg hc, if_neg (mt beq_iff_eq.mp hc)]
      rfl

/-- Lines put together, each with its newline. -/
def ended (lines : List (List Char)) : List Char := lines.flatMap (· ++ ['\n'])

theorem units_ended (lines : List (List Char)) : units (ended lines) = linesUnits lines := by
  induction lines with
  | nil => rfl
  | cons line lines ih =>
    rw [ended, List.flatMap_cons, units_append, units_append, linesUnits, ← ih]
    rfl

theorem unlines_around (front : List (List Char)) (line : List Char) (back : List (List Char)) :
    unlines (front ++ line :: back) = ended front ++ line ++ back.flatMap ('\n' :: ·) := by
  induction front with
  | nil =>
    induction back generalizing line with
    | nil => exact (List.append_nil line).symm
    | cons next back ih => exact congrArg (line ++ '\n' :: ·) (ih next)
  | cons first front ih =>
    have hrest : front ++ line :: back ≠ [] := by simp
    have hfirst := unlines_append (List.cons_ne_nil first []) hrest
    rw [List.singleton_append] at hfirst
    rw [List.cons_append, hfirst, ih, ended, ended, List.flatMap_cons]
    simp only [unlines, List.append_assoc, List.cons_append, List.nil_append]

/-- A text around one of its lines. -/
theorem eq_of_lines {s line : List Char} {front back : List (List Char)}
    (h : lines s = front ++ line :: back) :
    s = ended front ++ line ++ back.flatMap ('\n' :: ·) := by
  rw [← unlines_around, ← h, unlines_lines]

/-! ### Newlines as code units -/

def newlineUnit : Nat := 10

theorem newlineUnit_mem_charCodeUnits {c : Char} : newlineUnit ∈ charCodeUnits c ↔ c = '\n' := by
  unfold charCodeUnits newlineUnit
  rw [← Char.toNat_inj]
  split
  · simp [eq_comm]
  · simp
    omega

theorem newlineUnit_not_mem {line : List Char} (h : '\n' ∉ line) :
    newlineUnit ∉ codeUnits line := by
  rw [codeUnits, List.mem_flatMap]
  rintro ⟨c, hc, hunit⟩
  exact h (newlineUnit_mem_charCodeUnits.mp hunit ▸ hc)

theorem codeUnits_newline (line : List Char) :
    codeUnits (line ++ ['\n']) = codeUnits line ++ [newlineUnit] :=
  codeUnits_append line ['\n']

theorem count_ended {front : List (List Char)} (h : ∀ line ∈ front, '\n' ∉ line) :
    (codeUnits (ended front)).count newlineUnit = front.length := by
  induction front with
  | nil => rfl
  | cons line front ih =>
    obtain ⟨hline, hfront⟩ := List.forall_mem_cons.mp h
    rw [ended, List.flatMap_cons, codeUnits_append, codeUnits_newline, List.count_append,
      List.count_append, List.count_eq_zero_of_not_mem (newlineUnit_not_mem hline), ← ended,
      ih hfront, List.length_cons, List.count_singleton_self]
    omega

/-- The offset just after the last newline of code units, 0 if there is none. -/
def afterNewline (us : List Nat) : Nat := us.length - us.reverse.idxOf newlineUnit

theorem afterNewline_ended (front : List (List Char)) {us : List Nat} (h : newlineUnit ∉ us) :
    afterNewline (codeUnits (ended front) ++ us) = units (ended front) := by
  have hus : newlineUnit ∉ us.reverse := mt List.mem_reverse.mp h
  have hidx : (codeUnits (ended front) ++ us).reverse.idxOf newlineUnit = us.length := by
    rw [List.reverse_append, List.idxOf_append_of_notMem hus, List.length_reverse]
    refine Nat.add_eq_left.mpr ?_
    rcases List.eq_nil_or_concat front with rfl | ⟨front, line, rfl⟩
    · rfl
    · rw [List.concat_eq_append, ended, List.flatMap_append, List.flatMap_singleton,
        ← List.append_assoc, codeUnits_newline, List.reverse_append]
      exact List.idxOf_cons_self
  rw [afterNewline, hidx, List.length_append, Nat.add_sub_cancel, length_codeUnits]

end Text

namespace LineIndex

/-- The position of an offset, counted from the code units before it. -/
def counted (s : List Char) (o : Nat) : Position :=
  let before := (Text.codeUnits s).take o
  ⟨1 + before.count Text.newlineUnit, o - Text.afterNewline before⟩

variable {s line : List Char} {front back : List (List Char)} {column : Nat}

theorem counted_of_lines (h : Text.lines s = front ++ line :: back)
    (hcolumn : column ≤ Text.units line) :
    counted s (Text.linesUnits front + column) = ⟨front.length + 1, column⟩ := by
  have hlines := h ▸ Text.newline_not_mem_lines s
  have hline := Text.newlineUnit_not_mem (hlines line (by simp))
  have hcut : Text.newlineUnit ∉ (Text.codeUnits line).take column :=
    fun hmem => hline (List.mem_of_mem_take hmem)
  have hbefore : (Text.codeUnits s).take (Text.linesUnits front + column) =
      Text.codeUnits (Text.ended front) ++ (Text.codeUnits line).take column := by
    rw [Text.eq_of_lines h, List.append_assoc, Text.codeUnits_append, ← Text.units_ended,
      ← Text.length_codeUnits, List.take_length_add_append, Text.codeUnits_append,
      List.take_append_of_le_length (by rwa [Text.length_codeUnits])]
  have hcount := Text.count_ended fun line hmem => hlines line (List.mem_append_left _ hmem)
  simp only [counted]
  rw [hbefore, List.count_append, hcount, List.count_eq_zero_of_not_mem hcut,
    Text.afterNewline_ended front hcut, Text.units_ended, Nat.add_sub_cancel_left, Nat.add_zero,
    Nat.add_comm]

/-- An offset is a place in one of the lines, or at its end. -/
theorem exists_lines_of_offset {o : Nat} (h : o ≤ Text.units s) :
    ∃ front line back column, Text.lines s = front ++ line :: back ∧
      column ≤ Text.units line ∧ o = Text.linesUnits front + column := by
  obtain ⟨n, start, -, hline⟩ := position?_of_le h
  obtain ⟨hn, -⟩ := Array.getElem?_eq_some_iff.mp hline.starts
  rw [size_starts] at hn
  obtain ⟨front, back, hlines, hfront⟩ := exists_lines_append (Nat.le_add_left 1 n)
    (List.getElem?_eq_getElem hn)
  obtain rfl : n = front.length := Nat.succ.inj hfront
  have hstart := lineStart?_of_lines hlines
  have hstop := lineEnd?_of_lines hlines
  rw [lineStart?, if_neg (Nat.succ_ne_zero _), Nat.add_sub_cancel, hline.starts] at hstart
  obtain rfl := Option.some.inj hstart
  refine ⟨front, _, back, o - Text.linesUnits front, hlines, ?_, ?_⟩
  · rw [lineEnd?, if_neg (by rw [size_starts]; omega)] at hstop
    have hlt := hline.lt
    have hle := hline.le
    cases hnext : (ofText s).starts[front.length + 1]? with
    | none =>
      rw [hnext] at hstop
      have hlength : Text.units s = _ := Option.some.inj hstop
      omega
    | some next =>
      rw [hnext] at hstop
      have := Option.some.inj hstop
      have := hlt next hnext
      omega
  · have := hline.le
    omega

/-- How a line index and the counting of newlines agree. -/
structure Counted (s : List Char) : Prop where
  position : ∀ o ≤ Text.units s, (ofText s).position? o = some (counted s o)
  lineCount : (ofText s).lineCount = (s.splitOn '\n').length
  /-- A line starts behind the pieces before it and their newlines, and what stands between its
  start and its end is the piece of its number. -/
  line : ∀ l, 1 ≤ l → l ≤ (ofText s).lineCount → ∃ piece start stop,
    (s.splitOn '\n')[l - 1]? = some piece ∧
    (ofText s).lineStart? l = some start ∧ (ofText s).lineEnd? l = some stop ∧
    start = Text.units (Text.ended ((s.splitOn '\n').take (l - 1))) ∧
    stop = start + Text.units piece ∧
    ((Text.codeUnits s).take stop).drop start = Text.codeUnits piece

theorem counted_ofText (s : List Char) : Counted s where
  position o ho := by
    obtain ⟨front, line, back, column, hlines, hcolumn, rfl⟩ := exists_lines_of_offset ho
    rw [counted_of_lines hlines hcolumn, position?_of_inLine ho (inLine_of_lines hlines hcolumn),
      Nat.add_sub_cancel_left]
  lineCount := by rw [← Text.lines_eq_splitOn]; exact size_starts s
  line l hone hcount := by
    rw [lineCount, size_starts] at hcount
    obtain ⟨piece, hpiece⟩ : ∃ piece, (Text.lines s)[l - 1]? = some piece :=
      ⟨_, List.getElem?_eq_getElem (by omega)⟩
    obtain ⟨front, back, hlines, rfl⟩ := exists_lines_append hone hpiece
    rw [← Text.lines_eq_splitOn]
    refine ⟨piece, _, _, hpiece, lineStart?_of_lines hlines, lineEnd?_of_lines hlines, ?_, rfl, ?_⟩
    · rw [Nat.add_sub_cancel, Text.units_ended]
      conv_rhs => rw [hlines, List.take_left]
    · rw [← Text.units_ended, ← Text.units_append]
      conv_lhs => rw [Text.eq_of_lines hlines, Text.take_codeUnits, Text.drop_codeUnits]

/-- The middle of a character of two code units, and the last line, which is empty. -/
theorem counted_ofText_wideText :
    (ofText wideText).position? 2 = some ⟨1, 2⟩ ∧ (ofText wideText).position? 6 = some ⟨3, 0⟩ ∧
      ∃ piece start stop, (wideText.splitOn '\n')[2 - 1]? = some piece ∧
        (ofText wideText).lineStart? 2 = some start ∧ (ofText wideText).lineEnd? 2 = some stop ∧
        ((Text.codeUnits wideText).take stop).drop start = Text.codeUnits piece := by
  have h := counted_ofText wideText
  obtain ⟨piece, start, stop, hpiece, hstart, hstop, -, -, hcut⟩ := h.line 2 (by decide) (by decide)
  exact ⟨h.position 2 (by decide), h.position 6 (by decide), piece, start, stop, hpiece, hstart,
    hstop, hcut⟩

end LineIndex

end Assay
