/-!
# Lines of a text

`lines` splits at newlines and `unlines` joins with them; `unlines_lines` says that nothing is lost.
-/

namespace Assay.Text

/-- Puts a character before lines: a newline starts another line. -/
def consLines (c : Char) (rest : List (List Char)) : List (List Char) :=
  if c = '\n' then [] :: rest
  else match rest with
    | [] => [[c]]
    | line :: rest => (c :: line) :: rest

/-- The pieces between the newlines, one more than there are newlines. -/
def lines (s : List Char) : List (List Char) := s.foldr consLines [[]]

@[simp] theorem lines_cons (c : Char) (r : List Char) : lines (c :: r) = consLines c (lines r) := rfl

def unlines : List (List Char) → List Char
  | [] => []
  | [line] => line
  | line :: rest => line ++ '\n' :: unlines rest

theorem lines_ne_nil (s : List Char) : lines s ≠ [] := by
  cases s with
  | nil => simp [lines]
  | cons c r =>
    rw [lines_cons]; unfold consLines
    split
    · simp
    · split <;> simp

theorem unlines_lines (s : List Char) : unlines (lines s) = s := by
  induction s with
  | nil => rfl
  | cons c r ih =>
    rw [lines_cons]; unfold consLines
    split
    next h =>
      subst h
      cases hl : lines r with
      | nil => exact absurd hl (lines_ne_nil r)
      | cons l ls => simp [unlines, ← hl, ih]
    next h =>
      cases hl : lines r with
      | nil => exact absurd hl (lines_ne_nil r)
      | cons l ls =>
        rw [hl] at ih
        cases ls with
        | nil => simp [unlines] at ih ⊢; exact ih
        | cons m ms => simp [unlines] at ih ⊢; exact ih

theorem newline_not_mem_lines (s : List Char) : ∀ line ∈ lines s, '\n' ∉ line := by
  induction s with
  | nil => simp [lines]
  | cons c r ih =>
    rw [lines_cons]; unfold consLines
    split
    next h => simpa using ih
    next h =>
      cases hl : lines r with
      | nil => simpa using Ne.symm h
      | cons l ls =>
        rw [hl] at ih
        intro line hline
        rcases List.mem_cons.mp hline with rfl | hline
        · simp only [List.mem_cons, not_or]
          exact ⟨Ne.symm h, ih l (by simp)⟩
        · exact ih line (by simp [hline])

/-- The lines before a newline and those behind it. -/
theorem lines_append (a b : List Char) : lines (a ++ '\n' :: b) = lines a ++ lines b := by
  induction a with
  | nil => rfl
  | cons c a ih =>
    rw [List.cons_append, lines_cons, lines_cons, ih]
    unfold consLines
    split
    next => rfl
    next =>
      cases hl : lines a with
      | nil => exact absurd hl (lines_ne_nil a)
      | cons line lines => rfl

theorem lines_of_not_mem {s : List Char} (h : '\n' ∉ s) : lines s = [s] := by
  induction s with
  | nil => rfl
  | cons c r ih =>
    obtain ⟨hc, hr⟩ := not_or.mp (mt List.mem_cons.mpr h)
    rw [lines_cons, ih hr]
    exact if_neg (Ne.symm hc)

theorem unlines_append {front back : List (List Char)} (hfront : front ≠ []) (hback : back ≠ []) :
    unlines (front ++ back) = unlines front ++ '\n' :: unlines back := by
  induction front with
  | nil => exact absurd rfl hfront
  | cons line front ih =>
    cases front with
    | nil =>
      cases back with
      | nil => exact absurd rfl hback
      | cons first back => rfl
    | cons next front =>
      have hrest := ih (List.cons_ne_nil next front)
      rw [List.cons_append] at hrest ⊢
      simp only [List.cons_append, unlines] at hrest ⊢
      rw [hrest, List.append_assoc, List.cons_append]

def dropCarriageReturn (line : List Char) : List Char :=
  if line.getLast? = some '\r' then line.dropLast else line

end Assay.Text
