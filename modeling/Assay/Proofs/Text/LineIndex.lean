import Assay.Text.LineIndex

/-!
# Offsets and positions

The line starts of an index ascend, so bisection finds the line of an offset. `offset_of_position?`
says that the position of an offset leads back to it, and `position?_lt` that positions are in the
order of their offsets.
-/

namespace Assay

namespace Position

theorem le_iff {p q : Position} :
    p.le q = true ↔ p.line < q.line ∨ (p.line = q.line ∧ p.column ≤ q.column) := by
  simp only [le, Bool.or_eq_true, Bool.and_eq_true, decide_eq_true_eq, beq_iff_eq]

theorem le_eq_false_iff {p q : Position} :
    p.le q = false ↔ q.line < p.line ∨ (p.line = q.line ∧ q.column < p.column) := by
  rw [← Bool.not_eq_true, le_iff]
  omega

end Position

namespace LineIndex

/-! ### The starts of lines -/

theorem lt_of_mem_startsAfter {offset start : Nat} {s : List Char}
    (h : start ∈ startsAfter offset s) : offset < start := by
  induction s generalizing offset with
  | nil => simp [startsAfter] at h
  | cons c r ih =>
    have hc := Text.charUnits_pos c
    unfold startsAfter at h
    split at h
    · rcases List.mem_cons.mp h with rfl | h
      · omega
      · have := ih h
        omega
    · have := ih h
      omega

theorem pairwise_startsAfter (offset : Nat) (s : List Char) :
    (startsAfter offset s).Pairwise (· < ·) := by
  induction s generalizing offset with
  | nil => exact List.Pairwise.nil
  | cons c r ih =>
    unfold startsAfter
    split
    · exact List.pairwise_cons.mpr ⟨fun _ h => lt_of_mem_startsAfter h, ih _⟩
    · exact ih _

theorem pairwise_starts (s : List Char) : (ofText s).starts.toList.Pairwise (· < ·) := by
  unfold ofText
  exact List.pairwise_cons.mpr ⟨fun _ h => lt_of_mem_startsAfter h, pairwise_startsAfter 0 s⟩

theorem start_lt_start {s : List Char} {i j a b : Nat} (h : i < j)
    (ha : (ofText s).starts[i]? = some a) (hb : (ofText s).starts[j]? = some b) : a < b := by
  have hp := pairwise_starts s
  rw [← Array.getElem?_toList] at ha hb
  obtain ⟨hi, rfl⟩ := List.getElem?_eq_some_iff.mp ha
  obtain ⟨hj, rfl⟩ := List.getElem?_eq_some_iff.mp hb
  exact List.pairwise_iff_getElem.mp hp i j hi hj h

theorem le_start {s : List Char} {n start : Nat} (h : (ofText s).starts[n]? = some start) :
    n ≤ start := by
  induction n generalizing start with
  | zero => exact Nat.zero_le start
  | succ n ih =>
    have hsize := (Array.getElem?_eq_some_iff.mp h).1
    have hprev := Array.getElem?_eq_getElem (show n < (ofText s).starts.size by omega)
    have := start_lt_start (Nat.lt_succ_self n) hprev h
    have := ih hprev
    omega

/-! ### The line of an offset -/

def lineAt (x : LineIndex) (offset : Nat) : Nat := firstFalse (· ≤ offset) x.starts

theorem lineAt_spec (s : List Char) (o : Nat) :
    (∀ i, i < (ofText s).lineAt o → ((ofText s).starts[i]?.all (· ≤ o)) = true) ∧
      (∀ i, (ofText s).lineAt o ≤ i → i < (ofText s).starts.size →
        ((ofText s).starts[i]?.all (· ≤ o)) = false) ∧
        (ofText s).lineAt o ≤ (ofText s).starts.size := by
  refine firstFalse_spec (· ≤ o) (ofText s).starts fun i j hij hj hp => ?_
  rcases Nat.lt_or_eq_of_le hij with hlt | rfl
  · have hi : i < (ofText s).starts.size := by omega
    have hb := Array.getElem?_eq_getElem hj
    have ha := Array.getElem?_eq_getElem hi
    have := start_lt_start hlt ha hb
    rw [hb] at hp
    rw [ha]
    simp only [Option.all_some, decide_eq_true_eq] at hp ⊢
    omega
  · exact hp

theorem exists_lineAt (s : List Char) (o : Nat) :
    ∃ n start, (ofText s).lineAt o = n + 1 ∧ (ofText s).starts[n]? = some start ∧ start ≤ o ∧
      ∀ next, (ofText s).starts[n + 1]? = some next → o < next := by
  obtain ⟨below, above, bound⟩ := lineAt_spec s o
  have hpos : (ofText s).lineAt o ≠ 0 := by
    intro h
    have := above 0 (by omega) (by simp [ofText])
    simp [ofText] at this
  obtain ⟨n, hn⟩ := Nat.exists_eq_succ_of_ne_zero hpos
  have hsize : n < (ofText s).starts.size := by omega
  have hstart := Array.getElem?_eq_getElem hsize
  refine ⟨n, (ofText s).starts[n], hn, hstart, ?_, fun next hnext => ?_⟩
  · have := below n (by omega)
    rw [hstart] at this
    simpa using this
  · obtain ⟨hlt, -⟩ := Array.getElem?_eq_some_iff.mp hnext
    have := above (n + 1) (by omega) hlt
    rw [hnext] at this
    simpa using this

/-- The offset is in the line with `n` lines in front of it, which starts at `start`. -/
structure InLine (s : List Char) (o n start : Nat) : Prop where
  starts : (ofText s).starts[n]? = some start
  le : start ≤ o
  lt : ∀ next, (ofText s).starts[n + 1]? = some next → o < next

theorem position?_of_le {s : List Char} {o : Nat} (h : o ≤ Text.units s) :
    ∃ n start, (ofText s).position? o = some ⟨n + 1, o - start⟩ ∧ InLine s o n start := by
  obtain ⟨n, start, hline, hstart, hle, hnext⟩ := exists_lineAt s o
  refine ⟨n, start, ?_, hstart, hle, hnext⟩
  have hlen : ¬ (ofText s).length < o := Nat.not_lt.mpr h
  simp only [position?, hlen, if_false]
  rw [show firstFalse (fun x => decide (x ≤ o)) (ofText s).starts = n + 1 from hline,
    Nat.add_sub_cancel, hstart]
  rfl

/-- Every offset of a text has a position, and the position has that offset. -/
theorem offset_of_position? (s : List Char) (o : Nat) (h : o ≤ Text.units s) :
    ∃ p, (ofText s).position? o = some p ∧ (ofText s).offset p = o := by
  obtain ⟨n, start, hposition, hstart, hle, hnext⟩ := position?_of_le h
  have hsize : n < (ofText s).starts.size := (Array.getElem?_eq_some_iff.mp hstart).1
  refine ⟨_, hposition, ?_⟩
  simp only [offset, lineStart?, lineEnd?, Nat.max_eq_left (Nat.le_add_left 1 n),
    Nat.add_one_ne_zero, if_false, false_or, Nat.add_sub_cancel, hstart]
  rw [if_neg (by omega)]
  cases hs : (ofText s).starts[n + 1]? with
  | none =>
    have : o ≤ (ofText s).length := h
    simp only
    omega
  | some next =>
    have := hnext next hs
    simp only
    omega

/-! ### Positions in order -/

theorem InLine.le_of_le {s : List Char} {o o' n n' start start' : Nat} (h : InLine s o n start)
    (h' : InLine s o' n' start') (hle : o ≤ o') : n ≤ n' := by
  refine Nat.le_of_not_lt fun hlt => ?_
  have hn := (Array.getElem?_eq_some_iff.mp h.starts).1
  have hnext := Array.getElem?_eq_getElem (show n' + 1 < (ofText s).starts.size by omega)
  have hafter := h'.lt _ hnext
  have hbefore := h.le
  rcases Nat.lt_or_eq_of_le (show n' + 1 ≤ n from hlt) with hn' | rfl
  · have := start_lt_start hn' hnext h.starts
    omega
  · rw [h.starts] at hnext
    have := Option.some.inj hnext
    omega

theorem InLine.unique {s : List Char} {o n n' start start' : Nat} (h : InLine s o n start)
    (h' : InLine s o n' start') : n = n' ∧ start = start' := by
  obtain rfl := Nat.le_antisymm (h.le_of_le h' (Nat.le_refl o)) (h'.le_of_le h (Nat.le_refl o))
  exact ⟨rfl, Option.some.inj (h.starts.symm.trans h'.starts)⟩

theorem le_units_of_position? {s : List Char} {o : Nat} {p : Position}
    (h : (ofText s).position? o = some p) : o ≤ Text.units s := by
  unfold position? at h
  split at h
  next => cases h
  next hle => exact Nat.not_lt.mp hle

theorem position?_eq_some {s : List Char} {o : Nat} {p : Position}
    (h : (ofText s).position? o = some p) :
    ∃ n start, p = ⟨n + 1, o - start⟩ ∧ InLine s o n start := by
  obtain ⟨n, start, hp, hline⟩ := position?_of_le (le_units_of_position? h)
  rw [h] at hp
  exact ⟨n, start, Option.some.inj hp, hline⟩

theorem position?_of_inLine {s : List Char} {o n start : Nat} (h : o ≤ Text.units s)
    (hline : InLine s o n start) : (ofText s).position? o = some ⟨n + 1, o - start⟩ := by
  obtain ⟨m, first, hp, hline'⟩ := position?_of_le h
  obtain ⟨rfl, rfl⟩ := hline.unique hline'
  exact hp

/-- A later offset has a later position. -/
theorem position?_lt {s : List Char} {o o' : Nat} {p p' : Position} (hlt : o < o')
    (h : (ofText s).position? o = some p) (h' : (ofText s).position? o' = some p') :
    p'.le p = false := by
  obtain ⟨n, start, rfl, hline⟩ := position?_eq_some h
  obtain ⟨n', start', rfl, hline'⟩ := position?_eq_some h'
  have hn := hline.le_of_le hline' (Nat.le_of_lt hlt)
  have hstart : n = n' → start = start' := by
    rintro rfl
    exact Option.some.inj (hline.starts.symm.trans hline'.starts)
  have := hline.le
  rw [Position.le_eq_false_iff]
  simp only
  omega

/-- Behind the first column of a line the offset before is in the same line. -/
theorem position?_pred {s : List Char} {o : Nat} {p : Position}
    (h : (ofText s).position? (o + 1) = some p) (hcolumn : p.column ≠ 0) :
    (ofText s).position? o = some ⟨p.line, p.column - 1⟩ := by
  have hle := le_units_of_position? h
  obtain ⟨n, start, rfl, hline⟩ := position?_eq_some h
  have hstart := hline.le
  simp only at hcolumn ⊢
  have hprev : InLine s o n start :=
    ⟨hline.starts, by omega, fun next hnext => Nat.lt_of_succ_lt (hline.lt next hnext)⟩
  rw [position?_of_inLine (by omega) hprev]
  congr 2
  omega

/-- The line and the column of an offset are no more than the offsets before it. -/
theorem position?_bounds {s : List Char} {o : Nat} {p : Position}
    (h : (ofText s).position? o = some p) :
    1 ≤ p.line ∧ p.line ≤ o + 1 ∧ p.column ≤ o := by
  obtain ⟨n, start, rfl, hline⟩ := position?_eq_some h
  have := le_start hline.starts
  have := hline.le
  simp only
  omega

/-! ### The beginning of a text -/

theorem startsAfter_append (offset : Nat) (s t : List Char) :
    startsAfter offset (s ++ t) = startsAfter offset s ++ startsAfter (offset + Text.units s) t := by
  induction s generalizing offset with
  | nil => rfl
  | cons c s ih =>
    rw [Text.units_cons, ← Nat.add_assoc, List.cons_append, startsAfter, startsAfter]
    split
    · rw [List.cons_append, ih]
    · exact ih _

/-- What follows a text does not move the positions in it. -/
theorem position?_append {s : List Char} {o : Nat} (t : List Char) (h : o ≤ Text.units s) :
    (ofText (s ++ t)).position? o = (ofText s).position? o := by
  obtain ⟨n, start, hp, hline⟩ := position?_of_le h
  have hstarts : (ofText (s ++ t)).starts =
      (ofText s).starts ++ (startsAfter (Text.units s) t).toArray := by
    simp [ofText, startsAfter_append]
  have hsize := (Array.getElem?_eq_some_iff.mp hline.starts).1
  have hline' : InLine (s ++ t) o n start := by
    refine ⟨?_, hline.le, fun next hnext => ?_⟩
    · rw [hstarts, Array.getElem?_append_left hsize, hline.starts]
    · rw [hstarts] at hnext
      rcases Nat.lt_or_ge (n + 1) (ofText s).starts.size with hlt | hge
      · rw [Array.getElem?_append_left hlt] at hnext
        exact hline.lt next hnext
      · rw [Array.getElem?_append_right hge, List.getElem?_toArray] at hnext
        have := lt_of_mem_startsAfter (List.mem_of_getElem? hnext)
        omega
  rw [hp]
  exact position?_of_inLine (by rw [Text.units_append]; omega) hline'

end LineIndex

end Assay
