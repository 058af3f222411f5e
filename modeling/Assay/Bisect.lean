/-!
# Bisection

`firstFalse` finds by halving the first element of an array at which a predicate fails, when no
later element satisfies it again. `firstFalse_spec` states what the answer separates.
-/

namespace Assay

/-- The least index in `[lo, hi]` below which `p` holds, in at most `n` halvings. -/
def bisect (p : α → Bool) (a : Array α) : Nat → Nat → Nat → Nat
  | 0, lo, _ => lo
  | n + 1, lo, hi =>
    if lo < hi then
      let mid := lo + (hi - lo) / 2
      if a[mid]?.all p then bisect p a n (mid + 1) hi else bisect p a n lo mid
    else lo

/-- The number of leading elements that satisfy `p`, in an array where they all come first. -/
def firstFalse (p : α → Bool) (a : Array α) : Nat :=
  bisect p a a.size 0 a.size

theorem bisect_spec (p : α → Bool) (a : Array α)
    (hp : ∀ i j, i ≤ j → j < a.size → a[j]?.all p → a[i]?.all p) (n lo hi : Nat)
    (hn : hi - lo ≤ n) (hlo : lo ≤ hi) (hhi : hi ≤ a.size)
    (hl : ∀ i, i < lo → a[i]?.all p) (hh : ∀ i, hi ≤ i → i < a.size → a[i]?.all p = false) :
    (∀ i, i < bisect p a n lo hi → a[i]?.all p) ∧
      (∀ i, bisect p a n lo hi ≤ i → i < a.size → a[i]?.all p = false) ∧
        bisect p a n lo hi ≤ a.size := by
  induction n generalizing lo hi with
  | zero =>
    have : lo = hi := by omega
    subst this
    exact ⟨hl, hh, hhi⟩
  | succ n ih =>
    unfold bisect
    by_cases h : lo < hi
    · simp only [h, if_true]
      generalize hm : lo + (hi - lo) / 2 = mid
      have hmid : lo ≤ mid ∧ mid < hi := by omega
      by_cases ha : a[mid]?.all p
      · rw [if_pos ha]
        exact ih (mid + 1) hi (by omega) (by omega) hhi
          (fun i hi' => hp i mid (by omega) (by omega) ha) hh
      · rw [if_neg ha]
        refine ih lo mid (by omega) (by omega) (by omega) hl fun i hi' hs => ?_
        cases hi'' : a[i]?.all p
        · rfl
        · exact absurd (hp mid i hi' hs hi'') ha
    · rw [if_neg h]
      have : lo = hi := by omega
      subst this
      exact ⟨hl, hh, hhi⟩

theorem firstFalse_spec (p : α → Bool) (a : Array α)
    (hp : ∀ i j, i ≤ j → j < a.size → a[j]?.all p → a[i]?.all p) :
    (∀ i, i < firstFalse p a → a[i]?.all p) ∧
      (∀ i, firstFalse p a ≤ i → i < a.size → a[i]?.all p = false) ∧
        firstFalse p a ≤ a.size :=
  bisect_spec p a hp a.size 0 a.size (by omega) (by omega) (by omega)
    (fun _ h => absurd h (by omega)) (fun _ h h' => absurd h' (by omega))

/-- Where a predicate holds in front and fails behind, the answer is the length of the front. -/
theorem firstFalse_append {p : α → Bool} {front back : List α} (hfront : ∀ a ∈ front, p a)
    (hback : ∀ a ∈ back, p a = false) : firstFalse p (front ++ back).toArray = front.length := by
  have hall : ∀ i, i < (front ++ back).toArray.size →
      ((front ++ back).toArray[i]?.all p ↔ i < front.length) := by
    intro i hi
    rw [List.getElem?_toArray]
    rcases Nat.lt_or_ge i front.length with h | h
    · rw [List.getElem?_append_left h, List.getElem?_eq_getElem h]
      simp [h, hfront _ (List.getElem_mem h)]
    · have hb : i - front.length < back.length := by simp at hi; omega
      rw [List.getElem?_append_right h, List.getElem?_eq_getElem hb]
      simp [Nat.not_lt.mpr h, hback _ (List.getElem_mem hb)]
  obtain ⟨below, above, bound⟩ := firstFalse_spec p (front ++ back).toArray fun i j hij hj h =>
    (hall i (by omega)).mpr (Nat.lt_of_le_of_lt hij ((hall j hj).mp h))
  have hsize : (front ++ back).toArray.size = front.length + back.length := by simp
  apply Nat.le_antisymm
  · refine Nat.le_of_not_lt fun hlt => ?_
    have := (hall front.length (by omega)).mp (below _ hlt)
    omega
  · refine Nat.le_of_not_lt fun hlt => ?_
    have := (hall (firstFalse p (front ++ back).toArray) (by omega)).mpr hlt
    rw [above _ (Nat.le_refl _) (by omega)] at this
    cases this

end Assay
