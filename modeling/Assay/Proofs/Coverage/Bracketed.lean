import Assay.Proofs.Coverage.Remapped

/-!
# Parentheses of a remapped line

The group that is cut out of a line ends with the line but may start in the middle of another group.
`balanced_remapLine_iff` says that a line of balanced parentheses is balanced after remapping unless
that happens.
-/

namespace Assay.Trace

/-- The count of parentheses that are open behind a text with `n` open before it, none if one closes
that was not opened. -/
def depth? : Nat → List Char → Option Nat
  | n, [] => some n
  | n, c :: r =>
    if c = '(' then depth? (n + 1) r
    else if c = ')' then if n = 0 then none else depth? (n - 1) r
    else depth? n r

def Balanced (s : List Char) : Prop := depth? 0 s = some 0

instance (s : List Char) : Decidable (Balanced s) :=
  inferInstanceAs (Decidable (depth? 0 s = some 0))

/-! ### Open parentheses -/

theorem depth?_append (n : Nat) (s t : List Char) :
    depth? n (s ++ t) = (depth? n s).bind (depth? · t) := by
  induction s generalizing n with
  | nil => rfl
  | cons c s ih =>
    rw [List.cons_append, depth?, depth?]
    split
    next => exact ih (n + 1)
    next =>
      split
      next =>
        split
        next => rfl
        next => exact ih (n - 1)
      next => exact ih n

/-- Where nothing opens, what closes was open before. -/
theorem depth?_of_not_mem {s : List Char} (h : '(' ∉ s) {n m : Nat} :
    depth? n s = some m ↔ n = m + s.count ')' := by
  induction s generalizing n with
  | nil => exact Option.some_inj
  | cons c s ih =>
    obtain ⟨hc, hs⟩ := not_or.mp (mt List.mem_cons.mpr h)
    rw [depth?, if_neg (Ne.symm hc)]
    by_cases hclose : c = ')'
    · subst hclose
      rw [if_pos rfl, List.count_cons_self]
      by_cases hn : n = 0
      · rw [if_pos hn]
        exact iff_of_false (Option.some_ne_none m ∘ Eq.symm) (by omega)
      · rw [if_neg hn, ih hs]
        omega
    · rw [if_neg hclose, ih hs, List.count_cons_of_ne hclose]

theorem depth?_group {group : List Char} (h : '(' ∉ group) {n m : Nat} :
    depth? n ('(' :: group ++ [')']) = some m ↔ n = m + group.count ')' := by
  have hopen : '(' ∉ group ++ [')'] := by
    rw [List.mem_append, not_or]
    exact ⟨h, by decide⟩
  rw [List.cons_append, depth?, if_pos rfl, depth?_of_not_mem hopen, List.count_append,
    show [')'].count ')' = 1 from rfl]
  omega

/-- A line that ends in a group is balanced if what closes in the group is what the text before it
leaves open. -/
theorem balanced_group_iff {before group : List Char} (h : '(' ∉ group) :
    Balanced (before ++ '(' :: group ++ [')']) ↔ depth? 0 before = some (group.count ')') := by
  rw [Balanced, List.append_assoc, depth?_append, Option.bind_eq_some_iff]
  constructor
  · rintro ⟨n, hbefore, hgroup⟩
    rw [hbefore, (depth?_group h).mp hgroup, Nat.zero_add]
  · intro hbefore
    exact ⟨_, hbefore, (depth?_group h).mpr (Nat.zero_add _).symm⟩

/-! ### Remapped lines -/

theorem not_mem_digits {c : Char} (hc : c.isDigit = false) (n : Nat) : c ∉ Nat.toDigits 10 n := by
  intro hmem
  rw [Nat.isDigit_of_mem_toDigits (by decide) (by decide) hmem] at hc
  cases hc

theorem not_mem_placeText {c : Char} {source : String} (hsource : c ∉ source.toList)
    (hdigit : c.isDigit = false) (hcolon : c ≠ ':') (p : Position) : c ∉ placeText source p := by
  simp only [placeText, List.mem_append, List.mem_cons, hcolon, hsource,
    not_mem_digits hdigit p.line, not_mem_digits hdigit p.column, or_self, not_false_eq_true]

/-- If no source of the map has a parenthesis in its path, a line of balanced parentheses is
balanced after remapping exactly if it stays as it is or nothing closes in its last group. -/
theorem balanced_remapLine_iff {map : SourceMap}
    (hsources : ∀ source ∈ map.sources, '(' ∉ source.toList ∧ ')' ∉ source.toList)
    {line : List Char} (hline : Balanced line) :
    Balanced (remapLine (.ofMap map) line) ↔
      remapLine (.ofMap map) line = line ∨
        ∀ before group, line = before ++ '(' :: group ++ [')'] → '(' ∉ group → ')' ∉ group := by
  obtain hsame | ⟨before, group, source, p, hgroup, hresolve, hremapped⟩ := remapLine_cases map line
  · rw [hsame]
    exact iff_of_true hline (Or.inl rfl)
  · obtain ⟨rfl, hopen⟩ := lastGroup?_eq_some.mp hgroup
    obtain ⟨r, place, found, -, -, -, -, hlisted, -⟩ := resolve?_eq_some.mp hresolve
    have hsource := hsources source (List.mem_of_getElem? hlisted)
    have hopen' := not_mem_placeText hsource.1 (by decide) (by decide) p
    have hclose' := not_mem_placeText hsource.2 (by decide) (by decide) p
    have hclosed : Balanced (before ++ '(' :: placeText source p ++ [')']) ↔ ')' ∉ group := by
      rw [balanced_group_iff hopen', (balanced_group_iff hopen).mp hline,
        List.count_eq_zero.mpr hclose', Option.some_inj, List.count_eq_zero]
    rw [hremapped]
    constructor
    · intro hbalanced
      right
      intro front last hline' hlast
      -- a line ends in one group only
      have hgroup' := lastGroup?_eq_some.mpr ⟨hline', hlast⟩
      rw [hgroup] at hgroup'
      obtain ⟨-, rfl⟩ := Prod.mk.inj (Option.some.inj hgroup')
      exact hclosed.mp hbalanced
    · rintro (hsame | hclose)
      · rw [hsame]
        exact hline
      · exact hclosed.mpr (hclose before group rfl hopen)

/-- A group before the last one, which is flat. -/
def flatFrame : List Char := "    at Object.<anonymous> (eval) (bundle.js:7:0)".toList

theorem balanced_remapLine_iff_flatFrame :
    (∀ source ∈ bundleMap.sources, '(' ∉ source.toList ∧ ')' ∉ source.toList) ∧
      Balanced flatFrame ∧
      remapLine (.ofMap bundleMap) flatFrame =
        "    at Object.<anonymous> (eval) (src/b.js:1:0)".toList ∧
      Balanced (remapLine (.ofMap bundleMap) flatFrame) := by
  have hsources : ∀ source ∈ bundleMap.sources, '(' ∉ source.toList ∧ ')' ∉ source.toList := by
    decide
  have hline : Balanced flatFrame := by decide
  refine ⟨hsources, hline, rfl, (balanced_remapLine_iff hsources hline).mpr (Or.inr ?_)⟩
  intro before group hgroup hopen
  have hlast := lastGroup?_eq_some.mpr ⟨hgroup, hopen⟩
  obtain rfl : "bundle.js:7:0".toList = group := (Prod.mk.inj (Option.some.inj hlast)).2
  decide

/-- A frame of code that was evaluated: the last group holds the group of the caller. -/
def evalFrame : List Char := "    at eval (eval at run (bundle.js:3:1), <anonymous>:3:1)".toList

/-- The parenthesis that closes the group of the caller is lost. -/
theorem evalFrame_unbalanced :
    (∀ source ∈ bundleMap.sources, '(' ∉ source.toList ∧ ')' ∉ source.toList) ∧
      Balanced evalFrame ∧
      remapLine (.ofMap bundleMap) evalFrame =
        "    at eval (eval at run (src/a.js:10:2)".toList ∧
      ¬ Balanced (remapLine (.ofMap bundleMap) evalFrame) := by
  refine ⟨by decide, by decide, rfl, ?_⟩
  decide

end Assay.Trace
