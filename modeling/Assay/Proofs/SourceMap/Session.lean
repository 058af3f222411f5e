import Assay.Proofs.SourceMap.RoundTrip
import Assay.Proofs.Text.LineIndex
import Assay.SourceMap.Lookup

/-!
# What a session answers

A session keeps the tokens of a map line by line. `sourcePosition?_preceding` and
`sourcePosition?_following` say which token answers for a place: the one that stands between those
that are before the place and those that are after it.
-/

namespace Assay.LookupSession

/-! ### The tokens of a line -/

theorem groupLines_line {tokens : List MapToken} {group : Nat × List MapToken}
    (h : group ∈ groupLines tokens) : ∃ t ∈ tokens, t.generated.line = group.1 := by
  induction tokens generalizing group with
  | nil => cases h
  | cons t tokens ih =>
    have hrest : ∀ g ∈ groupLines tokens, ∃ u ∈ t :: tokens, u.generated.line = g.1 := fun g hg => by
      obtain ⟨u, hu, hline⟩ := ih hg
      exact ⟨u, List.mem_cons_of_mem t hu, hline⟩
    unfold groupLines at h
    split at h
    next =>
      rw [List.mem_singleton.mp h]
      exact ⟨t, List.mem_cons_self, rfl⟩
    next line group rest hgroups =>
      rw [hgroups] at hrest
      split at h
      next hline =>
        rcases List.mem_cons.mp h with rfl | h
        · exact ⟨t, List.mem_cons_self, hline.symm⟩
        · exact hrest _ (List.mem_cons_of_mem _ h)
      next =>
        rcases List.mem_cons.mp h with rfl | h
        · exact ⟨t, List.mem_cons_self, rfl⟩
        · exact hrest _ h

/-- The groups of tokens that are in the order of their lines ascend. -/
theorem pairwise_groupLines {tokens : List MapToken}
    (h : tokens.Pairwise (·.generated.line ≤ ·.generated.line)) :
    (groupLines tokens).Pairwise (·.1 < ·.1) := by
  induction tokens with
  | nil => exact List.Pairwise.nil
  | cons t tokens ih =>
    obtain ⟨hfirst, htokens⟩ := List.pairwise_cons.mp h
    have hgroups := ih htokens
    have hlines : ∀ g ∈ groupLines tokens, t.generated.line ≤ g.1 := fun g hg => by
      obtain ⟨u, hu, hline⟩ := groupLines_line hg
      rw [← hline]
      exact hfirst u hu
    unfold groupLines
    split
    next => exact List.pairwise_singleton _ _
    next line group rest heq =>
      rw [heq] at hgroups hlines
      split
      next => exact List.pairwise_cons.mpr (List.pairwise_cons.mp hgroups)
      next hne =>
        refine List.pairwise_cons.mpr ⟨fun g hg => ?_, hgroups⟩
        have hline := hlines _ List.mem_cons_self
        rcases List.mem_cons.mp hg with rfl | hg
        · exact Nat.lt_of_le_of_ne hline (Ne.symm hne)
        · have := (List.pairwise_cons.mp hgroups).1 g hg
          simp only at hline this ⊢
          omega

/-- What is found under a line. -/
def groupOf (groups : List (Nat × List MapToken)) (line : Nat) : List MapToken :=
  ((groups.find? (·.1 = line)).map (·.2)).getD []

theorem groupOf_cons (group : Nat × List MapToken) (groups : List (Nat × List MapToken))
    (line : Nat) :
    groupOf (group :: groups) line = if group.1 = line then group.2 else groupOf groups line := by
  unfold groupOf
  rw [List.find?_cons]
  by_cases h : group.1 = line
  · simp [h]
  · simp [h]

theorem groupOf_eq_nil {groups : List (Nat × List MapToken)} {line : Nat}
    (h : ∀ g ∈ groups, g.1 ≠ line) : groupOf groups line = [] := by
  have hnone : groups.find? (·.1 = line) = none :=
    List.find?_eq_none.mpr fun g hg => by simpa using h g hg
  rw [groupOf, hnone]
  rfl

theorem groupOf_append {front back : List (Nat × List MapToken)} {line : Nat}
    (h : ∀ g ∈ front, g.1 ≠ line) : groupOf (front ++ back) line = groupOf back line := by
  have hnone : front.find? (·.1 = line) = none :=
    List.find?_eq_none.mpr fun g hg => by simpa using h g hg
  rw [groupOf, List.find?_append, hnone, Option.none_or, groupOf]

theorem groupOf_groupLines {tokens : List MapToken}
    (h : tokens.Pairwise (·.generated.line ≤ ·.generated.line)) (line : Nat) :
    groupOf (groupLines tokens) line = tokens.filter (·.generated.line = line) := by
  induction tokens with
  | nil => rfl
  | cons t tokens ih =>
    obtain ⟨hfirst, htokens⟩ := List.pairwise_cons.mp h
    have hgroups := ih htokens
    have hascending := pairwise_groupLines htokens
    rw [List.filter_cons, ← hgroups, groupLines]
    split
    next heq =>
      rw [heq, groupOf_cons]
      simp [groupOf]
    next found group rest heq =>
      rw [heq] at hgroups hascending
      rw [heq]
      split
      next hline =>
        subst hline
        rw [groupOf_cons, groupOf_cons]
        by_cases hl : t.generated.line = line <;> simp [hl]
      next hne =>
        rw [groupOf_cons]
        by_cases hl : t.generated.line = line
        · -- The line of the first token comes before all others, which have their own groups.
          have hrest : groupOf ((found, group) :: rest) line = [] := by
            refine groupOf_eq_nil fun g hg => ?_
            obtain ⟨u, hu, hline⟩ := groupLines_line (heq ▸ List.mem_cons_self)
            have hle := hfirst u hu
            rcases List.mem_cons.mp hg with rfl | hg
            · exact fun h' => hne (h'.trans hl.symm)
            · have := (List.pairwise_cons.mp hascending).1 g hg
              simp only at hline this
              omega
          simp [hl, hrest]
        · simp [hl]

/-- Ascending groups before a line and those from it on. -/
theorem exists_split {groups : List (Nat × List MapToken)} (h : groups.Pairwise (·.1 < ·.1))
    (line : Nat) :
    ∃ front back, groups = front ++ back ∧ (∀ g ∈ front, g.1 < line) ∧ ∀ g ∈ back, line ≤ g.1 := by
  induction groups with
  | nil => exact ⟨[], [], rfl, by simp, by simp⟩
  | cons g groups ih =>
    obtain ⟨hfirst, hrest⟩ := List.pairwise_cons.mp h
    by_cases hg : g.1 < line
    · obtain ⟨front, back, rfl, hfront, hback⟩ := ih hrest
      exact ⟨g :: front, back, rfl, List.forall_mem_cons.mpr ⟨hg, hfront⟩, hback⟩
    · refine ⟨[], g :: groups, rfl, by simp, List.forall_mem_cons.mpr ⟨by omega, fun g' hg' => ?_⟩⟩
      have := hfirst g' hg'
      omega

/-- The tokens of a line are those that stand on it. -/
theorem lineTokens_ofMap {m : SourceMap} {line : Nat}
    (h : m.tokens.Pairwise (·.generated.line ≤ ·.generated.line)) (hline : line ≠ 0) :
    (ofMap m).lineTokens line = (m.tokens.filter (·.generated.line = line)).toArray := by
  have hascending := pairwise_groupLines h
  have hlines : (ofMap m).lines =
      ((groupLines m.tokens).map fun g => (g.1, g.2.toArray)).toArray := rfl
  rw [← groupOf_groupLines h line, lineTokens, if_neg hline, hlines]
  generalize groupLines m.tokens = groups at hascending
  obtain ⟨front, back, hgroups, hfront, hback⟩ := exists_split hascending line
  subst hgroups
  have hat : firstFalse (·.1 < line) ((front ++ back).map fun g => (g.1, g.2.toArray)).toArray =
      (front.map fun g => (g.1, g.2.toArray)).length := by
    rw [List.map_append]
    refine firstFalse_append (fun g hg => ?_) fun g hg => ?_
    · obtain ⟨g', hg', rfl⟩ := List.mem_map.mp hg
      exact decide_eq_true (hfront g' hg')
    · obtain ⟨g', hg', rfl⟩ := List.mem_map.mp hg
      exact decide_eq_false (Nat.not_lt.mpr (hback g' hg'))
  rw [hat, List.getElem?_toArray, List.map_append, List.getElem?_append_right (Nat.le_refl _),
    Nat.sub_self, groupOf_append fun g hg => Nat.ne_of_lt (hfront g hg)]
  cases back with
  | nil => rfl
  | cons g back =>
    rw [groupOf_cons]
    simp only [List.map_cons, List.getElem?_cons_zero]
    split
    next => rfl
    next hne =>
      rw [groupOf_eq_nil fun g' hg' => ?_]
      have hline' := hback g List.mem_cons_self
      rw [List.pairwise_append, List.pairwise_cons] at hascending
      have := hascending.2.1.1 g' hg'
      omega

/-! ### The token that answers -/

variable {m : SourceMap} {front back : List MapToken} {t : MapToken} {p : Position}

theorem filter_split (hline : t.generated.line = p.line) (hm : m.tokens = front ++ t :: back) :
    m.tokens.filter (·.generated.line = p.line) =
      front.filter (·.generated.line = p.line) ++ t :: back.filter (·.generated.line = p.line) := by
  rw [hm, List.filter_append, List.filter_cons_of_pos (by simpa using hline)]

theorem lines_of_sorted (h : m.tokens.Pairwise (·.generated.le ·.generated)) :
    m.tokens.Pairwise (·.generated.line ≤ ·.generated.line) :=
  h.imp Position.line_le_of_le

/-- A token answers for a place at or behind it if all later ones are behind the place. -/
theorem sourcePosition?_preceding (hsorted : m.tokens.Pairwise (·.generated.le ·.generated))
    (hm : m.tokens = front ++ t :: back) (hp : p.line ≠ 0) (hline : t.generated.line = p.line)
    (hcolumn : t.generated.column ≤ p.column) (hback : ∀ u ∈ back, u.generated.le p = false) :
    (ofMap m).sourcePosition? p .preceding = t.origin.map .ofOrigin := by
  have hfirst : ∀ u ∈ front, u.generated.le t.generated := by
    rw [hm, List.pairwise_append] at hsorted
    exact fun u hu => hsorted.2.2 u hu t List.mem_cons_self
  have hat : firstFalse (·.generated.column ≤ p.column)
      ((front.filter (·.generated.line = p.line) ++ [t]) ++
        back.filter (·.generated.line = p.line)).toArray =
      (front.filter (·.generated.line = p.line) ++ [t]).length := by
    refine firstFalse_append (fun u hu => ?_) fun u hu => ?_
    · rcases List.mem_append.mp hu with hu | hu
      · obtain ⟨hu, hl⟩ := List.mem_filter.mp hu
        have hle := Position.le_iff.mp (hfirst u hu)
        simp only [decide_eq_true_eq] at hl ⊢
        omega
      · rw [List.mem_singleton.mp hu]
        exact decide_eq_true hcolumn
    · obtain ⟨hu, hl⟩ := List.mem_filter.mp hu
      have hnot := Position.le_eq_false_iff.mp (hback u hu)
      simp only [decide_eq_true_eq, decide_eq_false_iff_not] at hl ⊢
      omega
  simp only [sourcePosition?, lineTokens_ofMap (lines_of_sorted hsorted) hp, filter_split hline hm,
    nearest?]
  rw [List.append_assoc, List.singleton_append] at hat
  rw [hat]
  cases ht : t.origin <;> simp [ht]

/-- A token answers for a place at or in front of it if all earlier ones are in front of the
place. -/
theorem sourcePosition?_following (hsorted : m.tokens.Pairwise (·.generated.le ·.generated))
    (hm : m.tokens = front ++ t :: back) (hp : p.line ≠ 0) (hline : t.generated.line = p.line)
    (hcolumn : p.column ≤ t.generated.column) (hfront : ∀ u ∈ front, p.le u.generated = false) :
    (ofMap m).sourcePosition? p .following = t.origin.map .ofOrigin := by
  have hlast : ∀ u ∈ back, t.generated.le u.generated := by
    rw [hm, List.pairwise_append, List.pairwise_cons] at hsorted
    exact hsorted.2.1.1
  have hat : firstFalse (·.generated.column < p.column)
      (front.filter (·.generated.line = p.line) ++
        t :: back.filter (·.generated.line = p.line)).toArray =
      (front.filter (·.generated.line = p.line)).length := by
    refine firstFalse_append (fun u hu => ?_) fun u hu => ?_
    · obtain ⟨hu, hl⟩ := List.mem_filter.mp hu
      have hnot := Position.le_eq_false_iff.mp (hfront u hu)
      simp only [decide_eq_true_eq] at hl ⊢
      omega
    · rcases List.mem_cons.mp hu with rfl | hu
      · exact decide_eq_false (Nat.not_lt.mpr hcolumn)
      · obtain ⟨hu, hl⟩ := List.mem_filter.mp hu
        have hle := Position.le_iff.mp (hlast u hu)
        simp only [decide_eq_true_eq, decide_eq_false_iff_not] at hl ⊢
        omega
  simp only [sourcePosition?, lineTokens_ofMap (lines_of_sorted hsorted) hp, filter_split hline hm,
    nearest?]
  rw [hat]
  cases ht : t.origin <;> simp [ht]

end Assay.LookupSession
