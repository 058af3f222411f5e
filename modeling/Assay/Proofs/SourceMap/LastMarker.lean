import Assay.Proofs.SourceMap.Inline
import Mathlib.Data.List.Basic

/-!
# The last map of a text

Of the maps that a text carries the last one alone is read, up to the first blank behind its marker.
`ofInline_lastMarker` says that neither what stands before that marker nor what follows that blank
matters, whether the map can be read or not.
-/

namespace Assay

namespace Text

theorem takeWhile_append_stop {p : Char → Bool} {after : List Char}
    (hafter : after.head?.all (!p ·)) (s : List Char) :
    (s ++ after).takeWhile p = s.takeWhile p := by
  induction s with
  | nil =>
    cases after with
    | nil => rfl
    | cons c after => exact List.takeWhile_cons_of_neg (by simpa using hafter)
  | cons c s ih => rw [List.cons_append, List.takeWhile_cons, List.takeWhile_cons, ih]

/-- What follows a blank behind the first word of a text is not part of the word. -/
theorem firstWord_append_blank {s after : List Char} (hword : firstWord s ≠ [])
    (hafter : after.head?.all isBlank) : firstWord (s ++ after) = firstWord s := by
  have hstop : after.head?.all fun c => !!isBlank c := by simpa using hafter
  induction s with
  | nil => exact absurd rfl hword
  | cons c s ih =>
    by_cases hc : isBlank c
    · have htrim (r : List Char) : trimStart (c :: r) = trimStart r :=
        List.dropWhile_cons_of_pos hc
      simp only [firstWord, List.cons_append, htrim] at hword ih ⊢
      exact ih hword
    · have htrim (r : List Char) : trimStart (c :: r) = c :: r :=
        List.dropWhile_cons_of_neg hc
      rw [firstWord, firstWord, List.cons_append, htrim, htrim, ← List.cons_append,
        takeWhile_append_stop hstop]

end Text

namespace SourceMap

/-! ### Where the last marker stands -/

def markers : List (List Char) := [marker, plainMarker]

/-- A marker of a text that no other follows, with what stands before it and behind it. -/
structure LastMarker (s before mark payload : List Char) : Prop where
  mem : mark ∈ markers
  text : s = before ++ mark ++ payload
  last : ∀ before' mark' payload', mark' ∈ markers → s = before' ++ mark' ++ payload' →
    before'.length ≤ before.length

theorem exists_cons_of_mem_markers {mark : List Char} (h : mark ∈ markers) :
    ∃ r, mark = '#' :: r := by
  rcases List.mem_cons.mp h with rfl | h
  · exact ⟨_, marker_eq.1⟩
  · exact ⟨_, List.mem_singleton.mp h ▸ plainMarker_eq⟩

/-- The two markers differ before either ends. -/
theorem marker_append_ne (payload payload' : List Char) :
    marker ++ payload ≠ plainMarker ++ payload' := by
  intro h
  have hchar := congrArg (·[41]?) h
  rw [List.getElem?_append_left (by decide), List.getElem?_append_left (by decide)] at hchar
  exact absurd hchar (by decide)

theorem mark_unique {mark mark' payload payload' : List Char} (hmark : mark ∈ markers)
    (hmark' : mark' ∈ markers) (h : mark ++ payload = mark' ++ payload') : mark = mark' := by
  simp only [markers, List.mem_cons, List.not_mem_nil, or_false] at hmark hmark'
  rcases hmark with rfl | rfl <;> rcases hmark' with rfl | rfl
  · rfl
  · exact absurd h (marker_append_ne _ _)
  · exact absurd h.symm (marker_append_ne _ _)
  · rfl

theorem LastMarker.unique {s before before' mark mark' payload payload' : List Char}
    (h : LastMarker s before mark payload) (h' : LastMarker s before' mark' payload') :
    payload = payload' := by
  have hlength := Nat.le_antisymm (h'.last _ _ _ h.mem h.text) (h.last _ _ _ h'.mem h'.text)
  have htext := h.text.symm.trans h'.text
  rw [List.append_assoc, List.append_assoc] at htext
  have hrest := (List.append_inj htext hlength).2
  obtain rfl := mark_unique h.mem h'.mem hrest
  exact List.append_cancel_left hrest

/-- The two ways in which a marker can begin a text. -/
theorem afterMarker_eq_some {s payload : List Char} :
    (Text.after? marker s).or (Text.after? plainMarker s) = some payload ↔
      ∃ mark ∈ markers, s = mark ++ payload := by
  simp only [Option.or_eq_some_iff, Text.after?_iff, markers, List.mem_cons, List.not_mem_nil,
    or_false, exists_eq_or_imp, exists_eq_left]
  constructor
  · rintro (h | ⟨-, h⟩)
    · exact Or.inl h
    · exact Or.inr h
  · rintro (h | h)
    · exact Or.inl h
    · refine Or.inr ⟨Option.eq_none_iff_forall_ne_some.mpr fun rest hrest => ?_, h⟩
      exact marker_append_ne _ _ ((Text.after?_iff _ _ _).mp hrest |>.symm.trans h)

theorem lastPayload?_ne_none (before payload : List Char) {mark : List Char}
    (hmark : mark ∈ markers) : lastPayload? (before ++ mark ++ payload) ≠ none := by
  have hfront : ∃ found, lastPayload? (mark ++ payload) = some found := by
    obtain ⟨r, hcons⟩ := exists_cons_of_mem_markers hmark
    have hafter := afterMarker_eq_some.mpr ⟨mark, hmark, Eq.refl (mark ++ payload)⟩
    rw [hcons, List.cons_append] at hafter ⊢
    rw [lastPayload?, hafter]
    cases lastPayload? (r ++ payload) with
    | none => exact ⟨_, rfl⟩
    | some found => exact ⟨found, rfl⟩
  obtain ⟨found, hfound⟩ := hfront
  rw [List.append_assoc, lastPayload?_append hfound before]
  exact Option.some_ne_none found

theorem exists_lastMarker {s payload : List Char} (h : lastPayload? s = some payload) :
    ∃ before mark, LastMarker s before mark payload := by
  induction s with
  | nil => cases h
  | cons c r ih =>
    have hbehind {before' mark' payload' : List Char}
        (htext : c :: r = before' ++ mark' ++ payload') (hne : before' ≠ []) :
        ∃ rest, before' = c :: rest ∧ r = rest ++ mark' ++ payload' := by
      obtain ⟨d, rest, rfl⟩ := List.exists_cons_of_ne_nil hne
      obtain ⟨rfl, hr⟩ := List.cons.inj htext
      exact ⟨rest, rfl, hr⟩
    rw [lastPayload?] at h
    cases hlater : lastPayload? r with
    | some found =>
      rw [hlater] at h
      obtain rfl := Option.some.inj h
      obtain ⟨before, mark, hmem, htext, hlast⟩ := ih hlater
      refine ⟨c :: before, mark, hmem, by rw [htext]; rfl, ?_⟩
      intro before' mark' payload' hmark' heq
      by_cases hne : before' = []
      · simp [hne]
      · obtain ⟨rest, rfl, hr⟩ := hbehind heq hne
        exact Nat.succ_le_succ (hlast rest mark' payload' hmark' hr)
    | none =>
      rw [hlater] at h
      obtain ⟨mark, hmem, htext⟩ := afterMarker_eq_some.mp h
      refine ⟨[], mark, hmem, htext, fun before' mark' payload' hmark' heq => ?_⟩
      by_cases hne : before' = []
      · simp [hne]
      · obtain ⟨rest, -, rfl⟩ := hbehind heq hne
        exact absurd hlater (lastPayload?_ne_none rest payload' hmark')

theorem lastPayload?_eq_some_iff {s payload : List Char} :
    lastPayload? s = some payload ↔ ∃ before mark, LastMarker s before mark payload := by
  refine ⟨exists_lastMarker, fun ⟨before, mark, h⟩ => ?_⟩
  obtain ⟨found, hfound⟩ := Option.ne_none_iff_exists'.mp
    (h.text ▸ lastPayload?_ne_none before payload h.mem)
  obtain ⟨before', mark', h'⟩ := exists_lastMarker hfound
  rw [hfound, h'.unique h]

/-! ### What is read of a text -/

/-- The word behind the last marker of a text, which holds the map. -/
def inlineToken? (s : List Char) : Option (List Char) := (lastPayload? s).map Text.firstWord

/-- A text is read by that word alone, and fails by it. -/
theorem ofInline_congr {s s' : List Char} (h : inlineToken? s = inlineToken? s') :
    ofInline s = ofInline s' := by
  unfold inlineToken? at h
  unfold ofInline
  cases hs : lastPayload? s <;> cases hs' : lastPayload? s' <;> rw [hs, hs'] at h
  · cases h
  · cases h
  · dsimp only
    rw [Option.some.inj h]

theorem LastMarker.append {t before mark payload added : List Char}
    (h : LastMarker t before mark payload)
    (hadded : ∀ before' mark' payload', mark' ∈ markers →
      t ++ added = before' ++ mark' ++ payload' → ∃ rest, t = before' ++ mark' ++ rest) :
    LastMarker (t ++ added) before mark (payload ++ added) where
  mem := h.mem
  text := by rw [h.text, List.append_assoc]
  last before' mark' payload' hmark' heq := by
    obtain ⟨rest, hrest⟩ := hadded before' mark' payload' hmark' heq
    exact h.last before' mark' rest hmark' hrest

/-- A text with a marker gives the same map or fails in the same way, whatever is put before it; and
if a word stands behind its last marker, whatever is put behind a blank after it, unless a marker
comes into being. -/
theorem ofInline_lastMarker {t : List Char} (hmarked : ∃ mark ∈ markers, Text.occurs mark t) :
    (∀ p, inlineToken? (p ++ t) = inlineToken? t ∧ ofInline (p ++ t) = ofInline t) ∧
      ∀ before mark payload blank u, LastMarker t before mark payload →
        Text.firstWord payload ≠ [] → blank ≠ [] → (∀ c ∈ blank, Text.isBlank c) →
        (∀ before' mark' payload', mark' ∈ markers →
          t ++ (blank ++ u) = before' ++ mark' ++ payload' →
            ∃ rest, t = before' ++ mark' ++ rest) →
        inlineToken? (t ++ (blank ++ u)) = inlineToken? t ∧
          ofInline (t ++ (blank ++ u)) = ofInline t := by
  refine ⟨fun p => ?_, fun before mark payload blank u hlast hword hne hblank hadded => ?_⟩
  · obtain ⟨mark, hmark, hoccurs⟩ := hmarked
    obtain ⟨before, payload, rfl⟩ := (Text.occurs_iff mark t).mp hoccurs
    obtain ⟨found, hfound⟩ := Option.ne_none_iff_exists'.mp
      (lastPayload?_ne_none before payload hmark)
    have htoken : inlineToken? (p ++ (before ++ mark ++ payload)) =
        inlineToken? (before ++ mark ++ payload) := by
      rw [inlineToken?, inlineToken?, lastPayload?_append hfound p, hfound]
    exact ⟨htoken, ofInline_congr htoken⟩
  · obtain ⟨c, rest, rfl⟩ := List.exists_cons_of_ne_nil hne
    have hstop : (c :: rest ++ u).head?.all Text.isBlank := by simpa using hblank c (by simp)
    have htoken : inlineToken? (t ++ (c :: rest ++ u)) = inlineToken? t := by
      rw [inlineToken?, inlineToken?,
        lastPayload?_eq_some_iff.mpr ⟨before, mark, hlast.append hadded⟩,
        lastPayload?_eq_some_iff.mpr ⟨before, mark, hlast⟩, Option.map_some, Option.map_some,
        Text.firstWord_append_blank hword hstop]
    exact ⟨htoken, ofInline_congr htoken⟩

/-- Where a text has one number sign a marker can only begin with it. -/
theorem eq_of_single_sign {a b before mark payload : List Char} (ha : '#' ∉ a) (hb : '#' ∉ b)
    (hmark : mark ∈ markers) (h : a ++ '#' :: b = before ++ mark ++ payload) :
    a = before ∧ '#' :: b = mark ++ payload := by
  obtain ⟨r, rfl⟩ := exists_cons_of_mem_markers hmark
  rw [List.append_assoc, List.cons_append, List.append_cons_inj_of_notMem ha hb] at h
  obtain ⟨hbefore, -, hb⟩ := h
  exact ⟨hbefore, by rw [hb, List.cons_append]⟩

/-- A text whose only marker is followed by the document of an empty object. -/
def emptyObject : List Char := ['/', '/'] ++ plainMarker ++ ['e', '3', '0']

/-- Another marker before it, and a blank with a word behind it. -/
theorem ofInline_lastMarker_emptyObject :
    (∃ mark ∈ markers, Text.occurs mark emptyObject) ∧
      LastMarker emptyObject ['/', '/'] plainMarker ['e', '3', '0'] ∧
      Text.firstWord ['e', '3', '0'] ≠ [] ∧
      ofInline (marker ++ 'x' :: emptyObject) = ofInline emptyObject ∧
      ofInline (emptyObject ++ (['\n'] ++ ['e', '3', '0'])) = ofInline emptyObject := by
  have hplain : plainMarker ∈ markers := List.mem_cons_of_mem _ List.mem_cons_self
  have hmarked : ∃ mark ∈ markers, Text.occurs mark emptyObject := ⟨_, hplain, by decide⟩
  have hsign (b : List Char) : ['/', '/'] ++ '#' :: (plainMarker.tail ++ b) =
      ['/', '/'] ++ plainMarker ++ b := by
    rw [← List.cons_append, ← plainMarker_eq, List.append_assoc]
  have hlast : LastMarker emptyObject ['/', '/'] plainMarker ['e', '3', '0'] := by
    refine ⟨hplain, rfl, fun before mark payload hmark h => ?_⟩
    obtain ⟨hbefore, -⟩ := eq_of_single_sign (by decide) (by decide) hmark ((hsign _).trans h)
    exact Nat.le_of_eq (congrArg List.length hbefore.symm)
  obtain ⟨hbefore, hbehind⟩ := ofInline_lastMarker hmarked
  refine ⟨hmarked, hlast, by decide, ?_, ?_⟩
  · have h := (hbefore (marker ++ ['x'])).2
    rwa [List.append_assoc] at h
  · have hblank : ∀ c ∈ ['\n'], Text.isBlank c := List.forall_mem_singleton.mpr (by decide)
    refine (hbehind _ _ _ ['\n'] _ hlast (by decide) (by decide) hblank ?_).2
    intro before mark payload hmark h
    rw [emptyObject, List.append_assoc] at h
    obtain ⟨rfl, hrest⟩ := eq_of_single_sign (by decide) (by decide) hmark ((hsign _).trans h)
    rw [← List.cons_append, ← plainMarker_eq] at hrest
    obtain rfl := mark_unique hplain hmark hrest
    exact ⟨['e', '3', '0'], rfl⟩

end SourceMap

end Assay
