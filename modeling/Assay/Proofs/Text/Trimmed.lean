import Assay.Text.Lines
import Assay.Text.Search
import Mathlib.Data.List.TakeWhile

/-!
# Content and the white space around it

`trimmed_trim` says that trimming takes white space off both sides of a text and nothing else, so a
character that is not white space stands in what is left.
-/

namespace Assay.Text

/-- A text as its content between white space. -/
structure Trimmed (s before content after : List Char) : Prop where
  eq : s = before ++ content ++ after
  before : ∀ c ∈ before, isBlank c
  after : ∀ c ∈ after, isBlank c
  first : ∀ c ∈ content.head?, isBlank c = false
  last : ∀ c ∈ content.getLast?, isBlank c = false

theorem isBlank_of_mem_takeWhile {s : List Char} : ∀ c ∈ s.takeWhile isBlank, isBlank c :=
  fun _ => List.mem_takeWhile_imp

theorem isBlank_of_mem_head?_dropWhile {s : List Char} :
    ∀ c ∈ (s.dropWhile isBlank).head?, isBlank c = false := by
  intro c hc
  have h := List.head?_dropWhile_not isBlank s
  rw [Option.mem_def] at hc
  rwa [hc] at h

theorem trimEnd_append (s : List Char) :
    trimEnd s ++ (s.reverse.takeWhile isBlank).reverse = s := by
  rw [trimEnd, ← List.reverse_append, List.takeWhile_append_dropWhile, List.reverse_reverse]

theorem trimmed_trim (s : List Char) :
    ∃ after, Trimmed s (s.takeWhile isBlank) (trim s) after := by
  have hstart := trimEnd_append (trimStart s)
  refine ⟨((trimStart s).reverse.takeWhile isBlank).reverse, ?_, isBlank_of_mem_takeWhile, ?_, ?_,
    ?_⟩
  · rw [List.append_assoc, trim, hstart, trimStart, List.takeWhile_append_dropWhile]
  · intro c hc
    exact isBlank_of_mem_takeWhile c (List.mem_reverse.mp hc)
  · intro c hc
    refine isBlank_of_mem_head?_dropWhile (s := s) c ?_
    rw [Option.mem_def, trim] at hc
    rw [← trimStart, ← hstart, List.head?_append, hc]
    rfl
  · intro c hc
    rw [trim, trimEnd, List.getLast?_reverse] at hc
    exact isBlank_of_mem_head?_dropWhile c hc

namespace Trimmed

variable {s before content after : List Char}

/-- White space behind a text does not change its content. -/
theorem append (h : Trimmed s before content after) {back : List Char}
    (hback : ∀ c ∈ back, isBlank c) : Trimmed (s ++ back) before content (after ++ back) where
  eq := by rw [h.eq, List.append_assoc _ after]
  before := h.before
  after := List.forall_mem_append.mpr ⟨h.after, hback⟩
  first := h.first
  last := h.last

theorem content_eq_nil_iff (h : Trimmed s before content after) :
    content = [] ↔ ∀ c ∈ s, isBlank c := by
  rw [h.eq]
  constructor
  · rintro rfl
    rw [List.append_nil]
    exact List.forall_mem_append.mpr ⟨h.before, h.after⟩
  · intro hall
    cases content with
    | nil => rfl
    | cons c content =>
      have hblank := hall c (by simp)
      rw [h.first c rfl] at hblank
      cases hblank

/-- A character that is not white space stands in the content. -/
theorem exists_place {front back : List Char} {c : Char}
    (h : Trimmed (front ++ c :: back) before content after) (hc : isBlank c = false) :
    ∃ left right, front = before ++ left ∧ content = left ++ c :: right := by
  have hnot : ∀ {s : List Char}, (∀ x ∈ s, isBlank x) → c ∉ s := by
    intro s hs hmem
    rw [hs c hmem] at hc
    cases hc
  have heq := h.eq
  rw [List.append_assoc] at heq
  -- the character is not in the white space before the content, nor in that behind it
  obtain ⟨left, rfl, hrest⟩ :
      ∃ left, front = before ++ left ∧ content ++ after = left ++ c :: back := by
    rcases List.append_eq_append_iff.mp heq with ⟨rest, hbefore, hrest⟩ | hleft
    · cases rest with
      | nil =>
        rw [List.append_nil] at hbefore
        exact ⟨[], by rw [hbefore, List.append_nil], hrest.symm⟩
      | cons x rest =>
        obtain ⟨rfl, -⟩ := List.cons.inj hrest
        exact absurd (hbefore ▸ by simp) (hnot h.before)
    · exact hleft
  rcases List.append_eq_append_iff.mp hrest with ⟨rest, -, hafter⟩ | ⟨rest, rfl, hafter⟩
  · exact absurd (hafter ▸ by simp) (hnot h.after)
  · cases rest with
    | nil =>
      rw [List.nil_append] at hafter
      exact absurd (hafter ▸ List.mem_cons_self) (hnot h.after)
    | cons x rest =>
      obtain ⟨rfl, -⟩ := List.cons.inj hafter
      exact ⟨left, rest, rfl, rfl⟩

end Trimmed

/-- A carriage return at the end of a line is white space behind the rest. -/
theorem exists_dropCarriageReturn (line : List Char) :
    ∃ back, line = dropCarriageReturn line ++ back ∧ ∀ c ∈ back, isBlank c := by
  unfold dropCarriageReturn
  split
  next h =>
    obtain ⟨front, rfl⟩ := List.getLast?_eq_some_iff.mp h
    refine ⟨['\r'], by rw [List.dropLast_concat], fun c hc => ?_⟩
    rw [List.mem_singleton.mp hc]
    rfl
  next => exact ⟨[], (List.append_nil line).symm, by simp⟩

end Assay.Text
