import Assay.Coverage.Report
import Assay.Proofs.Edit.Parts
import Assay.Proofs.Text.LineStarts
import Mathlib.Tactic.Tauto

/-!
# Statements that are hit

A statement should be hit exactly if some of it was executed. `hits_iff` says how far that goes: a
range that holds nothing, or runs backwards, hits a statement as well if it lies between the two
ends of the statement.
-/

namespace Assay

namespace Text

theorem units_dropWhile (p : Char → Bool) (s : List Char) :
    units (s.takeWhile p) + units (s.dropWhile p) = units s := by
  rw [← units_append, List.takeWhile_append_dropWhile]

theorem units_trimEnd_le (s : List Char) : units (trimEnd s) ≤ units s := by
  have h := congrArg List.reverse (List.takeWhile_append_dropWhile (p := isBlank) (l := s.reverse))
  rw [List.reverse_append, List.reverse_reverse] at h
  have hunits := congrArg units h
  rw [units_append] at hunits
  exact hunits ▸ Nat.le_add_right _ _

theorem units_dropCarriageReturn_le (line : List Char) :
    units (dropCarriageReturn line) ≤ units line := by
  unfold dropCarriageReturn
  split
  next h =>
    obtain ⟨front, rfl⟩ := List.getLast?_eq_some_iff.mp h
    rw [List.dropLast_concat, units_append]
    exact Nat.le_add_right _ _
  next => exact Nat.le_refl _

end Text

namespace Coverage

/-! ### Statements and their spans -/

/-- Where a statement stands: its positions and its span in the text. -/
structure StatementPlace where
  start : Position
  stop : Position
  span : Span

/-- The places of the statements of lines, of which the first has a number and an offset. -/
def statementPlaces (number offset : Nat) : List (List Char) → List StatementPlace
  | [] => []
  | line :: rest =>
    let after := statementPlaces (number + 1) (offset + Text.units line + 1) rest
    match contentSpan? (Text.dropCarriageReturn line) with
    | none => after
    | some content =>
      ⟨⟨number, content.start⟩, ⟨number, content.stop⟩,
        ⟨offset + content.start, offset + content.stop⟩⟩ :: after

def StatementPlace.statement (executed : List Span) (place : StatementPlace) : Statement :=
  ⟨place.start, place.stop, if executed.any (·.overlaps place.span) then 1 else 0⟩

theorem statementsOf_eq_map (executed : List Span) (number offset : Nat)
    (lines : List (List Char)) :
    statementsOf executed number offset lines =
      (statementPlaces number offset lines).map (·.statement executed) := by
  induction lines generalizing number offset with
  | nil => rfl
  | cons line lines ih =>
    cases hcontent : contentSpan? (Text.dropCarriageReturn line) with
    | none => simp only [statementsOf, statementPlaces, hcontent, ih]
    | some content =>
      simp only [statementsOf, statementPlaces, hcontent, ih, List.map_cons,
        StatementPlace.statement]

theorem contentSpan?_bounds {line : List Char} {content : Span}
    (h : contentSpan? line = some content) :
    content.start < content.stop ∧ content.stop ≤ Text.units line := by
  unfold contentSpan? at h
  dsimp only at h
  split at h
  next => cases h
  next hne =>
    cases h
    have hpos := Text.units_pos (by simpa using hne)
    have hle : Text.units (Text.trim line) ≤ _ := Text.units_trimEnd_le (Text.trimStart line)
    have hsplit := Text.units_dropWhile Text.isBlank line
    rw [Text.trimStart] at hle
    exact ⟨by dsimp only; omega, by dsimp only; omega⟩

/-- The span of a statement in a text, by its positions. -/
def Statement.span (text : List Char) (s : Statement) : Span :=
  ⟨(LineIndex.ofText text).offset s.start, (LineIndex.ofText text).offset s.stop⟩

/-- The span kept for a statement is the one that its positions have in the text. -/
theorem span_of_mem_statementPlaces {text : List Char} {front lines : List (List Char)}
    (h : Text.lines text = front ++ lines) {place : StatementPlace}
    (hplace : place ∈ statementPlaces (front.length + 1) (Text.linesUnits front) lines)
    (executed : List Span) :
    (place.statement executed).span text = place.span ∧ place.span.start < place.span.stop := by
  induction lines generalizing front with
  | nil => cases hplace
  | cons line lines ih =>
    have hlater := @ih (front ++ [line]) (by rw [h, List.append_assoc]; rfl)
    rw [List.length_append, Text.linesUnits_append] at hlater
    rw [statementPlaces] at hplace
    split at hplace
    next => exact hlater hplace
    next content hcontent =>
      rcases List.mem_cons.mp hplace with rfl | hplace
      · obtain ⟨hlt, hle⟩ := contentSpan?_bounds hcontent
        have hline := Nat.le_trans hle (Text.units_dropCarriageReturn_le line)
        refine ⟨?_, Nat.add_lt_add_left hlt _⟩
        simp only [Statement.span, StatementPlace.statement,
          LineIndex.offset_of_lines h (Nat.le_trans (Nat.le_of_lt hlt) hline),
          LineIndex.offset_of_lines h hline]
      · exact hlater hplace

/-! ### What was executed -/

/-- An offset lies in a range that was executed. -/
def Covers (functions : List (List CountedRange)) (offset : Nat) : Prop :=
  ∃ ranges ∈ functions, ∃ r ∈ ranges, 0 < r.count ∧ r.span.contains offset

/-- Some of a span was executed. -/
def Touches (functions : List (List CountedRange)) (span : Span) : Prop :=
  ∃ offset, span.contains offset ∧ Covers functions offset

/-- A range that was executed but holds nothing, for it is empty or runs backwards, lies between the
ends of a span. -/
def Strays (functions : List (List CountedRange)) (span : Span) : Prop :=
  ∃ ranges ∈ functions, ∃ r ∈ ranges, 0 < r.count ∧ r.span.isEmpty ∧ r.span.overlaps span

/-- A span overlaps one that is not empty if they share an offset, or if it holds nothing itself and
lies between the ends of the other. -/
theorem overlaps_iff {s t : Span} (h : t.start < t.stop) :
    s.overlaps t ↔ (∃ o, t.contains o ∧ s.contains o) ∨ (s.isEmpty ∧ s.overlaps t) := by
  simp only [Span.overlaps, Span.contains, Span.isEmpty, Bool.and_eq_true, decide_eq_true_eq]
  constructor
  · rintro ⟨hstart, hstop⟩
    by_cases hempty : s.stop ≤ s.start
    · exact Or.inr ⟨hempty, hstart, hstop⟩
    · exact Or.inl ⟨max s.start t.start, by omega, by omega⟩
  · rintro (⟨o, ht, hs⟩ | ⟨-, hoverlaps⟩)
    · omega
    · exact hoverlaps

/-- The ranges that count in a report. -/
def executedSpans (functions : List (List CountedRange)) : List Span :=
  (functions.flatten.filter (0 < ·.count)).map (·.span)

theorem any_overlaps_iff (functions : List (List CountedRange)) {span : Span}
    (h : span.start < span.stop) :
    (executedSpans functions).any (·.overlaps span) ↔
      Touches functions span ∨ Strays functions span := by
  simp only [executedSpans, List.any_map, List.any_filter, List.any_eq_true, List.mem_flatten,
    Function.comp_apply, Bool.and_eq_true, decide_eq_true_eq, Touches, Strays, Covers]
  constructor
  · rintro ⟨r, ⟨ranges, hranges, hr⟩, hcount, hoverlaps⟩
    rcases (overlaps_iff h).mp hoverlaps with ⟨o, hspan, hcontains⟩ | ⟨hempty, hoverlaps⟩
    · exact Or.inl ⟨o, hspan, ranges, hranges, r, hr, hcount, hcontains⟩
    · exact Or.inr ⟨ranges, hranges, r, hr, hcount, hempty, hoverlaps⟩
  · rintro (⟨o, hspan, ranges, hranges, r, hr, hcount, hcontains⟩ |
      ⟨ranges, hranges, r, hr, hcount, -, hoverlaps⟩)
    · exact ⟨r, ⟨ranges, hranges, hr⟩, hcount, (overlaps_iff h).mpr (Or.inl ⟨o, hspan, hcontains⟩)⟩
    · exact ⟨r, ⟨ranges, hranges, hr⟩, hcount, hoverlaps⟩

/-! ### Reports -/

theorem statements_fileReport (root : Option String) (script : RuntimeScript) :
    (fileReport root script).statements =
      (statementPlaces 1 0 (Text.lines script.text.toList)).map
        (·.statement (executedSpans script.functions)) :=
  statementsOf_eq_map _ 1 0 _

/-- The statements of a report, each with a place of the text. -/
theorem mem_statements {root : Option String} {script : RuntimeScript} {s : Statement} :
    s ∈ (fileReport root script).statements ↔
      ∃ place ∈ statementPlaces 1 0 (Text.lines script.text.toList),
        place.statement (executedSpans script.functions) = s := by
  rw [statements_fileReport, List.mem_map]

theorem span_of_place {text : List Char} {place : StatementPlace}
    (h : place ∈ statementPlaces 1 0 (Text.lines text)) (executed : List Span) :
    (place.statement executed).span text = place.span ∧ place.span.start < place.span.stop :=
  @span_of_mem_statementPlaces text [] (Text.lines text) rfl place h executed

theorem hits_statement (place : StatementPlace) (executed : List Span) :
    ((place.statement executed).hits = 0 ∨ (place.statement executed).hits = 1) ∧
      ((place.statement executed).hits = 1 ↔ executed.any (·.overlaps place.span)) := by
  unfold StatementPlace.statement
  split
  next h => simp [h]
  next h => simp [h]

theorem statement_congr {place : StatementPlace} {executed executed' : List Span} :
    place.statement executed = place.statement executed' ↔
      (executed.any (·.overlaps place.span) ↔ executed'.any (·.overlaps place.span)) := by
  rw [← (hits_statement place executed).2, ← (hits_statement place executed').2]
  have h := (hits_statement place executed).1
  have h' := (hits_statement place executed').1
  simp only [StatementPlace.statement, Statement.mk.injEq, true_and] at h h' ⊢
  omega

theorem touches_congr {functions functions' : List (List CountedRange)}
    (h : ∀ o, Covers functions o ↔ Covers functions' o) (span : Span) :
    Touches functions span ↔ Touches functions' span :=
  exists_congr fun o => and_congr_right fun _ => h o

/-- A statement counts as hit if some of it was executed or a range strays into it, so what was
executed decides exactly if no range strays into a statement of which nothing was. Two lists of
functions that execute the same offsets then give one report exactly if they stray into the same of
these statements. -/
theorem hits_iff (root : Option String) (script : RuntimeScript) :
    (∀ s ∈ (fileReport root script).statements,
      (s.hits = 0 ∨ s.hits = 1) ∧
      (s.hits = 1 ↔ Touches script.functions (s.span script.text.toList) ∨
        Strays script.functions (s.span script.text.toList)) ∧
      ((s.hits = 1 ↔ Touches script.functions (s.span script.text.toList)) ↔
        (Strays script.functions (s.span script.text.toList) →
          Touches script.functions (s.span script.text.toList)))) ∧
    ∀ functions, (∀ o, Covers script.functions o ↔ Covers functions o) →
      (fileReport root { script with functions := functions } = fileReport root script ↔
        ∀ s ∈ (fileReport root script).statements,
          ¬ Touches script.functions (s.span script.text.toList) →
            (Strays script.functions (s.span script.text.toList) ↔
              Strays functions (s.span script.text.toList))) := by
  refine ⟨fun s hs => ?_, fun functions hcovers => ?_⟩
  · obtain ⟨place, hplace, rfl⟩ := mem_statements.mp hs
    obtain ⟨hspan, hlt⟩ := span_of_place hplace (executedSpans script.functions)
    obtain ⟨hvalue, hhit⟩ := hits_statement place (executedSpans script.functions)
    rw [any_overlaps_iff _ hlt] at hhit
    rw [hspan]
    exact ⟨hvalue, hhit, by rw [hhit, or_iff_left_iff_imp]⟩
  · have hreports : fileReport root { script with functions := functions } =
        fileReport root script ↔ ∀ place ∈ statementPlaces 1 0 (Text.lines script.text.toList),
          place.statement (executedSpans functions) =
            place.statement (executedSpans script.functions) := by
      rw [← List.map_inj_left, ← statements_fileReport root script,
        ← statements_fileReport root { script with functions := functions }]
      exact ⟨congrArg _, congrArg (FileReport.mk (reportPath root script.path))⟩
    rw [hreports]
    -- both lists touch the same statements, so only what strays can tell the reports apart
    constructor
    · intro hplaces s hs htouches
      obtain ⟨place, hplace, rfl⟩ := mem_statements.mp hs
      obtain ⟨hspan, hlt⟩ := span_of_place hplace (executedSpans script.functions)
      rw [hspan] at htouches ⊢
      have hany := statement_congr.mp (hplaces place hplace)
      rw [any_overlaps_iff _ hlt, any_overlaps_iff _ hlt, ← touches_congr hcovers] at hany
      tauto
    · intro hstatements place hplace
      obtain ⟨hspan, hlt⟩ := span_of_place hplace (executedSpans script.functions)
      have hstrays := hstatements _ (mem_statements.mpr ⟨place, hplace, rfl⟩)
      rw [hspan] at hstrays
      rw [statement_congr, any_overlaps_iff _ hlt, any_overlaps_iff _ hlt,
        ← touches_congr hcovers]
      tauto

/-- Two lines of which the first was executed up to its fourth character. -/
def halfExecuted : RuntimeScript :=
  ⟨0, "/a.js", "run();\n  stop();\n", [[⟨⟨0, 4⟩, 1⟩, ⟨⟨9, 12⟩, 0⟩]]⟩

/-- The report of the lines does not change if the range is cut and a range of no count left out. -/
theorem hits_iff_halfExecuted :
    (∀ o, Covers halfExecuted.functions o ↔ Covers [[⟨⟨2, 4⟩, 3⟩], [⟨⟨0, 2⟩, 1⟩]] o) ∧
      fileReport none { halfExecuted with functions := [[⟨⟨2, 4⟩, 3⟩], [⟨⟨0, 2⟩, 1⟩]] } =
        fileReport none halfExecuted ∧
      ∃ s ∈ (fileReport none halfExecuted).statements,
        s.hits = 1 ∧ Touches halfExecuted.functions (s.span halfExecuted.text.toList) := by
  have hcovers : ∀ o, Covers halfExecuted.functions o ↔
      Covers [[⟨⟨2, 4⟩, 3⟩], [⟨⟨0, 2⟩, 1⟩]] o := by
    intro o
    simp [Covers, halfExecuted, Span.contains]
    omega
  have hstrays (functions : List (List CountedRange))
      (h : ∀ ranges ∈ functions, ∀ r ∈ ranges, r.span.start < r.span.stop) (span : Span) :
      ¬ Strays functions span := by
    rintro ⟨ranges, hranges, r, hr, -, hempty, -⟩
    have := h ranges hranges r hr
    simp only [Span.isEmpty, decide_eq_true_eq] at hempty
    omega
  obtain ⟨hstatements, hreports⟩ := hits_iff none halfExecuted
  have hfirst : ⟨⟨1, 0⟩, ⟨1, 6⟩, 1⟩ ∈ (fileReport none halfExecuted).statements := by decide
  obtain ⟨-, hhit, -⟩ := hstatements _ hfirst
  refine ⟨hcovers, (hreports _ hcovers).mpr fun s _ _ => ?_, _, hfirst, rfl,
    (hhit.mp rfl).resolve_right (hstrays _ (by decide) _)⟩
  exact iff_of_false (hstrays _ (by decide) _) (hstrays _ (by decide) _)

/-- An empty range hits the statement that it lies in, though nothing was executed: the report
differs from that of no range at all. -/
theorem hits_of_empty_range :
    let script : RuntimeScript := ⟨0, "/a.js", "abcd", [[⟨⟨2, 2⟩, 1⟩]]⟩
    (fileReport none script).statements = [⟨⟨1, 0⟩, ⟨1, 4⟩, 1⟩] ∧
      (∀ o, ¬ Covers script.functions o) ∧
      fileReport none { script with functions := [] } ≠ fileReport none script := by
  refine ⟨by decide, fun o => ?_, by decide⟩
  simp only [Covers, Span.contains, List.mem_singleton, exists_eq_left, Bool.and_eq_true,
    decide_eq_true_eq]
  omega

end Coverage

end Assay
