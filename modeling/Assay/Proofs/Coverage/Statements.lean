import Assay.Proofs.Coverage.Hits
import Assay.Proofs.Text.Trimmed
import Mathlib.Data.List.Forall2
import Mathlib.Data.List.Pairwise

/-!
# Statements by lines

A report counts every line that is not blank as a statement. `statements_of_lines` says where these
statements stand: each is what its line holds between the white space at its ends, and together they
hold all of the text that is not white space.
-/

namespace Assay

/-- The keys of the object that a field of an object holds. -/
def Json.keysAt (name : String) : Json → List String
  | .object fields =>
    match fields.lookup name with
    | some (.object inner) => inner.map (·.1)
    | _ => []
  | _ => []

namespace Coverage

/-! ### The content of a line -/

/-- The lines that are not blank, with their numbers. -/
def filledLines (number : Nat) (lines : List (List Char)) : List (List Char × Nat) :=
  (lines.zipIdx number).filter fun (line, _) => !line.all Text.isBlank

/-- A statement on one line, from the first to the last of its characters that are not white
space. -/
structure Statement.Of (s : Statement) (line : List Char × Nat) : Prop where
  startLine : s.start.line = line.2
  stopLine : s.stop.line = line.2
  content : ∃ before content after, Text.Trimmed line.1 before content after ∧ content ≠ [] ∧
    s.start.column = Text.units before ∧ s.stop.column = Text.units before + Text.units content

variable {line : List Char} {content : Span}

theorem exists_trimmed (line : List Char) :
    ∃ after, Text.Trimmed line ((Text.dropCarriageReturn line).takeWhile Text.isBlank)
      (Text.trim (Text.dropCarriageReturn line)) after := by
  obtain ⟨after, htrimmed⟩ := Text.trimmed_trim (Text.dropCarriageReturn line)
  obtain ⟨back, hline, hback⟩ := Text.exists_dropCarriageReturn line
  have happended := htrimmed.append hback
  rw [← hline] at happended
  exact ⟨_, happended⟩

theorem contentSpan?_eq_some (h : contentSpan? (Text.dropCarriageReturn line) = some content) :
    ∃ before text after, Text.Trimmed line before text after ∧ text ≠ [] ∧
      content.start = Text.units before ∧
      content.stop = Text.units before + Text.units text := by
  obtain ⟨after, htrimmed⟩ := exists_trimmed line
  unfold contentSpan? at h
  dsimp only at h
  split at h
  next => cases h
  next hne =>
    cases h
    exact ⟨_, _, after, htrimmed, by simpa using hne, rfl, rfl⟩

theorem contentSpan?_eq_none_iff :
    contentSpan? (Text.dropCarriageReturn line) = none ↔ ∀ c ∈ line, Text.isBlank c := by
  obtain ⟨after, htrimmed⟩ := exists_trimmed line
  rw [← htrimmed.content_eq_nil_iff, contentSpan?, ← List.isEmpty_iff]
  split
  next h => simp [h]
  next h => simp [h]

/-- The places of statements are the contents of the lines that are not blank. -/
theorem forall₂_statementPlaces (executed : List Span) (number offset : Nat)
    (lines : List (List Char)) :
    List.Forall₂ (fun place line => (StatementPlace.statement executed place).Of line)
      (statementPlaces number offset lines) (filledLines number lines) := by
  induction lines generalizing number offset with
  | nil => exact List.Forall₂.nil
  | cons line lines ih =>
    have hlater := ih (number + 1) (offset + Text.units line + 1)
    rw [statementPlaces, filledLines, List.zipIdx_cons]
    split
    next hnone =>
      have hblank : line.all Text.isBlank :=
        List.all_eq_true.mpr (contentSpan?_eq_none_iff.mp hnone)
      rwa [List.filter_cons_of_neg (by simp [hblank])]
    next content hcontent =>
      have hfilled : ¬ line.all Text.isBlank := fun h => by
        rw [contentSpan?_eq_none_iff.mpr (List.all_eq_true.mp h)] at hcontent
        cases hcontent
      rw [List.filter_cons_of_pos (by simpa using hfilled)]
      exact List.Forall₂.cons ⟨rfl, rfl, contentSpan?_eq_some hcontent⟩ hlater

/-! ### Statements in order -/

theorem le_of_mem_statementPlaces {number offset : Nat} {lines : List (List Char)}
    {place : StatementPlace} (h : place ∈ statementPlaces number offset lines) :
    number ≤ place.start.line ∧ offset ≤ place.span.start := by
  induction lines generalizing number offset with
  | nil => cases h
  | cons line lines ih =>
    have hlater (h : place ∈ statementPlaces (number + 1) (offset + Text.units line + 1) lines) :
        number ≤ place.start.line ∧ offset ≤ place.span.start := by
      have := ih h
      omega
    rw [statementPlaces] at h
    split at h
    next => exact hlater h
    next =>
      rcases List.mem_cons.mp h with rfl | h
      · exact ⟨Nat.le_refl _, Nat.le_add_right _ _⟩
      · exact hlater h

theorem pairwise_statementPlaces (number offset : Nat) (lines : List (List Char)) :
    (statementPlaces number offset lines).Pairwise fun p q =>
      p.start.line < q.start.line ∧ p.span.stop ≤ q.span.start := by
  induction lines generalizing number offset with
  | nil => exact List.Pairwise.nil
  | cons line lines ih =>
    rw [statementPlaces]
    split
    next => exact ih _ _
    next content hcontent =>
      refine List.pairwise_cons.mpr ⟨fun place hplace => ?_, ih _ _⟩
      obtain ⟨hnumber, hoffset⟩ := le_of_mem_statementPlaces hplace
      -- a place ends with its line at the latest, and the later places start behind the newline
      have hstop := (contentSpan?_bounds hcontent).2
      have hline := Text.units_dropCarriageReturn_le line
      exact ⟨hnumber, by dsimp only; omega⟩

/-- A line that is not blank has a statement. -/
theorem exists_statementPlace (number offset : Nat) (front back : List (List Char))
    (h : contentSpan? (Text.dropCarriageReturn line) = some content) :
    ∃ place ∈ statementPlaces number offset (front ++ line :: back),
      place.span.start = offset + Text.linesUnits front + content.start ∧
      place.span.stop = offset + Text.linesUnits front + content.stop := by
  induction front generalizing number offset with
  | nil =>
    rw [List.nil_append, statementPlaces, h]
    exact ⟨_, List.mem_cons_self, rfl, rfl⟩
  | cons first front ih =>
    obtain ⟨place, hplace, hstart, hstop⟩ := ih (number + 1) (offset + Text.units first + 1)
    refine ⟨place, ?_, ?_, ?_⟩
    · rw [List.cons_append, statementPlaces]
      split
      next => exact hplace
      next => exact List.mem_cons_of_mem _ hplace
    · rw [hstart, Text.linesUnits]
      omega
    · rw [hstop, Text.linesUnits]
      omega

/-! ### Reports -/

section

variable (root : Option String) (script : RuntimeScript)

theorem forall₂_statements :
    List.Forall₂ Statement.Of (fileReport root script).statements
      (filledLines 1 (Text.lines script.text.toList)) := by
  rw [statements_fileReport, List.forall₂_map_left_iff]
  exact forall₂_statementPlaces _ _ _ _

theorem pairwise_statements :
    (fileReport root script).statements.Pairwise fun s t => s.start.line < t.start.line ∧
      (s.span script.text.toList).stop ≤ (t.span script.text.toList).start := by
  rw [statements_fileReport, List.pairwise_map]
  refine (pairwise_statementPlaces 1 0 _).imp_of_mem fun hp hq h => ?_
  rw [(span_of_place hp _).1, (span_of_place hq _).1]
  exact h

/-- No two statements share an offset. -/
theorem eq_of_contains {s t : Statement} (hs : s ∈ (fileReport root script).statements)
    (ht : t ∈ (fileReport root script).statements) {o : Nat}
    (hso : (s.span script.text.toList).contains o) (hto : (t.span script.text.toList).contains o) :
    s = t := by
  have : Std.Symm fun s t : Statement => ¬ ((s.span script.text.toList).contains o ∧
      (t.span script.text.toList).contains o) := ⟨fun _ _ h h' => h h'.symm⟩
  have hapart : (fileReport root script).statements.Pairwise fun s t =>
      ¬ ((s.span script.text.toList).contains o ∧ (t.span script.text.toList).contains o) := by
    refine (pairwise_statements root script).imp fun hst => ?_
    rw [Span.contains_iff, Span.contains_iff]
    omega
  by_contra hne
  exact hapart.forall hs ht hne ⟨hso, hto⟩

/-- A character that is not white space stands in a statement. -/
theorem exists_statement {before after : List Char} {c : Char}
    (h : script.text.toList = before ++ c :: after) (hc : Text.isBlank c = false) :
    ∃ s ∈ (fileReport root script).statements,
      (s.span script.text.toList).start ≤ Text.units before ∧
      Text.units before + Text.charUnits c ≤ (s.span script.text.toList).stop := by
  have hne : c ≠ '\n' := fun h => by rw [h] at hc; cases hc
  obtain ⟨front, pre, post, back, hlines, hunits⟩ := Text.exists_line_of_eq_append h hne
  cases hcontent : contentSpan? (Text.dropCarriageReturn (pre ++ c :: post)) with
  | none =>
    have hblank := contentSpan?_eq_none_iff.mp hcontent c (by simp)
    rw [hc] at hblank
    cases hblank
  | some content =>
    obtain ⟨place, hplace, hstart, hstop⟩ := exists_statementPlace 1 0 front back hcontent
    obtain ⟨blank, text, rest, htrimmed, -, hfirst, hlast⟩ := contentSpan?_eq_some hcontent
    obtain ⟨left, right, rfl, rfl⟩ := htrimmed.exists_place hc
    rw [← hlines] at hplace
    refine ⟨_, mem_statements.mpr ⟨place, hplace, rfl⟩, ?_⟩
    rw [(span_of_place hplace _).1]
    simp only [Text.units_append, Text.units_cons] at hunits hlast
    omega

end

/-- Both tables of a report number its statements from 0. -/
theorem keysAt_toJson (f : FileReport) {name : String} (h : name ∈ ["statementMap", "s"]) :
    f.toJson.keysAt name = (List.range f.statements.length).map toString := by
  have hkeys (value : Statement → Json) :
      (f.statements.zipIdx.map fun s => (toString s.2, value s.1)).map (·.1) =
        (List.range f.statements.length).map toString := by
    rw [List.range_eq_range', ← List.zipIdx_map_snd, List.map_map, List.map_map]
    rfl
  simp only [List.mem_cons, List.not_mem_nil, or_false] at h
  rcases h with rfl | rfl
  · exact hkeys fun s => .object [("start", FileReport.positionToJson s.start),
      ("end", FileReport.positionToJson s.stop)]
  · exact hkeys fun s => .nat s.hits

theorem length_filledLines (number : Nat) (lines : List (List Char)) :
    (filledLines number lines).length = lines.countP fun line => !line.all Text.isBlank := by
  rw [filledLines, ← List.countP_eq_length_filter]
  calc (lines.zipIdx number).countP (fun (line, _) => !line.all Text.isBlank)
      = ((lines.zipIdx number).map (·.1)).countP fun line => !line.all Text.isBlank := by
        rw [List.countP_map]
        rfl
    _ = lines.countP fun line => !line.all Text.isBlank := by rw [List.zipIdx_map_fst]

/-- The statements of a report are the lines that are not blank, in order and without the white
space at their ends, and are numbered from 0 in both tables. Every character that is not white space
stands in exactly one statement. A statement is hit if an executed range overlaps the span that its
positions have in the text. The tally counts the lines that are not blank. -/
theorem statements_of_lines (root : Option String) (script : RuntimeScript) :
    let text := script.text.toList
    let file := fileReport root script
    let count := (Text.lines text).countP fun line => !line.all Text.isBlank
    List.Forall₂ Statement.Of file.statements (filledLines 1 (Text.lines text)) ∧
      file.statements.Pairwise (·.start.line < ·.start.line) ∧
      (∀ name ∈ ["statementMap", "s"], file.toJson.keysAt name = (List.range count).map toString) ∧
      (∀ before c after, text = before ++ c :: after → Text.isBlank c = false →
        ∃ s ∈ file.statements, (s.span text).start ≤ Text.units before ∧
          Text.units before + Text.charUnits c ≤ (s.span text).stop ∧
          ∀ t ∈ file.statements, ∀ o, Text.units before ≤ o →
            o < Text.units before + Text.charUnits c → (t.span text).contains o → t = s) ∧
      (∀ s ∈ file.statements, s.hits =
        if (executedSpans script.functions).any (·.overlaps (s.span text)) then 1 else 0) ∧
      file.tally.total = count ∧ file.tally.covered ≤ file.tally.total := by
  intro text file count
  have hlines := forall₂_statements root script
  have hcount : file.statements.length = count :=
    hlines.length_eq.trans (length_filledLines 1 (Text.lines text))
  refine ⟨hlines, (pairwise_statements root script).imp And.left, fun name hname => ?_, ?_, ?_, ?_,
    ?_⟩
  · rw [keysAt_toJson file hname, hcount]
  · intro before c after htext hc
    obtain ⟨s, hs, hstart, hstop⟩ := exists_statement root script htext hc
    refine ⟨s, hs, hstart, hstop, fun t ht o hbefore hafter hcontains => ?_⟩
    have hso : (s.span text).contains o := (Span.contains_iff _ _).mpr
      ⟨Nat.le_trans hstart hbefore, Nat.lt_of_lt_of_le hafter hstop⟩
    exact eq_of_contains root script ht hs hcontains hso
  · intro s hs
    obtain ⟨place, hplace, rfl⟩ := mem_statements.mp hs
    rw [(span_of_place hplace _).1]
    rfl
  · exact (List.length_map _).trans hcount
  · exact List.countP_le_length

/-- White space of three kinds, a blank line and a character of two units. -/
example : (fileReport none ⟨0, "/a.js", " \tx\u00a0\r\n \r\n💡 y", [[⟨⟨6, 10⟩, 1⟩]]⟩).statements =
    [⟨⟨1, 2⟩, ⟨1, 3⟩, 0⟩, ⟨⟨3, 0⟩, ⟨3, 4⟩, 1⟩] := by
  decide

end Coverage

end Assay
