import Assay.Proofs.Coverage.Records
import Assay.Proofs.Text.LineIndex
import Mathlib.Data.List.SplitBy

/-!
# Ranges by runs of lines

A range whose ends come from different sources is divided into the runs of its lines that come from
one source. `records_append_range` says which spans a range adds to the records: `Splits` groups the
lines by their sources instead of walking over them.
-/

namespace Assay

/-- The lines of the text of a source. -/
def SourceMap.textLines (m : SourceMap) (source : Nat) : LineIndex :=
  .ofText ((m.content? source).getD "").toList

namespace Coverage

/-! ### The spans of a range -/

/-- The span between two offsets; an end before the start is raised to it. -/
def raised (start stop : Nat) : Span := ⟨start, max stop start⟩

/-- The last line of which a range holds something: a later line that it ends at the start of is
not one. -/
def lastLine (start stop : Position) : Nat :=
  if start.line < stop.line ∧ stop.column = 0 then stop.line - 1 else stop.line

/-- What the lines of a range resolve to, the first at the start of the range and each later one at
column 0, without those that resolve to nothing. -/
def resolvedLines (lookup : Lookup) (start stop : Position) : List SourcePosition :=
  (List.range' start.line (lastLine start stop + 1 - start.line)).filterMap fun line =>
    lookup ⟨line, if line = start.line then start.column else 0⟩ .following

/-- The longest runs of places next to each other in one source. -/
def sourceRuns (found : List SourcePosition) : List (List SourcePosition) :=
  found.splitBy (·.source == ·.source)

/-- The source of a run and its span there, from the first place of the run on. The last run ends
where the range does if that is in its source, any other run with the line of its last place, or
with the text if it has no such line. -/
def spanOfRun (map : SourceMap) (stop : Option SourcePosition) (isLast : Bool)
    (first last : SourcePosition) : Nat × Span :=
  let text := map.textLines first.source
  let lineEnd := (text.lineEnd? last.line).getD text.length
  let stop := match stop with
    | some stop =>
      if isLast ∧ stop.source = first.source then text.offset stop.position else lineEnd
    | none => lineEnd
  (first.source, raised (text.offset first.position) stop)

/-- The spans with their sources that a range between two positions is split into. -/
structure Splits (map : SourceMap) (lookup : Lookup) (start stop : Position)
    (spans : List (Nat × Span)) : Prop where
  unresolved : lookup start .following = none → lookup stop .following = none → spans = []
  oneSource : ∀ first last, lookup start .following = some first →
    lookup stop .following = some last → first.source = last.source →
    spans = [(first.source, raised ((map.textLines first.source).offset first.position)
      ((map.textLines first.source).offset last.position))]
  byRuns : ¬ (lookup start .following = none ∧ lookup stop .following = none) →
    (∀ first last, lookup start .following = some first → lookup stop .following = some last →
      first.source ≠ last.source) →
    spans.length = (sourceRuns (resolvedLines lookup start stop)).length ∧
      ∀ i run, (sourceRuns (resolvedLines lookup start stop))[i]? = some run →
        ∃ first last, run.head? = some first ∧ run.getLast? = some last ∧
          spans[i]? = some (spanOfRun map (lookup stop .following)
            (i + 1 = (sourceRuns (resolvedLines lookup start stop)).length) first last)

/-- The records with the spans of each source behind its ranges. -/
def appendSpans (rs : List Record) (spans : List (Nat × Span)) : List Record :=
  rs.zipIdx.map fun (r, i) =>
    { r with ranges := r.ranges ++ (spans.filter (·.1 = i)).map (·.2) }

/-! ### The places of lines -/

theorem linePlaces_eq (start stop : Position) :
    linePlaces start stop =
      (List.range' start.line (lastLine start stop + 1 - start.line)).map fun line =>
        (⟨line, if line = start.line then start.column else 0⟩ : Position) := by
  unfold linePlaces lastLine
  by_cases h : stop.column = 0 ∧ start.line < stop.line
  · obtain ⟨hcolumn, hline⟩ := h
    obtain ⟨n, hn⟩ : ∃ n, stop.line + 1 - start.line = n + 1 := ⟨stop.line - start.line, by omega⟩
    have hlast : stop.line - 1 + 1 - start.line = n := by omega
    rw [if_pos ⟨hcolumn, hline⟩, if_pos ⟨hline, hcolumn⟩, hn, hlast, ← List.map_dropLast,
      List.range'_concat, List.dropLast_concat]
  · rw [if_neg h, if_neg fun h' => h ⟨h'.2, h'.1⟩]

theorem filterMap_linePlaces (lookup : Lookup) (start stop : Position) :
    (linePlaces start stop).filterMap (lookup · .following) =
      resolvedLines lookup start stop := by
  rw [linePlaces_eq, List.filterMap_map]
  rfl

/-! ### Runs -/

/-- A run and all of its places. -/
structure Run.Of (run : Run) (places : List SourcePosition) : Prop where
  source : ∀ place ∈ places, place.source = run.source
  first : ∃ first, places.head? = some first ∧ first.position = run.first
  last : ∃ last, places.getLast? = some last ∧ last.position = run.last

theorem Run.of_single (place : SourcePosition) :
    Run.Of ⟨place.source, place.position, place.position⟩ [place] :=
  ⟨by simp, ⟨place, rfl, rfl⟩, ⟨place, rfl, rfl⟩⟩

theorem Run.Of.concat {run : Run} {places : List SourcePosition} (h : run.Of places)
    {next : SourcePosition} (hsource : run.source = next.source) :
    Run.Of { run with last := next.position } (places ++ [next]) := by
  obtain ⟨first, hfirst, hposition⟩ := h.first
  refine ⟨fun place hplace => ?_, ⟨first, ?_, hposition⟩, ⟨next, by simp, rfl⟩⟩
  · rcases List.mem_append.mp hplace with hplace | hplace
    · exact h.source place hplace
    · rw [List.mem_singleton.mp hplace, hsource]
  · rw [List.head?_append, hfirst, Option.some_or]

theorem sourceRuns_concat_of_ne {found : List SourcePosition} {next : SourcePosition}
    (h : ∀ last ∈ found.getLast?, last.source ≠ next.source) :
    sourceRuns (found ++ [next]) = sourceRuns found ++ [[next]] := by
  refine List.splitBy_append_cons [] fun last hlast => ?_
  exact beq_eq_false_iff_ne.mpr (h last hlast)

/-- A place in the source of the last one joins the last run. -/
theorem sourceRuns_concat_of_eq {found run : List SourcePosition} {next last : SourcePosition}
    {front : List (List SourcePosition)} (hruns : sourceRuns found = front ++ [run])
    (hlast : run.getLast? = some last) (h : last.source = next.source) :
    sourceRuns (found ++ [next]) = front ++ [run ++ [next]] := by
  obtain ⟨hflatten, hnil, hchain, hbounds⟩ := List.splitBy_eq_iff.mp hruns
  obtain ⟨hfront, -, hborder⟩ := List.isChain_append.mp hbounds
  refine List.splitBy_eq_iff.mpr ⟨?_, ?_, ?_, List.isChain_append.mpr
    ⟨hfront, List.isChain_singleton _, fun before hbefore after hafter => ?_⟩⟩
  · simp [hflatten]
  · simpa using fun h' => hnil (List.mem_append_left _ h')
  · intro places hplaces
    rcases List.mem_append.mp hplaces with hplaces | hplaces
    · exact hchain places (List.mem_append_left _ hplaces)
    · obtain rfl := List.mem_singleton.mp hplaces
      refine List.isChain_append.mpr ⟨hchain run (by simp), List.isChain_singleton _, ?_⟩
      simpa [hlast] using h
  · -- the run before ends in another source than this one begins with
    obtain rfl : run ++ [next] = after := by simpa using hafter
    obtain ⟨hne, hne', hdiffers⟩ := hborder before hbefore run (by simp)
    exact ⟨hne, by simp, by rwa [List.head_append_of_ne_nil hne']⟩

/-- Adding a place to runs, the latest of which comes first, gives the runs of one place more. -/
theorem forall₂_extendRuns {found : List SourcePosition} {runs : List Run}
    (h : List.Forall₂ Run.Of runs (sourceRuns found).reverse) (next : SourcePosition) :
    List.Forall₂ Run.Of (extendRuns runs next) (sourceRuns (found ++ [next])).reverse := by
  generalize hgroups : (sourceRuns found).reverse = groups at h
  cases h with
  | nil =>
    obtain rfl : found = [] := List.splitBy_eq_nil.mp (List.reverse_eq_nil_iff.mp hgroups)
    exact List.Forall₂.cons (Run.of_single next) List.Forall₂.nil
  | @cons run places runs groups hrun hruns =>
    have hsplit : sourceRuns found = groups.reverse ++ [places] := by
      rw [← List.reverse_cons, ← hgroups, List.reverse_reverse]
    obtain ⟨last, hlast, -⟩ := hrun.last
    have hsource : last.source = run.source := hrun.source last (List.mem_of_getLast? hlast)
    simp only [extendRuns]
    by_cases hnext : run.source = next.source
    · rw [if_pos hnext, sourceRuns_concat_of_eq hsplit hlast (hsource.trans hnext)]
      simpa using ⟨hrun.concat hnext, hruns⟩
    · have hfound : found.getLast? = some last := by
        rw [← List.flatten_splitBy (·.source == ·.source) found, show
          found.splitBy (·.source == ·.source) = _ from hsplit]
        simp [hlast]
      rw [if_neg hnext, sourceRuns_concat_of_ne fun last' hlast' => ?_]
      · simpa [hsplit] using ⟨Run.of_single next, hrun, hruns⟩
      · obtain rfl := Option.some.inj (hfound.symm.trans hlast')
        rwa [hsource]

/-- The runs of places, by induction on the places from the last one on. -/
theorem forall₂_runs (found : List SourcePosition) :
    List.Forall₂ Run.Of (found.foldl extendRuns []) (sourceRuns found).reverse := by
  induction found using List.reverseRecOn with
  | nil => exact List.Forall₂.nil
  | append_singleton found next ih =>
    rw [List.foldl_append]
    exact forall₂_extendRuns ih next

/-! ### Pieces -/

/-- The spans of pieces, each with its source. -/
def spansOf (map : SourceMap) (pieces : List RangePiece) : List (Nat × Span) :=
  pieces.map fun piece => (piece.source, piece.span (map.textLines piece.source))

/-- The piece of a run. -/
def pieceOf (stop : Option SourcePosition) (isLast : Bool) (run : Run) : RangePiece :=
  ⟨run.source, run.first, if isLast then runEnd stop run else .lineEnd run.last.line⟩

theorem length_piecesOfRuns (stop : Option SourcePosition) (runs : List Run) :
    (piecesOfRuns stop runs).length = runs.length := by
  cases runs with
  | nil => rfl
  | cons run runs => simp [piecesOfRuns]

theorem getElem?_piecesOfRuns (stop : Option SourcePosition) (runs : List Run) (i : Nat) :
    (piecesOfRuns stop runs)[i]? =
      runs.reverse[i]?.map (pieceOf stop (i + 1 = runs.length)) := by
  cases runs with
  | nil => rfl
  | cons run runs =>
    simp only [piecesOfRuns, List.reverse_cons, List.length_cons]
    rcases Nat.lt_trichotomy i runs.length with hlt | rfl | hgt
    · have hi : ¬ i + 1 = runs.length + 1 := by omega
      rw [List.getElem?_append_left (by simpa using hlt),
        List.getElem?_append_left (by simpa using hlt), ← List.map_reverse, List.getElem?_map]
      simp only [hi, decide_false]
      rfl
    · simp [pieceOf]
    · rw [List.getElem?_eq_none (by simp; omega), List.getElem?_eq_none (by simp; omega)]
      rfl

theorem Run.Of.exists_spanOfRun {run : Run} {places : List SourcePosition} (h : run.Of places)
    (map : SourceMap) (stop : Option SourcePosition) (isLast : Bool) :
    ∃ first last, places.head? = some first ∧ places.getLast? = some last ∧
      (run.source, (pieceOf stop isLast run).span (map.textLines run.source)) =
        spanOfRun map stop isLast first last := by
  obtain ⟨first, hfirst, hposition⟩ := h.first
  obtain ⟨last, hlast, hposition'⟩ := h.last
  refine ⟨first, last, hfirst, hlast, ?_⟩
  have hsource : first.source = run.source := h.source first (List.mem_of_head? hfirst)
  have hline : run.last.line = last.line := by rw [← hposition']; rfl
  simp only [spanOfRun, pieceOf, RangePiece.span, raised, hsource, hposition, runEnd, hline]
  cases isLast with
  | false => cases stop <;> simp
  | true =>
    cases stop with
    | none => simp
    | some stop => by_cases hstop : stop.source = run.source <;> simp [hstop]

theorem splitByLines_eq (lookup : Lookup) (start stop : Position) (last : Option SourcePosition) :
    splitByLines lookup start stop last =
      piecesOfRuns last ((resolvedLines lookup start stop).foldl extendRuns []) := by
  rw [splitByLines, filterMap_linePlaces]

/-- The pieces of a walk over the lines are the runs of the lines. -/
theorem spansOf_splitByLines (map : SourceMap) (lookup : Lookup) (start stop : Position)
    (last : Option SourcePosition) :
    (spansOf map (splitByLines lookup start stop last)).length =
        (sourceRuns (resolvedLines lookup start stop)).length ∧
      ∀ i run, (sourceRuns (resolvedLines lookup start stop))[i]? = some run →
        ∃ first final, run.head? = some first ∧ run.getLast? = some final ∧
          (spansOf map (splitByLines lookup start stop last))[i]? = some (spanOfRun map last
            (i + 1 = (sourceRuns (resolvedLines lookup start stop)).length) first final) := by
  have hruns := forall₂_runs (resolvedLines lookup start stop)
  have hlength := hruns.length_eq
  rw [List.length_reverse] at hlength
  rw [splitByLines_eq]
  generalize (resolvedLines lookup start stop).foldl extendRuns [] = runs at hruns hlength
  generalize sourceRuns (resolvedLines lookup start stop) = groups at hruns hlength
  constructor
  · rw [spansOf, List.length_map, length_piecesOfRuns, hlength]
  intro i places hplaces
  rw [← List.forall₂_reverse_iff, List.reverse_reverse] at hruns
  obtain ⟨hi, hat⟩ := List.getElem?_eq_some_iff.mp hplaces
  have hi' : i < runs.reverse.length := by rwa [List.length_reverse, hlength]
  have hof : (runs.reverse[i]).Of places := by
    rw [← hat]
    exact hruns.get hi' hi
  obtain ⟨first, final, hfirst, hfinal, hspan⟩ :=
    hof.exists_spanOfRun map last (decide (i + 1 = groups.length))
  refine ⟨first, final, hfirst, hfinal, ?_⟩
  rw [← hspan, spansOf, List.getElem?_map, getElem?_piecesOfRuns, hlength,
    List.getElem?_eq_getElem hi']
  rfl

theorem splits_splitRange (map : SourceMap) (lookup : Lookup) (start stop : Position) :
    Splits map lookup start stop (spansOf map (splitRange lookup start stop)) := by
  constructor
  case unresolved =>
    intro hstart hstop
    simp only [splitRange, hstart, hstop]
    rfl
  case oneSource =>
    intro first last hstart hstop hsource
    simp only [splitRange, hstart, hstop, if_pos hsource]
    rfl
  case byRuns =>
    intro hsome hdiffers
    have hwalk : splitRange lookup start stop =
        splitByLines lookup start stop (lookup stop .following) := by
      unfold splitRange
      cases hstart : lookup start .following with
      | none =>
        cases hstop : lookup stop .following with
        | none => exact absurd ⟨hstart, hstop⟩ hsome
        | some last => rfl
      | some first =>
        cases hstop : lookup stop .following with
        | none => rfl
        | some last => exact if_neg (hdiffers first last hstart hstop)
    rw [hwalk]
    exact spansOf_splitByLines map lookup start stop _

/-! ### The sources of pieces -/

theorem exists_source_extendRuns (runs : List Run) (next : SourcePosition) (k : Nat) :
    (∃ run ∈ extendRuns runs next, run.source = k) ↔
      (∃ run ∈ runs, run.source = k) ∨ next.source = k := by
  cases runs with
  | nil => simp [extendRuns]
  | cons run runs =>
    simp only [extendRuns]
    by_cases h : run.source = next.source
    · rw [if_pos h]
      simp only [List.exists_mem_cons_iff, h]
      exact ⟨Or.inl, fun hk => hk.elim id Or.inl⟩
    · rw [if_neg h]
      simp only [List.exists_mem_cons_iff]
      exact or_comm

theorem exists_source_runs (found : List SourcePosition) (runs : List Run) (k : Nat) :
    (∃ run ∈ found.foldl extendRuns runs, run.source = k) ↔
      (∃ run ∈ runs, run.source = k) ∨ ∃ place ∈ found, place.source = k := by
  induction found generalizing runs with
  | nil => simp
  | cons next found ih =>
    rw [List.foldl_cons, ih, exists_source_extendRuns, List.exists_mem_cons_iff, or_assoc]

theorem map_source_piecesOfRuns (stop : Option SourcePosition) (runs : List Run) :
    (piecesOfRuns stop runs).map (·.source) = (runs.map (·.source)).reverse := by
  cases runs with
  | nil => rfl
  | cons run runs => simp [piecesOfRuns, Function.comp_def]

/-- A walk has a piece of each source that a line resolves to, and of no other. -/
theorem exists_piece_splitByLines (lookup : Lookup) (start stop : Position)
    (last : Option SourcePosition) (k : Nat) :
    (∃ piece ∈ splitByLines lookup start stop last, piece.source = k) ↔
      ∃ place ∈ resolvedLines lookup start stop, place.source = k := by
  have hruns := exists_source_runs (resolvedLines lookup start stop) [] k
  simp only [List.not_mem_nil, false_and, exists_false, false_or] at hruns
  rw [← hruns, splitByLines_eq, ← List.mem_map, map_source_piecesOfRuns, List.mem_reverse,
    List.mem_map]

theorem source_of_mem_splitRange {lookup : Lookup} {start stop : Position} {piece : RangePiece}
    (h : piece ∈ splitRange lookup start stop) :
    ∃ p found, lookup p .following = some found ∧ piece.source = found.source := by
  have hwalk (last : Option SourcePosition) (h : piece ∈ splitByLines lookup start stop last) :
      ∃ p found, lookup p .following = some found ∧ piece.source = found.source := by
    obtain ⟨found, hfound, hsource⟩ :=
      (exists_piece_splitByLines lookup start stop last _).mp ⟨piece, h, rfl⟩
    obtain ⟨line, -, hline⟩ := List.mem_filterMap.mp hfound
    exact ⟨_, found, hline, hsource.symm⟩
  unfold splitRange at h
  split at h
  next => cases h
  next first last hstart hstop =>
    split at h
    next =>
      rw [List.mem_singleton.mp h]
      exact ⟨start, first, hstart, rfl⟩
    next => exact hwalk _ h
  next => exact hwalk _ h

/-- A lookup that names sources below a bound makes pieces of such sources. -/
theorem source_lt_of_mem_piecesOf {lookup : Lookup} {count : Nat}
    (hknown : ∀ p found, lookup p .following = some found → found.source < count)
    (text : List Char) (ranges : List Span) :
    ∀ piece ∈ piecesOf lookup text ranges, piece.source < count := by
  intro piece hpiece
  obtain ⟨range, -, hmem⟩ := mem_piecesOf.mp hpiece
  unfold piecesOfRange at hmem
  split at hmem
  next =>
    obtain ⟨p, found, hfound, hsource⟩ := source_of_mem_splitRange hmem
    rw [hsource]
    exact hknown p found hfound
  next => cases hmem

/-! ### Ranges added to records -/

theorem piecesOf_singleton (lookup : Lookup) {text : List Char} {range : Span}
    {start stop : Position}
    (hstart : (LineIndex.ofText text).position? range.start = some start)
    (hstop : (LineIndex.ofText text).position? range.stop = some stop) :
    piecesOf lookup text [range] = splitRange lookup start stop := by
  rw [piecesOf, List.flatMap_singleton, piecesOfRange, hstart, hstop]

theorem snd_eq_of_getElem?_zipIdx {α : Type} {l : List α} {i : Nat} {place : α × Nat}
    (h : l.zipIdx[i]? = some place) : place.2 = i := by
  rw [List.getElem?_zipIdx] at h
  obtain ⟨value, -, rfl⟩ := Option.map_eq_some_iff.mp h
  exact Nat.zero_add i

theorem ranges_recordAt {map : SourceMap} {source : (String × String) × Nat}
    (h : source ∈ (map.sources.zip map.contents).zipIdx) (pieces : List RangePiece) :
    (recordAt pieces source).ranges =
      ((spansOf map pieces).filter (·.1 = source.2)).map (·.2) := by
  obtain ⟨-, hcontent⟩ := List.getElem?_zip_eq_some.mp (List.mem_zipIdx_iff_getElem?.mp h)
  have hlines : map.textLines source.2 = .ofText source.1.2.toList := by
    rw [SourceMap.textLines, SourceMap.content?, hcontent, Option.getD_some]
  rw [spansOf, List.filter_map, List.map_map, recordAt, recordOf]
  dsimp only
  refine List.map_congr_left fun piece hpiece => ?_
  have hsource : piece.source = source.2 := by simpa using (List.mem_filter.mp hpiece).2
  simp only [Function.comp, hsource, hlines]

theorem appendSpans_records (map : SourceMap) (front back : List RangePiece) :
    appendSpans ((map.sources.zip map.contents).zipIdx.map (recordAt front)) (spansOf map back) =
      (map.sources.zip map.contents).zipIdx.map (recordAt (front ++ back)) := by
  refine List.ext_getElem? fun i => ?_
  rw [appendSpans, List.getElem?_map, List.getElem?_zipIdx, List.getElem?_map, List.getElem?_map]
  cases hsource : (map.sources.zip map.contents).zipIdx[i]? with
  | none => rfl
  | some source =>
    have hindex := snd_eq_of_getElem?_zipIdx hsource
    have hranges := ranges_recordAt (List.mem_of_getElem? hsource) back
    simp only [Option.map_some, recordAt_append, Record.join, hranges, Nat.zero_add, hindex]

/-- A range inside a text succeeds for a lookup that names recorded sources only, and adds the spans
that it is split into to the records of their sources. -/
theorem records_append_range {map : SourceMap} {lookup : Lookup} {text : List Char} {range : Span}
    {options : Options}
    (hknown : ∀ p found, lookup p .following = some found →
      found.source < (map.sources.zip map.contents).length)
    (hstart : range.start ≤ Text.units text) (hstop : range.stop ≤ Text.units text)
    (hall : options.KeepsAll) (ranges : List Span) :
    ∃ start stop spans rs,
      (LineIndex.ofText text).position? range.start = some start ∧
      (LineIndex.ofText text).position? range.stop = some stop ∧
      Splits map lookup start stop spans ∧
      records map lookup text ranges options = .ok rs ∧
      (∀ span ∈ spans, span.1 < rs.length) ∧
      records map lookup text (ranges ++ [range]) options = .ok (appendSpans rs spans) := by
  obtain ⟨start, hstart', -⟩ := LineIndex.offset_of_position? text range.start hstart
  obtain ⟨stop, hstop', -⟩ := LineIndex.offset_of_position? text range.stop hstop
  have hpieces := piecesOf_singleton lookup hstart' hstop'
  have hbelow := source_lt_of_mem_piecesOf hknown text
  have hsources := recordedSources_of_keepsAll map hall
  refine ⟨start, stop, spansOf map (splitRange lookup start stop), _, hstart', hstop',
    splits_splitRange map lookup start stop, records_eq_ok.mpr ⟨hbelow ranges, rfl⟩, ?_,
    records_eq_ok.mpr ⟨hbelow (ranges ++ [range]), ?_⟩⟩
  · intro span hspan
    obtain ⟨piece, hpiece, rfl⟩ := List.mem_map.mp hspan
    rw [← hpieces] at hpiece
    rw [hsources, List.length_map, List.length_zipIdx]
    exact hbelow [range] piece hpiece
  · rw [hsources, appendSpans_records, piecesOf_append, hpieces]

/-- The two sources in turn, line by line. -/
def byLine : Lookup := fun p _ => some ⟨p.line % 2, p.line, p.column⟩

theorem records_append_range_acrossLines :
    (∀ p found, byLine p .following = some found →
        found.source < (pairMap.sources.zip pairMap.contents).length) ∧
      5 ≤ Text.units "ab\ncd\n".toList ∧ (⟨none, [], none⟩ : Options).KeepsAll ∧
      ∃ spans, Splits pairMap byLine ⟨1, 1⟩ ⟨2, 2⟩ spans ∧
        records pairMap byLine "ab\ncd\n".toList ([⟨0, 1⟩] ++ [⟨1, 5⟩]) ⟨none, [], none⟩ =
          .ok (appendSpans [⟨"a.js", [], "aaaa\n"⟩, ⟨"lib/b.js", [⟨0, 1⟩], "bbbb\n"⟩] spans) := by
  have hknown : ∀ p found, byLine p .following = some found →
      found.source < (pairMap.sources.zip pairMap.contents).length := by
    intro p found hfound
    obtain rfl := Option.some.inj hfound
    exact Nat.mod_lt _ (by decide)
  have hall : (⟨none, [], none⟩ : Options).KeepsAll := fun path => rfl
  have hstart : (Span.mk 1 5).start ≤ Text.units "ab\ncd\n".toList := by decide +kernel
  have hstop : (Span.mk 1 5).stop ≤ Text.units "ab\ncd\n".toList := by decide +kernel
  obtain ⟨start, stop, spans, rs, hp, hp', hsplits, hrs, -, happended⟩ :=
    records_append_range hknown hstart hstop hall [⟨0, 1⟩]
  refine ⟨hknown, hstop, hall, spans, ?_, ?_⟩
  · obtain rfl : (⟨1, 1⟩ : Position) = start := Option.some.inj hp
    obtain rfl : (⟨2, 2⟩ : Position) = stop := Option.some.inj hp'
    exact hsplits
  · obtain rfl : [⟨"a.js", [], "aaaa\n"⟩, ⟨"lib/b.js", [⟨0, 1⟩], "bbbb\n"⟩] = rs :=
      Except.ok.inj hrs
    exact happended

end Coverage

end Assay
