import Assay.Proofs.Coverage.Runs
import Assay.Proofs.Text.LineEnds
import Mathlib.Data.List.Forall2
import Mathlib.Data.List.Pairwise

/-!
# Spans that ascend

A source may come up in several runs of the lines of a range. `records_ascending` says that the
spans it gets follow each other without an overlap if its lines ascend, wherever they lie in its
text or beyond it.
-/

namespace Assay

namespace Coverage

/-! ### Runs of a source -/

theorem source_eq_of_mem_sourceRuns {found run : List SourcePosition}
    (h : run ∈ sourceRuns found) {p q : SourcePosition} (hp : p ∈ run) (hq : q ∈ run) :
    p.source = q.source := by
  have : IsTrans SourcePosition (·.source = ·.source) := ⟨fun _ _ _ => Eq.trans⟩
  have : Std.Symm fun p q : SourcePosition => p.source = q.source := ⟨fun _ _ => Eq.symm⟩
  have hchain : run.IsChain (·.source = ·.source) :=
    (List.isChain_of_mem_splitBy h).imp fun _ _ => eq_of_beq
  have hpairs := List.isChain_iff_pairwise.mp hchain
  exact List.Pairwise.forall_of_forall (R := (·.source = ·.source)) (fun _ _ => rfl) hpairs hp hq

/-- What holds of places and later ones holds of a run and later runs. -/
theorem pairwise_sourceRuns {R : SourcePosition → SourcePosition → Prop}
    {found : List SourcePosition} (h : found.Pairwise R) :
    (sourceRuns found).Pairwise fun run run' => ∀ p ∈ run, ∀ q ∈ run', R p q := by
  rw [← List.flatten_splitBy (·.source == ·.source) found] at h
  exact (List.pairwise_flatten.mp h).2

/-! ### Spans of a range -/

/-- The span of a run that is not the last one ends with a line. -/
theorem spanOfRun_false (map : SourceMap) (stop : Option SourcePosition)
    (first last : SourcePosition) :
    spanOfRun map stop false first last =
      (first.source, raised ((map.textLines first.source).offset first.position)
        (((map.textLines first.source).lineEnd? last.line).getD
          (map.textLines first.source).length)) := by
  cases stop <;> simp [spanOfRun]

theorem spanOfRun_start (map : SourceMap) (stop : Option SourcePosition) (isLast : Bool)
    (first last : SourcePosition) :
    (spanOfRun map stop isLast first last).1 = first.source ∧
      (spanOfRun map stop isLast first last).2.start =
        (map.textLines first.source).offset first.position :=
  ⟨rfl, rfl⟩

/-- A later run of the same source starts behind the span of a run if it is on later lines. -/
theorem stop_le_start {map : SourceMap} {stop : Option SourcePosition} {isLast : Bool}
    {first last first' last' : SourcePosition} (hsource : first.source = first'.source)
    (hfirst : 1 ≤ first.line) (hfirst' : first.line < first'.line) (hlast : 1 ≤ last.line)
    (hlast' : last.line < first'.line) :
    (spanOfRun map stop false first last).2.stop ≤
      (spanOfRun map stop isLast first' last').2.start := by
  rw [spanOfRun_false, (spanOfRun_start map stop isLast first' last').2, ← hsource]
  exact Nat.max_le.mpr ⟨LineIndex.lineEnd_le_offset hlast hlast',
    LineIndex.offset_le_offset hfirst hfirst'⟩

variable {lookup : Lookup} {start stop : Position}

/-- The lines of each source ascend in the order in which the lines of a range come upon them. -/
structure Ascends (lookup : Lookup) (start stop : Position) : Prop where
  fromOne : ∀ p ∈ resolvedLines lookup start stop, 1 ≤ p.line
  later : (resolvedLines lookup start stop).Pairwise fun p q =>
    p.source = q.source → p.line < q.line

/-- Spans that do not run backwards and of which each ends before the later ones start. -/
structure Ascending (spans : List Span) : Prop where
  forward : ∀ s ∈ spans, s.start ≤ s.stop
  apart : spans.Pairwise (·.stop ≤ ·.start)

/-- The span of a run ends before the one of any later run of its source starts. -/
theorem pairwise_runs (map : SourceMap) (h : Ascends lookup start stop) :
    (sourceRuns (resolvedLines lookup start stop)).Pairwise fun run run' =>
      ∀ first last first' last', run.head? = some first → run.getLast? = some last →
        run'.head? = some first' → first.source = first'.source → ∀ final isLast,
          (spanOfRun map final false first last).2.stop ≤
            (spanOfRun map final isLast first' last').2.start := by
  refine (pairwise_sourceRuns h.later).imp_of_mem fun {run run'} hrun hrun' hlater => ?_
  intro first last first' last' hfirst hlast hfirst' hsource final isLast
  have hfirst := List.mem_of_head? hfirst
  have hlast := List.mem_of_getLast? hlast
  have hfirst' := List.mem_of_head? hfirst'
  have hsource' := source_eq_of_mem_sourceRuns hrun hlast hfirst
  have hone : ∀ p ∈ run, 1 ≤ p.line := fun p hp => h.fromOne p <|
    List.flatten_splitBy (·.source == ·.source) (resolvedLines lookup start stop) ▸
      List.mem_flatten_of_mem hrun hp
  exact stop_le_start hsource (hone first hfirst) (hlater first hfirst first' hfirst' hsource)
    (hone last hlast) (hlater last hlast first' hfirst' (hsource'.trans hsource))

theorem pairwise_spans {map : SourceMap} {spans : List (Nat × Span)}
    (hsplits : Splits map lookup start stop spans) (h : Ascends lookup start stop) :
    spans.Pairwise fun s t => s.1 = t.1 → s.2.stop ≤ t.2.start := by
  by_cases hnone : lookup start .following = none ∧ lookup stop .following = none
  · rw [hsplits.unresolved hnone.1 hnone.2]
    exact List.Pairwise.nil
  by_cases hone : ∃ first last, lookup start .following = some first ∧
      lookup stop .following = some last ∧ first.source = last.source
  · obtain ⟨first, last, hstart, hstop, hsource⟩ := hone
    rw [hsplits.oneSource first last hstart hstop hsource]
    exact List.pairwise_singleton _ _
  obtain ⟨hlength, hspans⟩ := hsplits.byRuns hnone fun first last hstart hstop hsource =>
    hone ⟨first, last, hstart, hstop, hsource⟩
  have hruns := pairwise_runs map h
  generalize sourceRuns (resolvedLines lookup start stop) = runs at hlength hspans hruns
  rw [List.pairwise_iff_getElem] at hruns ⊢
  intro i j hi hj hij hsource
  have hi' : i < runs.length := hlength ▸ hi
  have hj' : j < runs.length := hlength ▸ hj
  obtain ⟨first, last, hfirst, hlast, hspan⟩ := hspans i _ (List.getElem?_eq_getElem hi')
  obtain ⟨first', last', hfirst', -, hspan'⟩ := hspans j _ (List.getElem?_eq_getElem hj')
  obtain ⟨_, hspan⟩ := List.getElem?_eq_some_iff.mp hspan
  obtain ⟨_, hspan'⟩ := List.getElem?_eq_some_iff.mp hspan'
  -- a run before another one is not the last, so only the later one may end with the range
  rw [decide_eq_false (show ¬ i + 1 = runs.length by omega)] at hspan
  rw [hspan, hspan'] at hsource ⊢
  exact hruns i j hi' hj' hij first last first' last' hfirst hlast hfirst' hsource _ _

/-! ### Ranges that are added to records -/

theorem ascending_recordAt {map : SourceMap} {source : (String × String) × Nat}
    (hsource : source ∈ (map.sources.zip map.contents).zipIdx) (h : Ascends lookup start stop) :
    Ascending (recordAt (splitRange lookup start stop) source).ranges := by
  constructor
  · intro s hs
    obtain ⟨piece, -, rfl⟩ := List.mem_map.mp hs
    exact Nat.le_max_right _ _
  · rw [ranges_recordAt hsource, List.pairwise_map]
    have hspans := (pairwise_spans (splits_splitRange map lookup start stop) h).filter
      (fun s => decide (s.1 = source.2))
    refine hspans.imp_of_mem fun {s t} hs ht hapart => hapart ?_
    rw [of_decide_eq_true (List.mem_filter.mp hs).2, of_decide_eq_true (List.mem_filter.mp ht).2]

/-- If the lines of each source ascend along a range of a text, then the spans that the range adds
to the record of a source are in order and do not overlap. Adding them succeeds for a lookup that
names recorded sources only. -/
theorem records_ascending {text : List Char} {range : Span}
    (hstart : (LineIndex.ofText text).position? range.start = some start)
    (hstop : (LineIndex.ofText text).position? range.stop = some stop)
    (h : Ascends lookup start stop) (map : SourceMap) (ranges : List Span) (options : Options) :
    ((∀ p found, lookup p .following = some found →
        found.source < (map.sources.zip map.contents).length) →
      ∃ rs, records map lookup text (ranges ++ [range]) options = .ok rs) ∧
    ∀ rs, records map lookup text (ranges ++ [range]) options = .ok rs →
      ∃ before, records map lookup text ranges options = .ok before ∧
        List.Forall₂ (fun r r' => r'.origin = r.origin ∧
          ∃ added, r'.ranges = r.ranges ++ added ∧ Ascending added) before rs := by
  refine ⟨fun hknown => ⟨_, records_eq_ok.mpr ⟨source_lt_of_mem_piecesOf hknown text _, rfl⟩⟩,
    fun rs hrs => ?_⟩
  obtain ⟨hbelow, rfl⟩ := records_eq_ok.mp hrs
  rw [piecesOf_append] at hbelow
  refine ⟨_, records_eq_ok.mpr ⟨fun piece hpiece => hbelow piece (List.mem_append_left _ hpiece),
    rfl⟩, ?_⟩
  rw [piecesOf_append, piecesOf_singleton lookup hstart hstop, List.forall₂_map_left_iff,
    List.forall₂_map_right_iff, List.forall₂_same]
  intro source hsource
  rw [recordAt_append]
  exact ⟨rfl, _, rfl, ascending_recordAt (List.mem_of_mem_filter hsource) h⟩

/-- A source of three lines and one of a single line. -/
def unevenMap : SourceMap := ⟨["a.js", "b.js"], ["uv\nwx\nyz\n", "st"], [], []⟩

/-- Lines of the two sources in turn, of which the last ones lie beyond both texts: each source gets
two spans, the second empty at the end of its text. -/
theorem records_ascending_uneven :
    (LineIndex.ofText "kl\nmn\nop\nqr\n".toList).position? 1 = some ⟨1, 1⟩ ∧
      (LineIndex.ofText "kl\nmn\nop\nqr\n".toList).position? 11 = some ⟨4, 2⟩ ∧
      Ascends byLine ⟨1, 1⟩ ⟨4, 2⟩ ∧
      records unevenMap byLine "kl\nmn\nop\nqr\n".toList ([] ++ [⟨1, 11⟩]) ⟨none, [], none⟩ =
        .ok [⟨"a.js", [⟨3, 5⟩, ⟨9, 9⟩], "uv\nwx\nyz\n"⟩, ⟨"b.js", [⟨1, 2⟩, ⟨2, 2⟩], "st"⟩] ∧
      Ascending [⟨3, 5⟩, ⟨9, 9⟩] ∧ Ascending [⟨1, 2⟩, ⟨2, 2⟩] := by
  have hascends : Ascends byLine ⟨1, 1⟩ ⟨4, 2⟩ := ⟨by decide, by decide⟩
  have hrs : records unevenMap byLine "kl\nmn\nop\nqr\n".toList ([] ++ [⟨1, 11⟩])
      ⟨none, [], none⟩ =
        .ok [⟨"a.js", [⟨3, 5⟩, ⟨9, 9⟩], "uv\nwx\nyz\n"⟩, ⟨"b.js", [⟨1, 2⟩, ⟨2, 2⟩], "st"⟩] := rfl
  obtain ⟨before, hbefore, hadded⟩ :=
    (@records_ascending byLine ⟨1, 1⟩ ⟨4, 2⟩ "kl\nmn\nop\nqr\n".toList ⟨1, 11⟩ rfl rfl hascends
      unevenMap [] ⟨none, [], none⟩).2 _ hrs
  obtain rfl : [⟨"a.js", [], "uv\nwx\nyz\n"⟩, ⟨"b.js", [], "st"⟩] = before := Except.ok.inj hbefore
  simp only [List.forall₂_cons, List.nil_append] at hadded
  obtain ⟨⟨-, _, rfl, hfirst⟩, ⟨-, _, rfl, hsecond⟩, -⟩ := hadded
  exact ⟨rfl, rfl, hascends, hrs, hfirst, hsecond⟩

end Coverage

end Assay
