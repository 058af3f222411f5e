import Assay.Proofs.Coverage.Records
import Assay.Proofs.Text.LineEnds

/-!
# Spans in the texts of sources

The places that a lookup answers with need not exist in a source. `records_bounded` says that the
spans of a record lie in the text of its source all the same.
-/

namespace Assay.Coverage

theorem span_bounds (piece : RangePiece) (text : List Char) :
    (piece.span (.ofText text)).start ≤ (piece.span (.ofText text)).stop ∧
      (piece.span (.ofText text)).stop ≤ Text.units text := by
  refine ⟨Nat.le_max_right _ _, Nat.max_le.mpr ⟨?_, LineIndex.offset_le_length⟩⟩
  cases piece.stop with
  | position p => exact LineIndex.offset_le_length
  | lineEnd line => exact LineIndex.lineEnd_le_length

/-- For any lookup and any ranges, the records of a run that succeeds are of the sources that are
not left out, each with its path and its text, in the order of the map, and no span of a record
runs backwards or ends behind the text. -/
theorem records_bounded {map : SourceMap} {lookup : Lookup} {text : List Char}
    {ranges : List Span} {options : Options} {rs : List Record}
    (h : records map lookup text ranges options = .ok rs) :
    rs.map Record.origin = (map.sources.zip map.contents).filter (!options.isExcluded ·.1) ∧
      ∀ r ∈ rs, ∀ s ∈ r.ranges, s.start ≤ s.stop ∧ s.stop ≤ Text.units r.text.toList := by
  obtain ⟨-, rfl⟩ := records_eq_ok.mp h
  refine ⟨by rw [map_origin_records, map_fst_recordedSources_eq_filter], ?_⟩
  intro r hr s hs
  obtain ⟨source, -, rfl⟩ := List.mem_map.mp hr
  obtain ⟨piece, -, rfl⟩ := List.mem_map.mp hs
  exact span_bounds piece source.1.2.toList

/-- Answers with lines and columns that no source has, line 0 among them. -/
def strayLookup : Lookup := fun p _ => some ⟨p.line - 1, 2 * (p.line - 1), 90 - p.column⟩

/-- Ranges within a line, across lines, backwards and outside the script. -/
theorem records_bounded_stray :
    records pairMap strayLookup "uv\nwx".toList [⟨0, 1⟩, ⟨1, 4⟩, ⟨4, 3⟩, ⟨7, 9⟩]
        ⟨none, [], none⟩ =
      .ok [⟨"a.js", [⟨4, 4⟩, ⟨4, 5⟩], "aaaa\n"⟩, ⟨"lib/b.js", [⟨5, 5⟩, ⟨5, 5⟩], "bbbb\n"⟩] ∧
      ∀ s ∈ ([⟨4, 4⟩, ⟨4, 5⟩] : List Span),
        s.start ≤ s.stop ∧ s.stop ≤ Text.units "aaaa\n".toList := by
  have h : records pairMap strayLookup "uv\nwx".toList [⟨0, 1⟩, ⟨1, 4⟩, ⟨4, 3⟩, ⟨7, 9⟩]
      ⟨none, [], none⟩ =
        .ok [⟨"a.js", [⟨4, 4⟩, ⟨4, 5⟩], "aaaa\n"⟩, ⟨"lib/b.js", [⟨5, 5⟩, ⟨5, 5⟩], "bbbb\n"⟩] :=
    rfl
  exact ⟨h, (records_bounded h).2 _ List.mem_cons_self⟩

end Assay.Coverage
