import Assay.Proofs.Coverage.Reached

/-!
# Scripts that are resolved

The map that a script carries was checked when it was read, so a lookup in it never names a source
that the map does not list. `resolve_answers` says that nothing but the map of a script can make
resolving it fail.
-/

namespace Assay

namespace Coverage

/-- The session of a well-formed map gives records whatever the text and the ranges. -/
theorem records_of_wellFormed {map : SourceMap} (h : map.WellFormed) (text : List Char)
    (ranges : List Span) (options : Options) :
    records map (LookupSession.ofMap map).sourcePosition? text ranges options =
      .ok ((recordedSources map options).map
        (recordAt (piecesOf (LookupSession.ofMap map).sourcePosition? text ranges))) :=
  records_eq_ok.mpr
    ⟨source_lt_of_mem_piecesOf (fun _ _ hfound => h.source_lt hfound) text ranges, rfl⟩

theorem resolve_of_ofInline {script : Script} {map : SourceMap}
    (h : SourceMap.ofInline script.text.toList = .ok map) (options : Options) :
    resolve script options = .ok ((recordedSources map options).map
      (recordAt (piecesOf (LookupSession.ofMap map).sourcePosition? script.text.toList
        script.ranges))) := by
  unfold resolve
  rw [h]
  exact records_of_wellFormed (SourceMap.wellFormed_of_ofInline h) _ _ _

theorem resolve_of_ofInline_error {script : Script} {cause : SourceMapError}
    (h : SourceMap.ofInline script.text.toList = .error cause) (options : Options) :
    resolve script options = .error (.sourceMap cause) := by
  unfold resolve
  rw [h]

/-- Resolving a script never meets an unknown source. It fails exactly if the text carries no map
that can be read, with the failure of reading it; else it gives a record for each source of the map
that is not left out, in the order of the map, whatever the ranges are. -/
theorem resolve_answers (script : Script) (options : Options) :
    (∀ index, resolve script options ≠ .error (.unknownSource index)) ∧
      (∀ cause, resolve script options = .error (.sourceMap cause) ↔
        SourceMap.ofInline script.text.toList = .error cause) ∧
      (∀ map, SourceMap.ofInline script.text.toList = .ok map → ∀ ranges,
        ∃ rs, resolve { script with ranges := ranges } options = .ok rs ∧
          rs.map Record.origin =
            (map.sources.zip map.contents).filter (!options.isExcluded ·.1)) := by
  cases h : SourceMap.ofInline script.text.toList with
  | error cause =>
    rw [resolve_of_ofInline_error h]
    exact ⟨by simp, by simp, by simp⟩
  | ok map =>
    rw [resolve_of_ofInline h]
    refine ⟨by simp, by simp, ?_⟩
    rintro map' ⟨⟩ ranges
    have hranges : SourceMap.ofInline { script with ranges := ranges }.text.toList = .ok map := h
    refine ⟨_, resolve_of_ofInline hranges options, ?_⟩
    rw [map_origin_records, map_fst_recordedSources_eq_filter]

/-- A map of two sources that is carried by the code it is about. -/
def wovenScript : Script :=
  ⟨"bundle.js", String.ofList (wovenCode ++ wovenMap.toInline.toList), [⟨0, 5⟩, ⟨9, 2⟩]⟩

theorem resolve_answers_woven :
    SourceMap.ofInline wovenScript.text.toList = .ok wovenMap ∧
      ∃ rs, resolve { wovenScript with ranges := [⟨7, 700⟩] } ⟨some "b", [], none⟩ = .ok rs ∧
        rs.map Record.origin = [("a.js", "aaaa")] := by
  have hmap : SourceMap.ofInline wovenScript.text.toList = .ok wovenMap := by
    have hwell : wovenMap.WellFormed := SourceMap.wellFormed_of_ofJson ofJson_wovenText
    have hcarried := @SourceMap.ofInline_toInline wovenMap wovenCode [] rfl (by decide)
    rw [List.append_nil, hwell.ofJson_toJson_iff.mpr (by decide)] at hcarried
    rw [wovenScript, String.toList_ofList, hcarried]
  obtain ⟨-, -, hrecords⟩ := resolve_answers wovenScript ⟨some "b", [], none⟩
  obtain ⟨rs, hrs, horigins⟩ := hrecords wovenMap hmap [⟨7, 700⟩]
  exact ⟨hmap, rs, hrs, horigins⟩

end Coverage

end Assay
