import Assay.Coverage.Attribution
import Assay.Proofs.Assertion.Instrumented
import Assay.Proofs.SourceMap.Rendered
import Assay.Proofs.SourceMap.RoundTrip

/-!
# Coverage of instrumented scripts

An instrumented script carries the map to its source behind its code. `resolve_instrumented` says
that ranges of copied text come back as the ranges of the source that they are copies of.
-/

namespace Assay

/-! ### The parts of an instrumented script -/

namespace Instrument

theorem replacement_ne_empty (d : Descriptor) (callee : String) (t : Temporaries) :
    d.replacement callee t ≠ "" := by
  intro h
  unfold Descriptor.replacement at h
  simp only [String.append_assoc, String.append_eq_empty_iff] at h
  exact absurd h.1 (by decide)

theorem mem_replacements {callee : String} {kept : List (Scan.Match × Descriptor)} {e : Edit}
    (h : e ∈ replacements callee kept) :
    ∃ m d t, (m, d) ∈ kept ∧ e = ⟨m.start, m.stop, d.replacement callee t⟩ := by
  obtain ⟨⟨⟨m, d⟩, k⟩, hmem, rfl⟩ := List.mem_map.mp h
  exact ⟨m, d, ⟨k⟩, List.fst_mem_of_mem_zipIdx hmem, rfl⟩

variable {parser : ModuleParser}

theorem mem_of_mem_described {source : List Char} {file : String} {ms : List Scan.Match}
    {m : Scan.Match} {d : Descriptor} (h : (m, d) ∈ described parser source file ms) : m ∈ ms := by
  obtain ⟨m', hm', hd⟩ := List.mem_filterMap.mp h
  split at hd
  · cases hd
    exact hm'
  · cases hd

/-- The parts into which its assertions divide a script, and what instrumenting makes of them. -/
structure Divided (parser : ModuleParser) (callee : String) (source : List Char) (file : String)
    (r : Instrumented) (parts : List Part) : Prop where
  parted : Edit.Parted 0 source
    (replacements callee (described parser source file (Scan.statements callee.toList source))) parts
  code : Part.resultText parts = r.code
  pieces : r.offsets.pieces = (Part.pieces 0 0 parts).toArray
  proper : Part.Proper parts
  sourced : Part.Sourced parts

theorem instrument_eq_some {callee : String} {source : List Char} {file : String} {r : Instrumented}
    (h : instrument parser callee source file = .ok (some r)) :
    Text.bytes source < 0x100000000 ∧ (r.code, r.offsets) =
      Edit.apply
        (replacements callee (described parser source file (Scan.statements callee.toList source)))
        source := by
  have hscript : Text.bytes source < 0x100000000 ∧ script parser callee source file = some r := by
    unfold instrument callee? at h
    split at h
    · cases h
    · rw [Except.bind, sizedScript] at h
      split at h
      next hsize => exact ⟨hsize, Except.ok.inj h⟩
      next => cases h
  obtain ⟨hsize, hscript⟩ := hscript
  refine ⟨hsize, ?_⟩
  rw [replacements, ← edits_eq_map]
  unfold script at hscript
  dsimp only at hscript
  split at hscript
  · cases hscript
  · cases hscript
    rfl

theorem exists_divided {callee : String} {source : List Char} {file : String} {r : Instrumented}
    (h : instrument parser callee source file = .ok (some r)) :
    ∃ parts, Divided parser callee source file r parts := by
  obtain ⟨-, happly⟩ := instrument_eq_some h
  have hspliced := script_spliced parser callee source file
  obtain ⟨parts, parted, -⟩ := hspliced.exists_parted
  have hsorted := parted
  rw [← Edit.sort_of_pairwise hspliced.pairwise] at hsorted
  have hcode := Edit.text_apply hsorted
  have hpieces := Edit.pieces_apply hsorted
  rw [← happly] at hcode hpieces
  refine ⟨parts, parted, hcode.symm, hpieces, ?_, ?_⟩
  · intro old new hmem
    obtain ⟨e, he, rfl⟩ := parted.replacement_mem hmem
    obtain ⟨m, d, t, -, rfl⟩ := mem_replacements he
    exact fun hnil => replacement_ne_empty d callee t (String.toList_eq_nil_iff.mp hnil)
  · refine parted.sourced fun e he => ?_
    obtain ⟨m, d, t, hmem, rfl⟩ := mem_replacements he
    exact Scan.start_lt_stop (mem_of_mem_described hmem)

/-! ### The map behind the code -/

variable {callee : String} {source : List Char} {file : String} {r : Instrumented}
  {parts : List Part}

/-- The text of an instrumented script begins with its code and carries its map. -/
theorem codeWithMap_eq (r : Instrumented) (source : List Char) (file : String) :
    ∃ gap, r.codeWithMap source file =
      r.code ++ gap ++ (r.sourceMap source file).toInline.toList ++ ['\n'] :=
  ⟨_, rfl⟩

theorem Divided.ofInline_codeWithMap (h : Divided parser callee source file r parts)
    (hsize : Text.bytes source < 0x100000000) (hunits : Text.units r.code ≤ 0x100000000) :
    SourceMap.ofInline (r.codeWithMap source file) = .ok (r.sourceMap source file) := by
  have hbytes := Text.units_le_bytes source
  have hbounds := OffsetMap.token_bounds h.pieces h.proper h.sourced h.code h.parted.sourceText
    hunits (by omega) file
  have hwell : (r.sourceMap source file).WellFormed := {
    contents := rfl
    sorted := OffsetMap.pairwise_toSourceMap h.pieces h.proper h.code file
    fits := fun t ht => (hbounds t ht).1
    line := fun t ht => (hbounds t ht).2.1
    source := fun t ht => (hbounds t ht).2.2.1 }
  obtain ⟨gap, htext⟩ := codeWithMap_eq r source file
  rw [htext, SourceMap.ofInline_toInline _ _ (by decide) (by decide)]
  exact hwell.ofJson_toJson_iff.mpr fun t ht => (hbounds t ht).2.2.2

end Instrument

/-! ### The ranges of copied text -/

/-- The span of a source that a span of an edited text leads back to, by its two ends. -/
def OffsetMap.sourceSpan? (m : OffsetMap) (range : Span) : Option Span := do
  return ⟨← m.sourceOffset? range.start, ← m.sourceOffset? range.stop⟩

namespace Coverage

/-- A range both ends of which are answered with one source is one piece. -/
theorem piecesOfRange_eq {generated : LineIndex} {lookup : Lookup} {range : Span}
    {start stop : Position} {first last : SourcePosition}
    (hstart : generated.position? range.start = some start)
    (hstop : generated.position? range.stop = some stop)
    (hfirst : lookup start .following = some first) (hlast : lookup stop .following = some last)
    (hsource : first.source = last.source) :
    piecesOfRange generated lookup range =
      [⟨first.source, first.position, .position last.position⟩] := by
  rw [piecesOfRange, hstart, hstop]
  simp only [splitRange, hfirst, hlast, hsource, if_true]

/-- A piece from one position of a text to a later one is the span between them. -/
theorem span_eq {s : List Char} {source o o' : Nat} {p p' : Position}
    (hp : (LineIndex.ofText s).position? o = some p)
    (hp' : (LineIndex.ofText s).position? o' = some p') (hle : o ≤ o') :
    RangePiece.span ⟨source, p, .position p'⟩ (.ofText s) = ⟨o, o'⟩ := by
  obtain ⟨_, hq, hstart⟩ := LineIndex.offset_of_position? s o (LineIndex.le_units_of_position? hp)
  obtain ⟨_, hq', hstop⟩ := LineIndex.offset_of_position? s o' (LineIndex.le_units_of_position? hp')
  obtain rfl := Option.some.inj (hp.symm.trans hq)
  obtain rfl := Option.some.inj (hp'.symm.trans hq')
  simp only [RangePiece.span, hstart, hstop, Nat.max_eq_left hle]

/-- With a single source that is not left out there is one record, of the spans of all pieces. -/
theorem records_of_single {map : SourceMap} {file content : String} {lookup : Lookup}
    {text : List Char} {ranges : List Span} {options : Options} (hsources : map.sources = [file])
    (hcontents : map.contents = [content]) (hkept : options.isExcluded file = false)
    (hpieces : ∀ piece ∈ ranges.flatMap (piecesOfRange (.ofText text) lookup), piece.source = 0) :
    records map lookup text ranges options =
      .ok [⟨file, (ranges.flatMap (piecesOfRange (.ofText text) lookup)).map
        (·.span (.ofText content.toList)), content⟩] := by
  unfold records
  dsimp only
  rw [hsources, hcontents]
  generalize ranges.flatMap (piecesOfRange (.ofText text) lookup) = pieces at hpieces ⊢
  have hknown : unknownSource? 1 pieces = none := by
    rw [unknownSource?, Option.map_eq_none_iff, List.find?_eq_none]
    intro piece hpiece
    simp [hpieces piece hpiece]
  have hall : pieces.filter (·.source = 0) = pieces :=
    List.filter_eq_self.mpr fun piece hpiece => by simpa using hpieces piece hpiece
  simp [hknown, recordOf, hall, hkept]

end Coverage

namespace Instrument

variable {parser : ModuleParser} {callee : String} {source : List Char} {file : String}
  {r : Instrumented}
  {parts : List Part}

/-- A copied offset of an instrumented script is answered with the position of its origin. -/
theorem Divided.exists_answer (h : Divided parser callee source file r parts) {g : Nat}
    (hg : Part.Copied parts g) :
    ∃ p o q, (LineIndex.ofText (r.codeWithMap source file)).position? g = some p ∧
      r.offsets.sourceOffset? g = some o ∧ (LineIndex.ofText source).position? o = some q ∧
      (LookupSession.ofMap (r.sourceMap source file)).sourcePosition? p .following =
        some ⟨0, q.line, q.column⟩ := by
  have hlt := hg.lt
  rw [h.code] at hlt
  obtain ⟨p, o, q, hp, ho, hq, -, hfollowing⟩ :=
    OffsetMap.exists_answer h.pieces h.proper h.code h.parted.sourceText file hlt
  refine ⟨p, o, q, ?_, ho, hq, hfollowing (.inl (Part.marksAt_of_copied hg))⟩
  obtain ⟨gap, htext⟩ := codeWithMap_eq r source file
  rw [htext, List.append_assoc, List.append_assoc,
    LineIndex.position?_append _ (Nat.le_of_lt hlt), hp]

/-- A range of copied text is one piece, the span that it leads back to. -/
theorem Divided.exists_piece (h : Divided parser callee source file r parts) {range : Span}
    (hle : range.start ≤ range.stop) (hstart : Part.Copied parts range.start)
    (hstop : Part.Copied parts range.stop) :
    ∃ piece, Coverage.piecesOfRange (.ofText (r.codeWithMap source file))
        (LookupSession.ofMap (r.sourceMap source file)).sourcePosition? range = [piece] ∧
      piece.source = 0 ∧ r.offsets.sourceSpan? range = some (piece.span (.ofText source)) := by
  obtain ⟨p, o, q, hp, ho, hq, hfirst⟩ := h.exists_answer hstart
  obtain ⟨p', o', q', hp', ho', hq', hlast⟩ := h.exists_answer hstop
  refine ⟨_, Coverage.piecesOfRange_eq hp hp' hfirst hlast rfl, rfl, ?_⟩
  have horder : o ≤ o' := by
    rw [OffsetMap.sourceOffset?_eq_originAt? h.pieces h.proper] at ho ho'
    exact Part.originAt?_mono hle ho ho'
  rw [SourcePosition.position, SourcePosition.position, Coverage.span_eq hq hq' horder,
    OffsetMap.sourceSpan?, ho, ho']
  rfl

theorem Divided.spans_eq (h : Divided parser callee source file r parts) {ranges : List Span}
    (hranges : ∀ range ∈ ranges, range.start ≤ range.stop ∧ Part.Copied parts range.start ∧
      Part.Copied parts range.stop) :
    (∀ piece ∈ ranges.flatMap (Coverage.piecesOfRange (.ofText (r.codeWithMap source file))
        (LookupSession.ofMap (r.sourceMap source file)).sourcePosition?), piece.source = 0) ∧
      ranges.mapM r.offsets.sourceSpan? =
        some ((ranges.flatMap (Coverage.piecesOfRange (.ofText (r.codeWithMap source file))
          (LookupSession.ofMap (r.sourceMap source file)).sourcePosition?)).map
            (·.span (.ofText source))) := by
  induction ranges with
  | nil => simp
  | cons range ranges ih =>
    obtain ⟨hle, hstart, hstop⟩ := hranges range List.mem_cons_self
    obtain ⟨hsource, hspans⟩ := ih fun range' h' => hranges range' (List.mem_cons_of_mem range h')
    obtain ⟨piece, hpiece, hzero, hspan⟩ := h.exists_piece hle hstart hstop
    rw [List.flatMap_cons, hpiece, List.mapM_cons, hspan, hspans]
    refine ⟨fun piece' hmem => ?_, rfl⟩
    rcases List.mem_cons.mp hmem with rfl | hmem
    · exact hzero
    · exact hsource piece' hmem

/-- Coverage of an instrumented script is coverage of its source: ranges of its text between copied
offsets are resolved, through the map that the script carries, to one record of the source with the
spans that the offset map leads back to, in their order. Offsets are of 32 bits, so the code must be
within them. -/
theorem resolve_instrumented {parser : ModuleParser} {callee : String} {source : List Char}
    {file : String} {r : Instrumented} (h : instrument parser callee source file = .ok (some r))
    (hunits : Text.units r.code ≤ 0x100000000) :
    ∃ parts, Edit.Parted 0 source (replacements callee
        (described parser source file (Scan.statements callee.toList source))) parts ∧
      Part.resultText parts = r.code ∧
      ∀ (url : String) (options : Coverage.Options) (ranges : List Span),
        options.isExcluded file = false →
        (∀ range ∈ ranges, range.start ≤ range.stop ∧ Part.Copied parts range.start ∧
          Part.Copied parts range.stop) →
        ∃ spans, ranges.mapM r.offsets.sourceSpan? = some spans ∧
          Coverage.resolve ⟨url, String.ofList (r.codeWithMap source file), ranges⟩ options =
            .ok [⟨file, spans, String.ofList source⟩] := by
  obtain ⟨hsize, -⟩ := instrument_eq_some h
  obtain ⟨parts, hparts⟩ := exists_divided h
  refine ⟨parts, hparts.parted, hparts.code, fun url options ranges hkept hranges => ?_⟩
  obtain ⟨hsource, hspans⟩ := hparts.spans_eq hranges
  refine ⟨_, hspans, ?_⟩
  simp only [Coverage.resolve, String.toList_ofList, hparts.ofInline_codeWithMap hsize hunits]
  have hcontents : (r.sourceMap source file).contents = [String.ofList source] := rfl
  have hrecords := Coverage.records_of_single rfl hcontents hkept hsource
  rw [String.toList_ofList] at hrecords
  exact hrecords

/-- A range that covers an assertion, from the line before it into the line after it. -/
theorem resolve_instrumented_acrossCall :
    ∃ r, instrument Grammar.parser "t.assert" "let a;\nt.assert(a);\nlet b;\n".toList "a.js" =
        .ok (some r) ∧
      Text.units r.code ≤ 0x100000000 ∧
      Coverage.resolve ⟨"run.js",
          String.ofList (r.codeWithMap "let a;\nt.assert(a);\nlet b;\n".toList "a.js"),
          [⟨4, 187⟩]⟩ .default =
        .ok [⟨"a.js", [⟨4, 24⟩], "let a;\nt.assert(a);\nlet b;\n"⟩] := by
  have hread : ((instrument Grammar.parser "t.assert" "let a;\nt.assert(a);\nlet b;\n".toList
      "a.js").toOption.bind
      id).map (fun r => (Text.units r.code, [⟨4, 187⟩].mapM r.offsets.sourceSpan?)) =
      some (190, some [⟨4, 24⟩]) := by decide +kernel
  obtain ⟨r, hr, hvalues⟩ := Option.map_eq_some_iff.mp hread
  obtain ⟨_, hok, rfl⟩ := Option.bind_eq_some_iff.mp hr
  have hinstrument :
      instrument Grammar.parser "t.assert" "let a;\nt.assert(a);\nlet b;\n".toList "a.js" =
      .ok (some r) := by
    generalize instrument Grammar.parser "t.assert" "let a;\nt.assert(a);\nlet b;\n".toList
      "a.js" = answer at hok
    cases answer with
    | error e => cases hok
    | ok o => exact congrArg Except.ok (Option.some.inj hok)
  obtain ⟨hlength, horigins⟩ := Prod.mk.inj hvalues
  have hunits : Text.units r.code ≤ 0x100000000 := by rw [hlength]; decide
  obtain ⟨parts, hparted, -, hresolve⟩ := resolve_instrumented hinstrument hunits
  have hedits : (replacements "t.assert"
      (described Grammar.parser "let a;\nt.assert(a);\nlet b;\n".toList "a.js"
      (Scan.statements "t.assert".toList "let a;\nt.assert(a);\nlet b;\n".toList))).map
      (fun e => (e.start, e.stop, Text.units e.replacement.toList)) = [(7, 19, 175)] := by
    decide +kernel
  obtain ⟨⟨_, _, new⟩, hes, he⟩ := List.map_eq_singleton_iff.mp hedits
  obtain ⟨rfl, rfl, hnew⟩ : _ = 7 ∧ _ = 19 ∧ Text.units new.toList = 175 := by simpa using he
  rw [hes] at hparted
  obtain ⟨old, rfl⟩ := hparted.of_single
  have hlast : 187 = Text.units (Part.resultText
      [.kept (Text.splitAtByte 7 "let a;\nt.assert(a);\nlet b;\n".toList).1,
        .replaced old new.toList]) + 5 := by
    simp only [Part.resultText_cons, Part.result, Part.resultText_nil, Text.units_append, hnew]
    decide
  obtain ⟨spans, hspans, hanswer⟩ := hresolve "run.js" .default [⟨4, 187⟩] (by decide) (by
    simp only [List.mem_singleton, forall_eq]
    exact ⟨by decide, ⟨[], _, _, 4, rfl, by decide, rfl⟩,
      ⟨[_, _], _, [], 5, rfl, by decide, hlast⟩⟩)
  obtain rfl := Option.some.inj (horigins.symm.trans hspans)
  rw [String.ofList_toList] at hanswer
  exact ⟨r, hinstrument, hunits, hanswer⟩

end Instrument

end Assay
