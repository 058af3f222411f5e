import Assay.Coverage.Attribution

/-!
# Records of ranges

The records of two lists of ranges join to those of both lists together, and leaving sources out is
no more than a filter on the records. `records_join` states both, with the failures.
-/

namespace Assay.Coverage

/-! ### Pieces and their records -/

/-- The sources that have a record, each with its text and its index. -/
def recordedSources (map : SourceMap) (options : Options) : List ((String × String) × Nat) :=
  (map.sources.zip map.contents).zipIdx.filter (!options.isExcluded ·.1.1)

/-- The pieces of ranges in the order of the ranges. -/
def piecesOf (lookup : Lookup) (text : List Char) (ranges : List Span) : List RangePiece :=
  ranges.flatMap (piecesOfRange (.ofText text) lookup)

theorem piecesOf_append (lookup : Lookup) (text : List Char) (first second : List Span) :
    piecesOf lookup text (first ++ second) =
      piecesOf lookup text first ++ piecesOf lookup text second :=
  List.flatMap_append

theorem mem_piecesOf {lookup : Lookup} {text : List Char} {ranges : List Span}
    {piece : RangePiece} : piece ∈ piecesOf lookup text ranges ↔
      ∃ range ∈ ranges, piece ∈ piecesOfRange (.ofText text) lookup range :=
  List.mem_flatMap

/-- The record of the pieces of a source. -/
def recordAt (pieces : List RangePiece) (source : (String × String) × Nat) : Record :=
  recordOf pieces source.2 source.1.1 source.1.2

theorem records_eq (map : SourceMap) (lookup : Lookup) (text : List Char) (ranges : List Span)
    (options : Options) :
    records map lookup text ranges options =
      match unknownSource? (map.sources.zip map.contents).length (piecesOf lookup text ranges) with
      | some index => .error (.unknownSource index)
      | none => .ok ((recordedSources map options).map
          (recordAt (piecesOf lookup text ranges))) := by
  unfold records recordedSources
  dsimp only
  rw [List.filter_map]
  rfl

theorem unknownSource?_eq_none {count : Nat} {pieces : List RangePiece} :
    unknownSource? count pieces = none ↔ ∀ piece ∈ pieces, piece.source < count := by
  rw [unknownSource?, Option.map_eq_none_iff, List.find?_eq_none]
  simp only [decide_eq_true_eq, Nat.not_le]

theorem unknownSource?_isSome {count : Nat} {pieces : List RangePiece} :
    (unknownSource? count pieces).isSome ↔ ∃ piece ∈ pieces, count ≤ piece.source := by
  rw [unknownSource?, Option.isSome_map, List.find?_isSome]
  simp only [decide_eq_true_eq]

theorem unknownSource?_append (count : Nat) (front back : List RangePiece) :
    unknownSource? count (front ++ back) =
      (unknownSource? count front).or (unknownSource? count back) := by
  rw [unknownSource?, List.find?_append, Option.map_or]
  rfl

variable {map : SourceMap} {lookup : Lookup} {text : List Char} {ranges : List Span}
  {options : Options}

theorem records_eq_ok {rs : List Record} : records map lookup text ranges options = .ok rs ↔
    (∀ piece ∈ piecesOf lookup text ranges,
      piece.source < (map.sources.zip map.contents).length) ∧
    rs = (recordedSources map options).map (recordAt (piecesOf lookup text ranges)) := by
  rw [records_eq, ← unknownSource?_eq_none]
  cases unknownSource? _ (piecesOf lookup text ranges) with
  | some index => simp
  | none => simp [eq_comm]

theorem records_eq_error {e : Error} : records map lookup text ranges options = .error e ↔
    ∃ index, unknownSource? (map.sources.zip map.contents).length (piecesOf lookup text ranges) =
      some index ∧ e = .unknownSource index := by
  rw [records_eq]
  cases unknownSource? _ (piecesOf lookup text ranges) with
  | some index => simp [eq_comm]
  | none => simp

/-! ### Records side by side -/

/-- The path and the text of the source of a record. -/
def Record.origin (r : Record) : String × String := (r.url, r.text)

/-- A record with the ranges of another one behind its own. -/
def Record.join (r r' : Record) : Record := { r with ranges := r.ranges ++ r'.ranges }

theorem recordAt_append (front back : List RangePiece) (source : (String × String) × Nat) :
    recordAt (front ++ back) source = (recordAt front source).join (recordAt back source) := by
  simp only [recordAt, recordOf, Record.join, List.filter_append, List.map_append]

/-- The records of pieces are of the sources that are kept, whatever the pieces. -/
theorem map_origin_records (map : SourceMap) (options : Options) (pieces : List RangePiece) :
    ((recordedSources map options).map (recordAt pieces)).map Record.origin =
      (recordedSources map options).map (·.1) := by
  rw [List.map_map]
  rfl

theorem zipWith_join_records (map : SourceMap) (options : Options)
    (front back : List RangePiece) :
    ((recordedSources map options).map (recordAt front)).zipWith Record.join
        ((recordedSources map options).map (recordAt back)) =
      (recordedSources map options).map (recordAt (front ++ back)) := by
  rw [List.zipWith_map, List.zipWith_self]
  exact List.map_congr_left fun source _ => (recordAt_append front back source).symm

/-! ### Leaving sources out -/

/-- Options that leave no source out. -/
def Options.KeepsAll (o : Options) : Prop := ∀ path, o.isExcluded path = false

theorem recordedSources_of_keepsAll (map : SourceMap) (h : options.KeepsAll) :
    recordedSources map options = (map.sources.zip map.contents).zipIdx :=
  List.filter_eq_self.mpr fun source _ => by rw [h source.1.1]; rfl

theorem map_fst_recordedSources (map : SourceMap) (h : options.KeepsAll) :
    (recordedSources map options).map (·.1) = map.sources.zip map.contents := by
  rw [recordedSources_of_keepsAll map h]
  exact List.zipIdx_map_fst 0 _

theorem map_fst_recordedSources_eq_filter (map : SourceMap) (options : Options) :
    (recordedSources map options).map (·.1) =
      (map.sources.zip map.contents).filter (!options.isExcluded ·.1) := by
  have hfst := List.zipIdx_map_fst 0 (map.sources.zip map.contents)
  calc (recordedSources map options).map (·.1)
      = ((map.sources.zip map.contents).zipIdx.map (·.1)).filter (!options.isExcluded ·.1) := by
        rw [List.filter_map]
        rfl
    _ = (map.sources.zip map.contents).filter (!options.isExcluded ·.1) := congrArg _ hfst

/-- Leaving sources out takes their records away and changes no other. -/
theorem records_eq_filter (map : SourceMap) (lookup : Lookup) (text : List Char)
    (ranges : List Span) (options : Options) {all : Options} (hall : all.KeepsAll) :
    records map lookup text ranges options =
      (records map lookup text ranges all).map (·.filter (!options.isExcluded ·.url)) := by
  rw [records_eq, records_eq, recordedSources_of_keepsAll map hall]
  cases unknownSource? _ (piecesOf lookup text ranges) with
  | some index => rfl
  | none =>
    refine congrArg Except.ok ?_
    dsimp only
    rw [List.filter_map]
    rfl

/-! ### Two lists of ranges -/

variable {first second : List Span}

theorem records_append_ok {rs rs' : List Record}
    (hfirst : records map lookup text first options = .ok rs)
    (hsecond : records map lookup text second options = .ok rs') :
    records map lookup text (first ++ second) options = .ok (rs.zipWith Record.join rs') := by
  obtain ⟨hknown, rfl⟩ := records_eq_ok.mp hfirst
  obtain ⟨hknown', rfl⟩ := records_eq_ok.mp hsecond
  refine records_eq_ok.mpr ⟨fun piece hpiece => ?_, ?_⟩
  · rw [piecesOf_append] at hpiece
    rcases List.mem_append.mp hpiece with hpiece | hpiece
    · exact hknown piece hpiece
    · exact hknown' piece hpiece
  · rw [zipWith_join_records, piecesOf_append]

theorem records_append_error_left {e : Error}
    (hfirst : records map lookup text first options = .error e) (second : List Span) :
    records map lookup text (first ++ second) options = .error e := by
  obtain ⟨index, hindex, rfl⟩ := records_eq_error.mp hfirst
  refine records_eq_error.mpr ⟨index, ?_, rfl⟩
  rw [piecesOf_append, unknownSource?_append, hindex]
  rfl

theorem records_append_error_right {rs : List Record} {e : Error}
    (hfirst : records map lookup text first options = .ok rs)
    (hsecond : records map lookup text second options = .error e) :
    records map lookup text (first ++ second) options = .error e := by
  obtain ⟨hknown, -⟩ := records_eq_ok.mp hfirst
  obtain ⟨index, hindex, rfl⟩ := records_eq_error.mp hsecond
  refine records_eq_error.mpr ⟨index, ?_, rfl⟩
  rw [piecesOf_append, unknownSource?_append, unknownSource?_eq_none.mpr hknown, hindex]
  rfl

/-- A call fails for a piece of a source that has no record, whichever sources are left out. -/
theorem exists_unknownSource_iff (map : SourceMap) (lookup : Lookup) (text : List Char)
    (ranges : List Span) (options : Options) :
    (∃ index, records map lookup text ranges options = .error (.unknownSource index)) ↔
      ∃ range ∈ ranges, ∃ piece ∈ piecesOfRange (.ofText text) lookup range,
        (map.sources.zip map.contents).length ≤ piece.source := by
  have hfails : (∃ index, records map lookup text ranges options = .error (.unknownSource index)) ↔
      (unknownSource? (map.sources.zip map.contents).length
        (piecesOf lookup text ranges)).isSome := by
    rw [records_eq]
    cases unknownSource? _ (piecesOf lookup text ranges) with
    | some index => simp
    | none => simp
  rw [hfails, unknownSource?_isSome]
  constructor
  · rintro ⟨piece, hpiece, hle⟩
    obtain ⟨range, hrange, hmem⟩ := mem_piecesOf.mp hpiece
    exact ⟨range, hrange, piece, hmem, hle⟩
  · rintro ⟨range, hrange, piece, hmem, hle⟩
    exact ⟨piece, mem_piecesOf.mpr ⟨range, hrange, hmem⟩, hle⟩

/-- The records of two lists of ranges have the same sources and join to those of both lists, the
first failure is that of both lists, and leaving sources out is a filter on the records of all
sources, which fail alike. -/
theorem records_join (map : SourceMap) (lookup : Lookup) (text : List Char)
    (first second : List Span) (options : Options) :
    (∀ rs rs', records map lookup text first options = .ok rs →
      records map lookup text second options = .ok rs' →
      rs.map Record.origin = rs'.map Record.origin ∧
        records map lookup text (first ++ second) options = .ok (rs.zipWith Record.join rs')) ∧
    (∀ e, records map lookup text first options = .error e →
      records map lookup text (first ++ second) options = .error e) ∧
    (∀ rs e, records map lookup text first options = .ok rs →
      records map lookup text second options = .error e →
      records map lookup text (first ++ second) options = .error e) ∧
    (∀ all : Options, all.KeepsAll →
      records map lookup text first options =
          (records map lookup text first all).map (·.filter (!options.isExcluded ·.url)) ∧
        ∀ rs, records map lookup text first all = .ok rs →
          rs.map Record.origin = map.sources.zip map.contents) ∧
    ((∃ index, records map lookup text first options = .error (.unknownSource index)) ↔
      ∃ range ∈ first, ∃ piece ∈ piecesOfRange (.ofText text) lookup range,
        (map.sources.zip map.contents).length ≤ piece.source) := by
  refine ⟨fun rs rs' hfirst hsecond => ⟨?_, records_append_ok hfirst hsecond⟩,
    fun e hfirst => records_append_error_left hfirst second,
    fun rs e hfirst hsecond => records_append_error_right hfirst hsecond,
    fun all hall => ⟨records_eq_filter map lookup text first options hall, fun rs hrs => ?_⟩,
    exists_unknownSource_iff map lookup text first options⟩
  · obtain ⟨-, rfl⟩ := records_eq_ok.mp hfirst
    obtain ⟨-, rfl⟩ := records_eq_ok.mp hsecond
    rw [map_origin_records, map_origin_records]
  · obtain ⟨-, rfl⟩ := records_eq_ok.mp hrs
    rw [map_origin_records, map_fst_recordedSources map hall]

/-- A map of two sources for a lookup that names a third one. -/
def pairMap : SourceMap := ⟨["a.js", "lib/b.js"], ["aaaa\n", "bbbb\n"], [], []⟩

/-- Two columns for each source. -/
def byColumn : Lookup := fun p _ => some ⟨p.column / 2, 1, p.column⟩

/-- Two lists that succeed, one that fails, and a path that is left out. -/
theorem records_join_byColumn :
    (⟨none, [], none⟩ : Options).KeepsAll ∧
      records pairMap byColumn "uvwxyz".toList ([⟨0, 1⟩] ++ [⟨1, 3⟩, ⟨2, 3⟩]) ⟨none, [], none⟩ =
        .ok [⟨"a.js", [⟨0, 1⟩, ⟨1, 4⟩], "aaaa\n"⟩, ⟨"lib/b.js", [⟨2, 3⟩], "bbbb\n"⟩] ∧
      records pairMap byColumn "uvwxyz".toList ([⟨4, 5⟩] ++ [⟨0, 1⟩]) ⟨none, [], none⟩ =
        .error (.unknownSource 2) ∧
      records pairMap byColumn "uvwxyz".toList ([⟨0, 1⟩] ++ [⟨4, 5⟩]) ⟨none, [], none⟩ =
        .error (.unknownSource 2) ∧
      records pairMap byColumn "uvwxyz".toList [⟨0, 1⟩] ⟨some "lib/", [], none⟩ =
        .ok [⟨"a.js", [⟨0, 1⟩], "aaaa\n"⟩] ∧
      ∃ index, records pairMap byColumn "uvwxyz".toList [⟨4, 5⟩] ⟨some "js", [], none⟩ =
        .error (.unknownSource index) := by
  have hall : (⟨none, [], none⟩ : Options).KeepsAll := fun path => rfl
  have hfirst : records pairMap byColumn "uvwxyz".toList [⟨0, 1⟩] ⟨none, [], none⟩ =
      .ok [⟨"a.js", [⟨0, 1⟩], "aaaa\n"⟩, ⟨"lib/b.js", [], "bbbb\n"⟩] := rfl
  have hsecond : records pairMap byColumn "uvwxyz".toList [⟨1, 3⟩, ⟨2, 3⟩] ⟨none, [], none⟩ =
      .ok [⟨"a.js", [⟨1, 4⟩], "aaaa\n"⟩, ⟨"lib/b.js", [⟨2, 3⟩], "bbbb\n"⟩] := rfl
  have hfails : records pairMap byColumn "uvwxyz".toList [⟨4, 5⟩] ⟨none, [], none⟩ =
      .error (.unknownSource 2) := rfl
  obtain ⟨hjoin, -⟩ := records_join pairMap byColumn "uvwxyz".toList [⟨0, 1⟩] [⟨1, 3⟩, ⟨2, 3⟩]
    ⟨none, [], none⟩
  obtain ⟨-, hleft, -⟩ := records_join pairMap byColumn "uvwxyz".toList [⟨4, 5⟩] [⟨0, 1⟩]
    ⟨none, [], none⟩
  obtain ⟨-, -, hright, -⟩ := records_join pairMap byColumn "uvwxyz".toList [⟨0, 1⟩] [⟨4, 5⟩]
    ⟨none, [], none⟩
  obtain ⟨-, -, -, hfilter, -⟩ := records_join pairMap byColumn "uvwxyz".toList [⟨0, 1⟩] []
    ⟨some "lib/", [], none⟩
  obtain ⟨-, -, -, -, hunknown⟩ := records_join pairMap byColumn "uvwxyz".toList [⟨4, 5⟩] []
    ⟨some "js", [], none⟩
  refine ⟨hall, (hjoin _ _ hfirst hsecond).2, hleft _ hfails, hright _ _ hfirst hfails, ?_,
    hunknown.mpr ⟨⟨4, 5⟩, List.mem_cons_self, ⟨2, ⟨1, 4⟩, .position ⟨1, 5⟩⟩, ?_, by decide⟩⟩
  · rw [(hfilter _ hall).1, hfirst]
    rfl
  · exact List.mem_cons_self

end Assay.Coverage
