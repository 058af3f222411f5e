import Assay.Proofs.Coverage.Runs
import Assay.Proofs.SourceMap.Accepted
import Assay.Proofs.SourceMap.Session

/-!
# Sources that a range reaches

A range is looked up at its ends, and at the starts of its lines only if its ends do not come from
one source. `ranges_ne_nil_iff` says for every accepted map which sources get ranges from it.
-/

namespace Assay

/-! ### Answers of a session -/

theorem LookupSession.mem_of_nearest? {tokens : Array MapToken} {column : Nat} {bias : Bias}
    {t : MapToken} (h : nearest? tokens column bias = some t) : t ∈ tokens := by
  cases bias with
  | preceding =>
    unfold nearest? at h
    dsimp only at h
    split at h
    · cases h
    · exact Array.mem_of_getElem? h
  | following => exact Array.mem_of_getElem? h

theorem LookupSession.exists_token {m : SourceMap} {p : Position} {bias : Bias}
    {found : SourcePosition}
    (hsorted : m.tokens.Pairwise (·.generated.line ≤ ·.generated.line))
    (h : (ofMap m).sourcePosition? p bias = some found) :
    ∃ t ∈ m.tokens, ∃ o ∈ t.origin, found = .ofOrigin o := by
  obtain ⟨t, ht, h⟩ := Option.bind_eq_some_iff.mp h
  obtain ⟨o, ho, h⟩ := Option.bind_eq_some_iff.mp h
  refine ⟨t, ?_, o, ho, (Option.some.inj h).symm⟩
  have hmem := mem_of_nearest? ht
  by_cases hline : p.line = 0
  · rw [lineTokens, if_pos hline] at hmem
    exact absurd hmem (Array.not_mem_empty t)
  · rw [lineTokens_ofMap hsorted hline, List.mem_toArray] at hmem
    exact List.mem_of_mem_filter hmem

/-- A session of a well-formed map names sources with a text only. -/
theorem SourceMap.WellFormed.source_lt {m : SourceMap} (h : m.WellFormed) {p : Position}
    {bias : Bias} {found : SourcePosition}
    (hfound : (LookupSession.ofMap m).sourcePosition? p bias = some found) :
    found.source < (m.sources.zip m.contents).length := by
  obtain ⟨t, ht, o, ho, rfl⟩ :=
    LookupSession.exists_token (LookupSession.lines_of_sorted h.sorted) hfound
  rw [List.length_zip, h.contents, Nat.min_self]
  exact h.source t ht o ho

namespace Coverage

/-! ### Sources of a range -/

def ResolvesTo (lookup : Lookup) (p : Position) (source : Nat) : Prop :=
  ∃ found, lookup p .following = some found ∧ found.source = source

/-- A source of which a range holds something as far as its ends and the starts of the lines between
them show it. -/
def Executed (lookup : Lookup) (start stop : Position) (source : Nat) : Prop :=
  ResolvesTo lookup start source ∨ (stop.column ≠ 0 ∧ ResolvesTo lookup stop source) ∨
    ∃ line, start.line < line ∧ line < stop.line ∧ ResolvesTo lookup ⟨line, 0⟩ source

/-- A source that comes up at the start of a range, or at the start of a later line of which the
range holds something. -/
def MetByLines (lookup : Lookup) (start stop : Position) (source : Nat) : Prop :=
  ResolvesTo lookup start source ∨
    ∃ line, start.line < line ∧ (line < stop.line ∨ line = stop.line ∧ stop.column ≠ 0) ∧
      ResolvesTo lookup ⟨line, 0⟩ source

/-- The source of both ends, or, where the ends have no source in common and one of them has any, a
source that the lines meet. -/
def Reached (lookup : Lookup) (start stop : Position) (source : Nat) : Prop :=
  (ResolvesTo lookup start source ∧ ResolvesTo lookup stop source) ∨
    (¬ ∃ other, ResolvesTo lookup start other ∧ ResolvesTo lookup stop other) ∧
      (∃ other, ResolvesTo lookup start other ∨ ResolvesTo lookup stop other) ∧
        MetByLines lookup start stop source

variable {lookup : Lookup} {start stop : Position}

theorem resolvesTo_of_some {p : Position} {found : SourcePosition} {source : Nat}
    (h : lookup p .following = some found) :
    ResolvesTo lookup p source ↔ found.source = source := by
  unfold ResolvesTo
  rw [h]
  simp

theorem not_resolvesTo {p : Position} (h : lookup p .following = none) (source : Nat) :
    ¬ ResolvesTo lookup p source := by
  rintro ⟨found, hfound, -⟩
  rw [h] at hfound
  cases hfound

theorem exists_resolvedLines_iff (lookup : Lookup) (hle : start.line ≤ stop.line)
    (source : Nat) :
    (∃ place ∈ resolvedLines lookup start stop, place.source = source) ↔
      MetByLines lookup start stop source := by
  constructor
  · rintro ⟨place, hplace, hsource⟩
    obtain ⟨line, hline, hfound⟩ := List.mem_filterMap.mp hplace
    obtain ⟨hfirst, hlast⟩ := List.mem_range'_1.mp hline
    by_cases hstart : line = start.line
    · subst hstart
      rw [if_pos rfl] at hfound
      exact Or.inl ⟨place, hfound, hsource⟩
    · rw [if_neg hstart] at hfound
      refine Or.inr ⟨line, by omega, ?_, place, hfound, hsource⟩
      unfold lastLine at hlast
      split at hlast
      · omega
      · omega
  · rintro (⟨found, hfound, hsource⟩ | ⟨line, hfirst, hlast, found, hfound, hsource⟩)
    · refine ⟨found, List.mem_filterMap.mpr ⟨start.line, List.mem_range'_1.mpr ?_, ?_⟩, hsource⟩
      · unfold lastLine
        split
        · omega
        · omega
      · rwa [if_pos rfl]
    · refine ⟨found, List.mem_filterMap.mpr ⟨line, List.mem_range'_1.mpr ?_, ?_⟩, hsource⟩
      · unfold lastLine
        split
        · omega
        · omega
      · rwa [if_neg (by omega)]

theorem exists_piece_iff (hle : start.line ≤ stop.line) (source : Nat) :
    (∃ piece ∈ splitRange lookup start stop, piece.source = source) ↔
      Reached lookup start stop source := by
  have hwalk := exists_resolvedLines_iff lookup hle source
  unfold splitRange Reached
  cases hstart : lookup start .following with
  | none =>
    cases hstop : lookup stop .following with
    | none => simp [not_resolvesTo hstart, not_resolvesTo hstop]
    | some last =>
      simp only [exists_piece_splitByLines, hwalk, not_resolvesTo hstart, resolvesTo_of_some hstop]
      simp
  | some first =>
    cases hstop : lookup stop .following with
    | none =>
      simp only [exists_piece_splitByLines, hwalk, not_resolvesTo hstop, resolvesTo_of_some hstart]
      simp
    | some last =>
      simp only [resolvesTo_of_some hstart, resolvesTo_of_some hstop]
      by_cases hsource : first.source = last.source
      · rw [if_pos hsource]
        simp [hsource]
      · rw [if_neg hsource, exists_piece_splitByLines, hwalk]
        have hdiffers (other : Nat) : ¬ (first.source = other ∧ last.source = other) :=
          fun h => hsource (h.1.trans h.2.symm)
        have hsome : ∃ other, first.source = other ∨ last.source = other := ⟨_, Or.inl rfl⟩
        simp only [hdiffers, hsome, false_or, exists_false, not_false_eq_true, true_and]

/-! ### Records of a range -/

theorem line_le_line {text : List Char} {range : Span} {start stop : Position}
    (hle : range.start ≤ range.stop)
    (hstart : (LineIndex.ofText text).position? range.start = some start)
    (hstop : (LineIndex.ofText text).position? range.stop = some stop) :
    start.line ≤ stop.line := by
  obtain ⟨n, first, rfl, hline⟩ := LineIndex.position?_eq_some hstart
  obtain ⟨n', first', rfl, hline'⟩ := LineIndex.position?_eq_some hstop
  exact Nat.succ_le_succ (hline.le_of_le hline' hle)

theorem ranges_recordOf_ne_nil {pieces : List RangePiece} {index : Nat} {url text : String} :
    (recordOf pieces index url text).ranges ≠ [] ↔ ∃ piece ∈ pieces, piece.source = index := by
  simp only [recordOf, ne_eq, List.map_eq_nil_iff, List.filter_eq_nil_iff, decide_eq_true_eq]
  push Not
  exact Iff.rfl

/-- A source gets ranges from a range of a text exactly if the range reaches it, for the session of
any accepted map. -/
theorem ranges_ne_nil_iff {document : List Char} {map : SourceMap}
    (hmap : SourceMap.ofJson document = .ok map) {text : List Char} {range : Span}
    (hle : range.start ≤ range.stop) (hstop : range.stop ≤ Text.units text) {options : Options}
    (hall : options.KeepsAll) :
    ∃ start stop rs, (LineIndex.ofText text).position? range.start = some start ∧
      (LineIndex.ofText text).position? range.stop = some stop ∧
      records map (LookupSession.ofMap map).sourcePosition? text [range] options = .ok rs ∧
      rs.map (·.url) = map.sources ∧
      ∀ source r, rs[source]? = some r → (r.ranges ≠ [] ↔
        Reached (LookupSession.ofMap map).sourcePosition? start stop source) := by
  have hwell := SourceMap.wellFormed_of_ofJson hmap
  obtain ⟨start, hstart', -⟩ := LineIndex.offset_of_position? text range.start (by omega)
  obtain ⟨stop, hstop', -⟩ := LineIndex.offset_of_position? text range.stop hstop
  have hpieces := piecesOf_singleton (LookupSession.ofMap map).sourcePosition? hstart' hstop'
  have hbelow := @source_lt_of_mem_piecesOf (LookupSession.ofMap map).sourcePosition? _
    (fun p found => hwell.source_lt) text [range]
  refine ⟨start, stop, _, hstart', hstop', records_eq_ok.mpr ⟨hbelow, rfl⟩, ?_, ?_⟩
  · have hurls := congrArg (List.map Prod.fst) (map_fst_recordedSources map hall)
    rw [List.map_map, List.map_fst_zip (Nat.le_of_eq hwell.contents.symm)] at hurls
    rw [List.map_map]
    exact hurls
  · intro source r hr
    rw [recordedSources_of_keepsAll map hall, List.getElem?_map] at hr
    obtain ⟨⟨⟨url, content⟩, index⟩, hsource, rfl⟩ := Option.map_eq_some_iff.mp hr
    obtain rfl : index = source := snd_eq_of_getElem?_zipIdx hsource
    rw [recordAt, ranges_recordOf_ne_nil, hpieces]
    exact exists_piece_iff (line_le_line hle hstart' hstop') index

/-- The document of a map of two sources that take turns, line by line and on the third line. -/
def wovenText : List Char :=
  ("\x7b\"version\":3,\"sources\":[\"a.js\",\"b.js\"],\"sourcesContent\":[\"aaaa\",\"bb\"]," ++
    "\"mappings\":\"AAAA;ACAA;ADAE,EAAE,CCAJ,EAAE\"\x7d").toList

def wovenMap : SourceMap :=
  ⟨["a.js", "b.js"], ["aaaa", "bb"], [],
    [⟨⟨1, 0⟩, some ⟨0, 1, 0, none⟩⟩, ⟨⟨2, 0⟩, some ⟨1, 1, 0, none⟩⟩, ⟨⟨3, 0⟩, some ⟨0, 1, 2, none⟩⟩,
      ⟨⟨3, 2⟩, some ⟨0, 1, 4, none⟩⟩, ⟨⟨3, 3⟩, some ⟨1, 1, 0, none⟩⟩,
      ⟨⟨3, 5⟩, some ⟨1, 1, 2, none⟩⟩]⟩

def wovenCode : List Char := "aa\nbb\naa bb;\n".toList

theorem ofJson_wovenText : SourceMap.ofJson wovenText = .ok wovenMap :=
  SourceMap.ofJson_of_parts
    (d := ⟨3, none, none, ["a.js", "b.js"], [some "aaaa", some "bb"], [],
      "AAAA;ACAA;ADAE,EAAE,CCAJ,EAAE"⟩)
    (by decide +kernel) rfl rfl rfl (by decide +kernel) (by decide)

/-- A range over two lines reaches both sources though its end has none. -/
theorem ranges_ne_nil_iff_woven :
    SourceMap.ofJson wovenText = .ok wovenMap ∧ 5 ≤ Text.units wovenCode ∧
      (⟨none, [], none⟩ : Options).KeepsAll ∧
      ∃ rs r, records wovenMap (LookupSession.ofMap wovenMap).sourcePosition? wovenCode [⟨0, 5⟩]
        ⟨none, [], none⟩ = .ok rs ∧ rs[1]? = some r ∧ r.ranges ≠ [] := by
  have hall : (⟨none, [], none⟩ : Options).KeepsAll := fun path => rfl
  have hle : (Span.mk 0 5).start ≤ (Span.mk 0 5).stop := by decide
  have hstop : (Span.mk 0 5).stop ≤ Text.units wovenCode := by decide +kernel
  obtain ⟨start, stop, rs, hp, hp', hrs, -, hreached⟩ :=
    ranges_ne_nil_iff ofJson_wovenText hle hstop hall
  obtain rfl : (⟨1, 0⟩ : Position) = start := Option.some.inj hp
  obtain rfl : (⟨2, 2⟩ : Position) = stop := Option.some.inj hp'
  obtain rfl : [⟨"a.js", [⟨0, 4⟩], "aaaa"⟩, ⟨"b.js", [⟨0, 2⟩], "bb"⟩] = rs := Except.ok.inj hrs
  refine ⟨ofJson_wovenText, hstop, hall, _, _, hrs, rfl, (hreached 1 _ rfl).mpr ?_⟩
  refine Or.inr ⟨?_, ?_, ?_⟩
  · rintro ⟨other, -, found, hfound, -⟩
    cases hfound
  · exact ⟨0, Or.inl ⟨_, rfl, rfl⟩⟩
  · exact Or.inr ⟨2, by decide, Or.inr ⟨rfl, by decide⟩, _, rfl, rfl⟩

/-- A source gets no range though one line between the ends of the range is from it, though its end
is, and though a line between ends that have no source is. -/
theorem executed_without_ranges :
    SourceMap.ofJson wovenText = .ok wovenMap ∧ (⟨none, [], none⟩ : Options).KeepsAll ∧
      ∀ range ∈ [(⟨0, 8⟩ : Span), ⟨6, 11⟩, ⟨1, 12⟩],
        range.start ≤ range.stop ∧ range.stop ≤ Text.units wovenCode ∧
        ∃ start stop rs r, (LineIndex.ofText wovenCode).position? range.start = some start ∧
          (LineIndex.ofText wovenCode).position? range.stop = some stop ∧
          Executed (LookupSession.ofMap wovenMap).sourcePosition? start stop 1 ∧
          records wovenMap (LookupSession.ofMap wovenMap).sourcePosition? wovenCode [range]
            ⟨none, [], none⟩ = .ok rs ∧ rs[1]? = some r ∧ r.ranges = [] := by
  refine ⟨ofJson_wovenText, fun path => rfl, ?_⟩
  have hsecond : ResolvesTo (LookupSession.ofMap wovenMap).sourcePosition? ⟨2, 0⟩ 1 := ⟨_, rfl, rfl⟩
  have hthird : ResolvesTo (LookupSession.ofMap wovenMap).sourcePosition? ⟨3, 5⟩ 1 := ⟨_, rfl, rfl⟩
  simp only [List.forall_mem_cons, List.not_mem_nil, false_implies, implies_true, and_true]
  refine ⟨⟨by decide, by decide +kernel, ⟨1, 0⟩, ⟨3, 2⟩, _, _, rfl, rfl, ?_, rfl, rfl, rfl⟩,
    ⟨by decide, by decide +kernel, ⟨3, 0⟩, ⟨3, 5⟩, _, _, rfl, rfl, ?_, rfl, rfl, rfl⟩,
    ⟨by decide, by decide +kernel, ⟨1, 1⟩, ⟨3, 6⟩, _, _, rfl, rfl, ?_, rfl, rfl, rfl⟩⟩
  · exact Or.inr (Or.inr ⟨2, by decide, by decide, hsecond⟩)
  · exact Or.inr (Or.inl ⟨by decide, hthird⟩)
  · exact Or.inr (Or.inr ⟨2, by decide, by decide, hsecond⟩)

end Coverage

end Assay
