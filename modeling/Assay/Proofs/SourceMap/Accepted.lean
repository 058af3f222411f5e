import Assay.Proofs.SourceMap.RoundTrip

/-!
# Maps that are accepted

`backed_applySegment` says what holds of every token that is read from mappings. `ofJson_ok` says that
the map of every accepted document is well formed and comes back from its own document and comment.
-/

namespace Assay

namespace Mappings

variable {a : Arithmetic}

/-! ### Additions that answer -/

theorem word_lt (n : Int) : word n < 0x100000000 := by
  unfold word
  omega

theorem Arithmetic.eq_of_keep {α : Type} [DecidableEq α] {kept sum r : α}
    (h : a.keep kept sum = .ok r) : r = kept ∧ (a = .checked → r = sum) := by
  unfold keep at h
  split at h
  next => cases h
  next hkeep =>
    cases h
    exact ⟨rfl, fun ha => Classical.not_not.mp fun hne => hkeep ⟨ha, hne⟩⟩

theorem Arithmetic.eq_of_add64 {m n r : Int} (h : a.add64 m n = .ok r) : r = Vlq.wrap64 (m + n) :=
  (eq_of_keep h).1

/-- The number after another one counts from one on if additions are checked. -/
theorem Arithmetic.eq_of_next32 {n : Int} {r : Nat} (h : a.next32 (word n) = .ok r) :
    r = word (n + 1) ∧ (a = .checked → 1 ≤ r) := by
  obtain ⟨hkept, hsum⟩ := eq_of_keep h
  refine ⟨?_, fun ha => ?_⟩
  · rw [hkept]
    unfold word
    omega
  · rw [hsum ha]
    exact Nat.succ_pos _

theorem Sums.eq_of_addColumn {start : Nat} {s s' : Sums} {n : Int}
    (h : s.addColumn a start n = .ok s') :
    s' = { s with column := Vlq.wrap64 (s.column + n) } := by
  obtain ⟨column, hcolumn, h⟩ := bind_eq_ok h
  split at h
  next => cases h
  next =>
    cases h
    rw [Arithmetic.eq_of_add64 hcolumn]

theorem Sums.eq_of_addOrigin {start count : Nat} {s s' : Sums} {source line column : Int}
    (h : s.addOrigin a start count source line column = .ok s') :
    s' = { s with
        source := Vlq.wrap64 (s.source + source)
        originLine := Vlq.wrap64 (s.originLine + line)
        originColumn := Vlq.wrap64 (s.originColumn + column) } ∧
      0 ≤ s'.source ∧ s'.source < count := by
  obtain ⟨source', hsource, h⟩ := bind_eq_ok h
  obtain ⟨line', hline, h⟩ := bind_eq_ok h
  obtain ⟨column', hcolumn, h⟩ := bind_eq_ok h
  split at h
  next => cases h
  next hbounds =>
    split at h
    next => cases h
    next =>
      cases h
      refine ⟨?_, by dsimp only; omega⟩
      rw [Arithmetic.eq_of_add64 hsource, Arithmetic.eq_of_add64 hline,
        Arithmetic.eq_of_add64 hcolumn]

theorem Sums.eq_of_addName {s s' : Sums} {n : Int} (h : s.addName a n = .ok s') :
    s' = { s with name := Vlq.wrap64 (s.name + n) } := by
  obtain ⟨name, hname, h⟩ := bind_eq_ok h
  cases h
  rw [Arithmetic.eq_of_add64 hname]

theorem Sums.eq_of_origin {s : Sums} {name : Option Nat} {o : Origin}
    (h : s.origin a name = .ok o) :
    o = ⟨word s.source, word (s.originLine + 1), word s.originColumn, name⟩ ∧
      (a = .checked → 1 ≤ o.line) := by
  obtain ⟨line, hline, h⟩ := bind_eq_ok h
  cases h
  obtain ⟨hword, hone⟩ := Arithmetic.eq_of_next32 hline
  exact ⟨by rw [hword], hone⟩

/-! ### Tokens that are read -/

/-- A token from a line on, in one of `count` sources; its origin is on a line from 1 on if
additions are checked. -/
structure Backed (a : Arithmetic) (count line : Nat) (t : MapToken) : Prop where
  line : line ≤ t.generated.line
  fits : t.Fits
  source : t.SourceBelow count
  originLine : a = .checked → t.LineFromOne

theorem backed_origin {line column count : Nat} {s : Sums} {name : Option Nat} {o : Origin}
    (h : s.origin a name = .ok o) (hsource : 0 ≤ s.source ∧ s.source < count)
    (hcolumn : column < 0x100000000) (hname : ∀ n ∈ name, n < 0x100000000) :
    Backed a count line ⟨⟨line, column⟩, some o⟩ := by
  obtain ⟨rfl, hone⟩ := Sums.eq_of_origin h
  refine ⟨Nat.le_refl line, ⟨hcolumn, fun o ho => ?_⟩, fun o ho => ?_, fun ha o ho => ?_⟩
  · obtain rfl := Option.mem_some_iff.mp ho
    exact ⟨word_lt _, word_lt _, word_lt _, hname⟩
  · obtain rfl := Option.mem_some_iff.mp ho
    dsimp only [word]
    omega
  · obtain rfl := Option.mem_some_iff.mp ho
    exact hone ha

theorem backed_applySegment {line start count : Nat} {s s' : Sums} {values : List Int}
    {t : MapToken} (h : applySegment a line start count s values = .ok (s', t)) :
    Backed a count line t := by
  unfold applySegment at h
  split at h
  · obtain ⟨s₁, -, h⟩ := bind_eq_ok h
    cases h
    exact ⟨Nat.le_refl line, ⟨word_lt _, nofun⟩, nofun, fun _ => nofun⟩
  · obtain ⟨s₁, -, h⟩ := bind_eq_ok h
    obtain ⟨s₂, horigin, h⟩ := bind_eq_ok h
    obtain ⟨o, ho, h⟩ := bind_eq_ok h
    cases h
    exact backed_origin ho (Sums.eq_of_addOrigin horigin).2 (word_lt _) nofun
  · obtain ⟨s₁, -, h⟩ := bind_eq_ok h
    obtain ⟨s₂, horigin, h⟩ := bind_eq_ok h
    obtain ⟨s₃, hname, h⟩ := bind_eq_ok h
    obtain ⟨o, ho, h⟩ := bind_eq_ok h
    cases h
    have hsource := (Sums.eq_of_addOrigin horigin).2
    obtain rfl := Sums.eq_of_addName hname
    refine backed_origin ho hsource (word_lt _) fun n hn => ?_
    obtain rfl := Option.mem_some_iff.mp hn
    exact word_lt _
  · cases h

theorem Backed.mono {count line line' : Nat} {t : MapToken} (h : Backed a count line t)
    (hline : line' ≤ line) : Backed a count line' t :=
  { h with line := Nat.le_trans hline h.line }

/-- By induction on the fuel: what follows a segment stands on its line or on a later one. -/
theorem backed_decodeFrom {count fuel offset line : Nat} {s : Sums} {text : List Char}
    {tokens : List MapToken} (h : decodeFrom a count fuel offset line s text = .ok tokens) :
    ∀ t ∈ tokens, Backed a count line t := by
  induction fuel generalizing offset line s text tokens with
  | zero =>
    cases h
    exact List.forall_mem_nil _
  | succ fuel ih =>
    cases text with
    | nil =>
      cases h
      exact List.forall_mem_nil _
    | cons c r =>
      rw [decodeFrom] at h
      split at h
      next => exact fun t ht => (ih h t ht).mono (Nat.le_succ _)
      split at h
      next => exact ih h
      next =>
        obtain ⟨⟨values, rest, next⟩, -, h⟩ := bind_eq_ok h
        obtain ⟨⟨s', t⟩, happly, h⟩ := bind_eq_ok h
        obtain ⟨tokens', hrest, h⟩ := bind_eq_ok h
        cases h
        exact List.forall_mem_cons.mpr ⟨backed_applySegment happly, ih hrest⟩

theorem backed_decode {text : List Char} {count : Nat} {tokens : List MapToken}
    (h : decode a text count = .ok tokens) : ∀ t ∈ tokens, Backed a count 1 t := backed_decodeFrom h

end Mappings

namespace SourceMap

/-- Tokens put in order, those at one place in the order they had. -/
structure Ordered (tokens result : List MapToken) : Prop where
  perm : result.Perm tokens
  sorted : result.Pairwise (·.generated.le ·.generated)
  stable : ∀ p, result.filter (·.generated == p) = tokens.filter (·.generated == p)

theorem sortTokens_ordered (tokens : List MapToken) : Ordered tokens (sortTokens tokens) := by
  have htrans (a b c : MapToken) : a.generated.le b.generated → b.generated.le c.generated →
      a.generated.le c.generated := Position.le_trans _ _ _
  have htotal (a b : MapToken) : a.generated.le b.generated || b.generated.le a.generated :=
    Position.le_total _ _
  have hperm : (sortTokens tokens).Perm tokens := List.mergeSort_perm _ _
  refine ⟨hperm, List.pairwise_mergeSort htrans htotal tokens, fun p => ?_⟩
  -- tokens at one place are in order already, so sorting keeps them as a sublist
  have hplace : (tokens.filter (·.generated == p)).Pairwise (·.generated.le ·.generated) := by
    refine List.pairwise_of_forall_mem_list fun a ha b hb => ?_
    have ha := eq_of_beq (List.mem_filter.mp ha).2
    have hb := eq_of_beq (List.mem_filter.mp hb).2
    rw [ha, hb]
    exact Position.le_refl p
  have hsub := List.sublist_mergeSort htrans htotal hplace List.filter_sublist
  have hfilter := hsub.filter (·.generated == p)
  simp only [List.filter_filter, Bool.and_self] at hfilter
  exact (hfilter.eq_of_length (hperm.filter _).length_eq.symm).symm

end SourceMap

namespace MapDocument

theorem length_rootedSources (d : MapDocument) : d.rootedSources.length = d.sources.length := by
  unfold rootedSources
  split
  · rfl
  · split
    · rfl
    · exact List.length_map _

theorem length_of_textsOf {contents : List (Option String)} {sources texts : List String}
    (hlength : contents.length = sources.length) (h : textsOf contents sources = .ok texts) :
    texts.length = sources.length := by
  induction contents generalizing sources texts with
  | nil =>
    cases h
    exact hlength
  | cons content contents ih =>
    cases sources with
    | nil => cases hlength
    | cons source sources =>
      cases content with
      | none => cases h
      | some content =>
        obtain ⟨texts', htexts, h⟩ := bind_eq_ok h
        cases h
        exact congrArg Nat.succ (ih (Nat.succ.inj hlength) htexts)

end MapDocument

namespace SourceMap

/-- The parts of an accepted document, with its tokens in the order of its mappings. -/
theorem parts_of_ofJson {s : List Char} {m : SourceMap} (h : ofJson s = .ok m) :
    ∃ d tokens, (Json.read? s).bind MapDocument.ofJson? = some d ∧
      Mappings.decode .checked d.mappings.toList m.sources.length = .ok tokens ∧
      Ordered tokens m.tokens ∧ m.contents.length = m.sources.length := by
  obtain ⟨d, hd, h⟩ := ofJson_eq_ok.mp h
  obtain ⟨-, hlength, texts, tokens, htexts, htokens, rfl⟩ := MapDocument.toMap_eq_ok.mp h
  exact ⟨d, tokens, hd, htokens, sortTokens_ordered tokens,
    MapDocument.length_of_textsOf (hlength.symm.trans d.length_rootedSources.symm) htexts⟩

theorem backed_of_ofJson {s : List Char} {m : SourceMap} (h : ofJson s = .ok m) :
    ∀ t ∈ m.tokens, Mappings.Backed .checked m.sources.length 1 t := by
  obtain ⟨d, tokens, -, htokens, hordered, -⟩ := parts_of_ofJson h
  exact fun t ht => Mappings.backed_decode htokens t (hordered.perm.mem_iff.mp ht)

theorem wellFormed_of_ofJson {s : List Char} {m : SourceMap} (h : ofJson s = .ok m) :
    m.WellFormed := by
  obtain ⟨d, tokens, -, -, hordered, hcontents⟩ := parts_of_ofJson h
  have hbacked := backed_of_ofJson h
  exact ⟨hcontents, hordered.sorted, fun t ht => (hbacked t ht).fits,
    fun t ht => (hbacked t ht).line, fun t ht => (hbacked t ht).source⟩

/-- A carried map was read from a document. -/
theorem exists_document_of_ofInline {s : List Char} {m : SourceMap} (h : ofInline s = .ok m) :
    ∃ document, ofJson document = .ok m := by
  unfold ofInline at h
  split at h
  next => cases h
  next payload _ =>
    split at h
    next => cases h
    next bytes _ =>
      split at h
      next => cases h
      next json _ => exact ⟨json.toList, h⟩

theorem wellFormed_of_ofInline {s : List Char} {m : SourceMap} (h : ofInline s = .ok m) :
    m.WellFormed := by
  obtain ⟨document, hdocument⟩ := exists_document_of_ofInline h
  exact wellFormed_of_ofJson hdocument

/-- The map of an accepted document is well formed, with its tokens those of the mappings in order
and its origins on lines from 1 on, and it comes back from its own document and comment. -/
theorem ofJson_ok {s : List Char} {m : SourceMap} (h : ofJson s = .ok m) :
    ∃ d tokens, (Json.read? s).bind MapDocument.ofJson? = some d ∧
      Mappings.decode .checked d.mappings.toList m.sources.length = .ok tokens ∧
      Ordered tokens m.tokens ∧ m.WellFormed ∧ (∀ t ∈ m.tokens, t.LineFromOne) ∧
      ofJson m.toJson.toList = .ok m ∧ ofInline m.toInline.toList = .ok m := by
  obtain ⟨d, tokens, hd, htokens, hordered, -⟩ := parts_of_ofJson h
  have hwell := wellFormed_of_ofJson h
  have hlines : ∀ t ∈ m.tokens, t.LineFromOne := fun t ht => (backed_of_ofJson h t ht).originLine rfl
  have hjson := hwell.ofJson_toJson_iff.mpr hlines
  exact ⟨d, tokens, hd, htokens, hordered, hwell, hlines, hjson, by rwa [ofInline_toInline_alone]⟩

/-- A document is read part by part, and tokens in order stay as they are. -/
theorem ofJson_of_parts {s : List Char} {d : MapDocument} {texts : List String}
    {tokens : List MapToken} (hread : (Json.read? s).bind MapDocument.ofJson? = some d)
    (hversion : d.version = 3) (hlength : d.sources.length = d.contents.length)
    (htexts : MapDocument.textsOf d.contents d.rootedSources = .ok texts)
    (hdecode : (Mappings.decode .checked d.mappings.toList d.rootedSources.length).toOption =
      some tokens)
    (hsorted : tokens.Pairwise (·.generated.le ·.generated)) :
    ofJson s = .ok ⟨d.rootedSources, texts, d.names, tokens⟩ := by
  have htokens : Mappings.decode .checked d.mappings.toList d.rootedSources.length = .ok tokens := by
    cases h : Mappings.decode .checked d.mappings.toList d.rootedSources.length with
    | error e =>
      rw [h] at hdecode
      cases hdecode
    | ok tokens' =>
      rw [h] at hdecode
      rw [Option.some.inj hdecode]
  refine ofJson_eq_ok.mpr ⟨d, hread, MapDocument.toMap_eq_ok.mpr
    ⟨hversion, hlength, texts, tokens, htexts, htokens, ?_⟩⟩
  rw [sortTokens_of_pairwise hsorted]

/-- The document of a map with a root for its source and a segment on the second line. -/
def rootedText : List Char :=
  ("\x7b\"version\":3,\"sourceRoot\":\"r/\",\"sources\":[\"a.js\"]," ++
    "\"sourcesContent\":[\"x\"],\"mappings\":\";EAACA\"\x7d").toList

def rootedMap : SourceMap := ⟨["r/a.js"], ["x"], [], [⟨⟨2, 2⟩, some ⟨0, 1, 1, some 0⟩⟩]⟩

theorem ofJson_ok_rootedText :
    ofJson rootedText = .ok rootedMap ∧ ∃ d tokens,
      (Json.read? rootedText).bind MapDocument.ofJson? = some d ∧
      Mappings.decode .checked d.mappings.toList 1 = .ok tokens ∧ Ordered tokens rootedMap.tokens ∧
      rootedMap.WellFormed ∧ (∀ t ∈ rootedMap.tokens, t.LineFromOne) ∧
      ofJson rootedMap.toJson.toList = .ok rootedMap ∧
      ofInline rootedMap.toInline.toList = .ok rootedMap := by
  have h : ofJson rootedText = .ok rootedMap :=
    ofJson_of_parts (d := ⟨3, none, some "r/", ["a.js"], [some "x"], [], ";EAACA"⟩)
      (by decide +kernel) rfl rfl rfl (by decide +kernel) (by decide)
  exact ⟨h, ofJson_ok h⟩

end SourceMap

end Assay
