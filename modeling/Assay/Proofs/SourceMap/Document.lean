import Assay.Proofs.Json.RoundTrip
import Assay.Proofs.SourceMap.Mappings
import Assay.SourceMap.Document

/-!
# Source map documents there and back

`ofJson?_toJson` says that a document comes back from its JSON, and `ofJson_toJson_eq_ok` that a
written map is read as what its mappings decode to.
-/

namespace Assay

namespace MapDocument

theorem exact_toJson (d : MapDocument) : Json.Exact d.toJson := by
  obtain ⟨version, file, root, sources, contents, names, mappings⟩ := d
  refine .object ?_
  cases file <;> cases root <;>
    simp [Json.nat, Json.Exact.int, Json.Exact.string, Json.exact_strings, Json.exact_texts]

theorem slots?_toJson (d : MapDocument) :
    Json.slots? fieldNames d.toJson =
      some [some (.nat d.version), d.file.map .string, d.sourceRoot.map .string,
        some (Json.strings d.sources), some (.array (d.contents.map (Json.ofOption .string))),
        some (Json.strings d.names), some (.string d.mappings)] := by
  obtain ⟨version, file, root, sources, contents, names, mappings⟩ := d
  cases file <;> cases root <;>
    simp [toJson, Json.slots?, fieldNames, Json.slot?, Json.valuesOf]

theorem ofJson?_of_slots {j : Json} {d : MapDocument}
    {version file root sources contents names mappings : Option Json}
    (hslots : Json.slots? fieldNames j =
      some [version, file, root, sources, contents, names, mappings])
    (hversion : Json.required? Json.word? version = some d.version)
    (hfile : Json.orElse? (Json.nullable? Json.text?) none file = some d.file)
    (hroot : Json.orElse? (Json.nullable? Json.text?) none root = some d.sourceRoot)
    (hsources : Json.required? (Json.list? Json.text?) sources = some d.sources)
    (hcontents : Json.orElse? (Json.list? (Json.nullable? Json.text?)) [] contents =
      some d.contents)
    (hnames : Json.orElse? (Json.list? Json.text?) [] names = some d.names)
    (hmappings : Json.required? Json.text? mappings = some d.mappings) : ofJson? j = some d := by
  rw [ofJson?, hslots]
  simp only [hversion, hfile, hroot, hsources, hcontents, hnames, hmappings, Option.bind_eq_bind,
    Option.bind_some, Option.pure_def]

theorem ofJson?_toJson (d : MapDocument) (h : d.version < 0x100000000) :
    ofJson? d.toJson = some d := by
  have hversion : Json.required? Json.word? (some (.nat d.version)) = some d.version := by
    rw [Json.required?, Option.bind_some, Json.word?_nat h]
  have hcontents := Json.list?_map Json.nullable?_ofOption d.contents
  exact ofJson?_of_slots (slots?_toJson d) hversion (Json.orElse?_text d.file)
    (Json.orElse?_text d.sourceRoot) (Json.list?_strings d.sources) hcontents
    (Json.list?_strings d.names) rfl

theorem textsOf_some {contents sources : List String} (h : contents.length = sources.length) :
    textsOf (contents.map some) sources = .ok contents := by
  induction contents generalizing sources with
  | nil =>
    rw [List.length_nil] at h
    rw [List.eq_nil_of_length_eq_zero h.symm]
    rfl
  | cons c contents ih =>
    cases sources with
    | nil => simp at h
    | cons s sources =>
      rw [List.map_cons, textsOf, ih (by simpa using h)]
      rfl

/-- A document describes a map if it is of version 3, has all texts, and its mappings decode. -/
theorem toMap_eq_ok {d : MapDocument} {m : SourceMap} :
    d.toMap = .ok m ↔ d.version = 3 ∧ d.sources.length = d.contents.length ∧
      ∃ texts tokens, textsOf d.contents d.rootedSources = .ok texts ∧
        Mappings.decode .checked d.mappings.toList d.rootedSources.length = .ok tokens ∧
        m = ⟨d.rootedSources, texts, d.names, SourceMap.sortTokens tokens⟩ := by
  unfold toMap
  dsimp only
  constructor
  · intro h
    split at h
    next => cases h
    next hversion =>
      split at h
      next => cases h
      next hlength =>
        obtain ⟨texts, htexts, h⟩ := bind_eq_ok h
        obtain ⟨tokens, htokens, h⟩ := bind_eq_ok h
        cases h
        exact ⟨by omega, by omega, texts, tokens, htexts, htokens, rfl⟩
  · rintro ⟨hversion, hlength, texts, tokens, htexts, htokens, rfl⟩
    rw [if_neg (not_not_intro hversion), if_neg (not_not_intro hlength), htexts]
    simp only [htokens, bind, Except.bind, pure, Except.pure]

end MapDocument

namespace SourceMap

theorem ofJson_eq_ok {s : List Char} {m : SourceMap} :
    ofJson s = .ok m ↔
      ∃ d, (Json.read? s).bind MapDocument.ofJson? = some d ∧ d.toMap = .ok m := by
  unfold ofJson
  cases (Json.read? s).bind MapDocument.ofJson? with
  | none => simp
  | some d => simp

/-- A written map is read as its parts and what its mappings decode to. -/
theorem ofJson_toJson_eq_ok {m r : SourceMap} (h : m.contents.length = m.sources.length) :
    ofJson m.toJson.toList = .ok r ↔
      ∃ tokens, Mappings.decode .checked (Mappings.encode m.tokens) m.sources.length = .ok tokens ∧
        r = ⟨m.sources, m.contents, m.names, sortTokens tokens⟩ := by
  have hread := Json.read?_compact (MapDocument.exact_toJson (MapDocument.ofMap m))
  have hdocument := MapDocument.ofJson?_toJson (MapDocument.ofMap m) (show 3 < _ by decide)
  have htexts := MapDocument.textsOf_some h
  rw [ofJson_eq_ok, toJson, hread, Option.bind_some, hdocument]
  simp only [Option.some.injEq, exists_eq_left', MapDocument.toMap_eq_ok, MapDocument.ofMap,
    MapDocument.rootedSources, List.length_map, h, htexts, String.toList_ofList, true_and,
    Except.ok.injEq, exists_and_left]

end SourceMap

end Assay
