import Assay.Proofs.SourceMap.Document
import Assay.Proofs.SourceMap.Inline

/-!
# Source maps there and back

`ofInline_carried` says that a text gives back the map that its last comment carries if the map is
well formed and its origins are on lines from 1 on.
-/

namespace Assay

namespace Position

theorem line_le_of_le {p q : Position} (h : p.le q) : p.line ≤ q.line := by
  simp only [le, Bool.or_eq_true, Bool.and_eq_true, decide_eq_true_eq, beq_iff_eq] at h
  omega

theorem le_refl (p : Position) : p.le p := by simp [le]

theorem le_trans (p q r : Position) (hpq : p.le q) (hqr : q.le r) : p.le r := by
  simp only [le, Bool.or_eq_true, Bool.and_eq_true, decide_eq_true_eq, beq_iff_eq] at hpq hqr ⊢
  omega

theorem le_total (p q : Position) : p.le q || q.le p := by
  simp only [le, Bool.or_eq_true, Bool.and_eq_true, decide_eq_true_eq, beq_iff_eq]
  omega

end Position

namespace SourceMap

/-- A map with a text for each source and tokens in order, which point into its sources and fit
32 bits. -/
structure WellFormed (m : SourceMap) : Prop where
  contents : m.contents.length = m.sources.length
  sorted : m.tokens.Pairwise (·.generated.le ·.generated)
  fits : ∀ t ∈ m.tokens, t.Fits
  line : ∀ t ∈ m.tokens, 1 ≤ t.generated.line
  source : ∀ t ∈ m.tokens, t.SourceBelow m.sources.length

instance (m : SourceMap) : Decidable m.WellFormed :=
  decidable_of_iff
    (m.contents.length = m.sources.length ∧ m.tokens.Pairwise (·.generated.le ·.generated) ∧
      (∀ t ∈ m.tokens, t.Fits) ∧ (∀ t ∈ m.tokens, 1 ≤ t.generated.line) ∧
      ∀ t ∈ m.tokens, t.SourceBelow m.sources.length)
    ⟨fun ⟨hc, ho, hf, hl, hs⟩ => ⟨hc, ho, hf, hl, hs⟩,
      fun ⟨hc, ho, hf, hl, hs⟩ => ⟨hc, ho, hf, hl, hs⟩⟩

theorem sortTokens_of_pairwise {tokens : List MapToken}
    (h : tokens.Pairwise (·.generated.le ·.generated)) : sortTokens tokens = tokens :=
  List.mergeSort_of_pairwise h

namespace WellFormed

theorem reread {m : SourceMap} (h : m.WellFormed) :
    Mappings.Reread m.tokens (Mappings.decode .checked (Mappings.encode m.tokens) m.sources.length) :=
  Mappings.reread_decode h.fits h.source (h.sorted.imp Position.line_le_of_le) h.line

/-- The document of a map gives it back exactly if its origins are on lines from 1 on. -/
theorem ofJson_toJson_iff {m : SourceMap} (h : m.WellFormed) :
    ofJson m.toJson.toList = .ok m ↔ ∀ t ∈ m.tokens, t.LineFromOne := by
  rw [ofJson_toJson_eq_ok h.contents]
  rcases h.reread with ⟨hall, hok⟩ | ⟨⟨t, ht, hline⟩, byte, herror⟩
  · refine ⟨fun _ => hall, fun _ => ⟨m.tokens, hok, ?_⟩⟩
    rw [sortTokens_of_pairwise h.sorted]
  · constructor
    · rintro ⟨tokens, hok, -⟩
      rw [herror] at hok
      cases hok
    · exact fun hall => absurd (hall t ht) hline

end WellFormed

/-- A well-formed map whose origins are on lines from 1 on comes back from its comment in any text
in which no other marker follows. -/
theorem ofInline_carried {m : SourceMap} (h : m.WellFormed)
    (hlines : ∀ t ∈ m.tokens, t.LineFromOne) (before : List Char) {after : List Char}
    (hblank : after.head?.all Text.isBlank) (hunmarked : Unmarked after) :
    ofInline (before ++ m.toInline.toList ++ after) = .ok m := by
  rw [ofInline_toInline m before hblank hunmarked]
  exact h.ofJson_toJson_iff.mpr hlines

/-- A map with a token without an origin, one with a name and one far away. -/
def sample : SourceMap :=
  ⟨["a.js", "ü.js"], ["let a;\n", "\"💡\"\n"], ["a"],
    [⟨⟨1, 0⟩, none⟩, ⟨⟨1, 4⟩, some ⟨1, 4294967295, 4294967295, some 0⟩⟩,
      ⟨⟨3, 4294967295⟩, some ⟨0, 1, 0, none⟩⟩]⟩

/-- An earlier comment and text on later lines do not get in the way. -/
theorem ofInline_carried_sample :
    sample.WellFormed ∧ (∀ t ∈ sample.tokens, t.LineFromOne) ∧
      ofInline ("x\n//".toList ++ plainMarker ++ "e30=\n".toList ++ sample.toInline.toList ++
        "\nrest of it".toList) = .ok sample := by
  have hwell : sample.WellFormed := by decide
  have hlines : ∀ t ∈ sample.tokens, t.LineFromOne := by decide
  have hunmarked : Unmarked "\nrest of it".toList := by decide
  exact ⟨hwell, hlines, ofInline_carried hwell hlines _ (by decide) hunmarked⟩

end SourceMap

end Assay
