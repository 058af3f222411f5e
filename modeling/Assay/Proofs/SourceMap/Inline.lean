import Assay.Proofs.Codec.Base64
import Assay.Proofs.Text.Encodings
import Assay.SourceMap.Document

/-!
# Maps carried by a text

`ofInline_toInline` says that a text carries the map of its last comment, whatever stands before it,
as long as no other marker follows.
-/

namespace Assay

namespace Text

/-- A piece whose first character is not in a text begins behind it. -/
theorem occurs_append {c : Char} {piece a : List Char} (h : c ∉ a) (b : List Char) :
    occurs (c :: piece) (a ++ b) = occurs (c :: piece) b := by
  induction a with
  | nil => rfl
  | cons d a ih =>
    obtain ⟨hne, ha⟩ := List.ne_and_not_mem_of_not_mem_cons h
    rw [List.cons_append, occurs, ih ha, after?, if_neg hne]
    rfl

theorem firstWord_append {word after : List Char} (hne : word ≠ [])
    (hword : ∀ c ∈ word, isBlank c = false) (hafter : after.head?.all isBlank) :
    firstWord (word ++ after) = word := by
  obtain ⟨c, r, rfl⟩ := List.exists_cons_of_ne_nil hne
  have hstart : trimStart (c :: r ++ after) = c :: r ++ after :=
    List.dropWhile_cons_of_neg (by simp [hword c List.mem_cons_self])
  have hstop : after.takeWhile (!isBlank ·) = [] := by
    cases after with
    | nil => rfl
    | cons d after => exact List.takeWhile_cons_of_neg (by simpa using hafter)
  rw [firstWord, hstart, List.takeWhile_append_of_pos (by simpa using hword), hstop,
    List.append_nil]

end Text

namespace SourceMap

/-! ### The last marker -/

theorem lastPayload?_append {s payload : List Char} (h : lastPayload? s = some payload)
    (before : List Char) : lastPayload? (before ++ s) = some payload := by
  induction before with
  | nil => exact h
  | cons c before ih => rw [List.cons_append, lastPayload?, ih]

def Unmarked (s : List Char) : Prop :=
  Text.occurs marker s = false ∧ Text.occurs plainMarker s = false

instance (s : List Char) : Decidable (Unmarked s) :=
  inferInstanceAs (Decidable (_ ∧ _))

theorem lastPayload?_unmarked {s : List Char} (h : Unmarked s) : lastPayload? s = none := by
  induction s with
  | nil => rfl
  | cons c s ih =>
    obtain ⟨hmarker, hplain⟩ := h
    rw [Text.occurs, Bool.or_eq_false_iff, Option.isSome_eq_false_iff, Option.isNone_iff_eq_none]
      at hmarker hplain
    rw [lastPayload?, ih ⟨hmarker.2, hplain.2⟩, hmarker.1, hplain.1]
    rfl

/-- A marker begins with a number sign and holds no other. -/
theorem marker_eq : marker = '#' :: marker.tail ∧ '#' ∉ marker.tail := by decide

theorem plainMarker_eq : plainMarker = '#' :: plainMarker.tail := by decide

theorem Unmarked.append {a b : List Char} (ha : '#' ∉ a) (hb : Unmarked b) : Unmarked (a ++ b) := by
  obtain ⟨hmarker, hplain⟩ := hb
  rw [marker_eq.1] at hmarker
  rw [plainMarker_eq] at hplain
  constructor
  · rw [marker_eq.1, Text.occurs_append ha, hmarker]
  · rw [plainMarker_eq, Text.occurs_append ha, hplain]

/-- A marker that no other follows is the last. -/
theorem lastPayload?_marker {payload : List Char} (h : Unmarked payload) :
    lastPayload? (marker ++ payload) = some payload := by
  have hrest := lastPayload?_unmarked (h.append marker_eq.2)
  have hafter : Text.after? marker (marker ++ payload) = some payload :=
    (Text.after?_iff _ _ _).mpr rfl
  have hcons : marker ++ payload = '#' :: (marker.tail ++ payload) := by
    rw [← List.cons_append, ← marker_eq.1]
  rw [hcons] at hafter ⊢
  rw [lastPayload?, hrest, hafter]
  rfl

/-! ### The comment -/

theorem toJson_ne_empty (m : SourceMap) : m.toJson ≠ "" := by
  intro h
  have hchars := congrArg String.toList h
  rw [toJson, MapDocument.toJson, Json.compact, String.toList_ofList,
    Json.compactChars_object] at hchars
  cases hchars

/-- The comment of a map is read like its document. -/
theorem ofInline_toInline (m : SourceMap) (before : List Char) {after : List Char}
    (hblank : after.head?.all Text.isBlank) (hunmarked : Unmarked after) :
    ofInline (before ++ m.toInline.toList ++ after) = ofJson m.toJson.toList := by
  have hplain := Base64.encode_plain m.toJson.toUTF8.toList
  have hpayload : lastPayload? (before ++ m.toInline.toList ++ after) =
      some (Base64.encode m.toJson.toUTF8.toList ++ after) := by
    have hlast := lastPayload?_append
      (lastPayload?_marker (hunmarked.append fun h => (hplain '#' h).2 rfl)) (before ++ ['/', '/'])
    simpa only [toInline, String.toList_ofList, List.append_assoc, List.cons_append,
      List.nil_append] using hlast
  have hword : Text.firstWord (Base64.encode m.toJson.toUTF8.toList ++ after) =
      Base64.encode m.toJson.toUTF8.toList :=
    Text.firstWord_append (fun h => Text.toUTF8_ne_nil (toJson_ne_empty m) (Base64.encode_eq_nil h))
      (fun c hc => (hplain c hc).1) hblank
  simp only [ofInline, hpayload, hword, Base64.decode?_encode, Text.toArray_toList,
    Text.fromUTF8?_toUTF8]

theorem ofInline_toInline_alone (m : SourceMap) :
    ofInline m.toInline.toList = ofJson m.toJson.toList := by
  have hblank : ([] : List Char).head?.all Text.isBlank := rfl
  have h := ofInline_toInline m [] hblank (by decide)
  rwa [List.nil_append, List.append_nil] at h

end SourceMap

end Assay
