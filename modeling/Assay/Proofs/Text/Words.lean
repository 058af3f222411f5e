import Assay.Json.Printer
import Assay.Text.Category
import Mathlib.Data.List.Basic

/-!
# The words of a text

The words of a text are its longest runs of identifier characters. `mem_words_iff` says where a
word stands, and `mem_words_of_mem_words_quote` that the literal of a text has no word with an
underscore in front that the text has not.
-/

namespace Assay

namespace Text

theorem toNat_of_isDigit {c : Char} (h : c.isDigit) : c.toNat ∈ List.range' 48 10 := by
  simp only [Char.isDigit, Bool.and_eq_true, decide_eq_true_eq] at h
  have hlow := UInt32.le_iff_toNat_le.mp h.1
  have hhigh := UInt32.le_iff_toNat_le.mp h.2
  have h48 : ('0' : Char).val.toNat = 48 := by decide
  have h57 : ('9' : Char).val.toNat = 57 := by decide
  rw [List.mem_range'_1]
  show 48 ≤ c.val.toNat ∧ c.val.toNat < 48 + 10
  omega

theorem isIdentPart_of_isDigit {c : Char} (h : c.isDigit) : isIdentPart c := by
  have hall : ∀ n ∈ List.range' 48 10, isIdentPart (Char.ofNat n) := by decide
  have hc := hall c.toNat (toNat_of_isDigit h)
  rwa [Char.ofNat_toNat] at hc

/-- Every identifier of a script is one of its words, and so is what looks like one in its comments
and strings. -/
def words (s : List Char) : List (List Char) := (s.splitOnP (!isIdentPart ·)).filter (· ≠ [])

theorem words_nil : words [] = [] := by
  rw [words, List.splitOnP_nil]
  rfl

theorem words_append_cons {c : Char} (h : isIdentPart c = false) (s t : List Char) :
    words (s ++ c :: t) = words s ++ words t := by
  rw [words, List.splitOnP_append_cons s t (by rw [h]; rfl), List.filter_append]
  rfl

theorem words_cons {c : Char} (h : isIdentPart c = false) (s : List Char) :
    words (c :: s) = words s := by
  have := words_append_cons h [] s
  rwa [words_nil, List.nil_append, List.nil_append] at this

theorem words_of_identifier {w : List Char} (hne : w ≠ []) (h : w.all isIdentPart) :
    words w = [w] := by
  rw [words, List.splitOnP_eq_singleton fun c hc => by rw [List.all_eq_true.mp h c hc]; rfl]
  simp [hne]

/-- No identifier goes on from a text to what stands behind it. -/
def EndsWords (s : List Char) : Prop := ∀ c ∈ s.getLast?, isIdentPart c = false

/-- No identifier goes on from what stands before a text into it. -/
def StartsWords (s : List Char) : Prop := ∀ c ∈ s.head?, isIdentPart c = false

instance (s : List Char) : Decidable (EndsWords s) :=
  decidable_of_iff (s.getLast?.all (!isIdentPart ·))
    (by cases h : s.getLast? <;> simp [EndsWords, h])

theorem EndsWords.cons {c : Char} (hc : isIdentPart c = false) {s : List Char} (h : EndsWords s) :
    EndsWords (c :: s) := by
  intro d hd
  rw [List.getLast?_cons] at hd
  cases hs : s.getLast? with
  | none =>
    rw [hs] at hd
    obtain rfl : c = d := Option.some.inj hd
    exact hc
  | some e =>
    rw [hs] at hd
    obtain rfl : e = d := Option.some.inj hd
    exact h e hs

theorem EndsWords.append (s : List Char) {t : List Char} (hne : t ≠ []) (h : EndsWords t) :
    EndsWords (s ++ t) := by
  rwa [EndsWords, List.getLast?_append_of_ne_nil s hne]

theorem EndsWords.of_append {s t : List Char} (h : EndsWords (s ++ t)) : EndsWords t := by
  cases t with
  | nil => nofun
  | cons c t => rwa [EndsWords, List.getLast?_append_of_ne_nil s (List.cons_ne_nil c t)] at h

theorem words_append_of_starts (s : List Char) {t : List Char} (h : StartsWords t) :
    words (s ++ t) = words s ++ words t := by
  cases t with
  | nil => rw [words_nil, List.append_nil, List.append_nil]
  | cons c t =>
    have hc : isIdentPart c = false := h c rfl
    rw [words_append_cons hc, words_cons hc]

theorem words_append_of_ends {s : List Char} (h : EndsWords s) (t : List Char) :
    words (s ++ t) = words s ++ words t := by
  rcases List.eq_nil_or_concat' s with rfl | ⟨s, c, rfl⟩
  · rw [words_nil, List.nil_append, List.nil_append]
  · have hc : isIdentPart c = false := h c List.getLast?_concat
    have hwords := words_append_cons hc s []
    rw [words_nil, List.append_nil] at hwords
    rw [hwords, List.append_assoc, List.cons_append, List.nil_append, words_append_cons hc]

theorem words_append_append {s t : List Char} (hs : EndsWords s) (ht : EndsWords t)
    (u : List Char) : words (s ++ t ++ u) = words s ++ words t ++ words u := by
  rw [List.append_assoc, words_append_of_ends hs, words_append_of_ends ht, List.append_assoc]

/-- A word stands in a text between two characters, or ends of the text, that are not of it. -/
theorem mem_words_iff {w s : List Char} :
    w ∈ words s ↔ ∃ before after, s = before ++ w ++ after ∧ w ≠ [] ∧ w.all isIdentPart ∧
      EndsWords before ∧ StartsWords after := by
  constructor
  · induction hn : s.length using Nat.strongRecOn generalizing s with
    | ind n ih =>
      intro hw
      by_cases hall : s.all isIdentPart
      · by_cases hs : s = []
        · rw [hs, words_nil] at hw
          cases hw
        · rw [words_of_identifier hs hall, List.mem_singleton] at hw
          exact ⟨[], [], by simp [hw], hw ▸ hs, hw ▸ hall, nofun, nofun⟩
      · -- up to the first character of no identifier, and behind it
        obtain ⟨d, hfound⟩ : ∃ d, s.find? (!isIdentPart ·) = some d := by
          rw [← Option.isSome_iff_exists, List.find?_isSome]
          simpa using hall
        obtain ⟨hd, front, back, rfl, hfront⟩ := List.find?_eq_some_iff_append.mp hfound
        have hd : isIdentPart d = false := by simpa using hd
        have hfront : front.all isIdentPart := by simpa using hfront
        rw [words_append_cons hd, List.mem_append] at hw
        rcases hw with hw | hw
        · have hne : front ≠ [] := by
            rintro rfl
            rw [words_nil] at hw
            cases hw
          rw [words_of_identifier hne hfront, List.mem_singleton] at hw
          refine ⟨[], d :: back, by rw [hw]; rfl, hw ▸ hne, hw ▸ hfront, nofun, ?_⟩
          rintro c ⟨⟩
          exact hd
        · have hlt : back.length < n := by
            rw [← hn, List.length_append, List.length_cons]
            omega
          obtain ⟨before, after, rfl, hne, hident, hends, hstarts⟩ := ih _ hlt rfl hw
          exact ⟨front ++ d :: before, after, by simp, hne, hident,
            (hends.cons hd).append front (List.cons_ne_nil d before), hstarts⟩
  · rintro ⟨before, after, rfl, hne, hident, hends, hstarts⟩
    rw [words_append_of_starts _ hstarts, words_append_of_ends hends,
      words_of_identifier hne hident]
    simp

end Text

/-! ### Quoted texts -/

namespace Json

theorem isIdentPart_control : ∀ n < 0x20, Text.isIdentPart (Char.ofNat n) = false := by decide

theorem hexDigit_ne_underscore : ∀ n < 16, hexDigit n ≠ '_' := by decide

/-- A character stands for itself, or it is of no identifier and its escape has no underscore. -/
theorem escape_cases (c : Char) : escape c = [c] ∨
    (Text.isIdentPart c = false ∧ ∃ r, escape c = '\\' :: r ∧ '_' ∉ r) := by
  by_cases hquote : c = '"'
  · exact Or.inr (by rw [hquote]; exact ⟨by decide, ['"'], rfl, by decide⟩)
  by_cases hslash : c = '\\'
  · exact Or.inr (by rw [hslash]; exact ⟨by decide, ['\\'], rfl, by decide⟩)
  by_cases hcontrol : c.toNat < 0x20
  · have hident := isIdentPart_control c.toNat hcontrol
    rw [Char.ofNat_toNat] at hident
    refine Or.inr ⟨hident, ?_⟩
    have hhigh := hexDigit_ne_underscore (c.toNat / 16) (by omega)
    have hlow := hexDigit_ne_underscore (c.toNat % 16) (by omega)
    simp only [escape, hquote, hslash, hcontrol, if_true, if_false]
    split
    · exact ⟨_, rfl, by decide⟩
    split
    · exact ⟨_, rfl, by decide⟩
    split
    · exact ⟨_, rfl, by decide⟩
    split
    · exact ⟨_, rfl, by decide⟩
    split
    · exact ⟨_, rfl, by decide⟩
    · exact ⟨_, rfl, by simp [hhigh.symm, hlow.symm]⟩
  · exact Or.inl (by simp only [escape, hquote, hslash, hcontrol, if_false])

theorem escape_of_isIdentPart {c : Char} (h : Text.isIdentPart c) : escape c = [c] := by
  rcases escape_cases c with hself | ⟨hident, -⟩
  · exact hself
  · rw [h] at hident
    cases hident

/-- An underscore in an escaped text was one in the text. -/
theorem exists_of_flatMap_escape_underscore {s front back : List Char}
    (h : s.flatMap escape = front ++ '_' :: back) :
    ∃ front' back', s = front' ++ '_' :: back' ∧ front = front'.flatMap escape ∧
      back = back'.flatMap escape := by
  induction s generalizing front with
  | nil => simp at h
  | cons c s ih =>
    rw [List.flatMap_cons, List.append_eq_append_iff] at h
    -- the underscore stands behind the escape of the first character, or in it
    rcases h with ⟨between, rfl, hs⟩ | ⟨between, hc, hs⟩
    · obtain ⟨front', back', rfl, rfl, rfl⟩ := ih hs
      exact ⟨c :: front', back', rfl, rfl, rfl⟩
    · cases between with
      | nil =>
        obtain ⟨front', back', rfl, hnil, rfl⟩ := @ih [] (by simpa using hs.symm)
        refine ⟨c :: front', back', rfl, ?_, rfl⟩
        rw [List.flatMap_cons, ← hnil, hc, List.append_nil, List.append_nil]
      | cons d between =>
        obtain ⟨rfl, rfl⟩ := List.cons.inj hs
        rcases escape_cases c with hself | ⟨-, r, hr, hmem⟩
        · rw [hself] at hc
          obtain ⟨rfl, hc⟩ | ⟨front, rfl, hfront⟩ := List.cons_eq_append_iff.mp hc
          · obtain ⟨rfl, rfl⟩ := List.cons.inj hc
            exact ⟨[], s, rfl, rfl, rfl⟩
          · simp at hfront
        · have : '_' ∈ escape c := hc ▸ List.mem_append_right _ List.mem_cons_self
          rw [hr] at this
          rcases List.mem_cons.mp this with h | h
          · cases h
          · exact absurd h hmem

/-- Identifier characters stand in an escaped text as they do in the text. -/
theorem exists_of_flatMap_escape_identifier {s w back : List Char}
    (hw : ∀ c ∈ w, Text.isIdentPart c) (h : s.flatMap escape = w ++ back) :
    ∃ back', s = w ++ back' ∧ back = back'.flatMap escape := by
  induction w generalizing s with
  | nil => exact ⟨s, rfl, h.symm⟩
  | cons d w ih =>
    have hd : Text.isIdentPart d := hw d List.mem_cons_self
    cases s with
    | nil => cases h
    | cons c s =>
      rw [List.flatMap_cons] at h
      rcases escape_cases c with hself | ⟨-, r, hr, -⟩
      · rw [hself, List.singleton_append, List.cons_append] at h
        obtain ⟨rfl, hs⟩ := List.cons.inj h
        obtain ⟨back', rfl, hback⟩ := ih (fun e he => hw e (List.mem_cons_of_mem c he)) hs
        exact ⟨back', rfl, hback⟩
      · rw [hr] at h
        obtain ⟨rfl, -⟩ := List.cons.inj h
        exact absurd hd (by decide)

theorem endsWords_of_flatMap_escape {s : List Char} (h : Text.EndsWords (s.flatMap escape)) :
    Text.EndsWords s := by
  intro c hc
  obtain ⟨s, rfl⟩ := List.getLast?_eq_some_iff.mp hc
  by_contra hident
  rw [Bool.not_eq_false] at hident
  have hlast : c ∈ ((s ++ [c]).flatMap escape).getLast? := by
    rw [List.flatMap_append, List.flatMap_singleton, escape_of_isIdentPart hident]
    exact List.getLast?_concat
  rw [h c hlast] at hident
  cases hident

theorem startsWords_of_flatMap_escape {s : List Char} (h : Text.StartsWords (s.flatMap escape)) :
    Text.StartsWords s := by
  intro c hc
  obtain ⟨s, rfl⟩ := List.head?_eq_some_iff.mp hc
  by_contra hident
  rw [Bool.not_eq_false] at hident
  have hhead : c ∈ ((c :: s).flatMap escape).head? := by
    rw [List.flatMap_cons, escape_of_isIdentPart hident]
    rfl
  rw [h c hhead] at hident
  cases hident

theorem words_quote (s : List Char) :
    Text.words (quote s) = Text.words (s.flatMap escape) := by
  have hmark : Text.isIdentPart '"' = false := by decide
  rw [quote, List.cons_append, Text.words_cons hmark, Text.words_append_cons hmark,
    Text.words_nil, List.append_nil]

theorem words_quote_of_identifier {w : List Char} (hne : w ≠ [])
    (h : w.all Text.isIdentPart) : Text.words (quote w) = [w] := by
  have hw : w.flatMap escape = w := by
    rw [List.flatMap_congr fun c hc => escape_of_isIdentPart (List.all_eq_true.mp h c hc),
      List.flatMap_singleton']
  rw [words_quote, hw, Text.words_of_identifier hne h]

/-- The letters of an escape may run on into the word behind it, but not into one with an underscore
in front. -/
theorem mem_words_of_mem_words_quote {s w : List Char}
    (h : '_' :: w ∈ Text.words (quote s)) : '_' :: w ∈ Text.words s := by
  rw [words_quote, Text.mem_words_iff] at h
  obtain ⟨front, back, htext, hne, hident, hends, hstarts⟩ := h
  rw [List.append_assoc, List.cons_append] at htext
  obtain ⟨front', behind, rfl, rfl, hbehind⟩ := exists_of_flatMap_escape_underscore htext
  obtain ⟨back', rfl, rfl⟩ := exists_of_flatMap_escape_identifier
    (fun c hc => List.all_eq_true.mp hident c (List.mem_cons_of_mem _ hc)) hbehind.symm
  exact Text.mem_words_iff.mpr ⟨front', back', by simp, hne, hident,
    endsWords_of_flatMap_escape hends, startsWords_of_flatMap_escape hstarts⟩

end Json

end Assay
