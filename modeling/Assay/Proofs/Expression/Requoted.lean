import Assay.Expression.Printer
import Assay.Proofs.Grammar.Begins
import Assay.Proofs.Text.Encodings

/-!
# The values of string literals

`StringValue` says which code units a string literal stands for, escape by escape.
`doubleQuoted_value` says that a literal in double quotes stands for the same ones.
-/

namespace Assay.Quoted

open Token

/-- A code point in UTF-16. One in the range of the surrogates is a unit of its own. -/
def pointUnits (n : Nat) : List Nat :=
  if n < 0x10000 then [n] else [0xD800 + (n - 0x10000) / 0x400, 0xDC00 + (n - 0x10000) % 0x400]

/-- What a single character behind a backslash stands for: nothing if a line ends there. -/
def escapedUnits (c : Char) : List Nat :=
  if isLineBreak c then []
  else match c with
    | 'b' => [8]
    | 't' => [9]
    | 'n' => [10]
    | 'v' => [11]
    | 'f' => [12]
    | 'r' => [13]
    | c => Text.charCodeUnits c

/-- The code units of an escape after its backslash, and what follows it. -/
def escape? : List Char → Option (List Nat × List Char)
  | [] => none
  | '\r' :: '\n' :: r => some ([], r)
  | 'x' :: a :: b :: r =>
    if isHexDigit a ∧ isHexDigit b then some ([hexNumber [a, b]], r) else none
  | 'u' :: r => (unicodeEscape? r).map fun (n, rest) => (pointUnits n, rest)
  | c :: r =>
    if c = 'x' then none
    else if c = '0' then
      if r.head?.any fun d => '0' ≤ d && d ≤ '7' then none else some ([0], r)
    else if '1' ≤ c ∧ c ≤ '7' then none
    else some (escapedUnits c, r)

/-- The inside of a literal, its closing quote included, with the code units it stands for. -/
inductive Inside (quote : Char) : List Char → List Nat → Prop where
  | close : Inside quote [quote] []
  | char {c : Char} {r : List Char} {us : List Nat} (unescaped : c ≠ '\\') (inside : c ≠ quote)
      (line : ¬ (c = '\n' ∨ c = '\r')) (after : Inside quote r us) :
      Inside quote (c :: r) (Text.charCodeUnits c ++ us)
  | escape {r rest : List Char} {vs us : List Nat} (read : escape? r = some (vs, rest))
      (after : Inside quote rest us) : Inside quote ('\\' :: r) (vs ++ us)

/-- A string literal with the code units it stands for. -/
def StringValue (raw : List Char) (us : List Nat) : Prop :=
  ∃ quote r, raw = quote :: r ∧ (quote = '"' ∨ quote = '\'') ∧ Inside quote r us

variable {quote : Char} {s r rest : List Char} {us vs : List Nat}

theorem Inside.ne_nil (h : Inside quote s us) : s ≠ [] := by
  cases h <;> exact List.cons_ne_nil _ _

theorem ne_backslash (h : quote = '"' ∨ quote = '\'') : quote ≠ '\\' := by
  rcases h with rfl | rfl <;> decide

theorem inside_quote (hquote : quote ≠ '\\') :
    Inside quote (quote :: r) us ↔ r = [] ∧ us = [] := by
  constructor
  · intro h
    cases h with
    | close => exact ⟨rfl, rfl⟩
    | char _ hopen => exact absurd rfl hopen
    | escape => exact absurd rfl hquote
  · rintro ⟨rfl, rfl⟩
    exact .close

theorem inside_char {c : Char} (hc : c ≠ '\\') (hopen : c ≠ quote) :
    Inside quote (c :: r) us ↔
      ¬ (c = '\n' ∨ c = '\r') ∧ ∃ vs, Inside quote r vs ∧ us = Text.charCodeUnits c ++ vs := by
  constructor
  · intro h
    cases h with
    | close => exact absurd rfl hopen
    | char _ _ line after => exact ⟨line, _, after, rfl⟩
    | escape => exact absurd rfl hc
  · rintro ⟨line, vs, after, rfl⟩
    exact .char hc hopen line after

theorem inside_escape (hquote : quote ≠ '\\') :
    Inside quote ('\\' :: r) us ↔
      ∃ vs rest ws, escape? r = some (vs, rest) ∧ Inside quote rest ws ∧ us = vs ++ ws := by
  constructor
  · intro h
    cases h with
    | close => exact absurd rfl hquote
    | char hc => exact absurd rfl hc
    | escape read after => exact ⟨_, _, _, read, after, rfl⟩
  · rintro ⟨vs, rest, ws, read, after, rfl⟩
    exact .escape read after

/-- A text is the inside of a literal in one way only. -/
theorem Inside.unique (hquote : quote ≠ '\\') (h : Inside quote s us) (h' : Inside quote s vs) :
    us = vs := by
  induction h generalizing vs with
  | close => exact ((inside_quote hquote).mp h').2.symm
  | char hc hopen _ _ ih =>
    obtain ⟨-, ws, after, rfl⟩ := (inside_char hc hopen).mp h'
    rw [ih after]
  | escape read _ ih =>
    obtain ⟨_, _, ws, read', after, rfl⟩ := (inside_escape hquote).mp h'
    obtain ⟨rfl, rfl⟩ := Prod.mk.inj (Option.some.inj (read.symm.trans read'))
    rw [ih after]

theorem StringValue.unique (h : StringValue s us) (h' : StringValue s vs) : us = vs := by
  obtain ⟨quote, r, rfl, hquote, hus⟩ := h
  obtain ⟨quote', r', heq, -, hvs⟩ := h'
  obtain ⟨rfl, rfl⟩ := List.cons.inj heq
  exact hus.unique (ne_backslash hquote) hvs

/-! ### Escapes -/

/-- Escapes are read up to where the lexer reads them. -/
theorem escape?_end (s : List Char) : (escape? s).map (·.2) = escapeEnd? s := by
  unfold escape?
  split
  next => rfl
  next r => rfl
  next a b r =>
    rw [escapeEnd?]
    split
    next => rfl
    next => rfl
  next r =>
    rw [escapeEnd?]
    cases unicodeEscape? r <;> rfl
  next c r hreturn hx hu =>
    rw [escapeEnd?]
    · split
      next => rfl
      next =>
        split
        next =>
          split
          next => rfl
          next => rfl
        next =>
          split
          next => rfl
          next => rfl
    · exact hreturn
    · exact hx
    · exact hu

/-- A character of an escape that is neither a quote nor a backslash. -/
def IsPlain (c : Char) : Prop := c ≠ '\\' ∧ c ≠ '\'' ∧ c ≠ '"'

theorem isPlain_of_isHexDigit {c : Char} (h : isHexDigit c) : IsPlain c := by
  refine ⟨?_, ?_, ?_⟩ <;> rintro rfl <;> revert h <;> decide

theorem isPlain_of_inEscape {c : Char} (h : InEscape c) : IsPlain c := by
  rcases h with h | rfl | rfl
  · exact isPlain_of_isHexDigit h
  · exact ⟨by decide, by decide, by decide⟩
  · exact ⟨by decide, by decide, by decide⟩

theorem escape?_char {c : Char} (hreturn : ∀ q, c = '\r' → r ≠ '\n' :: q) (hx : c ≠ 'x')
    (hu : c ≠ 'u') : escape? (c :: r) =
      if c = '0' then
        if r.head?.any fun d => '0' ≤ d && d ≤ '7' then none else some ([0], r)
      else if '1' ≤ c ∧ c ≤ '7' then none
      else some (escapedUnits c, r) := by
  rw [escape?, if_neg hx]
  · exact fun q hc hr => hreturn q hc hr
  · exact fun _ _ _ hc _ => hx hc
  · exact fun hc => hu hc

theorem octal_of_head {q : List Char} (hq : ∀ d ∈ q.head?, d ∈ r.head? ∨ ¬ IsPlain d)
    (h : q.head?.any fun d => '0' ≤ d && d ≤ '7') : r.head?.any fun d => '0' ≤ d && d ≤ '7' := by
  obtain ⟨d, hd, hoctal⟩ := Option.any_eq_true _ _ |>.mp h
  rcases hq d hd with hmem | hplain
  · rw [Option.mem_def.mp hmem]
    exact hoctal
  · refine absurd ⟨?_, ?_, ?_⟩ hplain <;> rintro rfl <;> revert hoctal <;> decide

/-- An escape of one character is the same before another text, unless that goes on with a character
with which this one did not. -/
theorem escape?_single {c : Char} {q : List Char} (hreturn : ∀ q, c = '\r' → r ≠ '\n' :: q)
    (hx : c ≠ 'x') (hu : c ≠ 'u') (h : escape? (c :: r) = some (vs, rest))
    (hq : ∀ d ∈ q.head?, d ∈ r.head? ∨ ¬ IsPlain d) :
    rest = r ∧ escape? (c :: q) = some (vs, q) := by
  have hreturn' : ∀ q', c = '\r' → q ≠ '\n' :: q' := by
    rintro q' rfl rfl
    rcases hq '\n' rfl with hmem | hplain
    · obtain ⟨r', rfl⟩ := List.head?_eq_some_iff.mp hmem
      exact hreturn r' rfl rfl
    · exact hplain ⟨by decide, by decide, by decide⟩
  rw [escape?_char hreturn hx hu] at h
  rw [escape?_char hreturn' hx hu]
  split at h
  next hzero =>
    rw [if_pos hzero]
    split at h
    next => cases h
    next hnone =>
      cases h
      exact ⟨rfl, if_neg fun hoctal => hnone (octal_of_head hq hoctal)⟩
  next hzero =>
    rw [if_neg hzero]
    split at h
    next => cases h
    next hnone =>
      cases h
      exact ⟨rfl, if_neg hnone⟩

/-- An escape is a character and perhaps plain ones behind it. It is the same before another text,
unless that goes on with a character with which this one did not. -/
theorem escape?_cut (h : escape? s = some (vs, rest)) :
    ∃ c w, s = c :: w ++ rest ∧ (∀ d ∈ w, IsPlain d) ∧
      ∀ r, (∀ d ∈ r.head?, d ∈ rest.head? ∨ ¬ IsPlain d) → escape? (c :: w ++ r) = some (vs, r) := by
  unfold escape? at h
  split at h
  next => cases h
  next r =>
    cases h
    refine ⟨'\r', ['\n'], rfl, ?_, fun _ _ => rfl⟩
    intro d hd
    obtain rfl := List.mem_singleton.mp hd
    exact ⟨by decide, by decide, by decide⟩
  next a b r =>
    split at h
    next hhex =>
      cases h
      refine ⟨'x', [a, b], rfl, ?_, fun r _ => ?_⟩
      · simp only [List.forall_mem_cons, List.not_mem_nil, false_implies, implies_true, and_true]
        exact ⟨isPlain_of_isHexDigit hhex.1, isPlain_of_isHexDigit hhex.2⟩
      · simp only [List.cons_append, List.nil_append, escape?, if_pos hhex]
    next => cases h
  next r =>
    obtain ⟨⟨n, q⟩, hq, heq⟩ := Option.map_eq_some_iff.mp h
    cases heq
    obtain ⟨w, rfl, hw, hwhole⟩ := unicodeEscape?_cut hq
    refine ⟨'u', w, rfl, fun d hd => isPlain_of_inEscape (hw d hd), fun r _ => ?_⟩
    rw [List.cons_append, escape?, unicodeEscape?_append r hwhole]
    rfl
  next c r hreturn hx hu =>
    have hne : c ≠ 'x' := by
      rintro rfl
      cases h
    have hwhole : escape? (c :: r) = some (vs, rest) := by
      rw [escape?_char hreturn hne hu]
      rwa [if_neg hne] at h
    obtain ⟨rfl, -⟩ := escape?_single hreturn hne hu hwhole fun d hd => .inl hd
    refine ⟨c, [], rfl, by simp, fun q hq => ?_⟩
    exact (escape?_single hreturn hne hu hwhole hq).2

/-! ### Literals -/

/-- The lexer ends a literal where its inside ends, by induction on the text left. -/
theorem stringEnd?_iff (hquote : quote ≠ '\\') {fuel : Nat} (hfuel : s.length ≤ fuel) :
    stringEnd? quote fuel s = some [] ↔ ∃ us, Inside quote s us := by
  induction fuel generalizing s with
  | zero =>
    obtain rfl := List.eq_nil_of_length_eq_zero (Nat.le_zero.mp hfuel)
    exact ⟨fun h => (by cases h), fun ⟨us, h⟩ => absurd rfl h.ne_nil⟩
  | succ fuel ih =>
    rw [stringEnd?.eq_def]
    dsimp only
    split
    next => exact ⟨fun h => (by cases h), fun ⟨us, h⟩ => absurd rfl h.ne_nil⟩
    next r =>
      rw [← escape?_end]
      cases hread : escape? r with
      | none => simp [inside_escape hquote, hread]
      | some p =>
        obtain ⟨vs, rest⟩ := p
        have hrest : rest.length ≤ fuel := by
          obtain ⟨c, w, rfl, -⟩ := escape?_cut hread
          simp only [List.length_cons, List.length_append] at hfuel
          omega
        rw [Option.map_some, Option.bind_some, ih hrest]
        constructor
        · rintro ⟨us, h⟩
          exact ⟨vs ++ us, .escape hread h⟩
        · rintro ⟨us, h⟩
          obtain ⟨_, _, ws, hread', after, -⟩ := (inside_escape hquote).mp h
          obtain ⟨rfl, rfl⟩ := Prod.mk.inj (Option.some.inj (hread.symm.trans hread'))
          exact ⟨ws, after⟩
    next c r hbackslash =>
      have hc : c ≠ '\\' := fun h => hbackslash h
      by_cases hopen : c = quote
      · subst hopen
        simp [inside_quote hquote]
      · rw [if_neg hopen]
        by_cases hline : c = '\n' ∨ c = '\r'
        · simp [inside_char hc hopen, hline]
        · rw [if_neg hline, ih (Nat.le_of_succ_le_succ hfuel)]
          constructor
          · rintro ⟨us, h⟩
            exact ⟨_, .char hc hopen hline h⟩
          · rintro ⟨us, h⟩
            obtain ⟨-, vs, after, -⟩ := (inside_char hc hopen).mp h
            exact ⟨vs, after⟩

/-- Exactly the string literals have a value. -/
theorem isStringText_iff (raw : String) : isStringText raw ↔ ∃ us, StringValue raw.toList us := by
  have hfuel (quote : Char) (r : List Char) : r.length ≤ (quote :: r).length := Nat.le_succ _
  constructor
  · intro h
    have hread : read? raw.toList = some (.string raw, []) := by simpa [isStringText] using h
    obtain ⟨quote, r, hraw, hquote, hend⟩ := read?_string hread
    rw [hraw] at hend ⊢
    obtain ⟨us, hus⟩ := (stringEnd?_iff (ne_backslash hquote) (hfuel quote r)).mp hend
    exact ⟨us, quote, r, rfl, hquote, hus⟩
  · rintro ⟨us, quote, r, hraw, hquote, hus⟩
    have hend := (stringEnd?_iff (ne_backslash hquote) (hfuel quote r)).mpr ⟨us, hus⟩
    have hread := read?_quote hquote hend
    have htaken : taken (quote :: r) [] = raw := by
      rw [← hraw, ← List.append_nil raw.toList, taken_append, String.ofList_toList]
    rw [htaken, ← hraw] at hread
    simpa [isStringText] using hread

/-! ### Double quotes -/

theorem requote_cons {c : Char} (hc : c ≠ '\\') (hquote : c ≠ '"') (r : List Char) :
    requote (c :: r) = c :: requote r := by
  rw [requote]
  · rintro _ rfl
    exact absurd rfl hc
  · rintro _ _ rfl
    exact absurd rfl hc
  · exact hquote

theorem requote_plain {w : List Char} (hw : ∀ d ∈ w, IsPlain d) (r : List Char) :
    requote (w ++ r) = w ++ requote r := by
  induction w with
  | nil => rfl
  | cons c w ih =>
    obtain ⟨hc, hw⟩ := List.forall_mem_cons.mp hw
    rw [List.cons_append, requote_cons hc.1 hc.2.2, ih hw, List.cons_append]

theorem requote_pair {c : Char} (hc : c ≠ '\'') (r : List Char) :
    requote ('\\' :: c :: r) = '\\' :: c :: requote r := by
  rw [requote]
  exact hc

/-- What has become of a text begins as the text did, or with a quote or a backslash. -/
theorem head?_requote (s : List Char) :
    ∀ d ∈ (requote s ++ ['"']).head?, d ∈ s.head? ∨ ¬ IsPlain d := by
  have hbackslash : ¬ IsPlain '\\' := fun h => h.1 rfl
  have hsingle : ¬ IsPlain '\'' := fun h => h.2.1 rfl
  have hdouble : ¬ IsPlain '"' := fun h => h.2.2 rfl
  unfold requote
  split <;> rintro d hd <;> obtain rfl := Option.some.inj hd
  · exact .inr hdouble
  · exact .inr hsingle
  · exact .inr hbackslash
  · exact .inr hbackslash
  · exact .inl rfl

/-- The inside of a literal in single quotes keeps its value, by induction on the characters and
escapes of it. -/
theorem inside_requote (h : Inside '\'' s us) : Inside '"' (requote s.dropLast ++ ['"']) us := by
  induction h with
  | close => exact .close
  | @char c r us hc hopen hline after ih =>
    rw [List.dropLast_cons_of_ne_nil after.ne_nil]
    by_cases hquote : c = '"'
    · subst hquote
      rw [requote]
      · have hread : escape? ('"' :: (requote r.dropLast ++ ['"'])) =
            some (Text.charCodeUnits '"', requote r.dropLast ++ ['"']) := rfl
        exact .escape hread ih
    · rw [requote_cons hc hquote]
      exact .char hc hquote hline ih
  | @escape r rest vs us read after ih =>
    obtain ⟨c, w, rfl, hw, hsame⟩ := escape?_cut read
    have hdrop : ('\\' :: (c :: w ++ rest)).dropLast = '\\' :: c :: (w ++ rest.dropLast) := by
      rw [← List.cons_append, ← List.cons_append]
      exact List.dropLast_append_of_ne_nil after.ne_nil
    rw [hdrop]
    by_cases hquote : c = '\''
    · subst hquote
      obtain ⟨rfl, heq⟩ : [39] = vs ∧ w ++ rest = rest := Prod.mk.inj (Option.some.inj read)
      obtain rfl : w = [] := List.append_left_eq_self.mp heq
      exact .char (by decide) (by decide) (by decide) ih
    · rw [requote_pair hquote, requote_plain hw, List.cons_append, List.cons_append,
        List.append_assoc]
      refine .escape (hsame _ fun d hd => ?_) ih
      rcases head?_requote rest.dropLast d hd with hmem | hplain
      · refine .inl ?_
        cases rest with
        | nil => cases hmem
        | cons e rest =>
          cases rest with
          | nil => cases hmem
          | cons f rest => exact hmem
      · exact .inr hplain

theorem doubleQuoted_doubleQuoted (raw : List Char) :
    doubleQuoted (doubleQuoted raw) = doubleQuoted raw := by
  cases raw with
  | nil => rfl
  | cons c r =>
    by_cases hc : c = '\''
    · subst hc
      cases r with
      | nil => rfl
      | cons d r => rfl
    · have hsame : doubleQuoted (c :: r) = c :: r := by
        unfold doubleQuoted
        split
        next heq => exact absurd (List.cons.inj heq).1 hc
        next => rfl
      rw [hsame, hsame]

theorem stringValue_doubleQuoted (h : StringValue s us) : StringValue (doubleQuoted s) us := by
  obtain ⟨quote, r, rfl, rfl | rfl, hus⟩ := h
  · exact ⟨'"', r, rfl, .inl rfl, hus⟩
  · refine ⟨'"', requote r.dropLast ++ ['"'], ?_, .inl rfl, inside_requote hus⟩
    have hr : r.isEmpty = false := by simpa using hus.ne_nil
    rw [doubleQuoted, hr]
    rfl

theorem head?_doubleQuoted (h : StringValue s us) : (doubleQuoted s).head? = some '"' := by
  obtain ⟨quote, r, rfl, rfl | rfl, hus⟩ := h
  · rfl
  · have hr : r.isEmpty = false := by simpa using hus.ne_nil
    rw [doubleQuoted, hr]
    rfl

/-- A string literal has one value, and in double quotes it is a literal of the same value, which
stays as it is when it is put in double quotes again. -/
theorem doubleQuoted_value {raw : String} (h : isStringText raw) :
    ∃ us, (∀ vs, StringValue raw.toList vs ↔ vs = us) ∧
      isStringText (String.ofList (doubleQuoted raw.toList)) ∧
      (doubleQuoted raw.toList).head? = some '"' ∧
      (∀ vs, StringValue (doubleQuoted raw.toList) vs ↔ vs = us) ∧
      doubleQuoted (doubleQuoted raw.toList) = doubleQuoted raw.toList := by
  obtain ⟨us, hus⟩ := (isStringText_iff raw).mp h
  have hquoted := stringValue_doubleQuoted hus
  refine ⟨us, fun vs => ⟨fun hvs => hvs.unique hus, fun hvs => hvs ▸ hus⟩, ?_,
    head?_doubleQuoted hus, fun vs => ⟨fun hvs => hvs.unique hquoted, fun hvs => hvs ▸ hquoted⟩,
    doubleQuoted_doubleQuoted raw.toList⟩
  rw [isStringText_iff, String.toList_ofList]
  exact ⟨us, hquoted⟩

/-- A literal with a quote of either kind and a character outside the basic plane. -/
def mixedText : String := "'\\'\"\\u\x7b1F600\x7d'"

theorem doubleQuoted_value_mixedText :
    isStringText mixedText ∧
      doubleQuoted mixedText.toList = "\"'\\\"\\u\x7b1F600\x7d\"".toList ∧
      StringValue (doubleQuoted mixedText.toList) [39, 34, 0xD83D, 0xDE00] ∧
      isStringText (String.ofList (doubleQuoted mixedText.toList)) ∧
      doubleQuoted (doubleQuoted mixedText.toList) = doubleQuoted mixedText.toList := by
  have h : isStringText mixedText := by decide +kernel
  have hvalue : StringValue mixedText.toList
      ([39] ++ (Text.charCodeUnits '"' ++ ([0xD83D, 0xDE00] ++ []))) :=
    ⟨'\'', _, rfl, .inr rfl, .escape rfl (.char (by decide) (by decide) (by decide)
      (.escape rfl .close))⟩
  obtain ⟨us, hus, hquoted, -, hus', htwice⟩ := doubleQuoted_value h
  obtain rfl := (hus _).mp hvalue
  exact ⟨h, by decide +kernel, (hus' _).mpr rfl, hquoted, htwice⟩

end Assay.Quoted
