import Assay.Grammar.Token

/-!
# Tokens at the front of a text

`Begins` says that a text begins with a token. The lemmas read one token off the front of a text:
names, strings and the operators that an operand may have in front. `readBy_of_read?` says which
reader has taken a token.
-/

namespace Assay.Token

/-- A token as it is written. -/
def text : Token → String
  | name w _ => w
  | privateName raw => raw
  | number raw => raw
  | string raw => raw
  | punct p => p
  | endOfText => ""

/-- A text begins with a token, behind which the rest stands. -/
structure Begins (t : Token) (s rest : List Char) : Prop where
  unskipped : ∀ fuel broken, skip? fuel broken s = some (s, broken)
  read : read? s = some (t, rest)
  shorter : rest.length < s.length
  written : taken s rest = t.text

/-- A sign is read as one token in front of a text, and in front of every piece with which the text
begins. -/
def Apart (t : Token) (sign s : List Char) : Prop := ∀ z, z <+: s → Begins t (sign ++ z) z

/-- Nothing or one space. -/
def IsSpacing (gap : List Char) : Prop := gap = [] ∨ gap = [' ']

theorem taken_append (s rest : List Char) : taken (s ++ rest) rest = String.ofList s := by
  rw [taken, List.length_append, Nat.add_sub_cancel, List.take_left]

/-- What is read off the front of a text begins it, unless it is skipped. -/
theorem begins_of_read {t : Token} {s rest : List Char} (hs : t.text.toList ++ rest = s)
    (nonempty : t.text.toList ≠ [])
    (unskipped : ∀ fuel broken, skip? fuel broken s = some (s, broken))
    (read : read? s = some (t, rest)) : Begins t s rest where
  unskipped := unskipped
  read := read
  shorter := by
    have := List.length_pos_iff.mpr nonempty
    rw [← hs, List.length_append]
    omega
  written := by rw [← hs, taken_append, String.ofList_toList]

/-! ### What is not skipped -/

theorem skip?_cons {c : Char} {r : List Char} (hslash : c ≠ '/') (hless : c ≠ '<')
    (hminus : c = '-' → r.head? ≠ some '-') (hblank : isLineBreak c = false ∧ isSpace c = false)
    (fuel : Nat) (broken : Bool) : skip? fuel broken (c :: r) = some (c :: r, broken) := by
  cases fuel with
  | zero => rfl
  | succ fuel =>
    unfold skip?
    split
    case h_1 heq => exact absurd (List.cons.inj heq).1 hslash
    case h_2 heq => exact absurd (List.cons.inj heq).1 hslash
    case h_3 heq => exact absurd (List.cons.inj heq).1 hless
    case h_4 heq =>
      obtain ⟨rfl, rfl⟩ := List.cons.inj heq
      exact absurd rfl (hminus rfl)
    case h_5 heq =>
      obtain ⟨rfl, rfl⟩ := List.cons.inj heq
      simp only [hblank.1, hblank.2, Bool.false_eq_true, if_false]
    case h_6 heq => cases heq

/-- The code points of characters that are skipped or may begin a comment, and of the backslash. -/
def skippedCodes : List Nat :=
  [9, 10, 11, 12, 13, 0x20, 0xA0, 0xFEFF, 0x1680, 0x202F, 0x205F, 0x3000, 0x2028, 0x2029, 45, 47, 60,
    92] ++ List.range' 0x2000 11

theorem toNat_not_mem_skippedCodes {c : Char} (h : Text.isIdentStart c) :
    c.toNat ∉ skippedCodes := by
  have hnone : ∀ n ∈ skippedCodes, Text.isIdentStart (Char.ofNat n) = false := by decide +kernel
  intro hmem
  have hc := hnone c.toNat hmem
  rw [Char.ofNat_toNat, h] at hc
  cases hc

theorem isLineBreak_eq_false {c : Char} (h : c.toNat ∉ skippedCodes) : isLineBreak c = false := by
  rw [← Bool.not_eq_true]
  refine fun hbreak => h ?_
  simp only [isLineBreak, Bool.or_eq_true, beq_iff_eq] at hbreak
  rcases hbreak with ((rfl | rfl) | h) | h
  · decide
  · decide
  · rw [h]; decide
  · rw [h]; decide

theorem isSpace_eq_false {c : Char} (h : c.toNat ∉ skippedCodes) : isSpace c = false := by
  rw [← Bool.not_eq_true]
  refine fun hspace => h ?_
  simp only [isSpace, Bool.or_eq_true, Bool.and_eq_true, beq_iff_eq, decide_eq_true_eq] at hspace
  simp only [skippedCodes, List.mem_append, List.mem_range'_1, List.mem_cons, List.not_mem_nil]
  omega

theorem ne_of_toNat {c d : Char} (h : c.toNat ∉ skippedCodes) (hd : d.toNat ∈ skippedCodes) :
    c ≠ d := by
  rintro rfl
  exact h hd

theorem skip?_of_code {c : Char} {r : List Char} (h : c.toNat ∉ skippedCodes) (fuel : Nat)
    (broken : Bool) : skip? fuel broken (c :: r) = some (c :: r, broken) :=
  skip?_cons (ne_of_toNat h (by decide)) (ne_of_toNat h (by decide))
    (fun hc => absurd hc (ne_of_toNat h (by decide))) ⟨isLineBreak_eq_false h, isSpace_eq_false h⟩
    fuel broken

/-! ### Names -/

/-- A text that is one identifier or keyword. -/
def isWordText (w : String) : Bool :=
  match w.toList with
  | c :: r => Text.isIdentStart c && r.all Text.isIdentPart
  | [] => false

/-- No name goes on with this text. -/
def endsWord (s : List Char) : Bool := s.head?.all fun c => !Text.isIdentPart c && c != '\\'

theorem nameChar?_cons {accepts : Char → Bool} {c : Char} {r : List Char} (hc : c ≠ '\\')
    (h : accepts c) : nameChar? accepts (c :: r) = some (c, false, r) := by
  unfold nameChar?
  split
  case h_1 heq => exact absurd (List.cons.inj heq).1 hc
  case h_2 heq =>
    obtain ⟨rfl, rfl⟩ := List.cons.inj heq
    rw [if_pos h]
  case h_3 heq => cases heq

theorem nameChar?_of_endsWord {s : List Char} (h : endsWord s) :
    nameChar? Text.isIdentPart s = none := by
  unfold nameChar?
  split
  case h_1 => simp [endsWord] at h
  case h_2 c r _ =>
    simp only [endsWord, List.head?_cons, Option.all_some, Bool.and_eq_true, Bool.not_eq_true'] at h
    rw [h.1]
    rfl
  case h_3 => rfl

theorem backslash_not_identPart : Text.isIdentPart '\\' = false := by decide

theorem nameTail_append {w rest : List Char} (hw : w.all Text.isIdentPart) (hrest : endsWord rest)
    {fuel : Nat} (hfuel : w.length ≤ fuel) : nameTail false fuel (w ++ rest) = (w, false, rest) := by
  induction w generalizing fuel with
  | nil =>
    cases fuel with
    | zero => rfl
    | succ fuel => rw [List.nil_append, nameTail, nameChar?_of_endsWord hrest]
  | cons c w ih =>
    simp only [List.all_cons, Bool.and_eq_true] at hw
    cases fuel with
    | zero => simp at hfuel
    | succ fuel =>
      have hc : c ≠ '\\' := by
        rintro rfl
        rw [backslash_not_identPart] at hw
        cases hw.1
      have hlength : w.length ≤ fuel := by simpa using hfuel
      simp only [List.cons_append, nameTail, nameChar?_cons hc hw.1, Bool.or_false, ih hw.2 hlength]

theorem name?_append {c : Char} {w rest : List Char} (hc : Text.isIdentStart c)
    (hw : w.all Text.isIdentPart) (hrest : endsWord rest) :
    name? (c :: w ++ rest) = some (.name (String.ofList (c :: w)) false, rest) := by
  have hbackslash := ne_of_toNat (d := '\\') (toNat_not_mem_skippedCodes hc) (by decide)
  have hhead : rest.head? ≠ some '\\' := by
    intro h
    rw [endsWord, h] at hrest
    simp at hrest
  have htail : nameTail false (w ++ rest).length (w ++ rest) = (w, false, rest) :=
    nameTail_append hw hrest (by rw [List.length_append]; omega)
  simp only [name?, List.cons_append, nameChar?_cons hbackslash hc, Option.bind_eq_bind,
    Option.bind_some, htail, hhead, if_false, Option.pure_def]

theorem begins_word {w : String} {rest : List Char} (hw : isWordText w) (hrest : endsWord rest) :
    Begins (.name w false) (w.toList ++ rest) rest := by
  unfold isWordText at hw
  split at hw
  case h_2 => cases hw
  case h_1 c r heq =>
    simp only [Bool.and_eq_true] at hw
    have hcode := toNat_not_mem_skippedCodes hw.1
    rw [heq]
    refine begins_of_read (by rw [text, heq]) (by rw [text, heq]; exact List.cons_ne_nil c r)
      (skip?_of_code hcode) ?_
    rw [List.cons_append, read?, if_pos (.inl hw.1), ← List.cons_append,
      name?_append hw.1 hw.2 hrest, ← heq, String.ofList_toList]

/-! ### Which reader takes a token -/

/-- A number begins with a digit, perhaps behind a point. -/
def startsNumber : List Char → Bool
  | c :: r => c.isDigit || (c == '.' && r.head?.any Char.isDigit)
  | [] => false

theorem name?_eq_name {s r : List Char} {t : Token} (h : name? s = some (t, r)) :
    ∃ w escaped, t = .name w escaped := by
  simp only [name?, Option.bind_eq_bind, Option.bind_eq_some_iff] at h
  obtain ⟨⟨c, escaped, tail⟩, _, h⟩ := h
  split at h
  · cases h
  · cases h
    exact ⟨_, _, rfl⟩

theorem punct?_eq_punct {s r : List Char} {t : Token} (h : punct? s = some (t, r)) :
    ∃ p, t = .punct p := by
  obtain ⟨p, _, h⟩ := Option.map_eq_some_iff.mp h
  exact ⟨p, (Prod.mk.inj h).1.symm⟩

/-- Which reader takes a token off a text, by the first character. -/
inductive ReadBy (c : Char) (s : List Char) : Token → List Char → Prop where
  | name {w : String} {escaped : Bool} {r : List Char} (starts : Text.isIdentStart c ∨ c = '\\')
      (read : name? (c :: s) = some (.name w escaped, r)) : ReadBy c s (.name w escaped) r
  | number {r : List Char} (starts : startsNumber (c :: s)) (ends : numberEnd? (c :: s) = some r)
      (apart : endsNumber r) : ReadBy c s (.number (taken (c :: s) r)) r
  | string {r : List Char} (quote : c = '"' ∨ c = '\'')
      (ends : stringEnd? c (s.length + 1) s = some r) : ReadBy c s (.string (taken (c :: s) r)) r
  | privateName {t : Token} {r : List Char} (sign : c = '#') (read : name? s = some (t, r)) :
    ReadBy c s (.privateName (taken (c :: s) r)) r
  | punct {p : String} {r : List Char} (plain : ¬ (Text.isIdentStart c ∨ c = '\\'))
      (uncounted : ¬ (c.isDigit ∨ (c = '.' ∧ s.head?.any Char.isDigit)))
      (unquoted : ¬ (c = '"' ∨ c = '\'')) (unsigned : c ≠ '#')
      (read : punct? (c :: s) = some (.punct p, r)) : ReadBy c s (.punct p) r

theorem readBy_of_read? {c : Char} {s r : List Char} {t : Token} (h : read? (c :: s) = some (t, r)) :
    ReadBy c s t r := by
  rw [read?] at h
  split at h
  next hstart =>
    obtain ⟨_, _, rfl⟩ := name?_eq_name h
    exact .name hstart h
  next hstart =>
    split at h
    next hdigit =>
      split at h
      next rest hend =>
        split at h
        next hends =>
          cases h
          exact .number (by simpa [startsNumber] using hdigit) hend hends
        next => cases h
      next => cases h
    next hdigit =>
      split at h
      next hquote =>
        obtain ⟨rest, hend, h⟩ := Option.map_eq_some_iff.mp h
        cases h
        exact .string hquote hend
      next hquote =>
        split at h
        next hsign =>
          obtain ⟨⟨name, rest⟩, hname, h⟩ := Option.map_eq_some_iff.mp h
          cases h
          exact .privateName hsign hname
        next hsign =>
          obtain ⟨_, rfl⟩ := punct?_eq_punct h
          exact .punct hstart hdigit hquote hsign h

/-! ### Strings -/

/-- A run that a character ends is not longer if something follows. -/
theorem takeWhile_append_run {p : Char → Bool} {c : Char} {r q : List Char} (rest : List Char)
    (hc : p c = false) (h : r.dropWhile p = c :: q) :
    (r ++ rest).takeWhile p = r.takeWhile p ∧ (r ++ rest).dropWhile p = c :: (q ++ rest) := by
  have hr : r ++ rest = r.takeWhile p ++ c :: (q ++ rest) := by
    rw [← List.cons_append, ← h, ← List.append_assoc, List.takeWhile_append_dropWhile]
  have hrun : ∀ d ∈ r.takeWhile p, p d := fun d hd => List.all_eq_true.mp List.all_takeWhile d hd
  have hstop : ¬ p c = true := by rw [hc]; exact Bool.false_ne_true
  constructor
  · rw [hr, List.takeWhile_append_of_pos hrun, List.takeWhile_cons_of_neg hstop, List.append_nil]
  · rw [hr, List.dropWhile_append_of_pos hrun, List.dropWhile_cons_of_neg hstop]

theorem unicodeEscape?_append {s t : List Char} {n : Nat} (rest : List Char)
    (h : unicodeEscape? s = some (n, t)) : unicodeEscape? (s ++ rest) = some (n, t ++ rest) := by
  unfold unicodeEscape? at h
  split at h
  next r =>
    dsimp only at h
    split at h
    next q hq =>
      obtain ⟨htake, hdrop⟩ := takeWhile_append_run rest (by decide) hq
      rw [List.cons_append, unicodeEscape?]
      simp only [htake, hdrop]
      split at h
      next => cases h
      next hok =>
        cases h
        rw [if_neg hok]
    next => cases h
  next a b c d r hbrace =>
    split at h
    next hhex =>
      cases h
      simp only [List.cons_append]
      rw [unicodeEscape?, if_pos hhex]
      exact fun h => hbrace h
    next => cases h
  next => cases h

/-- The characters of a code point behind `\u`. -/
def InEscape (c : Char) : Prop := isHexDigit c ∨ c = '\x7b' ∨ c = '\x7d'

theorem unicodeEscape?_cut {s t : List Char} {n : Nat} (h : unicodeEscape? s = some (n, t)) :
    ∃ x, s = x ++ t ∧ (∀ c ∈ x, InEscape c) ∧ unicodeEscape? x = some (n, []) := by
  unfold unicodeEscape? at h
  split at h
  next r =>
    dsimp only at h
    split at h
    next q hq =>
      split at h
      next => cases h
      next hok =>
        cases h
        have hdigits : ∀ d ∈ r.takeWhile isHexDigit, isHexDigit d :=
          fun d hd => List.all_eq_true.mp List.all_takeWhile d hd
        have hr : r.takeWhile isHexDigit ++ '\x7d' :: t = r := by
          rw [← hq, List.takeWhile_append_dropWhile]
        refine ⟨'\x7b' :: r.takeWhile isHexDigit ++ ['\x7d'], ?_, ?_, ?_⟩
        · rw [List.append_assoc, List.cons_append, List.singleton_append, hr]
        · intro d hd
          simp only [List.cons_append, List.mem_cons, List.mem_append, List.not_mem_nil,
            or_false] at hd
          rcases hd with rfl | hd | rfl
          · exact .inr (.inl rfl)
          · exact .inl (hdigits d hd)
          · exact .inr (.inr rfl)
        · have htake : (r.takeWhile isHexDigit ++ ['\x7d']).takeWhile isHexDigit =
              r.takeWhile isHexDigit := by
            rw [List.takeWhile_append_of_pos hdigits]
            exact List.append_nil _
          have hdrop : (r.takeWhile isHexDigit ++ ['\x7d']).dropWhile isHexDigit = ['\x7d'] := by
            rw [List.dropWhile_append_of_pos hdigits]
            rfl
          rw [List.cons_append, unicodeEscape?]
          simp only [htake, hdrop, if_neg hok]
    next => cases h
  next a b c d r hbrace =>
    split at h
    next hhex =>
      cases h
      refine ⟨[a, b, c, d], rfl, fun e he => .inl (List.all_eq_true.mp hhex e he), ?_⟩
      rw [unicodeEscape?, if_pos hhex]
      exact fun h => hbrace h
    next => cases h
  next => cases h

/-- A text that is one string literal. -/
def isStringText (raw : String) : Bool := read? raw.toList = some (.string raw, [])

theorem read?_string {s : List Char} {raw : String} (h : read? s = some (.string raw, [])) :
    ∃ quote r, s = quote :: r ∧ (quote = '"' ∨ quote = '\'') ∧
      stringEnd? quote s.length r = some [] := by
  cases s with
  | nil => cases h
  | cons c s =>
    cases readBy_of_read? h with
    | string quote ends => exact ⟨c, s, rfl, quote, ends⟩

theorem read?_quote {quote : Char} (hquote : quote = '"' ∨ quote = '\'') {r rest : List Char}
    (hend : stringEnd? quote (quote :: r).length r = some rest) :
    read? (quote :: r) = some (.string (taken (quote :: r) rest), rest) := by
  have hstart : ¬ (Text.isIdentStart quote ∨ quote = '\\') := by
    rcases hquote with rfl | rfl <;> decide
  have hdigit : ¬ (quote.isDigit ∨ (quote = '.' ∧ r.head?.any Char.isDigit)) := by
    rcases hquote with rfl | rfl <;> simp
  rw [read?, if_neg hstart, if_neg hdigit, if_pos hquote, hend]
  rfl

/-! ### Punctuators -/

/-- The punctuators that are not the front of a longer one. -/
def brackets : List Char := ['(', ')', '[', ']', '\x7b', '\x7d', ',', ';', ':', '~']

theorem begins_bracket {p : Char} (h : p ∈ brackets) (r : List Char) :
    Begins (.punct (String.ofList [p])) (p :: r) r := by
  have hcode : p.toNat ∉ skippedCodes := by
    have hall : brackets.all (fun p => !skippedCodes.contains p.toNat) = true := by decide
    simpa using List.all_eq_true.mp hall p h
  have hread : read? (p :: r) = some (.punct (String.ofList [p]), r) := by
    simp only [brackets, List.mem_cons, List.not_mem_nil, or_false] at h
    rcases h with rfl | rfl | rfl | rfl | rfl | rfl | rfl | rfl | rfl | rfl <;> rfl
  exact begins_of_read (by simp [text]) (by simp [text]) (skip?_of_code hcode) hread

/-- A sign is read before a character with which it makes no longer punctuator. -/
theorem begins_sign {u c : Char} (hu : u = '-' ∨ u = '+') (hne : c ≠ u) (hc : c ≠ '=')
    (r : List Char) : Begins (.punct (String.ofList [u])) (u :: c :: r) (c :: r) := by
  have hdouble : (u == c) = false := beq_eq_false_iff_ne.mpr hne.symm
  have hassign : ('=' == c) = false := beq_eq_false_iff_ne.mpr hc.symm
  have hread : read? (u :: c :: r) = some (.punct (String.ofList [u]), c :: r) := by
    have hpunct : punct? (u :: c :: r) = some (.punct (String.ofList [u]), c :: r) := by
      have hfind : punctuators.find? (standsAt (u :: c :: r)) = some (String.ofList [u]) := by
        rcases hu with rfl | rfl <;>
          simp [punctuators, standsAt, List.find?, List.isPrefixOf, hdouble, hassign]
      rw [punct?, hfind]
      simp
    rcases hu with rfl | rfl <;> exact hpunct
  refine begins_of_read (by simp [text]) (by simp [text]) (skip?_cons ?_ ?_ ?_ ?_) hread
  · rcases hu with rfl | rfl <;> decide
  · rcases hu with rfl | rfl <;> decide
  · exact fun hminus h => hne (by rw [Option.some.inj h, hminus])
  · rcases hu with rfl | rfl <;> decide

theorem begins_not {c : Char} (hc : c ≠ '=') (r : List Char) :
    Begins (.punct "!") ('!' :: c :: r) (c :: r) := by
  have hassign : ('=' == c) = false := beq_eq_false_iff_ne.mpr hc.symm
  have hpunct : punct? ('!' :: c :: r) = some (.punct "!", c :: r) := by
    have hfind : punctuators.find? (standsAt ('!' :: c :: r)) = some "!" := by
      simp [punctuators, standsAt, List.find?, List.isPrefixOf, hassign]
    rw [punct?, hfind]
    rfl
  exact begins_of_read rfl (by decide) (skip?_of_code (by decide)) hpunct

/-- Two equal signs are one token. Two minus signs must not be the front of an arrow, with which a
line may be commented out. -/
theorem begins_double {u : Char} (hu : u = '-' ∨ u = '+') {r : List Char} (hr : r.head? ≠ some '>') :
    Begins (.punct (String.ofList [u, u])) (u :: u :: r) r := by
  have hread : read? (u :: u :: r) = some (.punct (String.ofList [u, u]), r) := by
    rcases hu with rfl | rfl <;> rfl
  refine begins_of_read (by simp [text]) (by simp [text]) (fun fuel broken => ?_) hread
  cases fuel with
  | zero => rfl
  | succ fuel =>
    rcases hu with rfl | rfl
    · unfold skip?
      split
      case h_4 heq =>
        simp only [List.cons.injEq, true_and] at heq
        rw [heq] at hr
        exact absurd rfl hr
      case h_5 heq =>
        obtain ⟨rfl, rfl⟩ := List.cons.inj heq
        rfl
      all_goals rename_i heq; simp at heq
    · rfl

end Assay.Token
