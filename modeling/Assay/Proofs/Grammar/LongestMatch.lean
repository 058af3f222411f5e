import Assay.Proofs.Grammar.Begins

/-!
# Splitting a text by longest match

`Split` takes the longest piece that is one token at each place of a text, behind white space and
comments. It does not say how tokens are read off a text: `read?` only answers whether a whole piece
is one.
-/

namespace Assay.Token

/-- A piece of a text is one token in front of what follows it. `?.` is none before a digit. -/
structure Fits (t : Token) (piece rest : List Char) : Prop where
  whole : read? piece = some (t, [])
  nonempty : piece ≠ []
  undigited : t = .punct "?." → rest.head?.any Char.isDigit = false

/-- The longest piece at the front of a text that is one token, and what remains behind it. -/
structure Longest (t : Token) (s rest : List Char) : Prop where
  fits : ∃ piece, piece ++ rest = s ∧ Fits t piece rest
  longest : ∀ u piece rest', piece ++ rest' = s → Fits u piece rest' → rest.length ≤ rest'.length

/-- White space and comments of a line that has begun stand before what remains. -/
def Skips (s front : List Char) : Prop :=
  ∃ broken, skip? (s.length + 1) false s = some (front, broken)

/-- Tokens are taken off the front of a text, each the longest there. -/
inductive SplitOff : List Char → List Token → List Char → Prop where
  | nothing (s : List Char) : SplitOff s [] s
  | token {s front rest r : List Char} {t : Token} {ts : List Token} (skips : Skips s front)
      (longest : Longest t front rest) (more : SplitOff rest ts r) : SplitOff s (t :: ts) r

/-- The tokens of a whole text. -/
def Split (s : List Char) (ts : List Token) : Prop := ∃ r, SplitOff s ts r ∧ Skips r []

variable {t u : Token} {s r front rest rest' : List Char} {ts us : List Token}

/-! ### One token -/

theorem Longest.unique (h : Longest t s rest) (h' : Longest u s rest') : u = t ∧ rest' = rest := by
  obtain ⟨x, hx, hfits⟩ := h.fits
  obtain ⟨y, hy, hfits'⟩ := h'.fits
  have hlength : rest.length = rest'.length :=
    Nat.le_antisymm (h.longest u y rest' hy hfits') (h'.longest t x rest hx hfits)
  obtain ⟨rfl, rfl⟩ := List.append_inj' (hx.trans hy.symm) hlength
  have hread := hfits.whole.symm.trans hfits'.whole
  exact ⟨(congrArg Prod.fst (Option.some.inj hread)).symm, rfl⟩

theorem Longest.ne_nil (h : Longest t s rest) : s ≠ [] := by
  obtain ⟨x, rfl, hfits⟩ := h.fits
  exact fun hnil => hfits.nonempty (List.append_eq_nil_iff.mp hnil).1

/-- A sign that is kept apart is the longest piece: a longer one would be read as the sign with
something behind it. -/
theorem Longest.of_apart {sign : List Char} (ht : t ≠ .punct "?.") (h : Apart t sign s) :
    Longest t (sign ++ s) s where
  fits := by
    have hsign := h [] List.nil_prefix
    rw [List.append_nil] at hsign
    exact ⟨sign, rfl, hsign.read, List.length_pos_iff.mp hsign.shorter, fun ht' => absurd ht' ht⟩
  longest u piece rest' hpiece hfits := by
    rcases List.append_eq_append_iff.mp hpiece with ⟨z, rfl, rfl⟩ | ⟨z, rfl, rfl⟩
    · rw [List.length_append]
      exact Nat.le_add_left _ _
    · have hread := (h z (List.prefix_append z rest')).read
      rw [hfits.whole] at hread
      obtain rfl : z = [] := (congrArg Prod.snd (Option.some.inj hread)).symm
      exact Nat.le_refl _

/-! ### White space in front -/

theorem Skips.unique (h : Skips s front) (h' : Skips s rest) : rest = front := by
  obtain ⟨b, hb⟩ := h
  obtain ⟨b', hb'⟩ := h'
  exact (congrArg Prod.fst (Option.some.inj (hb.symm.trans hb'))).symm

theorem Begins.skips (h : Begins t s rest) : Skips s s := ⟨false, h.unskipped _ _⟩

theorem skip?_space {c : Char} (h : isLineBreak c ∨ isSpace c) (fuel : Nat) (broken : Bool)
    (r : List Char) :
    Token.skip? (fuel + 1) broken (c :: r) = Token.skip? fuel (broken || isLineBreak c) r := by
  have hne {d : Char} (hd : ¬ (isLineBreak d ∨ isSpace d)) : c ≠ d := by
    rintro rfl
    exact hd h
  conv => lhs; unfold Token.skip?
  split
  next heq => exact absurd (List.cons.inj heq).1 (hne (by decide))
  next heq => exact absurd (List.cons.inj heq).1 (hne (by decide))
  next heq => exact absurd (List.cons.inj heq).1 (hne (by decide))
  next heq => exact absurd (List.cons.inj heq).1 (hne (by decide))
  next heq =>
    obtain ⟨rfl, rfl⟩ := List.cons.inj heq
    by_cases hbreak : isLineBreak c
    · rw [if_pos hbreak, hbreak, Bool.or_true]
    · have hfalse : isLineBreak c = false := by simpa using hbreak
      rw [if_neg hbreak, if_pos (h.resolve_left hbreak), hfalse, Bool.or_false]
  next heq => cases heq

theorem skips_space : Skips (' ' :: s) front ↔ Skips s front := by
  have hspace : skip? ((' ' :: s).length + 1) false (' ' :: s) = skip? (s.length + 1) false s :=
    skip?_space (.inr (by decide)) (s.length + 1) false s
  rw [Skips, hspace, Skips]

theorem IsSpacing.skips {gap : List Char} (h : IsSpacing gap) :
    Skips (gap ++ s) front ↔ Skips s front := by
  rcases h with rfl | rfl
  · exact Iff.rfl
  · exact skips_space

theorem IsSpacing.split {gap : List Char} (h : IsSpacing gap) :
    Split (gap ++ s) ts ↔ Split s ts := by
  constructor
  · rintro ⟨r, hoff, hend⟩
    cases hoff with
    | nothing => exact ⟨s, .nothing s, h.skips.mp hend⟩
    | token skips longest more => exact ⟨r, .token (h.skips.mp skips) longest more, hend⟩
  · rintro ⟨r, hoff, hend⟩
    cases hoff with
    | nothing => exact ⟨gap ++ s, .nothing _, h.skips.mpr hend⟩
    | token skips longest more => exact ⟨r, .token (h.skips.mpr skips) longest more, hend⟩

/-! ### Tokens in a row -/

/-- The tokens of a text go on with those of what remains when some were taken off. -/
theorem SplitOff.split_iff (h : SplitOff s ts r) :
    Split s us ↔ ∃ vs, us = ts ++ vs ∧ Split r vs := by
  induction h generalizing us with
  | nothing s =>
    constructor
    · exact fun hs => ⟨us, rfl, hs⟩
    · rintro ⟨vs, rfl, hs⟩
      exact hs
  | @token s front rest r t ts skips longest more ih =>
    constructor
    · rintro ⟨q, hoff, hend⟩
      cases hoff with
      | nothing => exact absurd (skips.unique hend).symm longest.ne_nil
      | token skips' longest' more' =>
        obtain rfl := skips.unique skips'
        obtain ⟨rfl, rfl⟩ := longest.unique longest'
        obtain ⟨vs, rfl, hvs⟩ := ih.mp ⟨q, more', hend⟩
        exact ⟨vs, rfl, hvs⟩
    · rintro ⟨vs, rfl, hvs⟩
      obtain ⟨q, hoff, hend⟩ := ih.mpr ⟨vs, rfl, hvs⟩
      exact ⟨q, .token skips longest hoff, hend⟩

/-- A text has one splitting at most. -/
theorem Split.unique (h : Split s ts) (h' : Split s us) : us = ts := by
  obtain ⟨r, hoff, hend⟩ := h
  obtain ⟨vs, rfl, q, hoff', hend'⟩ := hoff.split_iff.mp h'
  cases hoff' with
  | nothing => exact List.append_nil ts
  | token skips longest more => exact absurd (hend.unique skips) longest.ne_nil

theorem split_word {w : String} (hw : isWordText w) : Split w.toList [.name w false] := by
  have hapart : Apart (.name w false) w.toList [] := by
    intro z hz
    obtain rfl := List.prefix_nil.mp hz
    exact begins_word hw rfl
  have hlongest := Longest.of_apart Token.noConfusion hapart
  have hskips := (hapart [] List.prefix_rfl).skips
  rw [List.append_nil] at hlongest hskips
  exact ⟨[], .token hskips hlongest (.nothing []), false, rfl⟩

end Assay.Token
