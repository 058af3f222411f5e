import Assay.Proofs.Codec.Shortest
import Assay.Proofs.SourceMap.Accepted
import Assay.Proofs.SourceMap.Decoding
import Assay.Proofs.SourceMap.LastMarker
import Mathlib.Data.List.TakeWhile

/-!
# Mappings that encoding writes

Mappings may be padded, out of order and wrapped around, and decoding drops all of this.
`ofJson_mappings_eq_iff` says that the mappings of an accepted document are written back as they
were read exactly if they are canonical.
-/

namespace Assay

namespace Mappings

/-- Sums that a token holds without cutting them to 32 bits; a line counts from 1 there. The source
is in range by itself where there are no more than 2 ^ 32 of them. -/
structure Sums.InRange (s : Sums) : Prop where
  column : 0 ≤ s.column ∧ s.column < 0x100000000
  source : 0 ≤ s.source ∧ s.source < 0x100000000
  originLine : 0 ≤ s.originLine ∧ s.originLine < 0xffffffff
  originColumn : 0 ≤ s.originColumn ∧ s.originColumn < 0x100000000
  name : 0 ≤ s.name ∧ s.name < 0x100000000

/-- Mappings without anything that decoding drops. -/
structure Canonical (s : List Char) : Prop where
  /-- A comma stands between two segments of a line. -/
  comma : ∀ front back, s = front ++ ',' :: back →
    atBreak front.reverse = false ∧ atBreak back = false
  semicolon : s.getLast? ≠ some ';'
  shortest : ∀ g ∈ segments s, ∀ text ∈ Vlq.texts g.text,
    Vlq.IsShortest text ∧ ¬ Vlq.IsNegativeZero text
  ascending : ∀ before g after, segments s = before ++ g :: after →
    (totals g.line before).column ≤ (totals g.line (before ++ [g])).column
  inRange : ∀ before g after, segments s = before ++ g :: after →
    (totals g.line (before ++ [g])).InRange

/-! ### Sums in range -/

theorem Sums.InRange.small {s : Sums} (h : s.InRange) : s.Small where
  column := h.column
  source := h.source
  originLine := by have := h.originLine; omega
  originColumn := h.originColumn
  name := h.name

theorem Sums.InRange.startLine {s : Sums} (h : s.InRange) :
    Sums.InRange { s with column := 0 } :=
  { h with column := ⟨Int.le_refl 0, show (0 : Int) < 0x100000000 by decide⟩ }

theorem inRange_zero : Sums.zero.InRange := by
  constructor <;> decide

theorem Sums.InRange.ofToken {s : Sums} (h : s.InRange) {t : MapToken} (ht : t.Fits)
    (hline : t.LineFromOne) : (s.ofToken t).InRange := by
  have hsmall := h.small.ofToken ht
  refine ⟨hsmall.column, hsmall.source, ?_, hsmall.originColumn, hsmall.name⟩
  obtain ⟨generated, origin⟩ := t
  cases origin with
  | none => exact h.originLine
  | some o =>
    have hfits := (ht.origin o rfl).line
    have hone := hline o rfl
    dsimp only [Sums.ofToken]
    omega

theorem natCast_word {n : Int} (h : 0 ≤ n ∧ n < 0x100000000) : (word n : Int) = n := by
  unfold word
  omega

/-- What is added to a sum in range is the difference to what it comes to. -/
theorem wrap64_add_sub_self {a v : Int} (ha : 0 ≤ a ∧ a < 0x100000000)
    (hv : v.natAbs ≤ 0x4000000000000000) : Vlq.wrap64 (a + v) - a = v := by
  rw [Vlq.wrap64_of_small _ (by omega)]
  omega

end Mappings

namespace Vlq

theorem wrap64_bounds (n : Int) :
    -0x8000000000000000 ≤ wrap64 n ∧ wrap64 n < 0x8000000000000000 := by
  simp only [wrap64, Int.bmod, show ((UInt64.size : Nat) : Int) = 0x10000000000000000 from rfl]
  split <;> omega

theorem natAbs_le_of_quantity? {s : List Char} {v : Int} (h : quantity? s = some v) :
    v.natAbs ≤ 0x4000000000000000 := by
  obtain ⟨digits, -, -, -, hv⟩ := quantity?_eq_some h
  have hbounds := wrap64_bounds (magnitude digits)
  unfold unfold at hv
  split at hv <;> omega

theorem flatMap_encode {texts : List (List Char)} {vs : List Int}
    (hquantity : texts.map quantity? = vs.map some) (hshort : ∀ v ∈ vs, Short v)
    (hshortest : ∀ text ∈ texts, IsShortest text ∧ ¬ IsNegativeZero text) :
    vs.flatMap encode = texts.flatten := by
  induction texts generalizing vs with
  | nil =>
    obtain rfl := List.map_eq_nil_iff.mp hquantity.symm
    rfl
  | cons text texts ih =>
    cases vs with
    | nil => cases hquantity
    | cons v vs =>
      obtain ⟨hv, hquantity⟩ := List.cons.inj hquantity
      obtain ⟨hshortv, hshort⟩ := List.forall_mem_cons.mp hshort
      obtain ⟨hfirst, hshortest⟩ := List.forall_mem_cons.mp hshortest
      rw [List.flatMap_cons, List.flatten_cons, ih hquantity hshort hshortest,
        ← (eq_encode_iff hv hshortv).mpr hfirst]

end Vlq

namespace Mappings

/-! ### A segment -/

variable {a : Arithmetic}

/-- A token from sums in range to sums in range is written as the values that it was read from. -/
theorem quantities_of_applySegment {line start count : Nat} {s s' : Sums} {values : List Int}
    {t : MapToken} (h : applySegment a line start count s values = .ok (s', t)) (hs : s.InRange)
    (hs' : s'.InRange) (hvalues : ∀ v ∈ values, v.natAbs ≤ 0x4000000000000000) :
    quantities s t = values ∧ s.ofToken t = s' := by
  have hline : 0 ≤ s.originLine ∧ s.originLine < 0x100000000 := by have := hs.originLine; omega
  have hword : (word (s'.originLine + 1) : Int) - 1 = s'.originLine := by
    rw [natCast_word (by have := hs'.originLine; omega)]
    omega
  have hcolumn := natCast_word hs'.column
  have hsource := natCast_word hs'.source
  have horiginColumn := natCast_word hs'.originColumn
  have hname := natCast_word hs'.name
  have hadd {m v : Int} (hm : 0 ≤ m ∧ m < 0x100000000) (hv : v ∈ values) :
      Vlq.wrap64 (m + v) - m = v := wrap64_add_sub_self hm (hvalues v hv)
  unfold applySegment at h
  split at h
  next column =>
    obtain ⟨s₁, h₁, h⟩ := bind_eq_ok h
    cases h
    obtain rfl := Sums.eq_of_addColumn h₁
    have hcolumn' := hadd hs.column (v := column) (by simp)
    simp only [quantities, Sums.ofToken, hcolumn]
    simp [hcolumn']
  next column source originLine originColumn =>
    obtain ⟨s₁, h₁, h⟩ := bind_eq_ok h
    obtain ⟨s₂, h₂, h⟩ := bind_eq_ok h
    obtain ⟨o, ho, h⟩ := bind_eq_ok h
    cases h
    obtain rfl := Sums.eq_of_addColumn h₁
    obtain ⟨rfl, -⟩ := Sums.eq_of_addOrigin h₂
    obtain ⟨rfl, -⟩ := Sums.eq_of_origin ho
    have hcolumn' := hadd hs.column (v := column) (by simp)
    have hsource' := hadd hs.source (v := source) (by simp)
    have hline' := hadd hline (v := originLine) (by simp)
    have horiginColumn' := hadd hs.originColumn (v := originColumn) (by simp)
    simp only [quantities, Sums.ofToken, hcolumn, hsource, hword, horiginColumn]
    simp [hcolumn', hsource', hline', horiginColumn']
  next column source originLine originColumn name =>
    obtain ⟨s₁, h₁, h⟩ := bind_eq_ok h
    obtain ⟨s₂, h₂, h⟩ := bind_eq_ok h
    obtain ⟨s₃, h₃, h⟩ := bind_eq_ok h
    obtain ⟨o, ho, h⟩ := bind_eq_ok h
    cases h
    obtain rfl := Sums.eq_of_addColumn h₁
    obtain ⟨rfl, -⟩ := Sums.eq_of_addOrigin h₂
    obtain rfl := Sums.eq_of_addName h₃
    obtain ⟨rfl, -⟩ := Sums.eq_of_origin ho
    have hcolumn' := hadd hs.column (v := column) (by simp)
    have hsource' := hadd hs.source (v := source) (by simp)
    have hline' := hadd hline (v := originLine) (by simp)
    have horiginColumn' := hadd hs.originColumn (v := originColumn) (by simp)
    have hname' := hadd hs.name (v := name) (by simp)
    simp only [quantities, Sums.ofToken, hcolumn, hsource, hword, horiginColumn, hname]
    simp [hcolumn', hsource', hline', horiginColumn', hname']
  next => cases h

theorem quantity?_of_faultFrom {texts : List (List Char)} {index start : Nat}
    (h : faultFrom index start texts = none) :
    texts.map Vlq.quantity? = (texts.filterMap Vlq.quantity?).map some := by
  induction texts generalizing index start with
  | nil => rfl
  | cons text texts ih =>
    rw [faultFrom_cons] at h
    split at h
    next => cases h
    next hno =>
      obtain ⟨v, hv⟩ := Option.ne_none_iff_exists'.mp (not_or.mp hno).2
      rw [List.filterMap_cons_some hv, List.map_cons, List.map_cons, hv, ih h]

theorem applied_of_tokenAfter {count : Nat} {before : List Segment} {g : Segment} {t : MapToken}
    (h : tokenAfter a count before g = .ok t) :
    g.fault? = none ∧
      applySegment a g.line g.start count (totals g.line before) g.values =
        .ok (totals g.line (before ++ [g]), t) := by
  have hfault : g.fault? = none := by
    unfold tokenAfter at h
    cases hf : g.fault? with
    | none => rfl
    | some byte =>
      rw [hf] at h
      cases h
  exact ⟨hfault, by rw [applySegment_eq a count before hfault, h]; rfl⟩

theorem generated_of_tokenAfter {count : Nat} {before : List Segment} {g : Segment} {t : MapToken}
    (h : tokenAfter a count before g = .ok t) :
    t.generated = ⟨g.line, word (totals g.line (before ++ [g])).column⟩ := by
  obtain ⟨-, happlied⟩ := applied_of_tokenAfter h
  generalize totals g.line (before ++ [g]) = s' at happlied
  unfold applySegment at happlied
  split at happlied
  · obtain ⟨s₁, -, happlied⟩ := bind_eq_ok happlied
    cases happlied
    rfl
  · obtain ⟨s₁, -, happlied⟩ := bind_eq_ok happlied
    obtain ⟨s₂, -, happlied⟩ := bind_eq_ok happlied
    obtain ⟨o, -, happlied⟩ := bind_eq_ok happlied
    cases happlied
    rfl
  · obtain ⟨s₁, -, happlied⟩ := bind_eq_ok happlied
    obtain ⟨s₂, -, happlied⟩ := bind_eq_ok happlied
    obtain ⟨s₃, -, happlied⟩ := bind_eq_ok happlied
    obtain ⟨o, -, happlied⟩ := bind_eq_ok happlied
    cases happlied
    rfl
  · cases happlied

theorem quantities_of_tokenAfter {count : Nat} {before : List Segment} {g : Segment} {t : MapToken}
    (h : tokenAfter a count before g = .ok t) (hs : (totals g.line before).InRange)
    (hs' : (totals g.line (before ++ [g])).InRange) :
    quantities (totals g.line before) t = g.values ∧
      (totals g.line before).ofToken t = totals g.line (before ++ [g]) := by
  refine quantities_of_applySegment (applied_of_tokenAfter h).2 hs hs' fun v hv => ?_
  obtain ⟨text, -, htext⟩ := List.mem_filterMap.mp hv
  exact Vlq.natAbs_le_of_quantity? htext

/-- A segment with sums in range before it is what its token is written as. -/
theorem encodeToken_eq_iff {count : Nat} {before : List Segment} {g : Segment} {t : MapToken}
    (h : tokenAfter a count before g = .ok t) (hs : (totals g.line before).InRange) :
    encodeToken (totals g.line before) t = g.text ↔
      (∀ text ∈ Vlq.texts g.text, Vlq.IsShortest text ∧ ¬ Vlq.IsNegativeZero text) ∧
        (totals g.line (before ++ [g])).InRange := by
  obtain ⟨hfault, happlied⟩ := applied_of_tokenAfter h
  have hvalues : (Vlq.texts g.text).map Vlq.quantity? = g.values.map some :=
    quantity?_of_faultFrom hfault
  have hbacked := backed_applySegment happlied
  have hshort : ∀ v ∈ quantities (totals g.line before) t, Vlq.Short v :=
    quantities_lt hs.small hbacked.fits
  have hline : t.generated.line = g.line := by rw [generated_of_tokenAfter h]
  rw [encodeToken_eq]
  constructor
  · intro htext
    have htexts : Vlq.texts g.text = (quantities (totals g.line before) t).map Vlq.encode := by
      rw [← htext, Vlq.texts_flatMap_encode]
    have hquantity : ∀ v ∈ quantities (totals g.line before) t,
        Vlq.quantity? (Vlq.encode v) = some v := fun v hv =>
      Vlq.quantity?_encode (by have := hshort v hv; unfold Vlq.Short at this; omega)
    constructor
    · rw [htexts]
      intro text hmem
      obtain ⟨v, hv, rfl⟩ := List.mem_map.mp hmem
      exact (Vlq.eq_encode_iff (hquantity v hv) (hshort v hv)).mp rfl
    · have hsame : g.values = quantities (totals g.line before) t := by
        have hsome : (quantities (totals g.line before) t).map (Vlq.quantity? ∘ Vlq.encode) =
            (quantities (totals g.line before) t).map some := List.map_congr_left hquantity
        rw [htexts, List.map_map, hsome] at hvalues
        exact (List.map_injective_iff.mpr (Option.some_injective _) hvalues).symm
      have hagain := applySegment_quantities (a := a) (totals g.line before) hbacked.fits g.start
        hbacked.source
      rw [hline, ← hsame, happlied] at hagain
      split at hagain
      next hfrom =>
        rw [(Prod.mk.inj (Except.ok.inj hagain)).1]
        exact hs.ofToken hbacked.fits hfrom
      next => cases hagain
  · rintro ⟨hshortest, hs'⟩
    obtain ⟨hsame, -⟩ := quantities_of_tokenAfter h hs hs'
    rw [hsame] at hshort ⊢
    rw [Vlq.flatMap_encode hvalues hshort hshortest]
    exact List.flatten_splitBy _ _

/-! ### The text from left to right -/

/-- A text cut into its segments, as decoding goes along it. -/
inductive Cut : (line start : Nat) → List Char → List Segment → Prop where
  | nil (line start : Nat) : Cut line start [] []
  | semicolon {line start : Nat} {r : List Char} {gs : List Segment}
      (after : Cut (line + 1) (start + 1) r gs) : Cut line start (';' :: r) gs
  | comma {line start : Nat} {r : List Char} {gs : List Segment}
      (after : Cut line (start + 1) r gs) : Cut line start (',' :: r) gs
  | text {line start : Nat} {text rest : List Char} {gs : List Segment} (ne : text ≠ [])
      (plain : ∀ c ∈ text, c ≠ ',' ∧ c ≠ ';') (ends : atBreak rest)
      (after : Cut line (start + Text.bytes text) rest gs) :
      Cut line start (text ++ rest) (⟨line, start, text⟩ :: gs)

theorem cut_segmentsFrom (line start : Nat) (s : List Char) :
    Cut line start s (segmentsFrom line start s) := by
  induction hlength : s.length using Nat.strongRecOn generalizing line start s with
  | ind n ih =>
    subst hlength
    cases s with
    | nil => exact .nil line start
    | cons c r =>
      by_cases hsemicolon : c = ';'
      · subst hsemicolon
        rw [segmentsFrom_semicolon]
        exact .semicolon (ih r.length (Nat.lt_succ_self _) _ _ r rfl)
      by_cases hcomma : c = ','
      · subst hcomma
        rw [segmentsFrom_comma]
        exact .comma (ih r.length (Nat.lt_succ_self _) _ _ r rfl)
      obtain ⟨text, rest, hne, hcut, htext, hrest⟩ := exists_segment ⟨hcomma, hsemicolon⟩ r
      have hpos := List.length_pos_iff.mpr hne
      rw [hcut, segmentsFrom_text line start hne htext hrest]
      rw [hcut, List.length_append] at ih
      exact .text hne htext hrest (ih rest.length (by omega) _ _ rest rfl)

theorem Cut.line_le {line start : Nat} {s : List Char} {gs : List Segment}
    (h : Cut line start s gs) : ∀ g ∈ gs, line ≤ g.line := by
  induction h with
  | nil => simp
  | semicolon _ ih => exact fun g hg => Nat.le_of_succ_le (ih g hg)
  | comma _ ih => exact ih
  | text _ _ _ _ ih => exact List.forall_mem_cons.mpr ⟨Nat.le_refl _, ih⟩

theorem Cut.ne_nil {line start : Nat} {s : List Char} {g : Segment} {gs : List Segment}
    (h : Cut line start s (g :: gs)) : s ≠ [] := by
  rintro rfl
  generalize hs : ([] : List Char) = s at h
  cases h with
  | semicolon => cases hs
  | comma => cases hs
  | text ne => exact ne (List.append_eq_nil_iff.mp hs.symm).1

theorem atBreak_text {text : List Char} (hne : text ≠ []) (htext : ∀ c ∈ text, c ≠ ',' ∧ c ≠ ';')
    (rest : List Char) : atBreak (text ++ rest) = false := by
  obtain ⟨c, r, rfl⟩ := List.exists_cons_of_ne_nil hne
  exact atBreak_of_ne (htext c List.mem_cons_self) _

theorem Cut.line_eq {line start : Nat} {s : List Char} {g : Segment} {gs : List Segment}
    (h : Cut line start s (g :: gs)) (hs : atBreak s = false) : g.line = line := by
  cases h with
  | semicolon => cases hs
  | comma => cases hs
  | text => rfl

/-- The same as `Canonical` says of separators, for a text that stands behind a break or not. -/
def Tidy (behindBreak : Bool) : List Char → Prop
  | [] => True
  | c :: r =>
    (c = ',' → behindBreak = false ∧ atBreak r = false) ∧ (c = ';' → r ≠ []) ∧
      Tidy (c == ',' || c == ';') r

theorem tidy_text {text rest : List Char} (hne : text ≠ []) (htext : ∀ c ∈ text, c ≠ ',' ∧ c ≠ ';')
    (behindBreak : Bool) : Tidy behindBreak (text ++ rest) ↔ Tidy false rest := by
  induction text generalizing behindBreak with
  | nil => exact absurd rfl hne
  | cons c text ih =>
    obtain ⟨⟨hcomma, hsemicolon⟩, htext⟩ := List.forall_mem_cons.mp htext
    have hbreak : (c == ',' || c == ';') = false := by simp [hcomma, hsemicolon]
    rw [List.cons_append, Tidy, hbreak]
    simp only [hcomma, hsemicolon, false_implies, true_and]
    by_cases hnil : text = []
    · rw [hnil, List.nil_append]
    · exact ih hnil htext false

/-- A text without segments is tidy only if it is empty. -/
theorem Cut.eq_nil_of_tidy {line start : Nat} {s : List Char} {gs : List Segment}
    (h : Cut line start s gs) (hgs : gs = []) {behindBreak : Bool} (htidy : Tidy behindBreak s) :
    s = [] := by
  induction h generalizing behindBreak with
  | nil => rfl
  | semicolon _ ih => exact absurd (ih hgs htidy.2.2) (htidy.2.1 rfl)
  | comma after ih =>
    have hbreak := (htidy.1 rfl).2
    rw [ih hgs htidy.2.2] at hbreak
    cases hbreak
  | text => cases hgs

/-! ### Writing what was read -/

theorem encodeFrom_of_lt {line : Nat} {t : MapToken} (h : line < t.generated.line) (first : Bool)
    (s : Sums) (r : List MapToken) :
    encodeFrom line first s (t :: r) =
      ';' :: encodeFrom (line + 1) true { s with column := 0 } (t :: r) := by
  obtain ⟨k, hk⟩ : ∃ k, t.generated.line = line + (k + 1) := ⟨t.generated.line - line - 1, by omega⟩
  rw [encodeFrom, if_pos h, encodeFrom, hk, Nat.add_sub_cancel_left, List.replicate_succ]
  split
  next hlt =>
    rw [show line + (k + 1) - (line + 1) = k by omega]
    rfl
  next hlt =>
    obtain rfl : k = 0 := by omega
    rfl

theorem encodeFrom_of_eq {line : Nat} {t : MapToken} (h : t.generated.line = line) (first : Bool)
    (s : Sums) (r : List MapToken) :
    encodeFrom line first s (t :: r) =
      (if first then [] else [',']) ++ encodeToken s t ++ encodeFrom line false (s.ofToken t) r := by
  rw [encodeFrom, if_neg (by omega)]

theorem encodeToken_plain (s : Sums) (t : MapToken) : ∀ c ∈ encodeToken s t, c ≠ ',' ∧ c ≠ ';' := by
  rw [encodeToken_eq]
  intro c hc
  obtain ⟨v, -, hc⟩ := List.mem_flatMap.mp hc
  obtain ⟨d, hd, rfl⟩ := Vlq.encodeNat_digits _ c hc
  exact (digit_ne_break d hd).symm

/-- Two texts of segments with breaks behind them are the same only piece by piece. -/
theorem append_eq_append_iff_of_break {a b r r' : List Char} (ha : ∀ c ∈ a, c ≠ ',' ∧ c ≠ ';')
    (hb : ∀ c ∈ b, c ≠ ',' ∧ c ≠ ';') (hr : atBreak r) (hr' : atBreak r') :
    a ++ r = b ++ r' ↔ a = b ∧ r = r' := by
  refine ⟨fun h => ?_, fun ⟨h, h'⟩ => by rw [h, h']⟩
  have hfront {x y : List Char} (hx : ∀ c ∈ x, c ≠ ',' ∧ c ≠ ';') (hy : atBreak y) :
      (x ++ y).takeWhile (fun c => c ≠ ',' ∧ c ≠ ';') = x := by
    rw [Text.takeWhile_append_stop, List.takeWhile_eq_self_iff.mpr (by simpa using hx)]
    · cases y with
      | nil => rfl
      | cons c y => simpa [atBreak, ← or_iff_not_imp_left] using hy
  have hab : a = b := by rw [← hfront ha hr, h, hfront hb hr']
  exact ⟨hab, List.append_cancel_left (hab ▸ h)⟩

/-- What holds of every segment with those before it. -/
def Each (P : List Segment → Segment → Prop) (before gs : List Segment) : Prop :=
  ∀ front g back, gs = front ++ g :: back → P (before ++ front) g

theorem each_nil (P : List Segment → Segment → Prop) (before : List Segment) :
    Each P before [] := by
  intro front g back h
  simp at h

theorem each_cons {P : List Segment → Segment → Prop} {before : List Segment} {g : Segment}
    {gs : List Segment} : Each P before (g :: gs) ↔ P before g ∧ Each P (before ++ [g]) gs := by
  constructor
  · intro h
    refine ⟨by simpa using h [] g gs rfl, fun front g' back hgs => ?_⟩
    have hnext := h (g :: front) g' back (by rw [hgs, List.cons_append])
    rwa [List.append_cons] at hnext
  · rintro ⟨hg, hgs⟩ front g' back h
    cases front with
    | nil =>
      obtain ⟨rfl, -⟩ := List.cons.inj h
      rwa [List.append_nil]
    | cons x front =>
      obtain ⟨rfl, hgs'⟩ := List.cons.inj h
      rw [List.append_cons]
      exact hgs front g' back hgs'

/-- A segment in its shortest text that comes to sums in range. -/
def Regular (before : List Segment) (g : Segment) : Prop :=
  (∀ text ∈ Vlq.texts g.text, Vlq.IsShortest text ∧ ¬ Vlq.IsNegativeZero text) ∧
    (totals g.line (before ++ [g])).InRange

theorem meaningFrom_cons {count : Nat} {before gs : List Segment} {g : Segment}
    {tokens : List MapToken} (h : meaningFrom a count before (g :: gs) = .ok tokens) :
    ∃ t rest, tokenAfter a count before g = .ok t ∧
      meaningFrom a count (before ++ [g]) gs = .ok rest ∧ tokens = t :: rest := by
  obtain ⟨t, ht, h⟩ := bind_eq_ok h
  obtain ⟨rest, hrest, h⟩ := bind_eq_ok h
  cases h
  exact ⟨t, rest, ht, hrest, rfl⟩

theorem line_le_of_meaningFrom {count line : Nat} {before gs : List Segment}
    {tokens : List MapToken} (h : meaningFrom a count before gs = .ok tokens)
    (hline : ∀ g ∈ gs, line ≤ g.line) : ∀ t ∈ tokens, line ≤ t.generated.line := by
  induction gs generalizing before tokens with
  | nil =>
    cases h
    exact List.forall_mem_nil _
  | cons g gs ih =>
    obtain ⟨hg, hline⟩ := List.forall_mem_cons.mp hline
    obtain ⟨t, rest, ht, hrest, rfl⟩ := meaningFrom_cons h
    exact List.forall_mem_cons.mpr ⟨by rw [generated_of_tokenAfter ht]; exact hg, ih hrest hline⟩

theorem atBreak_encodeToken (s : Sums) (t : MapToken) (q : List Char) :
    atBreak (encodeToken s t ++ q) = false :=
  atBreak_text (List.length_pos_iff.mp (encodeToken_length_pos s t)) (encodeToken_plain s t) q

theorem encodeFrom_comma {line : Nat} {t : MapToken} (h : t.generated.line = line) (s : Sums)
    (r : List MapToken) :
    encodeFrom line false s (t :: r) = ',' :: encodeFrom line true s (t :: r) := by
  rw [encodeFrom_of_eq h, encodeFrom_of_eq h]
  rfl

/-- A comma is written only on a line that has begun, and a segment follows it. -/
theorem encodeFrom_eq_comma {line : Nat} {first : Bool} {s : Sums} {tokens : List MapToken}
    {r : List Char} (hline : ∀ t ∈ tokens, line ≤ t.generated.line)
    (h : encodeFrom line first s tokens = ',' :: r) : first = false ∧ atBreak r = false := by
  cases tokens with
  | nil => cases h
  | cons t tokens =>
    by_cases hlt : line < t.generated.line
    · rw [encodeFrom_of_lt hlt] at h
      cases h
    have heq : t.generated.line = line := by have := hline t List.mem_cons_self; omega
    cases first with
    | true =>
      have hbreak := atBreak_encodeToken s t (encodeFrom line false (s.ofToken t) tokens)
      rw [encodeFrom_of_eq heq, if_pos rfl, List.nil_append] at h
      rw [h] at hbreak
      cases hbreak
    | false =>
      rw [encodeFrom_comma heq, encodeFrom_of_eq heq] at h
      obtain ⟨-, rfl⟩ := List.cons.inj h
      exact ⟨rfl, atBreak_encodeToken s t _⟩

/-- Tokens are written as the text that they were read from exactly if it is tidy and each segment
regular. By induction on the text, with the sums of the segments before it on both sides. -/
theorem encodeFrom_eq_iff {line start : Nat} {s : List Char} {gs : List Segment}
    (h : Cut line start s gs) {count : Nat} {before : List Segment} {tokens : List MapToken}
    (htokens : meaningFrom a count before gs = .ok tokens) (hbefore : ∀ g ∈ before, g.line ≤ line)
    (hs : (totals line before).InRange) {first : Bool} (hfirst : first = false → atBreak s) :
    encodeFrom line first (totals line before) tokens = s ↔
      Tidy first s ∧ Each Regular before gs := by
  induction h generalizing before tokens first with
  | nil line start =>
    cases htokens
    exact iff_of_true rfl ⟨trivial, each_nil _ _⟩
  | @semicolon line start r gs after ih =>
    have hlater : encodeFrom (line + 1) true (totals (line + 1) before) tokens = r ↔
        Tidy true r ∧ Each Regular before gs :=
      ih htokens (fun g hg => Nat.le_succ_of_le (hbefore g hg))
        (by rw [← totals_newLine hbefore]; exact hs.startLine) nofun
    cases gs with
    | nil =>
      cases htokens
      refine iff_of_false (List.cons_ne_nil _ _).symm fun ⟨htidy, _⟩ => ?_
      exact htidy.2.1 rfl (after.eq_nil_of_tidy rfl htidy.2.2)
    | cons g gs =>
      obtain ⟨t, rest, ht, -, rfl⟩ := meaningFrom_cons htokens
      have hline := after.line_le g List.mem_cons_self
      have hr := after.ne_nil
      rw [encodeFrom_of_lt (by rw [generated_of_tokenAfter ht]; exact hline),
        totals_newLine hbefore, List.cons_inj_right, hlater, Tidy]
      simp [hr]
  | @comma line start r gs after ih =>
    have hnever (hno : ¬ (first = false ∧ atBreak r = false)) :
        encodeFrom line first (totals line before) tokens = ',' :: r ↔
          Tidy first (',' :: r) ∧ Each Regular before gs :=
      iff_of_false
        (fun h => hno (encodeFrom_eq_comma (line_le_of_meaningFrom htokens after.line_le) h))
        fun ⟨htidy, _⟩ => hno (htidy.1 rfl)
    by_cases hcomma : first = false ∧ atBreak r = false
    · obtain ⟨rfl, hr⟩ := hcomma
      have hlater : encodeFrom line true (totals line before) tokens = r ↔
          Tidy true r ∧ Each Regular before gs := ih htokens hbefore hs nofun
      cases gs with
      | nil =>
        cases htokens
        refine iff_of_false (List.cons_ne_nil _ _).symm fun ⟨htidy, _⟩ => ?_
        rw [after.eq_nil_of_tidy rfl htidy.2.2] at hr
        cases hr
      | cons g gs =>
        obtain ⟨t, rest, ht, -, rfl⟩ := meaningFrom_cons htokens
        have hline : t.generated.line = line := by
          rw [generated_of_tokenAfter ht]
          exact after.line_eq hr
        rw [encodeFrom_comma hline, List.cons_inj_right, hlater, Tidy]
        simp [hr]
    · exact hnever hcomma
  | @text line start text rest gs ne plain ends after ih =>
    obtain ⟨t, tokens', ht, htokens', rfl⟩ := meaningFrom_cons htokens
    obtain rfl : first = true := by
      by_contra hno
      have hbreak := hfirst (by simpa using hno)
      rw [atBreak_text ne plain] at hbreak
      cases hbreak
    have hline : t.generated.line = line := by rw [generated_of_tokenAfter ht]
    rw [encodeFrom_of_eq hline, if_pos rfl, List.nil_append,
      append_eq_append_iff_of_break (encodeToken_plain _ t) plain (atBreak_encodeFrom _ _ _) ends,
      encodeToken_eq_iff ht hs, tidy_text ne plain, each_cons, and_left_comm]
    refine and_congr_right fun hregular => ?_
    obtain ⟨-, hsums⟩ := quantities_of_tokenAfter ht hs hregular.2
    have hlines : ∀ g ∈ before ++ [⟨line, start, text⟩], g.line ≤ line := by
      simpa [or_imp, forall_and] using hbefore
    rw [hsums]
    exact ih htokens' hlines hregular.2 fun _ => ends

/-! ### Order -/

/-- Tokens are in order behind a place exactly if the columns ascend within each line. -/
theorem isChain_iff_ascending {line start : Nat} {s : List Char} {gs : List Segment}
    (h : Cut line start s gs) {count : Nat} {before : List Segment} {tokens : List MapToken}
    (htokens : meaningFrom a count before gs = .ok tokens) (hbefore : ∀ g ∈ before, g.line ≤ line)
    (hregular : Each Regular before gs) {p : Position} (hline : p.line ≤ line)
    (hp : ∀ n : Nat, p.le ⟨line, n⟩ ↔ (totals line before).column ≤ n) :
    (p :: tokens.map (·.generated)).IsChain (·.le ·) ↔
      Each (fun before g => (totals g.line before).column ≤
        (totals g.line (before ++ [g])).column) before gs := by
  induction h generalizing before tokens p with
  | nil line start =>
    cases htokens
    exact iff_of_true (.singleton p) (each_nil _ _)
  | semicolon after ih =>
    refine ih htokens (fun g hg => Nat.le_succ_of_le (hbefore g hg)) hregular
      (Nat.le_succ_of_le hline) fun n => ?_
    rw [← totals_newLine hbefore]
    exact iff_of_true (by simp [Position.le, Nat.lt_succ_of_le hline]) (Int.natCast_nonneg n)
  | comma after ih => exact ih htokens hbefore hregular hline hp
  | @text line start text rest gs ne plain ends after ih =>
    obtain ⟨t, tokens', ht, htokens', rfl⟩ := meaningFrom_cons htokens
    obtain ⟨⟨-, hrange⟩, hregular⟩ := each_cons.mp hregular
    have hlines : ∀ g ∈ before ++ [⟨line, start, text⟩], g.line ≤ line := by
      simpa [or_imp, forall_and] using hbefore
    have hcolumn := natCast_word hrange.column
    rw [List.map_cons, List.isChain_cons_cons, each_cons, generated_of_tokenAfter ht, hp, hcolumn]
    refine and_congr_right fun _ => ih htokens' hlines hregular (Nat.le_refl _) fun n => ?_
    simp only [Position.le, Nat.lt_irrefl, decide_false, beq_self_eq_true, Bool.true_and,
      Bool.false_or, decide_eq_true_eq]
    rw [← Int.ofNat_le, hcolumn]

theorem pairwise_iff_isChain {tokens : List MapToken} {p : Position}
    (hp : ∀ t ∈ tokens, p.le t.generated) :
    tokens.Pairwise (·.generated.le ·.generated) ↔
      (p :: tokens.map (·.generated)).IsChain (·.le ·) := by
  have : Trans (fun p q : Position => p.le q = true) (fun p q : Position => p.le q = true)
    (fun p q : Position => p.le q = true) := ⟨fun h h' => Position.le_trans _ _ _ h h'⟩
  rw [List.isChain_iff_pairwise, List.pairwise_cons, List.forall_mem_map, List.pairwise_map]
  exact (and_iff_right hp).symm

/-! ### The whole text -/

theorem tidy_iff {s : List Char} (front : List Char) :
    Tidy (atBreak front.reverse) s ↔
      (∀ before after, s = before ++ ',' :: after →
        atBreak (front ++ before).reverse = false ∧ atBreak after = false) ∧
      s.getLast? ≠ some ';' := by
  induction s generalizing front with
  | nil => simp [Tidy]
  | cons c r ih =>
    have hbehind : (c == ',' || c == ';') = atBreak (front ++ [c]).reverse := by
      rw [List.reverse_append]
      rfl
    have hlast : (c :: r).getLast? ≠ some ';' ↔ (c = ';' → r ≠ []) ∧ r.getLast? ≠ some ';' := by
      cases r with
      | nil => simp
      | cons d r => simp [List.getLast?_cons_cons]
    rw [Tidy, hbehind, ih, hlast]
    constructor
    · rintro ⟨hcomma, hsemicolon, hcommas, hlast⟩
      refine ⟨fun before after h => ?_, hsemicolon, hlast⟩
      cases before with
      | nil =>
        obtain ⟨rfl, rfl⟩ := List.cons.inj h
        rw [List.append_nil]
        exact hcomma rfl
      | cons d before =>
        obtain ⟨rfl, hr⟩ := List.cons.inj h
        rw [List.append_cons]
        exact hcommas before after hr
    · rintro ⟨hcommas, hsemicolon, hlast⟩
      refine ⟨fun hc => ?_, hsemicolon, fun before after h => ?_, hlast⟩
      · simpa using hcommas [] r (by rw [hc, List.nil_append])
      · simpa using hcommas (c :: before) after (by rw [h, List.cons_append])

theorem canonical_iff {s : List Char} : Canonical s ↔
    Tidy true s ∧ Each Regular [] (segments s) ∧
      Each (fun before g => (totals g.line before).column ≤
        (totals g.line (before ++ [g])).column) [] (segments s) := by
  rw [show true = atBreak ([] : List Char).reverse from rfl, tidy_iff]
  constructor
  · rintro ⟨hcomma, hsemicolon, hshortest, hascending, hrange⟩
    refine ⟨⟨hcomma, hsemicolon⟩, fun front g back hgs => ?_, hascending⟩
    exact ⟨hshortest g (by rw [hgs]; simp), hrange front g back hgs⟩
  · rintro ⟨⟨hcomma, hsemicolon⟩, hregular, hascending⟩
    refine ⟨hcomma, hsemicolon, fun g hg => ?_, hascending, fun front g back hgs => ?_⟩
    · obtain ⟨front, back, hgs⟩ := List.append_of_mem hg
      exact (hregular front g back hgs).1
    · exact (hregular front g back hgs).2

/-- Tokens that were read are written in order as their text exactly if it is canonical. -/
theorem encode_sortTokens_eq_iff {s : List Char} {count : Nat} {tokens : List MapToken}
    (h : decode a s count = .ok tokens) (hfits : ∀ t ∈ tokens, t.Fits)
    (hsource : ∀ t ∈ tokens, t.SourceBelow count) :
    encode (SourceMap.sortTokens tokens) = s ↔ Canonical s := by
  have hcut := cut_segmentsFrom 1 0 s
  have hmeaning : meaningFrom a count [] (segments s) = .ok tokens := by
    rw [← h, decode_eq_meaning]
    exact (mapM_tokenAfter a count [] (segments s)).symm
  have hline := line_le_of_meaningFrom hmeaning hcut.line_le
  have hwritten : encode tokens = s ↔ Tidy true s ∧ Each Regular [] (segments s) :=
    encodeFrom_eq_iff hcut hmeaning (List.forall_mem_nil _) inRange_zero nofun
  have horder (hregular : Each Regular [] (segments s)) :
      tokens.Pairwise (·.generated.le ·.generated) ↔
        Each (fun before g => (totals g.line before).column ≤
          (totals g.line (before ++ [g])).column) [] (segments s) := by
    rw [pairwise_iff_isChain (p := ⟨1, 0⟩)]
    · refine isChain_iff_ascending hcut hmeaning (List.forall_mem_nil _) hregular (Nat.le_refl 1)
        fun n => iff_of_true (by simp [Position.le]) (Int.natCast_nonneg n)
    · intro t ht
      have := hline t ht
      simp only [Position.le, Bool.or_eq_true, Bool.and_eq_true, decide_eq_true_eq, beq_iff_eq]
      omega
  rw [canonical_iff, ← and_assoc]
  constructor
  · intro hsorted
    have hordered := SourceMap.sortTokens_ordered tokens
    have hmem : ∀ t, t ∈ SourceMap.sortTokens tokens ↔ t ∈ tokens := fun t => hordered.perm.mem_iff
    have hreread := reread_decode (a := a) (fun t ht => hfits t ((hmem t).mp ht))
      (fun t ht => hsource t ((hmem t).mp ht)) (hordered.sorted.imp Position.line_le_of_le)
      (fun t ht => hline t ((hmem t).mp ht))
    rw [hsorted, h] at hreread
    have hsame : SourceMap.sortTokens tokens = tokens := by
      rcases hreread with ⟨-, hok⟩ | ⟨-, byte, herror⟩
      · exact (Except.ok.inj hok).symm
      · cases herror
    rw [hsame] at hsorted hordered
    obtain ⟨htidy, hregular⟩ := hwritten.mp hsorted
    exact ⟨⟨htidy, hregular⟩, (horder hregular).mp hordered.sorted⟩
  · rintro ⟨hregular, hascending⟩
    rw [SourceMap.sortTokens_of_pairwise ((horder hregular.2).mpr hascending)]
    exact hwritten.mpr hregular

end Mappings

namespace SourceMap

/-- The mappings of an accepted document are written back as they stand there exactly if they are
canonical. -/
theorem ofJson_mappings_eq_iff {s : List Char} {m : SourceMap} (h : ofJson s = .ok m) :
    ∃ d, (Json.read? s).bind MapDocument.ofJson? = some d ∧
      ((MapDocument.ofMap m).mappings = d.mappings ↔ Mappings.Canonical d.mappings.toList) := by
  have hwell := wellFormed_of_ofJson h
  obtain ⟨d, hd, h⟩ := ofJson_eq_ok.mp h
  obtain ⟨-, -, texts, tokens, -, htokens, rfl⟩ := MapDocument.toMap_eq_ok.mp h
  have hmem (t : MapToken) : t ∈ sortTokens tokens ↔ t ∈ tokens :=
    (sortTokens_ordered tokens).perm.mem_iff
  have hencode := Mappings.encode_sortTokens_eq_iff htokens
    (fun t ht => hwell.fits t ((hmem t).mpr ht)) (fun t ht => hwell.source t ((hmem t).mpr ht))
  refine ⟨d, hd, Iff.trans ?_ hencode⟩
  rw [MapDocument.ofMap, ← String.toList_inj, String.toList_ofList]

theorem ofJson_mappings_eq_iff_rootedText :
    ofJson rootedText = .ok rootedMap ∧ ∃ d,
      (Json.read? rootedText).bind MapDocument.ofJson? = some d ∧
      ((MapDocument.ofMap rootedMap).mappings = d.mappings ↔
        Mappings.Canonical d.mappings.toList) := by
  have h : ofJson rootedText = .ok rootedMap :=
    ofJson_of_parts (d := ⟨3, none, some "r/", ["a.js"], [some "x"], [], ";EAACA"⟩)
      (by decide +kernel) rfl rfl rfl (by decide +kernel) (by decide)
  exact ⟨h, ofJson_mappings_eq_iff h⟩

end SourceMap

end Assay
