import Assay.Proofs.Edit.Parts

/-!
# Where the offsets of an edited text come from

The pieces of a derived offset map tile the edited text, so bisection finds the one that a search
from the front would find. `apply_exact` says what the map of applied edits answers for every
offset.
-/

namespace Assay

namespace OffsetMap

/-- Pieces that stand one after the other from one offset up to another, none of them empty. -/
inductive Tiled : Nat → List Piece → Nat → Prop where
  | nil (n : Nat) : Tiled n [] n
  | cons {n stop : Nat} {p : Piece} {ps : List Piece} (start : p.generated.start = n)
      (nonempty : n < p.generated.stop) (rest : Tiled p.generated.stop ps stop) :
      Tiled n (p :: ps) stop

namespace Tiled

theorem le {n stop : Nat} {ps : List Piece} (h : Tiled n ps stop) : n ≤ stop := by
  induction h with
  | nil => exact Nat.le_refl _
  | cons _ nonempty _ ih => omega

theorem mem {n stop : Nat} {ps : List Piece} (h : Tiled n ps stop) :
    ∀ p ∈ ps, n ≤ p.generated.start ∧ p.generated.start < p.generated.stop ∧
      p.generated.stop ≤ stop := by
  induction h with
  | nil => simp
  | cons start nonempty rest ih =>
    intro q hq
    rcases List.mem_cons.mp hq with rfl | hq
    · have := rest.le
      omega
    · have := ih q hq
      omega

/-- The pieces in front of one and those behind it. -/
theorem split {n stop : Nat} {before after : List Piece} {p : Piece}
    (h : Tiled n (before ++ p :: after) stop) :
    Tiled n before p.generated.start ∧ p.generated.start < p.generated.stop ∧
      Tiled p.generated.stop after stop := by
  induction before generalizing n with
  | nil =>
    cases h with
    | cons start nonempty rest => exact ⟨start ▸ .nil _, by omega, rest⟩
  | cons q before ih =>
    cases h with
    | cons start nonempty rest =>
      obtain ⟨hbefore, hp, hafter⟩ := ih rest
      exact ⟨.cons start nonempty hbefore, hp, hafter⟩

theorem exists_split {n stop g : Nat} {ps : List Piece} (h : Tiled n ps stop) (hle : n ≤ g)
    (hlt : g < stop) : ∃ before p after, ps = before ++ p :: after ∧ p.generated.contains g := by
  induction h with
  | nil => omega
  | @cons n stop p ps start nonempty rest ih =>
    rcases Nat.lt_or_ge g p.generated.stop with hp | hp
    · exact ⟨[], p, ps, rfl, (Span.contains_iff _ _).mpr ⟨by omega, hp⟩⟩
    · obtain ⟨before, q, after, rfl, hq⟩ := ih hp hlt
      exact ⟨p :: before, q, after, rfl, hq⟩

theorem find?_eq {n stop g : Nat} {before after : List Piece} {p : Piece}
    (h : Tiled n (before ++ p :: after) stop) (hp : p.generated.contains g) :
    (before ++ p :: after).find? (·.generated.contains g) = some p := by
  have hstart := ((Span.contains_iff _ _).mp hp).1
  refine List.find?_eq_some_iff_append.mpr ⟨hp, before, after, rfl, fun q hq => ?_⟩
  have := h.split.1.mem q hq
  simp only [Span.contains, Bool.not_eq_eq_eq_not, Bool.not_true, Bool.and_eq_false_iff,
    decide_eq_false_iff_not]
  omega

theorem find?_eq_none {n stop g : Nat} {ps : List Piece} (h : Tiled n ps stop) (hg : stop ≤ g) :
    ps.find? (·.generated.contains g) = none := by
  refine List.find?_eq_none.mpr fun p hp hc => ?_
  have := h.mem p hp
  have := (Span.contains_iff _ _).mp hc
  omega

end Tiled

theorem pieceAt?_eq (m : OffsetMap) {front back : List Piece} {g : Nat}
    (hpieces : m.pieces = (front ++ back).toArray)
    (hfront : ∀ p ∈ front, p.generated.start ≤ g) (hback : ∀ p ∈ back, g < p.generated.start) :
    m.pieceAt? g = (front ++ back)[front.length - 1]?.filter (·.generated.contains g) := by
  have hat : firstFalse (·.generated.start ≤ g) m.pieces = front.length := by
    rw [hpieces]
    exact firstFalse_append (by simpa using hfront) (by simpa using hback)
  rw [pieceAt?, hat, hpieces, List.getElem?_toArray]

/-- Bisection finds the piece that a search from the front finds. -/
theorem pieceAt?_eq_find? {m : OffsetMap} {ps : List Piece} {stop : Nat}
    (hpieces : m.pieces = ps.toArray) (h : Tiled 0 ps stop) (g : Nat) :
    m.pieceAt? g = ps.find? (·.generated.contains g) := by
  rcases Nat.lt_or_ge g stop with hlt | hge
  · obtain ⟨before, p, after, rfl, hp⟩ := h.exists_split (Nat.zero_le g) hlt
    obtain ⟨hbefore, hp', hafter⟩ := h.split
    obtain ⟨hstart, hstop⟩ := (Span.contains_iff _ _).mp hp
    have hfront : ∀ q ∈ before ++ [p], q.generated.start ≤ g := by
      intro q hq
      rcases List.mem_append.mp hq with hq | hq
      · have := hbefore.mem q hq
        omega
      · rw [List.mem_singleton.mp hq]
        exact hstart
    have hback : ∀ q ∈ after, g < q.generated.start := fun q hq => by
      have := hafter.mem q hq
      omega
    rw [h.find?_eq hp, pieceAt?_eq m (by rw [hpieces, List.append_assoc]; rfl) hfront hback]
    simp [hp]
  · have hfront : ∀ q ∈ ps, q.generated.start ≤ g := fun q hq => by
      have := h.mem q hq
      omega
    rw [h.find?_eq_none hge,
      pieceAt?_eq m (show m.pieces = (ps ++ []).toArray by rw [hpieces, List.append_nil]) hfront
        (by simp)]
    -- The last piece, if there is one, ends before the offset.
    refine Option.filter_eq_none_iff.mpr fun p hp hc => ?_
    rw [List.append_nil] at hp
    have := h.mem p (List.mem_of_getElem? hp)
    have := (Span.contains_iff _ _).mp hc
    omega

end OffsetMap

/-! ### The pieces of parts -/

namespace Part

def isKept : Part → Bool
  | kept _ => true
  | replaced .. => false

/-- The piece of a part that begins at an offset of the source and at one of the result. -/
def piece (source generated : Nat) (p : Part) : Piece :=
  ⟨⟨generated, generated + Text.units p.result⟩, ⟨source, source + Text.units p.source⟩, p.isKept⟩

/-- The pieces of parts; a slice in which nothing stands has none. -/
def pieces (source generated : Nat) : List Part → List Piece
  | [] => []
  | p :: ps =>
    let rest := pieces (source + Text.units p.source) (generated + Text.units p.result) ps
    if p = .kept [] then rest else p.piece source generated :: rest

theorem pieces_cons (source generated : Nat) (p : Part) (ps : List Part) :
    pieces source generated (p :: ps) = pieces source generated [p] ++
      pieces (source + Text.units p.source) (generated + Text.units p.result) ps := by
  simp only [pieces]
  split <;> rfl

theorem pieces_replaced (source generated : Nat) (old new : List Char) (ps : List Part) :
    pieces source generated (.replaced old new :: ps) =
      (replaced old new).piece source generated ::
        pieces (source + Text.units old) (generated + Text.units new) ps := by
  simp only [pieces, reduceCtorEq, if_false, Part.source, Part.result]

/-- The part of an offset of a result, the place at which it begins in the source, and how far into
it the offset is. -/
def partAt? (source : Nat) : List Part → Nat → Option (Part × Nat × Nat)
  | [], _ => none
  | p :: ps, g =>
    if g < Text.units p.result then some (p, source, g)
    else partAt? (source + Text.units p.source) ps (g - Text.units p.result)

/-- Where an offset of a part comes from: the same place of a slice, the start of what a replacement
replaced. -/
def origin (p : Part) (source i : Nat) : Nat := if p.isKept then source + i else source

/-- Where the offset of a result comes from. -/
def originAt? (source : Nat) (parts : List Part) (g : Nat) : Option Nat :=
  (partAt? source parts g).map fun (p, start, i) => p.origin start i

theorem originAt?_cons (source : Nat) (p : Part) (ps : List Part) (g : Nat) :
    originAt? source (p :: ps) g =
      if g < Text.units p.result then some (p.origin source g)
      else originAt? (source + Text.units p.source) ps (g - Text.units p.result) := by
  unfold originAt?
  rw [partAt?]
  split <;> rfl

theorem origin_kept (text : List Char) (source i : Nat) : (kept text).origin source i = source + i :=
  rfl

theorem origin_replaced (old new : List Char) (source i : Nat) :
    (replaced old new).origin source i = source := rfl

theorem origin_le (p : Part) {i : Nat} (source : Nat) (h : i < Text.units p.result) :
    source ≤ p.origin source i ∧ p.origin source i ≤ source + Text.units p.source := by
  cases p with
  | kept text =>
    have hi : i < Text.units text := h
    rw [origin_kept, Part.source]
    omega
  | replaced old new =>
    rw [origin_replaced]
    omega

theorem origin_mono (p : Part) (source : Nat) {i j : Nat} (h : i ≤ j) :
    p.origin source i ≤ p.origin source j := by
  cases p with
  | kept text => exact Nat.add_le_add_left h source
  | replaced old new => exact Nat.le_refl source

/-- No replacement is empty. -/
def Proper (parts : List Part) : Prop := ∀ old new, replaced old new ∈ parts → new ≠ []

theorem Proper.units_pos {p : Part} {ps : List Part} (h : Proper (p :: ps)) (hp : p ≠ .kept []) :
    0 < Text.units p.result := by
  cases p with
  | kept text => exact Text.units_pos fun hnil => hp (congrArg kept hnil)
  | replaced old new => exact Text.units_pos (h old new List.mem_cons_self)

theorem Proper.tail {p : Part} {ps : List Part} (h : Proper (p :: ps)) : Proper ps :=
  fun old new hmem => h old new (List.mem_cons_of_mem p hmem)

theorem tiled_pieces {parts : List Part} (h : Proper parts) (source generated : Nat) :
    OffsetMap.Tiled generated (pieces source generated parts)
      (generated + Text.units (resultText parts)) := by
  induction parts generalizing source generated with
  | nil => exact .nil generated
  | cons p ps ih =>
    have hrest := ih h.tail (source + Text.units p.source) (generated + Text.units p.result)
    rw [Nat.add_assoc, ← Text.units_append, ← resultText_cons] at hrest
    unfold pieces
    dsimp only
    split
    next hp =>
      subst hp
      exact hrest
    next hp =>
      have := h.units_pos hp
      exact .cons rfl (by simp only [piece]; omega) hrest

/-- The piece of an offset is that of its part. -/
theorem find?_pieces (parts : List Part) (source generated g : Nat) :
    (pieces source generated parts).find? (·.generated.contains (generated + g)) =
      (partAt? source parts g).map fun (p, start, i) => p.piece start (generated + g - i) := by
  induction parts generalizing source generated g with
  | nil => rfl
  | cons p ps ih =>
    have hcontains : (p.piece source generated).generated.contains (generated + g) =
        decide (g < Text.units p.result) := by
      rw [Bool.eq_iff_iff, Span.contains_iff, decide_eq_true_eq]
      simp only [piece]
      omega
    unfold pieces partAt?
    dsimp only
    by_cases hg : g < Text.units p.result
    · have hp : p ≠ .kept [] := by
        rintro rfl
        exact absurd hg (Nat.not_lt_zero g)
      rw [if_neg hp, if_pos hg, List.find?_cons_of_pos (by rw [hcontains]; exact decide_eq_true hg)]
      simp only [Option.map_some, Nat.add_sub_cancel]
    · have hnext := ih (source + Text.units p.source) (generated + Text.units p.result)
        (g - Text.units p.result)
      have hback : generated + Text.units p.result + (g - Text.units p.result) = generated + g := by
        omega
      rw [hback] at hnext
      rw [if_neg hg]
      split
      · exact hnext
      · rw [List.find?_cons_of_neg (by rw [hcontains]; simpa using hg)]
        exact hnext

theorem partAt?_le {parts : List Part} {source g start i : Nat} {p : Part}
    (h : partAt? source parts g = some (p, start, i)) : i ≤ g ∧ i < Text.units p.result := by
  induction parts generalizing source g with
  | nil => cases h
  | cons q ps ih =>
    unfold partAt? at h
    split at h
    next hg =>
      cases h
      exact ⟨Nat.le_refl _, hg⟩
    next =>
      have := ih h
      omega

theorem partAt?_append (before parts : List Part) (source i : Nat) :
    partAt? source (before ++ parts) (Text.units (resultText before) + i) =
      partAt? (source + Text.units (sourceText before)) parts i := by
  induction before generalizing source with
  | nil => simp
  | cons p before ih =>
    have hlt : ¬ Text.units p.result + Text.units (resultText before) + i < Text.units p.result := by
      omega
    have hsub : Text.units p.result + Text.units (resultText before) + i - Text.units p.result =
        Text.units (resultText before) + i := by
      omega
    rw [List.cons_append, partAt?, resultText_cons, Text.units_append, if_neg hlt, hsub, ih,
      sourceText_cons, Text.units_append, Nat.add_assoc]

theorem originAt?_append (before parts : List Part) (source i : Nat) :
    originAt? source (before ++ parts) (Text.units (resultText before) + i) =
      originAt? (source + Text.units (sourceText before)) parts i := by
  rw [originAt?, partAt?_append, originAt?]

theorem originAt?_eq_none {parts : List Part} {g : Nat} (source : Nat)
    (h : Text.units (resultText parts) ≤ g) : originAt? source parts g = none := by
  induction parts generalizing source g with
  | nil => rfl
  | cons p ps ih =>
    rw [resultText_cons, Text.units_append] at h
    rw [originAt?_cons, if_neg (by omega)]
    exact ih _ (by omega)

/-- Each offset of a result has an origin. -/
theorem exists_originAt? {parts : List Part} {g : Nat} (source : Nat)
    (h : g < Text.units (resultText parts)) : ∃ o, originAt? source parts g = some o := by
  induction parts generalizing source g with
  | nil => exact absurd h (Nat.not_lt_zero g)
  | cons p ps ih =>
    rw [resultText_cons, Text.units_append] at h
    rw [originAt?_cons]
    split
    next => exact ⟨_, rfl⟩
    next => exact ih _ (by omega)

/-- An origin is one of the source. -/
theorem originAt?_bounds {parts : List Part} {source g o : Nat}
    (h : originAt? source parts g = some o) :
    source ≤ o ∧ o ≤ source + Text.units (sourceText parts) := by
  induction parts generalizing source g with
  | nil => cases h
  | cons p ps ih =>
    rw [sourceText_cons, Text.units_append]
    rw [originAt?_cons] at h
    split at h
    next hg =>
      have := origin_le p source hg
      rw [← Option.some.inj h]
      omega
    next =>
      have := ih h
      omega

/-- Nothing that is replaced is empty. -/
def Sourced (parts : List Part) : Prop := ∀ old new, replaced old new ∈ parts → old ≠ []

theorem Sourced.tail {p : Part} {ps : List Part} (h : Sourced (p :: ps)) : Sourced ps :=
  fun old new hmem => h old new (List.mem_cons_of_mem p hmem)

theorem Sourced.origin_lt {p : Part} {ps : List Part} (h : Sourced (p :: ps)) (source : Nat) {i : Nat}
    (hi : i < Text.units p.result) : p.origin source i < source + Text.units p.source := by
  cases p with
  | kept text => exact Nat.add_lt_add_left hi source
  | replaced old new =>
    exact Nat.lt_add_of_pos_right (Text.units_pos (h old new List.mem_cons_self))

/-- An origin is an offset in front of the end of the source. -/
theorem originAt?_lt {parts : List Part} {source g o : Nat} (h : Sourced parts)
    (ho : originAt? source parts g = some o) : o < source + Text.units (sourceText parts) := by
  induction parts generalizing source g with
  | nil => cases ho
  | cons p ps ih =>
    rw [sourceText_cons, Text.units_append]
    rw [originAt?_cons] at ho
    split at ho
    next hg =>
      have := h.origin_lt source hg
      rw [← Option.some.inj ho]
      omega
    next =>
      have := ih h.tail ho
      omega

/-- Origins do not go back. -/
theorem originAt?_mono {parts : List Part} {source g g' o o' : Nat} (hle : g ≤ g')
    (h : originAt? source parts g = some o) (h' : originAt? source parts g' = some o') :
    o ≤ o' := by
  induction parts generalizing source g g' with
  | nil => cases h
  | cons p ps ih =>
    rw [originAt?_cons] at h h'
    by_cases hg' : g' < Text.units p.result
    · -- Both offsets are of this part.
      rw [if_pos (show g < Text.units p.result by omega)] at h
      rw [if_pos hg'] at h'
      rw [← Option.some.inj h, ← Option.some.inj h']
      exact origin_mono p source hle
    · rw [if_neg hg'] at h'
      by_cases hg : g < Text.units p.result
      · -- The second offset is of a later part, whose source begins where this one ends.
        rw [if_pos hg] at h
        rw [← Option.some.inj h]
        exact Nat.le_trans (origin_le p source hg).2 (originAt?_bounds h').1
      · rw [if_neg hg] at h
        exact ih (by omega) h h'

end Part

namespace Edit

theorem Parted.sourced {byte : Nat} {s : List Char} {es : List Edit} {parts : List Part}
    (h : Parted byte s es parts) (hes : ∀ e ∈ es, e.start < e.stop) : Part.Sourced parts := by
  induction h with
  | nil => intro old new hmem; simp at hmem
  | @cons byte e es parts gap old rest start stop _ ih =>
    intro old' new' hmem
    simp only [List.mem_cons, reduceCtorEq, false_or, Part.replaced.injEq] at hmem
    rcases hmem with ⟨rfl, -⟩ | hmem
    · rintro rfl
      have := hes e List.mem_cons_self
      rw [Text.bytes_nil] at stop
      omega
    · exact ih (fun e' he' => hes e' (List.mem_cons_of_mem e he')) old' new' hmem

theorem pieces_addSource (b : OffsetMap.Builder) (source : Nat) (text : List Char) :
    (b.addSource source text).pieces =
        (Part.pieces source b.length [.kept text]).reverse ++ b.pieces ∧
      (b.addSource source text).length = b.length + Text.units text := by
  unfold OffsetMap.Builder.addSource
  cases text with
  | nil => simp [Part.pieces]
  | cons c text =>
    have hpos := Text.units_pos (List.cons_ne_nil c text)
    have hne : ¬ Text.units (c :: text) = 0 := by omega
    simp only [hne, if_false, OffsetMap.Builder.push, Part.pieces, Part.piece, Part.isKept,
      Part.result, Part.source, reduceCtorEq, Part.kept.injEq, List.reverse_cons, List.reverse_nil,
      List.nil_append, List.singleton_append, and_self]

/-- Assembling collects the pieces of the parts. -/
theorem pieces_assemble {byte : Nat} {s : List Char} {es : List Edit} {parts : List Part}
    (h : Parted byte s es parts) (b : OffsetMap.Builder) (offset : Nat) :
    (assemble b ⟨byte, offset, s⟩ es).2.pieces =
      (Part.pieces offset b.length parts).reverse ++ b.pieces := by
  induction h generalizing b offset with
  | nil byte s => exact (pieces_addSource b offset s).1
  | @cons byte e es parts gap old rest start stop _ ih =>
    have hgap : e.start - byte = Text.bytes gap := by omega
    have hold : e.stop - e.start = Text.bytes old := by omega
    obtain ⟨hpieces, hlength⟩ := pieces_addSource b offset gap
    simp only [assemble, hgap, List.append_assoc, Text.splitAtByte_bytes, hold, ih]
    rw [Part.pieces_cons, Part.pieces_replaced]
    simp only [OffsetMap.Builder.addTransformed, OffsetMap.Builder.push, hpieces, hlength, Part.piece,
      Part.isKept, Part.result, Part.source, List.reverse_append, List.reverse_cons,
      List.append_assoc, List.nil_append, List.cons_append]

theorem text_apply {s : List Char} {edits : List Edit} {parts : List Part}
    (h : Parted 0 s (sort edits) parts) : (apply edits s).1 = Part.resultText parts := by
  simp only [apply]
  exact assemble_spliced h.spliced .empty 0

theorem pieces_apply {s : List Char} {edits : List Edit} {parts : List Part}
    (h : Parted 0 s (sort edits) parts) :
    (apply edits s).2.pieces = (Part.pieces 0 0 parts).toArray := by
  have hcollected := pieces_assemble h .empty 0
  rw [show OffsetMap.Builder.empty.pieces = [] from rfl, List.append_nil] at hcollected
  simp only [apply, OffsetMap.Builder.build, hcollected, List.reverse_reverse]
  rfl

end Edit

/-! ### What an offset map answers -/

namespace OffsetMap

variable {m : OffsetMap} {parts : List Part}

theorem pieceAt?_eq_partAt? (hpieces : m.pieces = (Part.pieces 0 0 parts).toArray)
    (proper : Part.Proper parts) (g : Nat) :
    m.pieceAt? g = (Part.partAt? 0 parts g).map fun (p, start, i) => p.piece start (g - i) := by
  have hfind := Part.find?_pieces parts 0 0 g
  rw [Nat.zero_add] at hfind
  rw [pieceAt?_eq_find? hpieces (Part.tiled_pieces proper 0 0), hfind]

/-- The map answers with the origins in the parts. -/
theorem sourceOffset?_eq_originAt? (hpieces : m.pieces = (Part.pieces 0 0 parts).toArray)
    (proper : Part.Proper parts) (g : Nat) : m.sourceOffset? g = Part.originAt? 0 parts g := by
  rw [sourceOffset?, pieceAt?_eq_partAt? hpieces proper, Part.originAt?]
  cases hp : Part.partAt? 0 parts g with
  | none => rfl
  | some found =>
    obtain ⟨p, start, i⟩ := found
    have hi := (Part.partAt?_le hp).1
    simp only [Option.map_some, originOf, Part.piece, Part.origin, Nat.sub_sub_self hi]

/-- A map from a text that is made of parts: a slice comes from the same place of the source, a
replacement from the start of what it replaced, and nothing from beyond the end. -/
structure Exact (m : OffsetMap) (parts : List Part) : Prop where
  kept : ∀ before text after i, parts = before ++ .kept text :: after → i < Text.units text →
    m.sourceOffset? (Text.units (Part.resultText before) + i) =
      some (Text.units (Part.sourceText before) + i)
  replaced : ∀ before old new after i, parts = before ++ .replaced old new :: after →
    i < Text.units new →
      m.sourceOffset? (Text.units (Part.resultText before) + i) =
        some (Text.units (Part.sourceText before))
  beyond : ∀ g, Text.units (Part.resultText parts) ≤ g → m.sourceOffset? g = none

theorem exact_of_originAt? (h : ∀ g, m.sourceOffset? g = Part.originAt? 0 parts g) :
    m.Exact parts where
  kept before text after i hparts hi := by
    rw [h, hparts, Part.originAt?_append, Part.originAt?_cons, Nat.zero_add]
    exact if_pos hi
  replaced before old new after i hparts hi := by
    rw [h, hparts, Part.originAt?_append, Part.originAt?_cons, Nat.zero_add]
    exact if_pos hi
  beyond g hg := by rw [h, Part.originAt?_eq_none 0 hg]

/-- A copied offset has the code unit of the place that it comes from. -/
theorem Exact.codeUnit (h : m.Exact parts) {g : Nat}
    (hg : Part.Copied parts g) :
    ∃ o, m.sourceOffset? g = some o ∧
      (Text.codeUnits (Part.resultText parts))[g]? =
        (Text.codeUnits (Part.sourceText parts))[o]? := by
  obtain ⟨before, text, after, i, rfl, hi, rfl⟩ := hg
  refine ⟨_, h.kept before text after i rfl hi, ?_⟩
  have hunit : ∀ front : List Char, ∀ back : List Char,
      (Text.codeUnits (front ++ (text ++ back)))[Text.units front + i]? =
        (Text.codeUnits text)[i]? := by
    intro front back
    rw [Text.codeUnits_append, Text.codeUnits_append,
      List.getElem?_append_right (by rw [Text.length_codeUnits]; omega), Text.length_codeUnits,
      Nat.add_sub_cancel_left, List.getElem?_append_left (by rwa [Text.length_codeUnits])]
  rw [Part.resultText_append, Part.resultText_cons, Part.sourceText_append, Part.sourceText_cons]
  exact (hunit _ _).trans (hunit _ _).symm

end OffsetMap

/-- Edits that can be made together give the text made of the slices that stay and the replacements
in their order, with a map that is exact for it: each copied offset leads to the place with the same
code unit, and offsets that do not go back have origins that do not go back. -/
theorem Edit.apply_exact {source : List Char} {edits : List Edit}
    (h : Edit.Applicable source edits) :
    ∃ parts, Edit.Parted 0 source (Edit.sort edits) parts ∧
      (Edit.apply edits source).1 = Part.resultText parts ∧
      (Edit.apply edits source).2.Exact parts ∧
      (∀ g, Part.Copied parts g → ∃ o, (Edit.apply edits source).2.sourceOffset? g = some o ∧
        (Text.codeUnits (Edit.apply edits source).1)[g]? = (Text.codeUnits source)[o]?) ∧
      ∀ g g' o o', g ≤ g' → (Edit.apply edits source).2.sourceOffset? g = some o →
        (Edit.apply edits source).2.sourceOffset? g' = some o' → o ≤ o' := by
  obtain ⟨parts, hparts, proper⟩ := h.exists_parted
  have horigin := OffsetMap.sourceOffset?_eq_originAt? (Edit.pieces_apply hparts) proper
  have hexact := OffsetMap.exact_of_originAt? horigin
  have htext := Edit.text_apply hparts
  refine ⟨parts, hparts, htext, hexact, fun g hg => ?_, fun g g' o o' hle ho ho' => ?_⟩
  · obtain ⟨o, ho, hunit⟩ := hexact.codeUnit hg
    rw [hparts.sourceText] at hunit
    exact ⟨o, ho, by rw [htext, hunit]⟩
  · rw [horigin] at ho ho'
    exact Part.originAt?_mono hle ho ho'

/-- Two edits that were recorded out of order, in a text with characters of two and four bytes. -/
theorem Edit.apply_exact_outOfOrder :
    Edit.Applicable "aé;\n💡(x);\n".toList [⟨5, 13, "const y = x;\ny();"⟩, ⟨1, 3, "b"⟩] ∧
      ∃ parts, Edit.Parted 0 "aé;\n💡(x);\n".toList [⟨1, 3, "b"⟩, ⟨5, 13, "const y = x;\ny();"⟩] parts ∧
        (Edit.apply [⟨5, 13, "const y = x;\ny();"⟩, ⟨1, 3, "b"⟩] "aé;\n💡(x);\n".toList).1 =
          Part.resultText parts ∧
        (Edit.apply [⟨5, 13, "const y = x;\ny();"⟩, ⟨1, 3, "b"⟩] "aé;\n💡(x);\n".toList).2.Exact
          parts := by
  have hsort : Edit.sort [⟨5, 13, "const y = x;\ny();"⟩, ⟨1, 3, "b"⟩] =
      [⟨1, 3, "b"⟩, ⟨5, 13, "const y = x;\ny();"⟩] := by
    simp [Edit.sort, List.mergeSort]
  have hsplit : ∀ e ∈ ([⟨5, 13, "const y = x;\ny();"⟩, ⟨1, 3, "b"⟩] : List Edit),
      Text.bytes (Text.splitAtByte e.start "aé;\n💡(x);\n".toList).1 = e.start ∧
        Text.bytes (Text.splitAtByte e.stop "aé;\n💡(x);\n".toList).1 = e.stop := by
    decide
  have h : Edit.Applicable "aé;\n💡(x);\n".toList
      [⟨5, 13, "const y = x;\ny();"⟩, ⟨1, 3, "b"⟩] := {
    ordered := by decide
    boundaries := fun e he => ⟨Edit.boundary_of_splitAtByte (hsplit e he).1,
      Edit.boundary_of_splitAtByte (hsplit e he).2⟩
    apart := by
      rw [hsort]
      decide
    nonempty := by decide }
  obtain ⟨parts, hparts, htext, hexact, -⟩ := Edit.apply_exact h
  rw [hsort] at hparts
  exact ⟨h, parts, hparts, htext, hexact⟩

end Assay
