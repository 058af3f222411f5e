import Assay.Proofs.Edit.Splice
import Assay.Proofs.Text.Encodings

/-!
# The parts of an edited text

An edited text is made of parts: slices that stay and replacements of ranges. `exists_parted` says
that edits between characters that are apart from each other divide the text into parts, and
`Parted.spliced` that the parts put together are the edited text.
-/

namespace Assay

namespace Text

theorem units_pos {s : List Char} (h : s ≠ []) : 0 < units s := by
  obtain ⟨c, s, rfl⟩ := List.exists_cons_of_ne_nil h
  have := charUnits_pos c
  rw [units_cons]
  omega

theorem charUnits_le_utf8Size (c : Char) : charUnits c ≤ c.utf8Size := by
  have hpos := c.utf8Size_pos
  unfold charUnits
  split
  next => exact hpos
  next hbig =>
    have hlt : (65535 : UInt32) < c.val := UInt32.lt_iff_toNat_lt.mpr (Nat.not_lt.mp hbig)
    rw [Char.utf8Size_eq_four_iff.mpr hlt]
    decide

theorem units_le_bytes (s : List Char) : units s ≤ bytes s := by
  induction s with
  | nil => exact Nat.le_refl 0
  | cons c s ih =>
    have := charUnits_le_utf8Size c
    rw [units_cons, bytes_cons]
    omega

/-- Of two beginnings of a text the one with no more bytes is a beginning of the other. -/
theorem exists_append_of_bytes_le {a b c d : List Char} (h : a ++ b = c ++ d)
    (hle : bytes a ≤ bytes c) : ∃ m, c = a ++ m ∧ b = m ++ d := by
  rcases List.append_eq_append_iff.mp h with ⟨m, hc, hb⟩ | ⟨m, ha, hd⟩
  · exact ⟨m, hc, hb⟩
  · cases m with
    | nil => exact ⟨[], by simpa using ha.symm, by simpa using hd.symm⟩
    | cons x m =>
      have := x.utf8Size_pos
      rw [ha, bytes_append, bytes_cons] at hle
      omega

end Text

/-- A part of an edited text: a slice that stays, or a new text in the place of an old one. -/
inductive Part where
  | kept (text : List Char)
  | replaced (old new : List Char)
  deriving DecidableEq, Repr

namespace Part

def source : Part → List Char
  | kept text => text
  | replaced old _ => old

def result : Part → List Char
  | kept text => text
  | replaced _ new => new

def sourceText (parts : List Part) : List Char := parts.flatMap source

def resultText (parts : List Part) : List Char := parts.flatMap result

@[simp] theorem sourceText_nil : sourceText [] = [] := rfl

@[simp] theorem resultText_nil : resultText [] = [] := rfl

@[simp] theorem sourceText_cons (p : Part) (ps : List Part) :
    sourceText (p :: ps) = p.source ++ sourceText ps := List.flatMap_cons

@[simp] theorem resultText_cons (p : Part) (ps : List Part) :
    resultText (p :: ps) = p.result ++ resultText ps := List.flatMap_cons

@[simp] theorem sourceText_append (ps qs : List Part) :
    sourceText (ps ++ qs) = sourceText ps ++ sourceText qs := List.flatMap_append

@[simp] theorem resultText_append (ps qs : List Part) :
    resultText (ps ++ qs) = resultText ps ++ resultText qs := List.flatMap_append

/-- The offset of a result is one of a slice that stayed. -/
def Copied (parts : List Part) (g : Nat) : Prop :=
  ∃ before text after i, parts = before ++ kept text :: after ∧ i < Text.units text ∧
    g = Text.units (resultText before) + i

/-- A replacement begins at the offset of a result. -/
def Begins (parts : List Part) (g : Nat) : Prop :=
  ∃ before old new after, parts = before ++ replaced old new :: after ∧ 0 < Text.units new ∧
    g = Text.units (resultText before)

theorem Copied.lt {parts : List Part} {g : Nat} (h : Copied parts g) :
    g < Text.units (resultText parts) := by
  obtain ⟨before, text, after, i, rfl, hi, rfl⟩ := h
  rw [resultText_append, resultText_cons, Text.units_append, Text.units_append]
  have : Text.units (kept text).result = Text.units text := rfl
  omega

end Part

namespace Edit

/-- The parts into which edits from the front on divide a text that starts at a byte. -/
inductive Parted : Nat → List Char → List Edit → List Part → Prop where
  | nil (byte : Nat) (s : List Char) : Parted byte s [] [.kept s]
  | cons {byte : Nat} {e : Edit} {es : List Edit} {parts : List Part} (gap old rest : List Char)
      (start : e.start = byte + Text.bytes gap) (stop : e.stop = e.start + Text.bytes old)
      (after : Parted e.stop rest es parts) :
      Parted byte (gap ++ old ++ rest) (e :: es)
        (.kept gap :: .replaced old e.replacement.toList :: parts)

namespace Parted

theorem sourceText {byte : Nat} {s : List Char} {es : List Edit} {parts : List Part}
    (h : Parted byte s es parts) : Part.sourceText parts = s := by
  induction h with
  | nil => simp [Part.source]
  | cons gap old rest _ _ _ ih =>
    simp only [Part.sourceText_cons, Part.source, ih, List.append_assoc]

theorem spliced {byte : Nat} {s : List Char} {es : List Edit} {parts : List Part}
    (h : Parted byte s es parts) : Spliced byte s es (Part.resultText parts) := by
  induction h with
  | nil byte s =>
    simp only [Part.resultText_cons, Part.result, Part.resultText_nil, List.append_nil]
    exact .nil byte s
  | cons gap old rest start stop _ ih =>
    simp only [Part.resultText_cons, Part.result, ← List.append_assoc]
    exact .cons gap old rest start stop ih

/-- Each replacement among the parts is that of an edit. -/
theorem replacement_mem {byte : Nat} {s : List Char} {es : List Edit} {parts : List Part}
    (h : Parted byte s es parts) {old new : List Char} (hmem : .replaced old new ∈ parts) :
    ∃ e ∈ es, new = e.replacement.toList := by
  induction h with
  | nil => simp at hmem
  | @cons _ e _ _ _ _ _ _ _ _ ih =>
    simp only [List.mem_cons, reduceCtorEq, false_or, Part.replaced.injEq] at hmem
    rcases hmem with ⟨-, rfl⟩ | hmem
    · exact ⟨e, List.mem_cons_self, rfl⟩
    · obtain ⟨e', he', hnew⟩ := ih hmem
      exact ⟨e', List.mem_cons_of_mem e he', hnew⟩

/-- A single edit leaves what stands in front of it and what stands behind it. -/
theorem of_single {s : List Char} {e : Edit} {parts : List Part}
    (h : Parted 0 s [e] parts) :
    ∃ old, parts = [.kept (Text.splitAtByte e.start s).1, .replaced old e.replacement.toList,
      .kept (Text.splitAtByte e.stop s).2] := by
  cases h with
  | cons gap old rest start stop after =>
    cases after with
    | nil =>
      have hfront := Text.splitAtByte_bytes gap (old ++ rest)
      have hback := Text.splitAtByte_bytes (gap ++ old) rest
      rw [stop, start, Nat.zero_add, ← Text.bytes_append, hback, List.append_assoc, hfront]
      exact ⟨old, rfl⟩

end Parted

theorem Spliced.exists_parted {byte : Nat} {s code : List Char} {es : List Edit}
    (h : Spliced byte s es code) :
    ∃ parts, Parted byte s es parts ∧ Part.resultText parts = code := by
  induction h with
  | nil byte s => exact ⟨_, .nil byte s, by simp [Part.result]⟩
  | cons gap old rest start stop _ ih =>
    obtain ⟨parts, hparts, rfl⟩ := ih
    exact ⟨_, .cons gap old rest start stop hparts, by simp [Part.result]⟩

/-! ### Edits that can be made together -/

/-- The byte stands between two characters of a text that starts at `first`, or at an end of it. -/
def Boundary (first : Nat) (s : List Char) (byte : Nat) : Prop :=
  ∃ before after, s = before ++ after ∧ byte = first + Text.bytes before

theorem boundary_of_splitAtByte {s : List Char} {byte : Nat}
    (h : Text.bytes (Text.splitAtByte byte s).1 = byte) : Boundary 0 s byte :=
  ⟨_, _, (Text.splitAtByte_append byte s).symm, by rw [h, Nat.zero_add]⟩

/-- Edits between characters that are apart from each other in the order of their starts, none of
which only deletes. -/
structure Applicable (source : List Char) (edits : List Edit) : Prop where
  ordered : ∀ e ∈ edits, e.start ≤ e.stop
  boundaries : ∀ e ∈ edits, Boundary 0 source e.start ∧ Boundary 0 source e.stop
  apart : (sort edits).Pairwise (·.stop ≤ ·.start)
  nonempty : ∀ e ∈ edits, e.replacement ≠ ""

/-- A boundary behind the beginning of a text is one of what follows the beginning. -/
theorem Boundary.drop {first byte : Nat} {before after : List Char}
    (h : Boundary first (before ++ after) byte) (hle : first + Text.bytes before ≤ byte) :
    Boundary (first + Text.bytes before) after byte := by
  obtain ⟨front, back, hs, hb⟩ := h
  obtain ⟨m, rfl, rfl⟩ := Text.exists_append_of_bytes_le hs (by omega)
  exact ⟨m, back, rfl, by rw [hb, Text.bytes_append, Nat.add_assoc]⟩

theorem exists_parted {first : Nat} {s : List Char} {es : List Edit}
    (hapart : es.Pairwise (·.stop ≤ ·.start)) (hordered : ∀ e ∈ es, e.start ≤ e.stop)
    (hfirst : ∀ e ∈ es, first ≤ e.start)
    (hboundary : ∀ e ∈ es, Boundary first s e.start ∧ Boundary first s e.stop) :
    ∃ parts, Parted first s es parts := by
  induction es generalizing first s with
  | nil => exact ⟨_, .nil first s⟩
  | cons e es ih =>
    obtain ⟨hnext, hapart⟩ := List.pairwise_cons.mp hapart
    obtain ⟨⟨gap, r, rfl, hstart⟩, hstop⟩ := hboundary e List.mem_cons_self
    have horder := hordered e List.mem_cons_self
    obtain ⟨old, rest, rfl, hold⟩ := hstop.drop (by omega)
    rw [← hstart] at hold
    have hbytes : first + Text.bytes (gap ++ old) = e.stop := by
      rw [Text.bytes_append]
      omega
    have hrest : ∀ e' ∈ es, Boundary e.stop rest e'.start ∧ Boundary e.stop rest e'.stop := by
      intro e' he'
      obtain ⟨hs, ht⟩ := hboundary e' (List.mem_cons_of_mem e he')
      have hafter := hnext e' he'
      have horder' := hordered e' (List.mem_cons_of_mem e he')
      rw [← List.append_assoc] at hs ht
      rw [← hbytes]
      exact ⟨hs.drop (by omega), ht.drop (by omega)⟩
    obtain ⟨parts, hparts⟩ := ih hapart (fun e' he' => hordered e' (List.mem_cons_of_mem e he'))
      hnext hrest
    rw [← List.append_assoc]
    exact ⟨_, .cons gap old rest hstart hold hparts⟩

/-- Edits that can be made together divide their text into parts, in none of which nothing comes in
the place of something. -/
theorem Applicable.exists_parted {source : List Char} {edits : List Edit}
    (h : Applicable source edits) :
    ∃ parts, Parted 0 source (sort edits) parts ∧ ∀ old new, .replaced old new ∈ parts → new ≠ [] := by
  have hmem : ∀ e, e ∈ sort edits → e ∈ edits := fun e he => List.mem_mergeSort.mp he
  obtain ⟨parts, hparts⟩ := Edit.exists_parted h.apart (fun e he => h.ordered e (hmem e he))
    (fun e _ => Nat.zero_le e.start) fun e he => h.boundaries e (hmem e he)
  refine ⟨parts, hparts, fun old new hnew => ?_⟩
  obtain ⟨e, he, rfl⟩ := hparts.replacement_mem hnew
  exact fun hnil => h.nonempty e (hmem e he) (String.toList_eq_nil_iff.mp hnil)

end Edit

end Assay
