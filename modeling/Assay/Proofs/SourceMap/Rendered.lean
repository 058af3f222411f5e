import Assay.Proofs.Edit.Origins
import Assay.Proofs.SourceMap.Session
import Mathlib.Data.List.Basic

/-!
# Rendered offset maps

`OffsetMap.toSourceMap` keeps of the offsets of an edited text the copied ones, the starts of
replacements and the starts of lines. `rendered_answers` says that a session of the rendered map
answers for each offset with the position of its origin.
-/

namespace Assay

namespace Part

/-- Whether an offset of a result is copied or begins a replacement. -/
def marksAt (parts : List Part) (g : Nat) : Bool :=
  (partAt? 0 parts g).any fun (p, _, i) => p.isKept || i == 0

theorem marksAt_of_copied {parts : List Part} {g : Nat} (h : Copied parts g) :
    marksAt parts g = true := by
  obtain ⟨before, text, after, i, rfl, hi, rfl⟩ := h
  rw [marksAt, partAt?_append, partAt?, if_pos (show i < Text.units (kept text).result from hi)]
  rfl

theorem marksAt_of_begins {parts : List Part} {g : Nat} (h : Begins parts g) :
    marksAt parts g = true := by
  obtain ⟨before, old, new, after, rfl, hnew, rfl⟩ := h
  have hat := partAt?_append before (.replaced old new :: after) 0 0
  rw [Nat.add_zero] at hat
  rw [marksAt, hat, partAt?, if_pos (show 0 < Text.units (replaced old new).result from hnew)]
  rfl

/-- Behind the first offset of a part the offset before is of the same part. -/
theorem partAt?_pred {parts : List Part} {source g start i : Nat} {p : Part}
    (h : partAt? source parts (g + 1) = some (p, start, i + 1)) :
    partAt? source parts g = some (p, start, i) := by
  induction parts generalizing source g with
  | nil => cases h
  | cons q ps ih =>
    rw [partAt?] at h ⊢
    split at h
    next hg =>
      cases h
      rw [if_pos (by omega)]
    next hg =>
      have hle := (partAt?_le h).1
      rw [if_neg (by omega)]
      refine ih ?_
      rw [show g - Text.units q.result + 1 = g + 1 - Text.units q.result by omega]
      exact h

/-- What is neither copied nor begins a replacement has the origin of the offset before. -/
theorem originAt?_of_unmarked {parts : List Part} {g o : Nat}
    (ho : originAt? 0 parts (g + 1) = some o) (h : marksAt parts (g + 1) = false) :
    originAt? 0 parts g = some o := by
  unfold originAt? at ho ⊢
  unfold marksAt at h
  obtain ⟨⟨p, start, i⟩, hat, rfl⟩ := Option.map_eq_some_iff.mp ho
  rw [hat] at h
  simp only [Option.any_some, Bool.or_eq_false_iff, beq_eq_false_iff_ne] at h
  obtain ⟨hkept, hi⟩ := h
  obtain ⟨i, rfl⟩ := Nat.exists_eq_succ_of_ne_zero hi
  rw [partAt?_pred hat]
  simp only [Option.map_some, origin, hkept, Bool.false_eq_true, if_false]

end Part

namespace OffsetMap

/-! ### The tokens of a rendered map -/

/-- The token of an offset of an edited text. -/
def tokenAt? (m : OffsetMap) (code source : List Char) (g : Nat) : Option MapToken :=
  (m.pieceAt? g).bind (token? (.ofText code) (.ofText source) · g)

theorem flatMap_tiled {n stop : Nat} {ps : List Piece} (h : Tiled n ps stop)
    (f : Piece → Nat → Option MapToken) :
    (ps.flatMap fun p => (List.range' p.generated.start p.generated.length).filterMap (f p)) =
      (List.range' n (stop - n)).filterMap fun g =>
        (ps.find? (·.generated.contains g)).bind (f · g) := by
  induction h with
  | nil n => simp
  | @cons n stop p ps start nonempty rest ih =>
    have hle := rest.le
    have hrange : List.range' n (stop - n) = List.range' n (p.generated.stop - n) ++
        List.range' p.generated.stop (stop - p.generated.stop) := by
      rw [show stop - n = (p.generated.stop - n) + (stop - p.generated.stop) by omega,
        ← List.range'_append_1, show n + (p.generated.stop - n) = p.generated.stop by omega]
    have hpiece : List.range' p.generated.start p.generated.length =
        List.range' n (p.generated.stop - n) := by
      rw [Span.length, start]
    rw [List.flatMap_cons, ih, hpiece, hrange, List.filterMap_append]
    congr 1
    · refine List.filterMap_congr fun g hg => ?_
      rw [List.mem_range'_1] at hg
      have hin : p.generated.contains g := (Span.contains_iff _ _).mpr (by omega)
      simp only [List.find?_cons, hin, Option.bind_some]
    · refine List.filterMap_congr fun g hg => ?_
      rw [List.mem_range'_1] at hg
      have hout : p.generated.contains g = false := by
        rw [← Bool.not_eq_true, Span.contains_iff]
        omega
      simp only [List.find?_cons, hout]

variable {m : OffsetMap} {parts : List Part} {code source : List Char}

theorem tokenAt?_generated {g : Nat} {t : MapToken} (h : m.tokenAt? code source g = some t) :
    (LineIndex.ofText code).position? g = some t.generated := by
  obtain ⟨p, -, ht⟩ := Option.bind_eq_some_iff.mp h
  unfold token? at ht
  obtain ⟨position, hposition, ht⟩ := Option.bind_eq_some_iff.mp ht
  split at ht
  · cases ht
  · obtain ⟨origin, -, ht⟩ := Option.bind_eq_some_iff.mp ht
    rw [hposition, ← Option.some.inj ht]

/-- The tokens of consecutive offsets are in the order of the text, no two at one place. -/
theorem pairwise_tokens (n k : Nat) :
    ((List.range' n k).filterMap (m.tokenAt? code source)).Pairwise
      fun t u => u.generated.le t.generated = false := by
  rw [List.pairwise_filterMap]
  refine List.Pairwise.imp (fun {g g'} hlt t ht u hu => ?_) (List.pairwise_lt_range')
  exact LineIndex.position?_lt hlt (tokenAt?_generated ht) (tokenAt?_generated hu)

theorem dropRepeats_of_pairwise {tokens : List MapToken}
    (h : tokens.Pairwise fun t u => u.generated.le t.generated = false) :
    dropRepeats tokens = tokens := by
  induction tokens with
  | nil => rw [dropRepeats]
  | cons t tokens ih =>
    obtain ⟨hfirst, htokens⟩ := List.pairwise_cons.mp h
    have hnext : tokens.dropWhile (·.generated = t.generated) = tokens := by
      cases tokens with
      | nil => rfl
      | cons u tokens =>
        refine List.dropWhile_cons_of_neg ?_
        have hu := hfirst u List.mem_cons_self
        simp only [decide_eq_true_eq]
        intro heq
        rw [heq, Position.le_refl] at hu
        cases hu
    rw [dropRepeats, hnext, ih htokens]

theorem tokens_toSourceMap (hpieces : m.pieces = (Part.pieces 0 0 parts).toArray)
    (proper : Part.Proper parts) (hcode : Part.resultText parts = code) (file : String) :
    (m.toSourceMap code source file).tokens =
      (List.range' 0 (Text.units code)).filterMap (m.tokenAt? code source) := by
  have htiled := Part.tiled_pieces proper 0 0
  rw [Nat.zero_add, hcode] at htiled
  have htokens : (m.pieces.toList.flatMap fun p =>
      (List.range' p.generated.start p.generated.length).filterMap
        (token? (.ofText code) (.ofText source) p)) =
      (List.range' 0 (Text.units code)).filterMap (m.tokenAt? code source) := by
    rw [hpieces, List.toList_toArray, flatMap_tiled htiled, Nat.sub_zero]
    refine List.filterMap_congr fun g _ => ?_
    rw [tokenAt?, pieceAt?_eq_find? hpieces htiled]
  have hpairwise : ((List.range' 0 (Text.units code)).filterMap (m.tokenAt? code source)).Pairwise
      fun t u => u.generated.le t.generated = false := pairwise_tokens 0 (Text.units code)
  simp only [toSourceMap, SourceMap.ofTokens, htokens, dropRepeats_of_pairwise hpairwise]
  refine SourceMap.sortTokens_of_pairwise (hpairwise.imp fun {t u} h => ?_)
  have := Position.le_eq_false_iff.mp h
  rw [Position.le_iff]
  omega

theorem pairwise_toSourceMap (hpieces : m.pieces = (Part.pieces 0 0 parts).toArray)
    (proper : Part.Proper parts) (hcode : Part.resultText parts = code) (file : String) :
    (m.toSourceMap code source file).tokens.Pairwise (·.generated.le ·.generated) := by
  rw [tokens_toSourceMap hpieces proper hcode]
  refine (pairwise_tokens 0 (Text.units code)).imp fun {t u} h => ?_
  have := Position.le_eq_false_iff.mp h
  rw [Position.le_iff]
  omega

/-! ### Which offsets have a token -/

/-- A copied offset, the start of a replacement and the start of a line have the token of their
origin. -/
theorem tokenAt?_eq_some (hpieces : m.pieces = (Part.pieces 0 0 parts).toArray)
    (proper : Part.Proper parts) {g o : Nat} {p q : Position}
    (hp : (LineIndex.ofText code).position? g = some p) (ho : Part.originAt? 0 parts g = some o)
    (hq : (LineIndex.ofText source).position? o = some q)
    (hmarked : Part.marksAt parts g ∨ p.column = 0) :
    m.tokenAt? code source g = some ⟨p, some ⟨0, q.line, q.column, none⟩⟩ := by
  obtain ⟨⟨part, start, i⟩, hat, rfl⟩ := Option.map_eq_some_iff.mp ho
  have hi := (Part.partAt?_le hat).1
  have hkeep : ¬ ((!part.isKept && g != g - i && p.column != 0) = true) := by
    intro h
    simp only [Bool.and_eq_true, Bool.not_eq_true', bne_iff_ne] at h
    obtain ⟨⟨hkept, hne⟩, hcolumn⟩ := h
    rcases hmarked with hmarked | hzero
    · simp only [Part.marksAt, hat, Option.any_some, hkept, Bool.false_or, beq_iff_eq] at hmarked
      omega
    · exact hcolumn hzero
  have horigin : originOf (part.piece start (g - i)) g = part.origin start i := by
    simp only [originOf, Part.piece, Part.origin, Nat.sub_sub_self hi]
  rw [tokenAt?, pieceAt?_eq_partAt? hpieces proper, hat, Option.map_some, Option.bind_some, token?, hp]
  simp only [Option.bind_eq_bind, Option.bind_some, horigin, hq]
  exact if_neg hkeep

/-- No other offset of a replacement has a token; it is in the line of the offset before, which has
the same origin. -/
theorem tokenAt?_eq_none (hpieces : m.pieces = (Part.pieces 0 0 parts).toArray)
    (proper : Part.Proper parts) {g : Nat} {p : Position}
    (hp : (LineIndex.ofText code).position? g = some p) (hunmarked : Part.marksAt parts g = false)
    (hcolumn : p.column ≠ 0) : m.tokenAt? code source g = none := by
  rw [tokenAt?, pieceAt?_eq_partAt? hpieces proper]
  cases hat : Part.partAt? 0 parts g with
  | none => rfl
  | some found =>
    obtain ⟨part, start, i⟩ := found
    have hi := (Part.partAt?_le hat).1
    simp only [Part.marksAt, hat, Option.any_some, Bool.or_eq_false_iff, beq_eq_false_iff_ne]
      at hunmarked
    have hskip : (!part.isKept && g != g - i && p.column != 0) = true := by
      simp only [hunmarked.1, Bool.not_false, Bool.true_and, Bool.and_eq_true, bne_iff_ne]
      omega
    rw [Option.map_some, Option.bind_some, token?, hp]
    exact if_pos hskip

/-- The last offset up to another that has a token is in the same line and has the same origin. -/
theorem exists_token_before (hpieces : m.pieces = (Part.pieces 0 0 parts).toArray)
    (proper : Part.Proper parts) {g o : Nat} {p q : Position}
    (hp : (LineIndex.ofText code).position? g = some p) (ho : Part.originAt? 0 parts g = some o)
    (hq : (LineIndex.ofText source).position? o = some q) :
    ∃ g' t, g' ≤ g ∧ m.tokenAt? code source g' = some t ∧ t.generated.line = p.line ∧
      t.origin = some ⟨0, q.line, q.column, none⟩ ∧
      ∀ x, g' < x → x ≤ g → m.tokenAt? code source x = none := by
  induction g generalizing p with
  | zero =>
    have hcolumn := (LineIndex.position?_bounds hp).2.2
    have ht := tokenAt?_eq_some hpieces proper hp ho hq (.inr (by omega))
    exact ⟨0, _, Nat.le_refl 0, ht, rfl, rfl, fun x h h' => by omega⟩
  | succ g ih =>
    by_cases hmarked : Part.marksAt parts (g + 1) = true ∨ p.column = 0
    · have ht := tokenAt?_eq_some hpieces proper hp ho hq hmarked
      exact ⟨g + 1, _, Nat.le_refl _, ht, rfl, rfl, fun x h h' => by omega⟩
    · obtain ⟨hunmarked, hcolumn⟩ := not_or.mp hmarked
      rw [Bool.not_eq_true] at hunmarked
      obtain ⟨g', t, hle, ht, hline, horigin, hnone⟩ :=
        ih (LineIndex.position?_pred hp hcolumn) (Part.originAt?_of_unmarked ho hunmarked)
      refine ⟨g', t, by omega, ht, hline, horigin, fun x hx hxg => ?_⟩
      rcases Nat.lt_or_eq_of_le hxg with hlt | rfl
      · exact hnone x hx (by omega)
      · exact tokenAt?_eq_none hpieces proper hp hunmarked hcolumn

/-! ### What the tokens hold -/

/-- The origin of a token is the position of the origin of its offset. -/
theorem tokenAt?_origin (hpieces : m.pieces = (Part.pieces 0 0 parts).toArray)
    (proper : Part.Proper parts) {g : Nat} {t : MapToken}
    (h : m.tokenAt? code source g = some t) :
    ∃ o q, Part.originAt? 0 parts g = some o ∧ (LineIndex.ofText source).position? o = some q ∧
      t.origin = some ⟨0, q.line, q.column, none⟩ := by
  obtain ⟨p, hp, ht⟩ := Option.bind_eq_some_iff.mp h
  have ho : Part.originAt? 0 parts g = some (originOf p g) := by
    rw [← sourceOffset?_eq_originAt? hpieces proper, sourceOffset?, hp, Option.map_some]
  unfold token? at ht
  obtain ⟨position, -, ht⟩ := Option.bind_eq_some_iff.mp ht
  split at ht
  · cases ht
  · obtain ⟨q, hq, ht⟩ := Option.bind_eq_some_iff.mp ht
    exact ⟨_, q, ho, hq, by rw [← Option.some.inj ht]⟩

theorem token_mem_range {n k : Nat} {t : MapToken}
    (h : t ∈ (List.range' n k).filterMap (m.tokenAt? code source)) :
    ∃ g, n ≤ g ∧ g < n + k ∧ m.tokenAt? code source g = some t := by
  obtain ⟨g, hg, ht⟩ := List.mem_filterMap.mp h
  rw [List.mem_range'_1] at hg
  exact ⟨g, hg.1, hg.2, ht⟩

/-- Each token of a rendered map is on lines from 1 on and fits 32 bits, if the offsets of both texts
do. -/
theorem token_bounds (hpieces : m.pieces = (Part.pieces 0 0 parts).toArray)
    (proper : Part.Proper parts) (sourced : Part.Sourced parts)
    (hcode : Part.resultText parts = code) (hsource : Part.sourceText parts = source)
    (hunits : Text.units code ≤ 0x100000000) (hsize : Text.units source < 0x100000000)
    (file : String) :
    ∀ t ∈ (m.toSourceMap code source file).tokens,
      t.Fits ∧ 1 ≤ t.generated.line ∧ t.SourceBelow 1 ∧ t.LineFromOne := by
  intro t ht
  rw [tokens_toSourceMap hpieces proper hcode] at ht
  obtain ⟨g, -, hg, ht⟩ := token_mem_range ht
  obtain ⟨o, q, ho, hq, horigin⟩ := tokenAt?_origin hpieces proper ht
  have hend := Part.originAt?_lt sourced ho
  rw [hsource, Nat.zero_add] at hend
  obtain ⟨hline, -, hcolumn⟩ := LineIndex.position?_bounds (tokenAt?_generated ht)
  obtain ⟨hfirst, hlines, hcolumns⟩ := LineIndex.position?_bounds hq
  refine ⟨⟨by omega, ?_⟩, hline, ?_, ?_⟩
  · rw [horigin]
    rintro _ ⟨⟩
    exact {
      source := show 0 < 0x100000000 by decide
      line := show q.line < 0x100000000 by omega
      column := show q.column < 0x100000000 by omega
      name := by simp }
  · unfold MapToken.SourceBelow
    rw [horigin]
    rintro _ ⟨⟩
    exact Nat.one_pos
  · unfold MapToken.LineFromOne
    rw [horigin]
    rintro _ ⟨⟩
    exact hfirst

/-! ### What the rendered map answers -/

/-- The tokens of a rendered map in front of an offset, and those behind it. -/
theorem tokens_split (hpieces : m.pieces = (Part.pieces 0 0 parts).toArray)
    (proper : Part.Proper parts) (hcode : Part.resultText parts = code) (file : String) {g : Nat}
    {t : MapToken} (hg : g < Text.units code) (ht : m.tokenAt? code source g = some t) :
    (m.toSourceMap code source file).tokens =
      (List.range' 0 g).filterMap (m.tokenAt? code source) ++
        t :: (List.range' (g + 1) (Text.units code - (g + 1))).filterMap
          (m.tokenAt? code source) := by
  have hrange : List.range' 0 (Text.units code) =
      List.range' 0 g ++ g :: List.range' (g + 1) (Text.units code - (g + 1)) := by
    have happend := List.range'_append_1 (s := 0) (m := g) (n := Text.units code - g)
    rw [Nat.zero_add, Nat.add_sub_cancel' (Nat.le_of_lt hg)] at happend
    rw [← List.range'_succ, show Text.units code - (g + 1) + 1 = Text.units code - g by omega,
      happend]
  rw [tokens_toSourceMap hpieces proper hcode, hrange, List.filterMap_append,
    List.filterMap_cons_some ht]

/-- An offset with a token is answered from behind by that token. -/
theorem following_of_tokenAt? (hpieces : m.pieces = (Part.pieces 0 0 parts).toArray)
    (proper : Part.Proper parts) (hcode : Part.resultText parts = code) (file : String) {g : Nat}
    {t : MapToken} (hg : g < Text.units code) (ht : m.tokenAt? code source g = some t) :
    (LookupSession.ofMap (m.toSourceMap code source file)).sourcePosition? t.generated .following =
      t.origin.map .ofOrigin := by
  have hline := (LineIndex.position?_bounds (tokenAt?_generated ht)).1
  refine LookupSession.sourcePosition?_following (pairwise_toSourceMap hpieces proper hcode file)
    (tokens_split hpieces proper hcode file hg ht) (by omega) rfl (Nat.le_refl _) fun u hu => ?_
  obtain ⟨g', -, hlt, hu⟩ := token_mem_range hu
  exact LineIndex.position?_lt (by omega) (tokenAt?_generated hu) (tokenAt?_generated ht)

/-- An offset is answered from in front by the token of the last offset up to it that has one, if
that is in its line. -/
theorem preceding_of_tokenAt? (hpieces : m.pieces = (Part.pieces 0 0 parts).toArray)
    (proper : Part.Proper parts) (hcode : Part.resultText parts = code) (file : String) {g g' : Nat}
    {t : MapToken} {p : Position} (hle : g ≤ g') (hg' : g' < Text.units code)
    (ht : m.tokenAt? code source g = some t) (hp : (LineIndex.ofText code).position? g' = some p)
    (hline : t.generated.line = p.line)
    (hnone : ∀ x, g < x → x ≤ g' → m.tokenAt? code source x = none) :
    (LookupSession.ofMap (m.toSourceMap code source file)).sourcePosition? p .preceding =
      t.origin.map .ofOrigin := by
  have hpos := (LineIndex.position?_bounds hp).1
  have hcolumn : t.generated.column ≤ p.column := by
    rcases Nat.lt_or_eq_of_le hle with hlt | rfl
    · have := Position.le_eq_false_iff.mp (LineIndex.position?_lt hlt (tokenAt?_generated ht) hp)
      omega
    · rw [tokenAt?_generated ht] at hp
      exact Nat.le_of_eq (congrArg Position.column (Option.some.inj hp))
  refine LookupSession.sourcePosition?_preceding (pairwise_toSourceMap hpieces proper hcode file)
    (tokens_split hpieces proper hcode file (by omega) ht) (by omega) hline hcolumn fun u hu => ?_
  obtain ⟨x, hx, -, hu⟩ := token_mem_range hu
  have hbehind : g' < x := Nat.lt_of_not_le fun hxg => by
    rw [hnone x (by omega) hxg] at hu
    cases hu
  exact LineIndex.position?_lt hbehind hp (tokenAt?_generated hu)

/-- A session of the rendered map answers for every offset from in front with the position of its
origin, and from behind for the offsets that have a token. -/
theorem exists_answer (hpieces : m.pieces = (Part.pieces 0 0 parts).toArray)
    (proper : Part.Proper parts) (hcode : Part.resultText parts = code)
    (hsource : Part.sourceText parts = source) (file : String) {g : Nat}
    (hg : g < Text.units code) :
    ∃ p o q, (LineIndex.ofText code).position? g = some p ∧ m.sourceOffset? g = some o ∧
      (LineIndex.ofText source).position? o = some q ∧
      (LookupSession.ofMap (m.toSourceMap code source file)).sourcePosition? p .preceding =
        some ⟨0, q.line, q.column⟩ ∧
      (Part.marksAt parts g ∨ p.column = 0 →
        (LookupSession.ofMap (m.toSourceMap code source file)).sourcePosition? p .following =
          some ⟨0, q.line, q.column⟩) := by
  obtain ⟨p, hp, -⟩ := LineIndex.offset_of_position? code g (Nat.le_of_lt hg)
  obtain ⟨o, ho⟩ := Part.exists_originAt? 0 (show g < Text.units (Part.resultText parts) by
    rwa [hcode])
  have hbound := (Part.originAt?_bounds ho).2
  rw [Nat.zero_add, hsource] at hbound
  obtain ⟨q, hq, -⟩ := LineIndex.offset_of_position? source o hbound
  refine ⟨p, o, q, hp, by rw [sourceOffset?_eq_originAt? hpieces proper, ho], hq, ?_, fun hmarked => ?_⟩
  · obtain ⟨g', t, hle, ht, hline, horigin, hnone⟩ := exists_token_before hpieces proper hp ho hq
    rw [preceding_of_tokenAt? hpieces proper hcode file hle hg ht hp hline hnone, horigin]
    rfl
  · have ht := tokenAt?_eq_some hpieces proper hp ho hq hmarked
    exact following_of_tokenAt? hpieces proper hcode file hg ht

end OffsetMap

/-- The map rendered from applied edits agrees with the offset map: from in front it answers for
every offset of the edited text with the position of the offset that it comes from, and from behind
for every copied offset, every start of a replacement and every start of a line. -/
theorem Edit.rendered_answers {source code : List Char} {edits : List Edit} {m : OffsetMap}
    (h : Edit.Applicable source edits) (happly : Edit.apply edits source = (code, m))
    (file : String) :
    ∃ parts, Edit.Parted 0 source (Edit.sort edits) parts ∧ ∀ g, g < Text.units code →
      ∃ p o q, (LineIndex.ofText code).position? g = some p ∧ m.sourceOffset? g = some o ∧
        (LineIndex.ofText source).position? o = some q ∧
        (LookupSession.ofMap (m.toSourceMap code source file)).sourcePosition? p .preceding =
          some ⟨0, q.line, q.column⟩ ∧
        (Part.Copied parts g ∨ Part.Begins parts g ∨ p.column = 0 →
          (LookupSession.ofMap (m.toSourceMap code source file)).sourcePosition? p .following =
            some ⟨0, q.line, q.column⟩) := by
  obtain ⟨parts, hparts, proper⟩ := h.exists_parted
  have hpieces := Edit.pieces_apply hparts
  have hcode := Edit.text_apply hparts
  rw [happly] at hpieces hcode
  refine ⟨parts, hparts, fun g hg => ?_⟩
  obtain ⟨p, o, q, hp, ho, hq, hpreceding, hfollowing⟩ :=
    OffsetMap.exists_answer hpieces proper hcode.symm hparts.sourceText file hg
  refine ⟨p, o, q, hp, ho, hq, hpreceding, fun hplace => hfollowing ?_⟩
  rcases hplace with hcopied | hbegins | hcolumn
  · exact .inl (Part.marksAt_of_copied hcopied)
  · exact .inl (Part.marksAt_of_begins hbegins)
  · exact .inr hcolumn

/-- The last line of a replacement of two lines is found under the line that was replaced, whatever
the column. -/
theorem Edit.rendered_answers_secondLine :
    ∃ code m, Edit.Applicable "a;\nb(💡);\n".toList [⟨3, 11, "const x = 💡;\nb(x);"⟩] ∧
      Edit.apply [⟨3, 11, "const x = 💡;\nb(x);"⟩] "a;\nb(💡);\n".toList = (code, m) ∧
      (LineIndex.ofText code).position? 20 = some ⟨3, 3⟩ ∧
      (LookupSession.ofMap (m.toSourceMap code "a;\nb(💡);\n".toList "a.js")).sourcePosition?
        ⟨3, 3⟩ .preceding = some ⟨0, 2, 0⟩ := by
  have hsort : Edit.sort [⟨3, 11, "const x = 💡;\nb(x);"⟩] = [⟨3, 11, "const x = 💡;\nb(x);"⟩] := by
    simp [Edit.sort]
  have h : Edit.Applicable "a;\nb(💡);\n".toList [⟨3, 11, "const x = 💡;\nb(x);"⟩] := {
    ordered := by decide
    boundaries := by
      simp only [List.mem_singleton, forall_eq]
      exact ⟨Edit.boundary_of_splitAtByte (by decide), Edit.boundary_of_splitAtByte (by decide)⟩
    apart := by
      rw [hsort]
      exact List.pairwise_singleton _ _
    nonempty := by decide }
  obtain ⟨code, m, happly⟩ : ∃ code m,
      Edit.apply [⟨3, 11, "const x = 💡;\nb(x);"⟩] "a;\nb(💡);\n".toList = (code, m) := ⟨_, _, rfl⟩
  have hvalues : code = "a;\nconst x = 💡;\nb(x);\n".toList ∧ m.sourceOffset? 20 = some 3 := by
    rw [Edit.apply, hsort] at happly
    obtain ⟨rfl, rfl⟩ := Prod.mk.inj happly
    decide
  obtain ⟨hcode, horigin⟩ := hvalues
  have hplace : (LineIndex.ofText code).position? 20 = some ⟨3, 3⟩ := by
    rw [hcode]
    decide
  obtain ⟨parts, -, hanswers⟩ := Edit.rendered_answers h happly "a.js"
  obtain ⟨p, o, q, hp, ho, hq, hpreceding, -⟩ := hanswers 20 (by rw [hcode]; decide)
  obtain rfl := Option.some.inj (hplace.symm.trans hp)
  obtain rfl := Option.some.inj (horigin.symm.trans ho)
  have hline : (LineIndex.ofText "a;\nb(💡);\n".toList).position? 3 = some ⟨2, 0⟩ := by decide
  obtain rfl := Option.some.inj (hline.symm.trans hq)
  exact ⟨code, m, h, happly, hplace, hpreceding⟩

end Assay
