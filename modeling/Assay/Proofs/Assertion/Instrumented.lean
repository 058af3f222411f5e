import Assay.Assertion.Instrument
import Assay.Grammar.Module
import Assay.Proofs.Assertion.Located
import Assay.Proofs.Edit.Splice
import Assay.Proofs.Text.LineIndex

/-!
# What instrumenting does

`Kept` reads off which statements of a script are assertions and with which descriptors.
`instrument_splices_kept` says that an instrumented script is its source with the `k`-th of them
replaced by the code of its descriptor under the number `k`, and nothing else changed.
-/

namespace Assay.Instrument

/-- The position is the one at which a text that stands in a source begins. -/
structure StandsAt (source text : List Char) (byte : Nat) (p : Position) : Prop where
  place : ∃ before after, source = before ++ text ++ after ∧ byte = Text.bytes before ∧
    (LineIndex.ofText source).position? (Text.units before) = some p ∧
    (LineIndex.ofText source).offset p = Text.units before

/-- Of statements those that are assertions, each with its descriptor for the position at which it
begins. -/
inductive Kept (parser : ModuleParser) (source : List Char) (file : String) :
    List Scan.Match → List (Scan.Match × Descriptor) → Prop where
  | nil : Kept parser source file [] []
  | keep {m : Scan.Match} {ms : List Scan.Match} {d : Descriptor}
      {ks : List (Scan.Match × Descriptor)} (p : Position)
      (stands : StandsAt source m.text m.start p) (described : describe parser m.text file p = .ok d)
      (rest : Kept parser source file ms ks) : Kept parser source file (m :: ms) ((m, d) :: ks)
  | reject {m : Scan.Match} {ms : List Scan.Match} {ks : List (Scan.Match × Descriptor)}
      (rejected : ∀ p, ∃ e, describe parser m.text file p = .error e)
      (rest : Kept parser source file ms ks) : Kept parser source file (m :: ms) ks

def replacements (callee : String) (kept : List (Scan.Match × Descriptor)) : List Edit :=
  (kept.zipIdx 1).map fun ((m, d), k) => ⟨m.start, m.stop, d.replacement callee ⟨k⟩⟩

theorem edits_eq_map (callee : String) (index : Nat) (kept : List (Scan.Match × Descriptor)) :
    edits callee index kept =
      (kept.zipIdx index).map fun ((m, d), k) => ⟨m.start, m.stop, d.replacement callee ⟨k⟩⟩ := by
  induction kept generalizing index with
  | nil => rfl
  | cons k kept ih => simp only [edits, List.zipIdx_cons, List.map_cons, ih]

/-! ### The positions in descriptors -/

/-- Whether a statement is an assertion does not depend on its position. -/
theorem describe_error {parser : ModuleParser} {text : List Char} {file : String} {p q : Position}
    {e : StatementError} (h : describe parser text file p = .error e) :
    describe parser text file q = .error e := by
  unfold describe at h ⊢
  cases hp : Assertion.parse parser text with
  | error e' => rw [hp] at h; exact h
  | ok assertion => rw [hp] at h; cases h

/-- The position of a statement that stands in the source is never the fallback. -/
theorem standsAt_positionAt {source before text after : List Char}
    (h : source = before ++ text ++ after) :
    StandsAt source text (Text.bytes before)
      (positionAt source (LineIndex.ofText source) (Text.bytes before)) := by
  have hunits : Text.units before ≤ Text.units source := by
    rw [h, Text.units_append, Text.units_append]
    omega
  obtain ⟨p, hp, hback⟩ := LineIndex.offset_of_position? source _ hunits
  have hsplit : (Text.splitAtByte (Text.bytes before) source).1 = before := by
    rw [h, List.append_assoc, Text.splitAtByte_bytes]
  have hat : positionAt source (LineIndex.ofText source) (Text.bytes before) = p := by
    rw [positionAt, hsplit, hp, Option.getD_some]
  exact ⟨before, after, h, rfl, by rw [hat, hp], by rw [hat, hback]⟩

theorem kept_described (parser : ModuleParser) (source : List Char) (file : String)
    {ms : List Scan.Match}
    (h : ∀ m ∈ ms, ∃ before after, source = before ++ m.text ++ after ∧
      m.start = Text.bytes before) :
    Kept parser source file ms (described parser source file ms) := by
  induction ms with
  | nil => exact .nil
  | cons m ms ih =>
    have hrest := ih fun m' hm' => h m' (List.mem_cons_of_mem m hm')
    obtain ⟨before, after, hsource, hstart⟩ := h m List.mem_cons_self
    unfold described at hrest ⊢
    rw [List.filterMap_cons]
    cases hd : describe parser m.text file (positionAt source (LineIndex.ofText source) m.start) with
    | ok d =>
      have stands := standsAt_positionAt hsource
      rw [← hstart] at stands
      exact .keep _ stands hd hrest
    | error e => exact .reject (fun p => ⟨e, describe_error hd⟩) hrest

/-! ### The code -/

theorem exists_spliced (callee : String) {byte : Nat} {s : List Char}
    {kept : List (Scan.Match × Descriptor)} (index : Nat)
    (h : Scan.Located byte s (kept.map (·.1))) :
    ∃ code, Edit.Spliced byte s (edits callee index kept) code := by
  induction kept generalizing byte s index with
  | nil => exact ⟨s, .nil byte s⟩
  | cons k kept ih =>
    cases h with
    | cons gap rest start after =>
      obtain ⟨code, hcode⟩ := ih (index + 1) after
      exact ⟨_, .cons gap k.1.text rest start rfl hcode⟩

theorem map_fst_described (parser : ModuleParser) (source : List Char) (file : String)
    (ms : List Scan.Match) :
    ∃ p : Scan.Match → Bool, (described parser source file ms).map (·.1) = ms.filter p := by
  refine ⟨fun m => (describe parser m.text file
    (positionAt source (LineIndex.ofText source) m.start)).toOption.isSome, ?_⟩
  unfold described
  induction ms with
  | nil => rfl
  | cons m ms ih =>
    rw [List.filterMap_cons, List.filter_cons]
    cases describe parser m.text file (positionAt source (LineIndex.ofText source) m.start) with
    | ok d => simpa [Except.toOption] using ih
    | error e => simpa [Except.toOption] using ih

theorem script_spliced (parser : ModuleParser) (callee : String) (source : List Char)
    (file : String) :
    Edit.Spliced 0 source
      (replacements callee (described parser source file (Scan.statements callee.toList source)))
      (Edit.apply (edits callee 1
        (described parser source file (Scan.statements callee.toList source))) source).1 := by
  obtain ⟨p, hp⟩ := map_fst_described parser source file (Scan.statements callee.toList source)
  have hlocated := (Scan.statements_located callee.toList source).filter p
  rw [← hp] at hlocated
  obtain ⟨code, hcode⟩ := exists_spliced callee 1 hlocated
  rw [Edit.apply_spliced hcode, replacements, ← edits_eq_map]
  exact hcode

/-- Instrumenting replaces, in the order of the script, each statement that is an assertion by the
code of its descriptor under its number, and keeps every other character; the descriptors hold the
positions at which the statements begin. Without an assertion there is no instrumented script, and a
script that cannot be addressed in 32 bits is refused. -/
theorem instrument_splices_kept (parser : ModuleParser) (callee : String) (source : List Char)
    (file : String) (named : ¬ (Text.trim callee.toList).isEmpty) :
    ∃ kept, Kept parser source file (Scan.statements callee.toList source) kept ∧
      (Text.bytes source < 0x100000000 → kept = [] → instrument parser callee source file = .ok none) ∧
      (Text.bytes source < 0x100000000 → kept ≠ [] →
        ∃ r, instrument parser callee source file = .ok (some r) ∧
          Edit.Spliced 0 source (replacements callee kept) r.code ∧ r.count = kept.length) ∧
      (0x100000000 ≤ Text.bytes source →
        instrument parser callee source file = .error (.sourceTooLarge (Text.bytes source))) := by
  have hinstrument : instrument parser callee source file = sizedScript parser callee source file := by
    simp only [instrument, callee?, named]
    rfl
  have hplaces := (Scan.statements_located callee.toList source).mem
  refine ⟨described parser source file (Scan.statements callee.toList source),
    kept_described parser source file fun m hm => by simpa using hplaces m hm, ?_, ?_, ?_⟩
  · intro hsize hnone
    rw [hinstrument, sizedScript, if_pos hsize, script, hnone]
    rfl
  · intro hsize hsome
    have hscript : script parser callee source file =
        some ⟨(Edit.apply (edits callee 1 (described parser source file
            (Scan.statements callee.toList source))) source).1,
          (Edit.apply (edits callee 1 (described parser source file
            (Scan.statements callee.toList source))) source).2,
          (described parser source file (Scan.statements callee.toList source)).length⟩ := by
      simp only [script, List.isEmpty_iff, hsome, if_false]
    refine ⟨_, by rw [hinstrument, sizedScript, if_pos hsize, hscript], ?_, rfl⟩
    exact script_spliced parser callee source file
  · intro hsize
    rw [hinstrument, sizedScript, if_neg (Nat.not_lt.mpr hsize)]

theorem instrument_splices_kept_two_calls :
    ¬ (Text.trim "t.assert".toList).isEmpty ∧
      ∃ kept, Kept Grammar.parser "t.assert();\nt.assert(x);\n".toList "a.js"
          (Scan.statements "t.assert".toList "t.assert();\nt.assert(x);\n".toList) kept ∧
        ∃ r, instrument Grammar.parser "t.assert" "t.assert();\nt.assert(x);\n".toList "a.js" =
            .ok (some r) ∧
          Edit.Spliced 0 "t.assert();\nt.assert(x);\n".toList (replacements "t.assert" kept) r.code ∧
          r.count = kept.length ∧ r.count = 1 := by
  have named : ¬ (Text.trim "t.assert".toList).isEmpty := by decide
  have hcount : (instrument Grammar.parser "t.assert" "t.assert();\nt.assert(x);\n".toList
      "a.js").toOption.map (fun o => o.map (·.count)) = some (some 1) := by decide +kernel
  obtain ⟨kept, hkept, hnone, hsome, -⟩ :=
    instrument_splices_kept Grammar.parser "t.assert" "t.assert();\nt.assert(x);\n".toList "a.js" named
  have hsize : Text.bytes "t.assert();\nt.assert(x);\n".toList < 0x100000000 := by decide
  have hne : kept ≠ [] := by
    intro h
    rw [hnone hsize h] at hcount
    cases hcount
  obtain ⟨r, hr, hspliced, hlength⟩ := hsome hsize hne
  rw [hr] at hcount
  refine ⟨named, kept, hkept, r, hr, hspliced, hlength, ?_⟩
  simpa [Except.toOption] using hcount

/-- The body of a conditional takes one statement, so it cannot hold what replaces an assertion: the
instrumented script is no module although its source is one. -/
theorem instrument_conditional_body :
    (Grammar.parser.read "if (x) t.assert(a);\n".toList).toOption.isSome ∧
      Text.occurs "_left".toList "if (x) t.assert(a);\n".toList = false ∧
      Text.occurs "_right".toList "if (x) t.assert(a);\n".toList = false ∧
      ∃ r, instrument Grammar.parser defaultCallee "if (x) t.assert(a);\n".toList "a.js" =
          .ok (some r) ∧
        (Grammar.parser.read r.code).toOption.isNone := by
  have hread : ((instrument Grammar.parser defaultCallee "if (x) t.assert(a);\n".toList
      "a.js").toOption.bind id).map (fun r => (Grammar.parser.read r.code).toOption.isNone) =
        some true := by decide +kernel
  refine ⟨by decide +kernel, by decide, by decide, ?_⟩
  cases h : instrument Grammar.parser defaultCallee "if (x) t.assert(a);\n".toList "a.js" with
  | error e =>
    rw [h] at hread
    cases hread
  | ok o =>
    cases o with
    | none =>
      rw [h] at hread
      cases hread
    | some r =>
      rw [h] at hread
      exact ⟨r, rfl, Option.some.inj hread⟩

end Assay.Instrument
