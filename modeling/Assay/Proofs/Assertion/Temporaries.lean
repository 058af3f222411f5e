import Assay.Proofs.Assertion.ByLine
import Assay.Proofs.Assertion.Declared
import Assay.Proofs.Coverage.Instrumented

/-!
# Names of temporaries

The constants of an instrumented script are numbered and so have different names, but the names are
not compared with those of the script. `temporaries_declared_once` says that a name which the script
does not speak of is declared once, and `temporaries_redeclared` that one of the script may be
declared again.
-/

namespace Assay

/-! ### The names in a script -/

namespace Instrument

/-- The names that the code of the descriptors declares, numbered on from an index. -/
def temporaries (index : Nat) (found : List (Scan.Match × Descriptor)) : List (List Char) :=
  (found.zipIdx index).flatMap fun ((_, d), k) => d.temporaries ⟨k⟩

theorem temporaries_cons (index : Nat) (m : Scan.Match) (d : Descriptor)
    (found : List (Scan.Match × Descriptor)) :
    temporaries index ((m, d) :: found) =
      d.temporaries ⟨index⟩ ++ temporaries (index + 1) found := by
  rw [temporaries, List.zipIdx_cons, List.flatMap_cons, temporaries]

theorem exists_index_of_mem {index : Nat} {found : List (Scan.Match × Descriptor)} {x : List Char}
    (h : x ∈ temporaries index found) :
    ∃ k, index ≤ k ∧
      (x = (Temporaries.mk k).left.toList ∨ x = (Temporaries.mk k).right.toList) := by
  obtain ⟨⟨⟨m, d⟩, k⟩, hmem, hx⟩ := List.mem_flatMap.mp h
  refine ⟨k, (List.mem_zipIdx hmem).1, d.eq_or_eq_of_mem_temporaries hx⟩

theorem not_mem_temporaries_succ {index : Nat} {d : Descriptor} {x : List Char}
    (h : x ∈ d.temporaries ⟨index⟩) (found : List (Scan.Match × Descriptor)) :
    x ∉ temporaries (index + 1) found := by
  intro hlater
  obtain ⟨k, hk, hx⟩ := exists_index_of_mem hlater
  have hindex : index = k := by
    rcases d.eq_or_eq_of_mem_temporaries h with rfl | rfl <;> rcases hx with hx | hx
    · exact Temporaries.left_inj hx
    · exact absurd hx (Temporaries.left_ne_right _ _)
    · exact absurd hx.symm (Temporaries.left_ne_right _ _)
    · exact Temporaries.right_inj hx
  omega

theorem nodup_temporaries (index : Nat) (found : List (Scan.Match × Descriptor)) :
    (temporaries index found).Nodup := by
  induction found generalizing index with
  | nil => exact List.nodup_nil
  | cons k found ih =>
    rw [temporaries_cons, List.nodup_append]
    refine ⟨k.2.nodup_temporaries ⟨index⟩, ih (index + 1), ?_⟩
    rintro x hx y hy rfl
    exact not_mem_temporaries_succ hx found hy

/-- No identifier runs on from what stands before a statement into what replaces it. -/
def Detached (source : List Char) (m : Scan.Match) : Prop :=
  Text.EndsWords (Text.splitAtByte m.start source).1

instance (source : List Char) (m : Scan.Match) : Decidable (Detached source m) :=
  inferInstanceAs (Decidable (Text.EndsWords (Text.splitAtByte m.start source).1))

-- a dollar sign runs on into the word that would declare
example : Text.words "$const _left1".toList = ["$const".toList, "_left1".toList] := by decide

theorem Detached.endsWords {source before behind : List Char} {m : Scan.Match}
    (h : Detached source m) (hsource : source = before ++ behind)
    (hstart : m.start = Text.bytes before) : Text.EndsWords before := by
  rwa [Detached, hsource, hstart, Text.splitAtByte_bytes] at h

/-- In the code of a script that has no such word a name that is declared stands as its own
replacement has it, and any other not at all. -/
theorem exists_code {callee : String} {w source front s : List Char} {byte : Nat}
    {found : List (Scan.Match × Descriptor)} (index : Nat)
    (h : Scan.Located byte s (found.map (·.1))) (hsource : source = front ++ s)
    (hbyte : byte = Text.bytes front)
    (hfound : ∀ k ∈ found, Detached source k.1 ∧ Text.EndsWords k.1.text ∧
      k.2.Avoids ('_' :: w) ∧ k.2.Operates)
    (hcallee : '_' :: w ∉ Text.words callee.toList) (hs : '_' :: w ∉ Text.words s) :
    ∃ code, Edit.Spliced byte s (edits callee index found) code ∧
      ('_' :: w ∉ temporaries index found → '_' :: w ∉ Text.words code) ∧
      ('_' :: w ∈ temporaries index found → DeclaredOnce ('_' :: w) (Text.words code)) := by
  -- on the statements; `front` is what stands before the text that is left, since `Detached` speaks
  -- of the whole source
  induction found generalizing byte front s index with
  | nil => exact ⟨s, .nil byte s, fun _ => hs, nofun⟩
  | cons k found ih =>
    obtain ⟨m, d⟩ := k
    cases h with
    | cons gap rest start after =>
      obtain ⟨hdetached, htext, havoids, hop⟩ := hfound (m, d) List.mem_cons_self
      have hplace : source = front ++ gap ++ m.text ++ rest := by
        rw [hsource]
        simp only [List.append_assoc]
      have hstart : m.start = Text.bytes (front ++ gap) := by
        rw [start, hbyte, Text.bytes_append]
      have hgap : Text.EndsWords gap :=
        (hdetached.endsWords (hplace.trans (List.append_assoc ..)) hstart).of_append
      have hstop : m.stop = Text.bytes (front ++ gap ++ m.text) := by
        rw [Scan.Match.stop, hstart, Text.bytes_append _ m.text]
      rw [Text.words_append_append hgap htext, List.mem_append, List.mem_append, not_or,
        not_or] at hs
      obtain ⟨code, hcode, habsent, honce⟩ := ih (index + 1) after hplace hstop
        (fun k hk => hfound k (List.mem_cons_of_mem _ hk)) hs.2
      have hends := d.endsWords_replacement callee ⟨index⟩
      refine ⟨_, .cons gap m.text rest start rfl hcode, ?_⟩
      rw [Text.words_append_append hgap hends, temporaries_cons]
      refine ⟨fun hmem => ?_, fun hmem => ?_⟩
      · rw [List.mem_append, not_or] at hmem
        have hreplacement := havoids.not_mem_replacement hop hcallee hmem.1
        exact List.not_mem_append (List.not_mem_append hs.1.1 hreplacement) (habsent hmem.2)
      · rcases List.mem_append.mp hmem with hmem | hmem
        · have hlater := habsent (not_mem_temporaries_succ hmem found)
          exact (havoids.declaredOnce_of_mem hop hcallee hmem).frame hs.1.1 hlater
        · have hother : '_' :: w ∉ d.temporaries ⟨index⟩ := fun h =>
            not_mem_temporaries_succ h found hmem
          have hreplacement := havoids.not_mem_replacement hop hcallee hother
          have hframed := (honce hmem).frame (List.not_mem_append hs.1.1 hreplacement)
            List.not_mem_nil
          rwa [List.append_nil] at hframed

/-! ### What a script speaks of -/

variable {parser : ModuleParser}

/-- The assertions that instrumenting replaces. -/
def assertions (parser : ModuleParser) (callee : String) (source : List Char) (file : String) :
    List (Scan.Match × Descriptor) :=
  described parser source file (Scan.statements callee.toList source)

/-- A name is no word of a script, comments and strings included, nor of its path, nor of an operand
or message as printed. -/
structure Unspoken (parser : ModuleParser) (callee : String) (source : List Char) (file : String)
    (x : List Char) : Prop where
  script : x ∉ Text.words source
  path : x ∉ Text.words file.toList
  printed : ∀ k ∈ assertions parser callee source file,
    ∀ c ∈ k.2.assertion.codes ++ k.2.assertion.message.toList, x ∉ Text.words c.toList

theorem operates_of_parse {statement : List Char} {a : Assertion}
    (h : Assertion.parse parser statement = .ok a) :
    ∀ c ∈ a.comparison, ∃ op : BinaryOp, c.operator = op.text := by
  obtain ⟨-, -, first, message, -, rfl⟩ := Assertion.parse_ok h
  unfold Assertion.ofExpressions
  dsimp only
  split
  next span op left right _ =>
    split
    · nofun
    · rintro c ⟨⟩
      exact ⟨op, rfl⟩
  next => nofun

theorem describe_ok {text : List Char} {file : String} {p : Position} {d : Descriptor}
    (h : describe parser text file p = .ok d) :
    d.code.toList = text ∧ d.file = file ∧ Assertion.parse parser text = .ok d.assertion := by
  unfold describe at h
  cases ha : Assertion.parse parser text with
  | error e => rw [ha] at h; cases h
  | ok a =>
    rw [ha] at h
    obtain rfl := Except.ok.inj h
    exact ⟨String.toList_ofList, rfl, rfl⟩

theorem described_spec {source : List Char} {file : String} {ms : List Scan.Match}
    {m : Scan.Match} {d : Descriptor} (h : (m, d) ∈ described parser source file ms) :
    m ∈ ms ∧ d.code.toList = m.text ∧ d.file = file ∧ d.Operates := by
  obtain ⟨m', hm', hd⟩ := List.mem_filterMap.mp h
  split at hd
  next d' hdescribe =>
    cases hd
    obtain ⟨hcode, hfile, hparse⟩ := describe_ok hdescribe
    exact ⟨hm', hcode, hfile, operates_of_parse hparse⟩
  next => cases hd

/-- A statement ends its words, and has those of its callee. -/
theorem words_of_mem_statements {callee : String} {source : List Char} {m : Scan.Match}
    (h : m ∈ Scan.statements callee.toList source) :
    Text.EndsWords m.text ∧ ∀ x, x ∉ Text.words m.text → x ∉ Text.words callee.toList := by
  obtain ⟨args, closing, -, hclosing, htext⟩ := Scan.form_of_mem_statements h
  rw [htext]
  refine ⟨?_, fun x hx => ?_⟩
  · cases hclosing with
    | bare => exact Text.EndsWords.append _ (by decide) (by decide)
    | semicolon => exact Text.EndsWords.append _ (by decide) (by decide)
  · rw [List.append_assoc, List.cons_append, Text.words_append_cons (by decide), List.mem_append,
      not_or] at hx
    exact hx.1

theorem exists_underscore {index : Nat} {found : List (Scan.Match × Descriptor)} {x : List Char}
    (h : x ∈ temporaries index found) : ∃ w, x = '_' :: w := by
  obtain ⟨k, -, rfl | rfl⟩ := exists_index_of_mem h
  · exact ⟨_, Temporaries.left_toList ⟨k⟩⟩
  · exact ⟨_, Temporaries.right_toList ⟨k⟩⟩

theorem Unspoken.not_mem_words {callee : String} {source : List Char} {file : String}
    {x : List Char} (h : Unspoken parser callee source file x) {k : Scan.Match × Descriptor}
    (hk : k ∈ assertions parser callee source file) (hdetached : Detached source k.1) :
    x ∉ Text.words callee.toList ∧ Text.EndsWords k.1.text ∧ k.2.Avoids x ∧ k.2.Operates := by
  obtain ⟨hm, hcode, hfile, hop⟩ := described_spec hk
  obtain ⟨htext, hcallee⟩ := words_of_mem_statements hm
  obtain ⟨before, after, hsource, hstart⟩ := (Scan.statements_located _ _).mem k.1 hm
  rw [Nat.zero_add] at hstart
  have hbefore := hdetached.endsWords (hsource.trans (List.append_assoc ..)) hstart
  have hstatement : x ∉ Text.words k.1.text := by
    have hscript := h.script
    rw [hsource, Text.words_append_append hbefore htext, List.mem_append, List.mem_append, not_or,
      not_or] at hscript
    exact hscript.1.2
  refine ⟨hcallee x hstatement, htext, ⟨hcode ▸ hstatement, hfile ▸ h.path, fun c hc => ?_,
    fun m hm => ?_⟩, hop⟩
  · exact h.printed k hk c (List.mem_append_left _ hc)
  · exact h.printed k hk m (List.mem_append_right _ (Option.mem_toList.mpr hm))

theorem located_assertions (parser : ModuleParser) (callee : String) (source : List Char)
    (file : String) : Scan.Located 0 source ((assertions parser callee source file).map (·.1)) := by
  obtain ⟨p, hp⟩ := map_fst_described parser source file (Scan.statements callee.toList source)
  rw [assertions, hp]
  exact (Scan.statements_located callee.toList source).filter p

theorem code_spliced {callee : String} {source : List Char} {file : String} {r : Instrumented}
    (h : instrument parser callee source file = .ok (some r)) :
    Edit.Spliced 0 source (edits callee 1 (assertions parser callee source file)) r.code := by
  obtain ⟨-, happly⟩ := instrument_eq_some h
  have hspliced := script_spliced parser callee source file
  rw [edits_eq_map, ← replacements, ← congrArg Prod.fst happly] at hspliced
  rwa [edits_eq_map, ← replacements, assertions]

theorem assertions_ne_nil {callee : String} {source : List Char} {file : String} {r : Instrumented}
    (h : instrument parser callee source file = .ok (some r)) :
    assertions parser callee source file ≠ [] := by
  intro hnone
  rw [assertions] at hnone
  have hscript : script parser callee source file = none := by
    rw [script, hnone]
    rfl
  unfold instrument callee? sizedScript at h
  split at h
  · cases h
  · rw [Except.bind, hscript] at h
    split at h <;> cases h

/-- Whatever is instrumented, the first name is among those that are declared. -/
theorem left_mem_temporaries {callee : String} {source : List Char} {file : String}
    {r : Instrumented} (h : instrument parser callee source file = .ok (some r)) :
    (Temporaries.mk 1).left.toList ∈ temporaries 1 (assertions parser callee source file) := by
  obtain ⟨⟨m, d⟩, found, hfound⟩ := List.exists_cons_of_ne_nil (assertions_ne_nil h)
  rw [hfound, temporaries_cons]
  exact List.mem_append_left _ List.mem_cons_self

theorem left_mem_words_code {callee : String} {source : List Char} {file : String}
    {r : Instrumented} (h : instrument parser callee source file = .ok (some r)) :
    (Temporaries.mk 1).left.toList ∈ Text.words r.code := by
  obtain ⟨⟨m, d⟩, found, hfound⟩ := List.exists_cons_of_ne_nil (assertions_ne_nil h)
  have hspliced := code_spliced h
  rw [hfound, edits] at hspliced
  generalize hcode : r.code = code at hspliced
  cases hspliced with
  | cons gap old rest start stop after => exact d.left_mem_words_replacement callee ⟨1⟩ _ _

/-- The names that instrumenting declares differ from each other. One that the script does not speak
of is declared once in the instrumented script and used twice, if the statements stand detached. A
second run over the instrumented script declares a name of the first again. -/
theorem temporaries_declared_once {callee : String} {source : List Char} {file : String}
    {r : Instrumented} (h : instrument parser callee source file = .ok (some r)) :
    (temporaries 1 (assertions parser callee source file)).Nodup ∧
      ((∀ k ∈ assertions parser callee source file, Detached source k.1) →
        ∀ x ∈ temporaries 1 (assertions parser callee source file),
          Unspoken parser callee source file x →
          (Text.words r.code).count x = 3 ∧ (declared (Text.words r.code)).count x = 1) ∧
      ∀ callee' file' again, instrument parser callee' r.code file' = .ok (some again) →
        ∃ x ∈ temporaries 1 (assertions parser callee' r.code file'), x ∈ Text.words r.code := by
  refine ⟨nodup_temporaries 1 _, fun hdetached x hx hunspoken => ?_, fun _ _ _ hagain =>
    ⟨_, left_mem_temporaries hagain, left_mem_words_code h⟩⟩
  obtain ⟨w, rfl⟩ := exists_underscore hx
  have hfound := fun k hk => hunspoken.not_mem_words hk (hdetached k hk)
  have hcallee : '_' :: w ∉ Text.words callee.toList := by
    obtain ⟨⟨k, i⟩, hk, -⟩ := List.mem_flatMap.mp hx
    exact (hfound k (List.fst_mem_of_mem_zipIdx hk)).1
  obtain ⟨code, hspliced, -, honce⟩ := exists_code 1 (located_assertions parser callee source file)
    (List.nil_append source).symm rfl (fun k hk => ⟨hdetached k hk, (hfound k hk).2⟩) hcallee
    hunspoken.script
  have hcode : r.code = code := by
    rw [← Edit.apply_spliced hspliced, Edit.apply_spliced (code_spliced h)]
  have hconst : '_' :: w ≠ "const".toList := by simp
  rw [hcode]
  exact ⟨(honce hx).count_eq hconst, (honce hx).count_declared hconst⟩

theorem exists_instrumented (parser : ModuleParser) (callee : String) (source : List Char)
    (file : String) (p : Instrumented → Bool)
    (h : ((instrument parser callee source file).toOption.bind id).any p) :
    ∃ r, instrument parser callee source file = .ok (some r) ∧ p r := by
  cases hread : instrument parser callee source file with
  | error e =>
    rw [hread] at h
    cases h
  | ok o =>
    cases o with
    | none =>
      rw [hread] at h
      cases h
    | some r =>
      rw [hread] at h
      exact ⟨r, rfl, h⟩

/-- A comparison with a message, and an assertion without either. -/
def twoAssertions : List Char := "t.assert(a === b, 'm');\nt.assert(c);\n".toList

theorem temporaries_declared_once_comparison :
    (∀ k ∈ assertions Grammar.parser "t.assert" twoAssertions "a.js", Detached twoAssertions k.1) ∧
      "_right1".toList ∈ temporaries 1 (assertions Grammar.parser "t.assert" twoAssertions "a.js") ∧
      Unspoken Grammar.parser "t.assert" twoAssertions "a.js" "_right1".toList ∧
      (∃ r, instrument Grammar.parser "t.assert" twoAssertions "a.js" = .ok (some r) ∧
        (Text.words r.code).count "_right1".toList = 3 ∧
        (declared (Text.words r.code)).count "_right1".toList = 1) ∧
      ∃ r again, instrument Grammar.parser "t.assert" "t.assert(a);\n".toList "a.js" = .ok (some r) ∧
        instrument Grammar.parser "t.assert" r.code "a.js" = .ok (some again) ∧
        ∃ x ∈ temporaries 1 (assertions Grammar.parser "t.assert" r.code "a.js"),
          x ∈ Text.words r.code := by
  have hdetached : ∀ k ∈ assertions Grammar.parser "t.assert" twoAssertions "a.js",
      Detached twoAssertions k.1 := by
    decide +kernel
  have hname : "_right1".toList ∈
      temporaries 1 (assertions Grammar.parser "t.assert" twoAssertions "a.js") := by
    decide +kernel
  have hunspoken : Unspoken Grammar.parser "t.assert" twoAssertions "a.js" "_right1".toList :=
    ⟨by decide +kernel, by decide +kernel, by decide +kernel⟩
  obtain ⟨r, hr, -⟩ :=
    exists_instrumented Grammar.parser "t.assert" twoAssertions "a.js" (fun _ => true)
    (by decide +kernel)
  obtain ⟨-, honce, -⟩ := temporaries_declared_once hr
  obtain ⟨first, hfirst, hread⟩ :=
    exists_instrumented Grammar.parser "t.assert" "t.assert(a);\n".toList "a.js"
    (fun r => ((instrument Grammar.parser "t.assert" r.code "a.js").toOption.bind id).any
      fun _ => true)
    (by decide +kernel)
  obtain ⟨again, hagain, -⟩ :=
    exists_instrumented Grammar.parser "t.assert" first.code "a.js" (fun _ => true)
    hread
  obtain ⟨-, -, hcommon⟩ := temporaries_declared_once hfirst
  exact ⟨hdetached, hname, hunspoken, ⟨r, hr, honce hdetached _ hname hunspoken⟩, first, again,
    hfirst, hagain, hcommon _ _ again hagain⟩

/-- A name that the script declares itself is declared again. -/
theorem temporaries_redeclared :
    Mask.maskedRegions "const _left1 = 0;\nt.assert(a);\n".toList = [] ∧
      declared (Text.words "const _left1 = 0;\nt.assert(a);\n".toList) = ["_left1".toList] ∧
      temporaries 1
          (assertions Grammar.parser defaultCallee "const _left1 = 0;\nt.assert(a);\n".toList "a.js") =
        ["_left1".toList] ∧
      ∃ r, instrument Grammar.parser defaultCallee "const _left1 = 0;\nt.assert(a);\n".toList "a.js" =
          .ok (some r) ∧
        declared (Text.words r.code) = ["_left1".toList, "_left1".toList] := by
  refine ⟨by decide +kernel, by decide +kernel, by decide +kernel, ?_⟩
  obtain ⟨r, hr, hdeclared⟩ := exists_instrumented Grammar.parser defaultCallee
    "const _left1 = 0;\nt.assert(a);\n".toList "a.js"
    (fun r => declared (Text.words r.code) = ["_left1".toList, "_left1".toList])
    (by decide +kernel)
  exact ⟨r, hr, of_decide_eq_true hdeclared⟩

end Instrument

end Assay
