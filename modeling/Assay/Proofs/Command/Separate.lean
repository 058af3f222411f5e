import Assay.Grammar.Module
import Assay.Proofs.Command.InTree
import Mathlib.Data.List.FinRange

/-!
# Scripts by themselves

A run over several scripts is made of the runs over each. `runInstrument_separate` says so of what a
run prints and of its totals, for any order in which the scripts are taken.
-/

namespace Assay

/-- A file that can be read and is short enough to be instrumented. -/
structure Tree.Readable (t : Tree) (path : String) : Prop where
  file : t.isDirectory path = false
  text : ∃ source, t.text? path = some source ∧ Text.bytes source.toList < 0x100000000

theorem Instrument.count_script_pos {parser : ModuleParser} {callee : String} {source : List Char}
    {file : String} {r : Instrumented}
    (h : Instrument.script parser callee source file = some r) : 0 < r.count := by
  unfold Instrument.script at h
  dsimp only at h
  split at h
  · cases h
  next hfound =>
    obtain rfl := Option.some.inj h
    exact List.length_pos_iff.mpr (by simpa using hfound)

namespace Command

def Totals.sum (ts : List Totals) : Totals := ts.foldr Totals.add Totals.zero

/-- What a run over one script prints, with its totals. -/
def printedAlone (parser : ModuleParser) (callee : String) (inlineMap : Bool)
    (path source : String) : Totals × List Char :=
  match Instrument.script parser callee source.toList path with
  | none => (⟨1, 0, 0⟩, [])
  | some r => (⟨1, 1, r.count⟩, if inlineMap then r.codeWithMap source.toList path else r.code)

/-- The line with the path of a script, where there are others. -/
def title (files : List ScriptFile) (file : ScriptFile) : List Char :=
  if 1 < files.length then "// ".toList ++ file.path.toList ++ ['\n'] else []

/-- A run that takes its scripts in another order: `order` lists their places, in which the results
are put again. -/
def instrumentInOrder (parser : ModuleParser) (callee : String) (inlineMap : Bool)
    (files : List ScriptFile)
    (order : List (Fin files.length)) : ExceptT Error (StateM Tree) (Totals × List Char) := do
  let done ← order.mapM fun i => do return (i, ← instrumentFile parser callee inlineMap files[i])
  let results := (List.finRange files.length).filterMap (done.lookup ·)
  return (.ofResults results, printedResults results)

/-! ### Results -/

/-- The result for a source that is short enough. -/
def InstrumentResult.ofScript (parser : ModuleParser) (callee : String) (inlineMap : Bool)
    (path source : String) : InstrumentResult :=
  match Instrument.script parser callee source.toList path with
  | some r => ⟨path, if inlineMap then r.codeWithMap source.toList path else r.code, r.count⟩
  | none => ⟨path, source.toList, 0⟩

theorem ofSource_eq {parser : ModuleParser} {callee path source : String} {inlineMap : Bool}
    (h : Text.bytes source.toList < 0x100000000) :
    InstrumentResult.ofSource parser callee inlineMap path source =
      .ok (.ofScript parser callee inlineMap path source) := by
  unfold InstrumentResult.ofSource Instrument.sizedScript InstrumentResult.ofScript
  rw [if_pos h]
  cases Instrument.script parser callee source.toList path <;> rfl

theorem ofResult_ofScript (parser : ModuleParser) (callee : String) (inlineMap : Bool)
    (path source : String) :
    Totals.ofResult (.ofScript parser callee inlineMap path source) =
      (printedAlone parser callee inlineMap path source).1 := by
  unfold InstrumentResult.ofScript printedAlone
  cases h : Instrument.script parser callee source.toList path with
  | none => rfl
  | some r =>
    have hpos := Instrument.count_script_pos h
    simp only [Totals.ofResult]
    rw [if_neg (by omega)]

theorem printed_ofScript (titled : Bool) (parser : ModuleParser) (callee : String) (inlineMap : Bool)
    (path source : String) :
    (InstrumentResult.ofScript parser callee inlineMap path source).printed titled =
      if (printedAlone parser callee inlineMap path source).1.assertions = 0 then []
      else (if titled then "// ".toList ++ path.toList ++ ['\n'] else []) ++
        (printedAlone parser callee inlineMap path source).2 := by
  unfold InstrumentResult.ofScript printedAlone
  cases Instrument.script parser callee source.toList path <;> rfl

theorem printed_ofScript_untitled (parser : ModuleParser) (callee : String) (inlineMap : Bool)
    (path source : String) :
    (InstrumentResult.ofScript parser callee inlineMap path source).printed false =
      (printedAlone parser callee inlineMap path source).2 := by
  rw [printed_ofScript]
  unfold printedAlone
  cases h : Instrument.script parser callee source.toList path with
  | none => rfl
  | some r =>
    have hpos := Instrument.count_script_pos h
    exact if_neg (by simpa using Nat.ne_of_gt hpos)

theorem ofResults_singleton (r : InstrumentResult) : Totals.ofResults [r] = Totals.ofResult r := rfl

theorem printedResults_singleton (r : InstrumentResult) :
    printedResults [r] = r.printed false := List.flatMap_singleton _ _

theorem ofResults_map {α : Type} (g : α → InstrumentResult) (xs : List α) :
    Totals.ofResults (xs.map g) = Totals.sum (xs.map fun x => Totals.ofResult (g x)) := by
  rw [Totals.ofResults, Totals.sum, List.foldr_map, List.foldr_map]

/-! ### Runs -/

/-- The text of a file, empty if it cannot be read. -/
def textIn (t : Tree) (path : String) : String := (t.text? path).getD ""

/-- The result for a script as it stands in a tree. -/
def resultIn (t : Tree) (parser : ModuleParser) (callee : String) (inlineMap : Bool)
    (file : ScriptFile) : InstrumentResult :=
  .ofScript parser callee inlineMap file.path (textIn t file.path)

theorem run_instrumentFile_readable {t : Tree} {file : ScriptFile} (h : t.Readable file.path)
    (parser : ModuleParser) (callee : String) (inlineMap : Bool) :
    t.run (instrumentFile parser callee inlineMap file) =
      (.ok (resultIn t parser callee inlineMap file), t) := by
  obtain ⟨source, htext, hsmall⟩ := h.text
  rw [run_instrumentFile, InstrumentResult.ofFile, resultIn, textIn, htext]
  dsimp only
  rw [ofSource_eq hsmall]
  rfl

variable {t : Tree} (parser : ModuleParser) {callee : String} {a : InstrumentArguments}
  {files : List ScriptFile}

theorem run_runInstrument_printed (hprints : a.outDir = none)
    (hcallee : Instrument.callee? callee = .ok callee) (hfiles : t.scripts a = .ok files)
    (hreadable : ∀ f ∈ files, t.Readable f.path) :
    t.run (runInstrument parser callee a) =
      (.ok (.ofResults (files.map (resultIn t parser callee a.inlineMap)),
        printedResults (files.map (resultIn t parser callee a.inlineMap))), t) := by
  have hresults : t.run (instrumentFiles parser callee a files) =
      (.ok (files.map (resultIn t parser callee a.inlineMap)), t) := by
    apply Tree.run_mapM
    intro file hfile
    rw [Tree.run_bind_of_ok (run_instrumentFile_readable (hreadable file hfile) _ _ _), hprints]
    rfl
  rw [run_runInstrument, hcallee, hfiles]
  dsimp only
  unfold instrumentSelected
  rw [hprints]
  exact Tree.run_bind_of_ok hresults _

theorem scripts_alone (hfiles : t.scripts a = .ok files) {path : String}
    (hfile : t.isDirectory path = false) :
    t.scripts { a with paths := [path] } = .ok [.ofPath path] := by
  unfold Tree.scripts at hfiles ⊢
  cases hglobs : ScriptFile.ignoredGlobs a.ignore with
  | error e =>
    rw [hglobs] at hfiles
    cases hfiles
  | ok ignored =>
    have hat : t.scriptsAt ignored path = [.ofPath path] := by
      rw [Tree.scriptsAt, hfile]
      rfl
    simp only [Except.map, List.flatMap_singleton, hat]

theorem run_runInstrument_alone (hprints : a.outDir = none)
    (hcallee : Instrument.callee? callee = .ok callee) (hfiles : t.scripts a = .ok files)
    {path : String} (hreadable : t.Readable path) :
    t.run (runInstrument parser callee { a with paths := [path] }) =
      (.ok (printedAlone parser callee a.inlineMap path (textIn t path)), t) := by
  have hrun := run_runInstrument_printed parser (a := { a with paths := [path] }) hprints hcallee
    (scripts_alone hfiles hreadable.file) (List.forall_mem_singleton.mpr hreadable)
  rw [hrun, List.map_singleton, ofResults_singleton, printedResults_singleton]
  change (Except.ok (Totals.ofResult (.ofScript parser callee a.inlineMap path (textIn t path)),
    (InstrumentResult.ofScript parser callee a.inlineMap path (textIn t path)).printed false), t) = _
  rw [ofResult_ofScript, printed_ofScript_untitled]

theorem lookup_map_of_mem {α β : Type} [BEq α] [LawfulBEq α] {g : α → β} {xs : List α} {x : α}
    (h : x ∈ xs) : (xs.map fun x => (x, g x)).lookup x = some (g x) := by
  induction xs with
  | nil => cases h
  | cons y ys ih =>
    rw [List.map_cons, List.lookup_cons]
    split
    next heq => rw [eq_of_beq heq]
    next hne =>
      rcases List.mem_cons.mp h with rfl | h
      · simp at hne
      · exact ih h

theorem run_instrumentInOrder (hreadable : ∀ f ∈ files, t.Readable f.path) (inlineMap : Bool)
    {order : List (Fin files.length)} (horder : order.Perm (List.finRange files.length)) :
    t.run (instrumentInOrder parser callee inlineMap files order) =
      (.ok (.ofResults (files.map (resultIn t parser callee inlineMap)),
        printedResults (files.map (resultIn t parser callee inlineMap))), t) := by
  have hdone :
      t.run (order.mapM fun i => do
        return (i, ← instrumentFile parser callee inlineMap files[i])) =
      (.ok (order.map fun i => (i, resultIn t parser callee inlineMap files[i])), t) := by
    apply Tree.run_mapM
    intro i _
    exact Tree.run_bind_of_ok
      (run_instrumentFile_readable (hreadable files[i] (List.getElem_mem i.isLt)) _ _ _) _
  have hresults : (List.finRange files.length).filterMap
      ((order.map fun i => (i, resultIn t parser callee inlineMap files[i])).lookup ·) =
        files.map (resultIn t parser callee inlineMap) := by
    have hlookup : ∀ i ∈ List.finRange files.length,
        (order.map fun i => (i, resultIn t parser callee inlineMap files[i])).lookup i =
          some (resultIn t parser callee inlineMap files[i]) := by
      intro i hi
      exact lookup_map_of_mem (horder.mem_iff.mpr hi)
    rw [List.filterMap_congr hlookup, List.filterMap_eq_map', ← List.ofFn_eq_map]
    exact List.ofFn_getElem_eq_map files (resultIn t parser callee inlineMap)
  apply (Tree.run_bind_of_ok hdone _).trans
  dsimp only
  rw [hresults]
  rfl

/-- A run that prints gives the totals of the runs over its scripts by themselves, added up, and what
these print, in the order of the scripts; each with its title, if there are several scripts, and none
for those without assertions. What is printed of one depends on its own source only. The scripts may
be taken in any order. -/
theorem runInstrument_separate (hprints : a.outDir = none)
    (hcallee : Instrument.callee? callee = .ok callee) (hfiles : t.scripts a = .ok files)
    (hreadable : ∀ f ∈ files, t.Readable f.path) :
    ∃ alone : ScriptFile → Totals × List Char,
      (∀ f ∈ files,
        t.run (runInstrument parser callee { a with paths := [f.path] }) = (.ok (alone f), t) ∧
        ∃ source, t.text? f.path = some source ∧
          alone f = printedAlone parser callee a.inlineMap f.path source) ∧
      t.run (runInstrument parser callee a) =
        (.ok (Totals.sum (files.map fun f => (alone f).1),
          files.flatMap fun f =>
            if (alone f).1.assertions = 0 then [] else title files f ++ (alone f).2), t) ∧
      ∀ order : List (Fin files.length), order.Perm (List.finRange files.length) →
        t.run (instrumentInOrder parser callee a.inlineMap files order) =
          t.run (runInstrument parser callee a) := by
  have hrun := run_runInstrument_printed parser hprints hcallee hfiles hreadable
  refine ⟨fun f => printedAlone parser callee a.inlineMap f.path (textIn t f.path), ?_, ?_, ?_⟩
  · intro f hf
    obtain ⟨source, htext, -⟩ := (hreadable f hf).text
    have hsource : textIn t f.path = source := by rw [textIn, htext]; rfl
    constructor
    · exact run_runInstrument_alone parser hprints hcallee hfiles (hreadable f hf)
    · exact ⟨source, htext, by dsimp only; rw [hsource]⟩
  · have htotals : Totals.ofResults (files.map (resultIn t parser callee a.inlineMap)) =
        Totals.sum (files.map fun f =>
          (printedAlone parser callee a.inlineMap f.path (textIn t f.path)).1) := by
      rw [ofResults_map]
      simp only [resultIn, ofResult_ofScript]
    rw [hrun, htotals, printedResults, List.flatMap_map, List.length_map]
    simp only [resultIn, printed_ofScript, title, decide_eq_true_eq]
  · intro order horder
    rw [hrun]
    exact run_instrumentInOrder parser hreadable a.inlineMap horder

/-- A script with an assertion, and one without in a directory. -/
def twoScripts : Tree :=
  ⟨[(["a.js"], "t.assert(x);\n".toUTF8), (["d", "b.js"], "x;\n".toUTF8)], [], .empty⟩

def twoFiles : List ScriptFile := [⟨"a.js", "a.js"⟩, ⟨"d/b.js", "b.js"⟩]

theorem runInstrument_separate_twoScripts :
    let a : InstrumentArguments := ⟨["a.js", "d"], none, false, none, []⟩
    ∃ alone : Totals × List Char,
      twoScripts.run (runInstrument Grammar.parser "t.assert" { a with paths := ["a.js"] }) =
        (.ok alone, twoScripts) ∧
      alone.1 = ⟨1, 1, 1⟩ ∧
      twoScripts.run (runInstrument Grammar.parser "t.assert" a) =
        (.ok (⟨2, 1, 1⟩, "// a.js\n".toList ++ alone.2), twoScripts) ∧
      twoScripts.run
          (instrumentInOrder Grammar.parser "t.assert" false twoFiles
            (List.finRange twoFiles.length).reverse) =
        twoScripts.run (runInstrument Grammar.parser "t.assert" a) := by
  intro a
  have hcallee : Instrument.callee? "t.assert" = .ok "t.assert" := rfl
  have hfiles : twoScripts.scripts a = .ok twoFiles := eq_ok_of_toOption (by decide +kernel)
  have htextA : twoScripts.text? "a.js" = some "t.assert(x);\n" := by decide +kernel
  have htextB : twoScripts.text? "d/b.js" = some "x;\n" := by decide +kernel
  have hreadable : ∀ f ∈ twoFiles, twoScripts.Readable f.path := by
    intro f hf
    simp only [twoFiles, List.mem_cons, List.not_mem_nil, or_false] at hf
    rcases hf with rfl | rfl
    · exact ⟨by decide +kernel, _, htextA, by decide⟩
    · exact ⟨by decide +kernel, _, htextB, by decide⟩
  obtain ⟨alone, halone, hrun, horder⟩ :=
    runInstrument_separate Grammar.parser (a := a) rfl hcallee hfiles hreadable
  obtain ⟨hrunA, sourceA, hsourceA, hA⟩ := halone ⟨"a.js", "a.js"⟩ (by decide)
  obtain ⟨-, sourceB, hsourceB, hB⟩ := halone ⟨"d/b.js", "b.js"⟩ (by decide)
  obtain rfl := Option.some.inj (htextA.symm.trans hsourceA)
  obtain rfl := Option.some.inj (htextB.symm.trans hsourceB)
  have htotals : (alone ⟨"a.js", "a.js"⟩).1 = ⟨1, 1, 1⟩ := by
    rw [hA]
    decide +kernel
  have hnothing : alone ⟨"d/b.js", "b.js"⟩ = (⟨1, 0, 0⟩, []) := by
    rw [hB]
    decide +kernel
  refine ⟨_, hrunA, htotals, ?_, horder _ (List.reverse_perm _)⟩
  rw [hrun]
  simp [twoFiles, htotals, hnothing, Totals.sum, Totals.add, Totals.zero, title]

end Command

end Assay
