import Assay.Grammar.Module
import Assay.Proofs.Command.InTree
import Assay.Proofs.Files.Places
import Mathlib.Data.List.Forall2
import Mathlib.Data.List.Pairwise

/-!
# Scripts that would be written to one path

A run with an output directory is refused, before it writes anything, if two of its scripts have the
same path below that directory. `collisions_refused` says when and with which two scripts, and that a
run which succeeds leaves the result of every script where it was to be written.
-/

namespace Assay

namespace Command

namespace ScriptFile

/-- The scripts have different paths below the output directory. -/
def Apart (f g : ScriptFile) : Prop := ¬ Path.same f.relative g.relative

theorem same_iff {f g : String} :
    Path.same f g = true ↔ Path.components f = Path.components g := by
  simp [Path.same]

instance : Std.Symm Apart where
  symm f g h := by
    intro hsame
    exact h (same_iff.mpr (same_iff.mp hsame).symm)

/-- Of scripts with different paths one at most has the path of another script. -/
theorem eq_of_same {files : List ScriptFile} (h : files.Pairwise Apart) {f g k : ScriptFile}
    (hf : f ∈ files) (hg : g ∈ files) (hfk : Path.same f.relative k.relative)
    (hgk : Path.same g.relative k.relative) : f = g := by
  by_contra hne
  have happart := h.forall hf hg hne
  exact happart (same_iff.mpr ((same_iff.mp hfk).trans (same_iff.mp hgk).symm))

/-! ### The first collision -/

theorem pairwise_concat_iff {before : List ScriptFile} {file : ScriptFile} :
    (before ++ [file]).Pairwise Apart ↔
      before.Pairwise Apart ∧ ∀ f ∈ before, Apart f file := by
  simp [List.pairwise_append]

/-- By induction on the files that are still to be checked; those before them are apart. -/
theorem collision?_eq_none_iff (files : List ScriptFile) {before : List ScriptFile}
    (h : before.Pairwise Apart) :
    collision? before files = none ↔ (before ++ files).Pairwise Apart := by
  induction files generalizing before with
  | nil => simp [collision?, h]
  | cons file files ih =>
    unfold collision?
    split
    next earlier hfound =>
      have hmem := List.mem_of_find?_eq_some hfound
      have hsame := List.find?_some hfound
      constructor
      · intro hnone
        cases hnone
      · intro hapart
        have hbefore := (List.pairwise_append.mp hapart).2.2 earlier hmem file List.mem_cons_self
        exact absurd hsame hbefore
    next hnone =>
      have hbefore : ∀ f ∈ before, Apart f file := List.find?_eq_none.mp hnone
      rw [ih (pairwise_concat_iff.mpr ⟨h, hbefore⟩), List.append_assoc, List.singleton_append]

theorem collision?_eq_some_iff (files : List ScriptFile) {before : List ScriptFile}
    (h : before.Pairwise Apart) (first second : ScriptFile) :
    collision? before files = some (first, second) ↔
      ∃ between after, files = between ++ second :: after ∧ (before ++ between).Pairwise Apart ∧
        first ∈ before ++ between ∧ Path.same first.relative second.relative := by
  induction files generalizing before with
  | nil => simp [collision?]
  | cons file files ih =>
    unfold collision?
    split
    next earlier hfound =>
      have hmem := List.mem_of_find?_eq_some hfound
      have hsame := List.find?_some hfound
      constructor
      · intro heq
        obtain ⟨rfl, rfl⟩ := Prod.mk.inj (Option.some.inj heq)
        exact ⟨[], files, rfl, by simpa using h, by simpa using hmem, hsame⟩
      · rintro ⟨between, after, hfiles, hapart, hfirst, hfirstSame⟩
        cases between with
        | nil =>
          obtain ⟨rfl, rfl⟩ := List.cons.inj hfiles
          rw [List.append_nil] at hfirst
          rw [eq_of_same h hfirst hmem hfirstSame hsame]
        | cons next between =>
          obtain ⟨rfl, -⟩ := List.cons.inj hfiles
          have hbefore := (List.pairwise_append.mp hapart).2.2 earlier hmem file List.mem_cons_self
          exact absurd hsame hbefore
    next hnone =>
      have hbefore : ∀ f ∈ before, Apart f file := List.find?_eq_none.mp hnone
      rw [ih (pairwise_concat_iff.mpr ⟨h, hbefore⟩)]
      constructor
      · rintro ⟨between, after, rfl, hapart, hfirst, hsame⟩
        exact ⟨file :: between, after, rfl, by simpa using hapart, by simpa using hfirst, hsame⟩
      · rintro ⟨between, after, hfiles, hapart, hfirst, hsame⟩
        cases between with
        | nil =>
          obtain ⟨rfl, rfl⟩ := List.cons.inj hfiles
          rw [List.append_nil] at hfirst
          exact absurd hsame (hbefore first hfirst)
        | cons next between =>
          obtain ⟨rfl, rfl⟩ := List.cons.inj hfiles
          exact ⟨between, after, rfl, by simpa using hapart, by simpa using hfirst, hsame⟩

theorem checkCollisions_eq_ok_iff (files : List ScriptFile) :
    checkCollisions files = .ok () ↔ files.Pairwise Apart := by
  have hnone := collision?_eq_none_iff files List.Pairwise.nil
  rw [List.nil_append] at hnone
  rw [← hnone, checkCollisions]
  cases collision? [] files with
  | none => simp
  | some found => simp

theorem checkCollisions_eq_error_iff (files : List ScriptFile) (e : Error) :
    checkCollisions files = .error e ↔
      ∃ before first second after, files = before ++ second :: after ∧ before.Pairwise Apart ∧
        first ∈ before ∧ Path.same first.relative second.relative ∧
        e = .collision second.relative first.path second.path := by
  have hsome := collision?_eq_some_iff files List.Pairwise.nil
  simp only [List.nil_append] at hsome
  unfold checkCollisions
  split
  next hnone =>
    constructor
    · intro h
      cases h
    · rintro ⟨before, first, second, after, hfiles, hapart, hfirst, hsame, -⟩
      have hfound := (hsome first second).mpr ⟨before, after, hfiles, hapart, hfirst, hsame⟩
      rw [hnone] at hfound
      cases hfound
  next first second hfound =>
    obtain ⟨before, after, hfiles, hapart, hfirst, hsame⟩ := (hsome first second).mp hfound
    constructor
    · intro h
      exact ⟨before, first, second, after, hfiles, hapart, hfirst, hsame, (Except.error.inj h).symm⟩
    · rintro ⟨before, first', second', after, hfiles, hapart, hfirst, hsame, rfl⟩
      have hfound' := (hsome first' second').mpr ⟨before, after, hfiles, hapart, hfirst, hsame⟩
      obtain ⟨rfl, rfl⟩ := Prod.mk.inj (Option.some.inj (hfound.symm.trans hfound'))
      rfl

/-! ### Paths below the output directory -/

/-- The path below the output directory consists of names, or names no file at all. -/
def Placed (f : ScriptFile) : Prop :=
  (∃ names : List (List Char), Path.components f.relative = names.map .name) ∨
    Path.fileName? f.relative = none

theorem placed_ofPath (path : String) : (ofPath path).Placed := by
  unfold ofPath Placed
  dsimp only
  cases h : Path.fileName? path with
  | none => exact Or.inr h
  | some name =>
    obtain ⟨text, htext⟩ := Path.components_of_fileName? h
    exact Or.inl ⟨[text], htext⟩

theorem placed_ofDirectory {ignored : List Glob} {path : String} {files : List (List String)}
    (h : ∀ names ∈ files, names ≠ [] ∧ ∀ name ∈ names, Path.IsName name.toList) :
    ∀ f ∈ ofDirectory ignored path files, f.Placed := by
  intro f hf
  obtain ⟨names, hnames, rfl⟩ := List.mem_map.mp hf
  have hmem := (List.mem_filter.mp (List.mem_mergeSort.mp hnames)).1
  obtain ⟨hne, hall⟩ := h names hmem
  exact Or.inl ⟨_, Path.components_ofNames hne hall⟩

end ScriptFile

end Command

namespace Tree

open Command

/-- The names in a tree name files and directories. -/
def Named (t : Tree) : Prop := ∀ file ∈ t.files, ∀ name ∈ file.1, Path.IsName name.toList

theorem Named.filesBelow {t : Tree} (h : t.Named) {path : String} :
    ∀ names ∈ t.filesBelow path, names ≠ [] ∧ ∀ name ∈ names, Path.IsName name.toList := by
  intro names hnames
  unfold Tree.filesBelow at hnames
  split at hnames
  · cases hnames
  next place _ =>
    obtain ⟨⟨inside, contents⟩, hfile, hbelow⟩ := List.mem_filterMap.mp hnames
    dsimp only at hbelow
    split at hbelow
    next hplace =>
      obtain rfl := Option.some.inj hbelow
      obtain ⟨⟨rest, hrest⟩, hne⟩ := isBelow_iff.mp hplace
      constructor
      · intro hnil
        have hlength := List.drop_eq_nil_iff.mp hnil
        rw [← hrest, List.length_append] at hlength
        obtain rfl := List.length_eq_zero_iff.mp (show rest.length = 0 by omega)
        exact hne (by rw [← hrest, List.append_nil])
      · intro name hname
        exact h _ hfile name (List.mem_of_mem_drop hname)
    next => cases hbelow

theorem Named.placed {t : Tree} (h : t.Named) {a : InstrumentArguments} {files : List ScriptFile}
    (hfiles : t.scripts a = .ok files) : ∀ f ∈ files, f.Placed := by
  unfold scripts at hfiles
  cases hglobs : ScriptFile.ignoredGlobs a.ignore with
  | error e =>
    rw [hglobs] at hfiles
    cases hfiles
  | ok ignored =>
    rw [hglobs] at hfiles
    obtain rfl := Except.ok.inj hfiles
    intro f hf
    obtain ⟨path, -, hf⟩ := List.mem_flatMap.mp hf
    unfold scriptsAt at hf
    split at hf
    · exact ScriptFile.placed_ofDirectory h.filesBelow f hf
    · obtain rfl := List.mem_singleton.mp hf
      exact ScriptFile.placed_ofPath path

end Tree

namespace Command

/-! ### Writing results -/

theorem run_change {t t' : Tree} (f : Tree → Option Tree)
    (h : t.run (liftM (Tree.change f) : ExceptT Error (StateM Tree) Bool) = (.ok true, t')) :
    f t = some t' := by
  rw [Tree.run_ofState] at h
  change (Except.ok (Tree.change f t).1, (Tree.change f t).2) = _ at h
  unfold Tree.change at h
  cases hf : f t with
  | none =>
    rw [hf] at h
    cases h
  | some changed =>
    rw [hf] at h
    exact congrArg some (Prod.mk.inj h).2

theorem run_writeResult_ok {t t' : Tree} {directory : String} {file : ScriptFile}
    {result : InstrumentResult} (h : t.run (writeResult directory file result) = (.ok (), t')) :
    ∃ t₁, t.makeDirectories? (Path.parent (Path.join directory file.relative)) = some t₁ ∧
      t₁.writeText? (Path.join directory file.relative) (String.ofList result.code) = some t' := by
  unfold writeResult at h
  obtain ⟨made, t₁, hmade, h⟩ := Tree.run_bind_ok h
  cases made with
  | false => cases h
  | true =>
    rw [if_pos rfl] at h
    obtain ⟨written, t₂, hwritten, h⟩ := Tree.run_bind_ok h
    cases written with
    | false => cases h
    | true =>
      rw [if_pos rfl] at h
      obtain ⟨-, rfl⟩ := Tree.run_pure_ok h
      exact ⟨t₁, run_change (·.makeDirectories? _) hmade, run_change (·.writeText? _ _) hwritten⟩

/-- The instrumentation of one script of a run. -/
def instrumentAt (parser : ModuleParser) (callee : String) (a : InstrumentArguments)
    (file : ScriptFile) : ExceptT Error (StateM Tree) InstrumentResult := do
  let result ← instrumentFile parser callee a.inlineMap file
  if let some outDir := a.outDir then writeResult outDir file result
  return result

theorem instrumentFiles_eq (parser : ModuleParser) (callee : String) (a : InstrumentArguments)
    (files : List ScriptFile) :
    instrumentFiles parser callee a files = files.mapM (instrumentAt parser callee a) := rfl

section
variable {t t' : Tree} {parser : ModuleParser} {callee directory : String}
  {a : InstrumentArguments} {f g : ScriptFile}
  {result : InstrumentResult}

/-- A script that is placed is written to a path of names, as a file of the tree. -/
theorem run_instrumentAt_ok (hout : a.outDir = some directory) (hg : g.Placed)
    (h : t.run (instrumentAt parser callee a g) = (.ok result, t')) :
    ∃ t₁ names p, t.makeDirectories? (Path.parent (Path.join directory g.relative)) = some t₁ ∧
      Path.components g.relative = List.map .name names ∧
      t₁.place? (Path.join directory g.relative) = some p ∧
      t' = t₁.put p (String.ofList result.code).toUTF8 := by
  unfold instrumentAt at h
  obtain ⟨made, t₀, hmade, h⟩ := Tree.run_bind_ok h
  rw [run_instrumentFile] at hmade
  obtain rfl := (Prod.mk.inj hmade).2
  rw [hout] at h
  obtain ⟨_, t₂, hwritten, h⟩ := Tree.run_bind_ok h
  obtain ⟨rfl, rfl⟩ := Tree.run_pure_ok h
  obtain ⟨t₁, hdirectories, htext⟩ := run_writeResult_ok hwritten
  obtain ⟨p, hp, hfile, rfl⟩ := Tree.writeText?_eq_some htext
  rcases hg with ⟨names, hnames⟩ | hnone
  · exact ⟨t₁, names, p, hdirectories, hnames, hp, rfl⟩
  · rw [Tree.isDirectoryAt_of_fileName? hnone hp] at hfile
    cases hfile

/-- A result stands where it was written. -/
theorem text?_of_instrumentAt (hout : a.outDir = some directory) (hf : f.Placed)
    (h : t.run (instrumentAt parser callee a f) = (.ok result, t')) :
    t'.text? (Path.join directory f.relative) = some (String.ofList result.code) := by
  obtain ⟨t₁, names, p, -, -, hp, rfl⟩ := run_instrumentAt_ok hout hf h
  exact Tree.text?_put_self hp _

/-- Another script with a path apart leaves it there. -/
theorem text?_instrumentAt_of_apart (hout : a.outDir = some directory) {names : List (List Char)}
    (hf : Path.components f.relative = names.map .name) (hg : g.Placed)
    (hapart : ScriptFile.Apart f g) (h : t.run (instrumentAt parser callee a g) = (.ok result, t'))
    {text : String} (hstands : t.text? (Path.join directory f.relative) = some text) :
    t'.text? (Path.join directory f.relative) = some text := by
  obtain ⟨t₁, names', q, hdirectories, hnames', hq, rfl⟩ := run_instrumentAt_ok hout hg h
  obtain ⟨p, hp⟩ := Tree.exists_place? hstands
  have hp₁ := Tree.place?_mono (Tree.makeDirectories?_keeps hdirectories).2 hp
  have hne : q ≠ p := by
    rintro rfl
    exact hapart (Tree.place?_join_inj hf hnames' hp hq)
  rw [Tree.text?_put_of_ne hp₁ hne, Tree.text?_makeDirectories? hdirectories hp]
  exact hstands

/-- So do any number of them. -/
theorem text?_mapM_of_apart (hout : a.outDir = some directory) {names : List (List Char)}
    (hf : Path.components f.relative = names.map .name) {files : List ScriptFile}
    (hplaced : ∀ g ∈ files, g.Placed) (hapart : ∀ g ∈ files, ScriptFile.Apart f g)
    {results : List InstrumentResult}
    (h : t.run (files.mapM (instrumentAt parser callee a)) = (.ok results, t')) {text : String}
    (hstands : t.text? (Path.join directory f.relative) = some text) :
    t'.text? (Path.join directory f.relative) = some text := by
  induction files generalizing t results with
  | nil =>
    obtain ⟨-, rfl⟩ := Tree.run_pure_ok h
    exact hstands
  | cons g files ih =>
    obtain ⟨hg, hplaced⟩ := List.forall_mem_cons.mp hplaced
    obtain ⟨hgApart, hapart⟩ := List.forall_mem_cons.mp hapart
    rw [List.mapM_cons] at h
    obtain ⟨result, t₁, hfirst, h⟩ := Tree.run_bind_ok h
    obtain ⟨others, t₂, hothers, h⟩ := Tree.run_bind_ok h
    obtain ⟨-, rfl⟩ := Tree.run_pure_ok h
    exact ih hplaced hapart hothers (text?_instrumentAt_of_apart hout hf hg hgApart hfirst hstands)

/-- After a run every result stands where it was written. -/
theorem stand_of_mapM (hout : a.outDir = some directory) {files : List ScriptFile}
    (hplaced : ∀ g ∈ files, g.Placed) (hapart : files.Pairwise ScriptFile.Apart)
    {results : List InstrumentResult}
    (h : t.run (files.mapM (instrumentAt parser callee a)) = (.ok results, t')) :
    List.Forall₂ (fun f r =>
      t'.text? (Path.join directory f.relative) = some (String.ofList r.code)) files results := by
  induction files generalizing t results with
  | nil =>
    obtain ⟨rfl, -⟩ := Tree.run_pure_ok h
    exact .nil
  | cons f files ih =>
    obtain ⟨hf, hplaced⟩ := List.forall_mem_cons.mp hplaced
    obtain ⟨hfApart, hapart⟩ := List.pairwise_cons.mp hapart
    rw [List.mapM_cons] at h
    obtain ⟨result, t₁, hfirst, h⟩ := Tree.run_bind_ok h
    obtain ⟨others, t₂, hothers, h⟩ := Tree.run_bind_ok h
    obtain ⟨rfl, rfl⟩ := Tree.run_pure_ok h
    obtain ⟨-, names, -, -, hnames, -, -⟩ := run_instrumentAt_ok hout hf hfirst
    have hstands := text?_of_instrumentAt hout hf hfirst
    exact .cons (text?_mapM_of_apart hout hnames hplaced hfApart hothers hstands)
      (ih hplaced hapart hothers)

end

/-! ### Runs -/

section
variable {t t' : Tree} {parser : ModuleParser} {callee : String} {a : InstrumentArguments}
  {files : List ScriptFile}

/-- A run with a collision fails with it, or because of its callee, and leaves the tree as it was. -/
theorem run_runInstrument_refused (hout : a.outDir.isSome) (hfiles : t.scripts a = .ok files)
    {e : Error} (hcollision : ScriptFile.checkCollisions files = .error e) :
    t.run (runInstrument parser callee a) =
      (match Instrument.callee? callee with
        | .ok _ => .error e
        | .error cause => .error (.instrument cause), t) := by
  rw [run_runInstrument, hfiles]
  cases Instrument.callee? callee with
  | error cause => rfl
  | ok c =>
    dsimp only
    unfold instrumentSelected
    rw [if_pos hout]
    apply Tree.run_bind_of_error
    rw [hcollision]
    exact Tree.run_ofExcept t (.error e)

theorem run_runInstrument_ok (hout : a.outDir.isSome) (hfiles : t.scripts a = .ok files)
    {summary : Totals × List Char} (h : t.run (runInstrument parser callee a) = (.ok summary, t')) :
    ScriptFile.checkCollisions files = .ok () ∧
      ∃ results, t.run (instrumentFiles parser callee a files) = (.ok results, t') ∧
        summary.1 = .ofResults results := by
  cases hcheck : ScriptFile.checkCollisions files with
  | error e =>
    rw [run_runInstrument_refused hout hfiles hcheck] at h
    cases hcallee : Instrument.callee? callee with
    | error cause => rw [hcallee] at h; cases h
    | ok c => rw [hcallee] at h; cases h
  | ok u =>
    refine ⟨rfl, ?_⟩
    rw [run_runInstrument, hfiles] at h
    split at h
    next => cases h
    next hfiles' => cases hfiles'
    next _ _ hcallee hfiles' =>
      obtain rfl := Except.ok.inj hfiles'
      unfold instrumentSelected at h
      rw [if_pos hout, hcheck] at h
      obtain ⟨_, t₁, hunit, h⟩ := Tree.run_bind_ok h
      obtain rfl := (Prod.mk.inj hunit).2
      obtain ⟨results, t₂, hresults, h⟩ := Tree.run_bind_ok h
      obtain ⟨rfl, rfl⟩ := Tree.run_pure_ok h
      exact ⟨results, hresults, rfl⟩

end

/-- A run with an output directory goes on exactly if the paths of its scripts below it are different.
Otherwise it names the first script whose path one before it has, and that one, and leaves the tree as
it was. A run that succeeds leaves the result of every script where it was to be written: none is
overwritten by another. -/
theorem collisions_refused (parser : ModuleParser) (files : List ScriptFile) :
    (ScriptFile.checkCollisions files = .ok () ↔
      files.Pairwise fun f g => ¬ Path.same f.relative g.relative) ∧
    (∀ e, ScriptFile.checkCollisions files = .error e ↔
      ∃ before first second after, files = before ++ second :: after ∧
        (before.Pairwise fun f g => ¬ Path.same f.relative g.relative) ∧ first ∈ before ∧
        Path.same first.relative second.relative ∧
        e = .collision second.relative first.path second.path) ∧
    ∀ (t : Tree) (callee : String) (a : InstrumentArguments) (directory : String),
      a.outDir = some directory → t.scripts a = .ok files →
      (∀ e, ScriptFile.checkCollisions files = .error e →
        t.run (runInstrument parser callee a) =
          (match Instrument.callee? callee with
            | .ok _ => .error e
            | .error cause => .error (.instrument cause), t)) ∧
      (t.Named → ∀ summary t', t.run (runInstrument parser callee a) = (.ok summary, t') →
        ∃ results, t.run (instrumentFiles parser callee a files) = (.ok results, t') ∧
          summary.1 = .ofResults results ∧
          List.Forall₂ (fun f r =>
            t'.text? (Path.join directory f.relative) = some (String.ofList r.code))
            files results) := by
  refine ⟨ScriptFile.checkCollisions_eq_ok_iff files,
    ScriptFile.checkCollisions_eq_error_iff files, ?_⟩
  intro t callee a directory hout hfiles
  have hsome : a.outDir.isSome := by rw [hout]; rfl
  constructor
  · intro e hcollision
    exact run_runInstrument_refused hsome hfiles hcollision
  · intro hnamed summary t' hrun
    obtain ⟨hcheck, results, hresults, hsummary⟩ := run_runInstrument_ok hsome hfiles hrun
    have hapart := (ScriptFile.checkCollisions_eq_ok_iff files).mp hcheck
    refine ⟨results, hresults, hsummary, ?_⟩
    rw [instrumentFiles_eq] at hresults
    exact stand_of_mapM hout (hnamed.placed hfiles) hapart hresults

/-- Three scripts, two of which have one name. -/
def sameNames : Tree :=
  ⟨[(["a", "u.js"], "x;\n".toUTF8), (["b", "u.js"], "y;\n".toUTF8),
    (["c", "v.js"], "z;\n".toUTF8)], [], .empty⟩

theorem collisions_refused_sameNames :
    sameNames.run
        (runInstrument Grammar.parser "t.assert" ⟨["a/u.js", "b"], some "out", false, none, []⟩) =
        (.error (.collision "u.js" "a/u.js" "b/u.js"), sameNames) ∧
      ∃ t',
        sameNames.run
            (runInstrument Grammar.parser "t.assert" ⟨["a", "c/v.js"], some "out", false, none, []⟩) =
          (.ok (⟨2, 0, 0⟩, []), t') ∧
        t'.text? "out/u.js" = some "x;\n" ∧ t'.text? "out/v.js" = some "z;\n" := by
  constructor
  · have hfiles : sameNames.scripts ⟨["a/u.js", "b"], some "out", false, none, []⟩ =
        .ok [⟨"a/u.js", "u.js"⟩, ⟨"b/u.js", "u.js"⟩] := eq_ok_of_toOption (by decide +kernel)
    exact ((collisions_refused Grammar.parser _).2.2 _ "t.assert" _ "out" rfl hfiles).1 _ rfl
  · have hfiles : sameNames.scripts ⟨["a", "c/v.js"], some "out", false, none, []⟩ =
        .ok [⟨"a/u.js", "u.js"⟩, ⟨"c/v.js", "v.js"⟩] := eq_ok_of_toOption (by decide +kernel)
    have hnamed : sameNames.Named := by
      unfold Tree.Named Path.IsName
      decide
    have hrun : sameNames.run (runInstrument Grammar.parser "t.assert"
        ⟨["a", "c/v.js"], some "out", false, none, []⟩) = (.ok (⟨2, 0, 0⟩, []), _) :=
      Prod.ext (eq_ok_of_toOption (by decide +kernel)) rfl
    have hfirst : (sameNames.run (instrumentFiles Grammar.parser "t.assert"
        ⟨["a", "c/v.js"], some "out", false, none, []⟩
        [⟨"a/u.js", "u.js"⟩, ⟨"c/v.js", "v.js"⟩])).1 =
          .ok [⟨"a/u.js", "x;\n".toList, 0⟩, ⟨"c/v.js", "z;\n".toList, 0⟩] :=
      eq_ok_of_toOption (by decide +kernel)
    obtain ⟨results, hresults, -, hstand⟩ :=
      ((collisions_refused Grammar.parser _).2.2 _ "t.assert" _ "out" rfl hfiles).2 hnamed _ _ hrun
    obtain rfl := Except.ok.inj (hfirst.symm.trans (congrArg Prod.fst hresults))
    obtain ⟨hu, hrest⟩ := List.forall₂_cons.mp hstand
    obtain ⟨hv, -⟩ := List.forall₂_cons.mp hrest
    rw [show Path.join "out" "u.js" = "out/u.js" by decide +kernel, String.ofList_toList] at hu
    rw [show Path.join "out" "v.js" = "out/v.js" by decide +kernel, String.ofList_toList] at hv
    exact ⟨_, hrun, hu, hv⟩

end Command

end Assay
