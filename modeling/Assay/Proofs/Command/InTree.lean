import Assay.Command.InstrumentRun
import Assay.Files.Tree

/-!
# Commands in a tree

What a command answers in a tree, and the tree that it leaves. Selecting the scripts of a run and
reading them change nothing: `run_runInstrument` says what is left to do after the selection, and
`run_instrumentFile` what is made of one script.
-/

namespace Assay

namespace Tree

open Command

variable {α β : Type}

/-- The answer of a command in a tree, and the tree that it leaves. -/
def run (t : Tree) (command : ExceptT Error (StateM Tree) α) : Except Error α × Tree :=
  StateT.run command.run t

theorem run_pure_ok {t t' : Tree} {x y : α}
    (h : t.run (pure x : ExceptT Error (StateM Tree) α) = (.ok y, t')) : x = y ∧ t = t' :=
  ⟨Except.ok.inj (Prod.mk.inj h).1, (Prod.mk.inj h).2⟩

theorem run_ofExcept (t : Tree) (answer : Except Error α) :
    t.run (liftM answer : ExceptT Error (StateM Tree) α) = (answer, t) := rfl

theorem run_ofState (t : Tree) (x : StateM Tree α) :
    t.run (liftM x : ExceptT Error (StateM Tree) α) = (.ok (StateT.run x t).1, (StateT.run x t).2) :=
  rfl

theorem run_bind (t : Tree) (x : ExceptT Error (StateM Tree) α)
    (f : α → ExceptT Error (StateM Tree) β) :
    t.run (x >>= f) =
      match t.run x with
      | (.ok a, t') => t'.run (f a)
      | (.error e, t') => (.error e, t') := by
  cases h : t.run x with
  | mk answer t' =>
    unfold run at h
    rw [run, ExceptT.run_bind, StateT.run_bind, h]
    cases answer <;> rfl

theorem run_bind_of_ok {t t' : Tree} {x : ExceptT Error (StateM Tree) α} {a : α}
    (h : t.run x = (.ok a, t')) (f : α → ExceptT Error (StateM Tree) β) :
    t.run (x >>= f) = t'.run (f a) := by
  rw [run_bind, h]

theorem run_bind_of_error {t t' : Tree} {x : ExceptT Error (StateM Tree) α} {e : Error}
    (h : t.run x = (.error e, t')) (f : α → ExceptT Error (StateM Tree) β) :
    t.run (x >>= f) = (.error e, t') := by
  rw [run_bind, h]

theorem run_bind_ok {t t' : Tree} {x : ExceptT Error (StateM Tree) α}
    {f : α → ExceptT Error (StateM Tree) β} {b : β} (h : t.run (x >>= f) = (.ok b, t')) :
    ∃ a t₁, t.run x = (.ok a, t₁) ∧ t₁.run (f a) = (.ok b, t') := by
  rw [run_bind] at h
  split at h
  next a t₁ hx => exact ⟨a, t₁, hx, h⟩
  next => cases h

/-- Commands that leave the tree as it is, one after the other. -/
theorem run_mapM {t : Tree} {f : α → ExceptT Error (StateM Tree) β} {g : α → β} {xs : List α}
    (h : ∀ x ∈ xs, t.run (f x) = (.ok (g x), t)) : t.run (xs.mapM f) = (.ok (xs.map g), t) := by
  induction xs with
  | nil => rfl
  | cons x xs ih =>
    obtain ⟨hx, hxs⟩ := List.forall_mem_cons.mp h
    rw [List.mapM_cons, run_bind_of_ok hx, run_bind_of_ok (ih hxs)]
    rfl

/-! ### Selecting scripts -/

/-- The scripts that a path stands for. -/
def scriptsAt (t : Tree) (ignored : List Glob) (path : String) : List ScriptFile :=
  if t.isDirectory path then ScriptFile.ofDirectory ignored path (t.filesBelow path)
  else [.ofPath path]

/-- The scripts that a run instruments. -/
def scripts (t : Tree) (a : InstrumentArguments) : Except Error (List ScriptFile) :=
  (ScriptFile.ignoredGlobs a.ignore).map fun ignored => a.paths.flatMap (t.scriptsAt ignored)

theorem select_apply (t : Tree) (ignored : List Glob) (path : String) :
    StateT.run (ScriptFile.select ignored path : StateM Tree _) t = (t.scriptsAt ignored path, t) := by
  change (if t.isDirectory path then _ else _ : StateM Tree _) t = _
  unfold scriptsAt
  split
  · rfl
  · rfl

theorem selectAll_apply (t : Tree) (ignored : List Glob) (paths : List String) :
    StateT.run (ScriptFile.selectAll ignored paths : StateM Tree _) t =
      (paths.flatMap (t.scriptsAt ignored), t) := by
  have hmapM : StateT.run (paths.mapM (ScriptFile.select ignored) : StateM Tree _) t =
      (paths.map (t.scriptsAt ignored), t) := by
    induction paths with
    | nil => rfl
    | cons path paths ih =>
      rw [List.mapM_cons, StateT.run_bind, select_apply]
      change (StateT.run (paths.mapM (ScriptFile.select ignored) >>= _ : StateM Tree _) t) = _
      rw [StateT.run_bind, ih]
      rfl
  rw [ScriptFile.selectAll, StateT.run_bind, hmapM]
  rfl

end Tree

namespace Command

/-- What is left to do of a run that has selected its scripts. -/
def instrumentSelected (parser : ModuleParser) (callee : String) (a : InstrumentArguments)
    (files : List ScriptFile) : ExceptT Error (StateM Tree) (Totals × List Char) := do
  if a.outDir.isSome then ScriptFile.checkCollisions files
  let results ← instrumentFiles parser callee a files
  return (.ofResults results, if a.outDir.isSome then [] else printedResults results)

theorem callee?_ok {callee c : String} (h : Instrument.callee? callee = .ok c) : c = callee := by
  unfold Instrument.callee? at h
  split at h
  · cases h
  · exact (Except.ok.inj h).symm

theorem run_runInstrument (t : Tree) (parser : ModuleParser) (callee : String)
    (a : InstrumentArguments) :
    t.run (runInstrument parser callee a) =
      match Instrument.callee? callee, t.scripts a with
      | .error e, _ => (.error (.instrument e), t)
      | .ok _, .error e => (.error e, t)
      | .ok _, .ok files => t.run (instrumentSelected parser callee a files) := by
  unfold runInstrument
  cases hcallee : Instrument.callee? callee with
  | error e => rfl
  | ok c =>
    obtain rfl := callee?_ok hcallee
    rw [Tree.scripts]
    cases hglobs : ScriptFile.ignoredGlobs a.ignore with
    | error e => rfl
    | ok ignored =>
      have hselect := Tree.run_ofState t (ScriptFile.selectAll ignored a.paths)
      rw [Tree.selectAll_apply] at hselect
      apply (Tree.run_bind_of_ok (Tree.run_ofExcept t (.ok c)) _).trans
      apply (Tree.run_bind_of_ok (Tree.run_ofExcept t (.ok ignored)) _).trans
      apply (Tree.run_bind_of_ok hselect _).trans
      rfl

theorem eq_ok_of_toOption {α ε : Type} {answer : Except ε α} {x : α}
    (h : answer.toOption = some x) : answer = .ok x := by
  cases answer with
  | error e => cases h
  | ok y => rw [Option.some.inj h]

/-! ### One script -/

/-- What is made of a script as it stands in a tree. -/
def InstrumentResult.ofFile (t : Tree) (parser : ModuleParser) (callee : String) (inlineMap : Bool)
    (file : ScriptFile) : Except Error InstrumentResult :=
  match t.text? file.path with
  | none => .error (.unreadable file.path)
  | some source =>
    (InstrumentResult.ofSource parser callee inlineMap file.path source).mapError Error.instrument

theorem run_instrumentFile (t : Tree) (parser : ModuleParser) (callee : String) (inlineMap : Bool)
    (file : ScriptFile) :
    t.run (instrumentFile parser callee inlineMap file) =
      (InstrumentResult.ofFile t parser callee inlineMap file, t) := by
  apply (Tree.run_bind_of_ok (Tree.run_ofState t (Workspace.readText file.path)) _).trans
  unfold InstrumentResult.ofFile
  change t.run (match t.text? file.path with | none => _ | some source => _) = _
  cases t.text? file.path with
  | none => rfl
  | some source => rfl

end Command

end Assay
