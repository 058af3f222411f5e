/-!
# Paths

A path is a text of segments with slashes between. `components` leaves out the segments that lead
nowhere, so that two spellings with the same components are the same path. A `Workspace` is what a
command may ask of the files at such paths; they are meant as the command was given them, and a
request that fails says so in its answer.
-/

namespace Assay

namespace Path

/-- The segments between the slashes, one more than there are slashes. -/
def segments : List Char → List (List Char)
  | [] => [[]]
  | c :: r =>
    if c = '/' then [] :: segments r
    else match segments r with
      | [] => [[c]]
      | s :: rest => (c :: s) :: rest

theorem slash_not_mem_segments (s : List Char) : ∀ part ∈ segments s, '/' ∉ part := by
  induction s with
  | nil => simp [segments]
  | cons c r ih =>
    unfold segments
    split
    next => simpa using ih
    next h =>
      split
      next => simpa using Ne.symm h
      next l ls hl =>
        intro part hp
        rcases List.mem_cons.mp hp with rfl | hp
        · simp only [List.mem_cons, not_or]
          exact ⟨Ne.symm h, ih l (by simp [hl])⟩
        · exact ih part (by simp [hl, hp])

inductive Component where
  | root
  | here
  | up
  | name (text : List Char)
  deriving DecidableEq, Repr

/-- A segment behind the front of a path; an empty one and a dot lead nowhere. -/
def component? : List Char → Option Component
  | [] | ['.'] => none
  | ['.', '.'] => some .up
  | text => some (.name text)

def components (path : String) : List Component :=
  match path.toList, segments path.toList with
  | '/' :: _, parts => .root :: parts.filterMap component?
  | _, ['.'] :: parts => .here :: parts.filterMap component?
  | _, parts => parts.filterMap component?

def same (a b : String) : Bool := components a = components b

def fileName? (path : String) : Option String :=
  match (components path).getLast? with
  | some (.name text) => some (String.ofList text)
  | _ => none

/-- The part of a name after its last dot; a dot in the first place starts no extension. -/
def extension? (name : String) : Option String :=
  let after := name.toList.reverse.takeWhile (· ≠ '.')
  match name.toList.reverse.drop after.length with
  | _ :: _ :: _ => some (String.ofList after.reverse)
  | _ => none

def join (path rest : String) : String :=
  if path.isEmpty || path.endsWith "/" then path ++ rest else path ++ "/" ++ rest

def ofNames (names : List String) : String := "/".intercalate names

/-- Drops, from a path spelled backwards, what leads nowhere at its end. -/
def dropIdle : List Char → List Char
  | ['/'] => ['/']
  | '/' :: r => dropIdle r
  | ['.', '/'] => ['/']
  | '.' :: '/' :: r => dropIdle ('/' :: r)
  | s => s

/-- The path of the directory that a file is in, empty for a single name. -/
def parent (path : String) : String :=
  let inner := (dropIdle path.toList.reverse).dropWhile (· ≠ '/')
  String.ofList (dropIdle inner).reverse

end Path

class Workspace (m : Type → Type) where
  isPresent (path : String) : m Bool
  isDirectory (path : String) : m Bool
  /-- The text of a file, if there is one and it is UTF-8. -/
  readText (path : String) : m (Option String)
  /-- All files below a directory, each as the names that lead to it. -/
  filesBelow (path : String) : m (List (List String))
  /-- Makes a directory and those above it; `false` if that is not possible. -/
  makeDirectories (path : String) : m Bool
  writeText (path : String) (text : String) : m Bool
  readInput : m (Option String)

end Assay
