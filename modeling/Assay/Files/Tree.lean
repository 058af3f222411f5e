import Assay.Files.Path

/-!
# File trees

A workspace in memory. Its paths are relative to the top of the tree; one that is absolute or leads
above the top leads nowhere. `contents_put` says what a write changes.
-/

namespace Assay

/-- The place of a file or a directory, as the names that lead to it from the top. -/
abbrev Place := List String

structure Tree where
  files : List (Place × ByteArray)
  /-- Directories that hold nothing, and perhaps others. -/
  directories : List Place
  input : ByteArray

namespace Tree

def empty : Tree := ⟨[], [], .empty⟩

def contents? (t : Tree) (place : Place) : Option ByteArray :=
  (t.files.find? (·.1 = place)).map (·.2)

def isBelow (top place : Place) : Bool := top.isPrefixOf place && place ≠ top

def isDirectoryAt (t : Tree) (place : Place) : Bool :=
  place.isEmpty || t.directories.contains place || t.files.any (fun (file, _) => isBelow place file)

def put (t : Tree) (place : Place) (contents : ByteArray) : Tree :=
  { t with files := (place, contents) :: t.files.filter (·.1 ≠ place) }

theorem contents_put (t : Tree) (place other : Place) (contents : ByteArray) :
    (t.put place contents).contents? other =
      if place = other then some contents else t.contents? other := by
  unfold contents? put
  by_cases h : place = other
  · simp [h]
  · rw [List.find?_cons_of_neg (by simpa using h), if_neg h]
    induction t.files with
    | nil => rfl
    | cons file files ih =>
      obtain ⟨key, bytes⟩ := file
      by_cases hf : key = place
      · rw [List.filter_cons_of_neg (by simp [hf]), List.find?_cons_of_neg (by simpa [hf] using h)]
        exact ih
      · rw [List.filter_cons_of_pos (by simp [hf])]
        by_cases ho : key = other
        · simp [ho]
        · rw [List.find?_cons_of_neg (by simpa using ho), List.find?_cons_of_neg (by simpa using ho)]
          exact ih

def step? (t : Tree) (place : Place) (segment : List Char) : Option Place :=
  if t.isDirectoryAt place then
    match Path.component? segment with
    | none => some place
    | some .up => if place.isEmpty then none else some place.dropLast
    | some (.name text) => some (place ++ [String.ofList text])
    | some _ => none
  else none

def segments? (path : String) : Option (List (List Char)) :=
  if path.isEmpty || path.startsWith "/" then none else some (Path.segments path.toList)

/-- Where a path leads. All but the last place on the way are directories; there may be nothing at
the last. -/
def place? (t : Tree) (path : String) : Option Place := do
  (← segments? path).foldlM t.step? []

def isDirectory (t : Tree) (path : String) : Bool := (t.place? path).any t.isDirectoryAt

def text? (t : Tree) (path : String) : Option String := do
  String.fromUTF8? (← t.contents? (← t.place? path))

def filesBelow (t : Tree) (path : String) : List (List String) :=
  match t.place? path with
  | none => []
  | some place => t.files.filterMap fun (file, _) =>
      if isBelow place file then some (file.drop place.length) else none

def makeStep? (reached : Tree × Place) (segment : List Char) : Option (Tree × Place) := do
  let (t, place) := reached
  let next ← t.step? place segment
  if t.isDirectoryAt next then some (t, next)
  else if (t.contents? next).isSome then none
  else some ({ t with directories := next :: t.directories }, next)

/-- The tree with a directory and those above it, unless a file is in the way. An empty path is the
top. -/
def makeDirectories? (t : Tree) (path : String) : Option Tree :=
  if path.isEmpty then some t
  else do
    let (t, _) ← (← segments? path).foldlM makeStep? (t, [])
    some t

/-- The tree with a text in a file, unless the file is a directory or is in none. -/
def writeText? (t : Tree) (path text : String) : Option Tree := do
  let place ← t.place? path
  if t.isDirectoryAt place then none else some (t.put place text.toUTF8)

def change (f : Tree → Option Tree) : StateM Tree Bool := fun t =>
  match f t with
  | some changed => (true, changed)
  | none => (false, t)

instance : Workspace (StateM Tree) where
  isPresent path := do
    let t ← get
    return t.isDirectory path || ((t.place? path).bind t.contents?).isSome
  isDirectory path := return (← get).isDirectory path
  readText path := return (← get).text? path
  filesBelow path := return (← get).filesBelow path
  makeDirectories path := change (·.makeDirectories? path)
  writeText path text := change (·.writeText? path text)
  readInput := return String.fromUTF8? (← get).input

end Tree

end Assay
