import Assay.Proofs.Codec.Quantity
import Assay.SourceMap.Mappings
import Assay.Text.Units

/-!
# Segments of a mappings text

Semicolons cut a mappings text into lines and commas cut a line into segments; an empty one is none.
`segmentsFrom_semicolon`, `segmentsFrom_comma` and `segmentsFrom_text` follow this cutting along the
text from left to right.
-/

namespace Assay.Mappings

/-- Texts with the bytes they start at, `gap` bytes between two. -/
def placeFrom (gap start : Nat) : List (List Char) → List (Nat × List Char)
  | [] => []
  | text :: r => (start, text) :: placeFrom gap (start + Text.bytes text + gap) r

/-- A segment with its generated line and the byte it starts at. -/
structure Segment where
  line : Nat
  start : Nat
  text : List Char
  deriving DecidableEq, Repr

def segmentsOfLine (line start : Nat) (text : List Char) : List Segment :=
  ((placeFrom 1 start (text.splitOn ',')).map fun (start, text) => ⟨line, start, text⟩).filter
    (·.text ≠ [])

def segmentsOfLines (line start : Nat) (texts : List (List Char)) : List Segment :=
  ((placeFrom 1 start texts).zipIdx line).flatMap fun ((start, text), line) =>
    segmentsOfLine line start text

/-- The segments of a text that starts at a byte and in a line. -/
def segmentsFrom (line start : Nat) (s : List Char) : List Segment :=
  segmentsOfLines line start (s.splitOn ';')

def segments (s : List Char) : List Segment := segmentsFrom 1 0 s

/-! ### A line -/

theorem segmentsOfLine_nil (line start : Nat) : segmentsOfLine line start [] = [] := rfl

theorem segmentsOfLine_comma (line start : Nat) (r : List Char) :
    segmentsOfLine line start (',' :: r) = segmentsOfLine line (start + 1) r := by
  have hsplit : (',' :: r).splitOn ',' = [] :: r.splitOn ',' :=
    List.splitOn_append_cons_self_of_not_mem List.not_mem_nil r
  rw [segmentsOfLine, hsplit]
  rfl

/-- A text without commas is one segment if a comma or the end of the line follows. -/
theorem segmentsOfLine_text (line start : Nat) {text : List Char} (hne : text ≠ [])
    (hcomma : ',' ∉ text) {r : List Char} (hr : ∀ c ∈ r.head?, c = ',') :
    segmentsOfLine line start (text ++ r) =
      ⟨line, start, text⟩ :: segmentsOfLine line (start + Text.bytes text) r := by
  cases r with
  | nil =>
    rw [List.append_nil, segmentsOfLine, List.splitOn_eq_singleton hcomma]
    simp [placeFrom, hne, segmentsOfLine_nil]
  | cons c r =>
    obtain rfl := hr c rfl
    rw [segmentsOfLine_comma, segmentsOfLine, List.splitOn_append_cons_self_of_not_mem hcomma]
    simp [placeFrom, hne, segmentsOfLine]

/-! ### Lines -/

theorem segmentsOfLines_cons (line start : Nat) (text : List Char) (texts : List (List Char)) :
    segmentsOfLines line start (text :: texts) =
      segmentsOfLine line start text ++
        segmentsOfLines (line + 1) (start + Text.bytes text + 1) texts := by
  rw [segmentsOfLines, placeFrom, List.zipIdx_cons, List.flatMap_cons]
  rfl

theorem segmentsFrom_semicolon (line start : Nat) (r : List Char) :
    segmentsFrom line start (';' :: r) = segmentsFrom (line + 1) (start + 1) r := by
  have hsplit : (';' :: r).splitOn ';' = [] :: r.splitOn ';' :=
    List.splitOn_append_cons_self_of_not_mem List.not_mem_nil r
  rw [segmentsFrom, hsplit, segmentsOfLines_cons, segmentsOfLine_nil]
  rfl

/-- A text without separators that stands in front goes to the first part. -/
theorem splitOn_append_of_not_mem {sep : Char} {front : List Char} (hfront : sep ∉ front)
    {r first : List Char} {others : List (List Char)} (h : r.splitOn sep = first :: others) :
    (front ++ r).splitOn sep = (front ++ first) :: others := by
  induction front with
  | nil => exact h
  | cons c front ih =>
    obtain ⟨hc, hfront⟩ := List.ne_and_not_mem_of_not_mem_cons hfront
    rw [List.cons_append, List.splitOn_cons_eq_if_modifyHead, if_neg (by simpa using hc.symm),
      ih hfront]
    rfl

theorem head?_of_splitOn {sep : Char} {s first : List Char} {others : List (List Char)}
    (h : s.splitOn sep = first :: others) : ∀ c ∈ first.head?, c ∈ s.head? ∧ c ≠ sep := by
  intro c hc
  cases s with
  | nil =>
    rw [List.splitOn_nil] at h
    obtain ⟨rfl, -⟩ := List.cons.inj h
    cases hc
  | cons d s =>
    rw [List.splitOn_cons_eq_if_modifyHead] at h
    split at h
    next =>
      obtain ⟨rfl, -⟩ := List.cons.inj h
      cases hc
    next hd =>
      obtain ⟨front, fronts, hfront⟩ := List.exists_cons_of_ne_nil (List.splitOn_ne_nil sep s)
      rw [hfront, List.modifyHead_cons] at h
      obtain ⟨rfl, -⟩ := List.cons.inj h
      obtain rfl := Option.some.inj hc
      exact ⟨rfl, by simpa using hd⟩

/-- So what follows a text without semicolons is cut as it is alone, from its byte on. -/
theorem exists_firstLine (line start : Nat) {front : List Char} (hfront : ';' ∉ front)
    (r : List Char) :
    ∃ first later, (∀ c ∈ first.head?, c ∈ r.head? ∧ c ≠ ';') ∧
      segmentsFrom line (start + Text.bytes front) r =
        segmentsOfLine line (start + Text.bytes front) first ++ later ∧
      segmentsFrom line start (front ++ r) =
        segmentsOfLine line start (front ++ first) ++ later := by
  obtain ⟨first, others, h⟩ := List.exists_cons_of_ne_nil (List.splitOn_ne_nil ';' r)
  refine ⟨first,
    segmentsOfLines (line + 1) (start + Text.bytes front + Text.bytes first + 1) others,
    head?_of_splitOn h, ?_, ?_⟩
  · rw [segmentsFrom, h, segmentsOfLines_cons]
  · rw [segmentsFrom, splitOn_append_of_not_mem hfront h, segmentsOfLines_cons, Text.bytes_append,
      ← Nat.add_assoc start]

theorem segmentsFrom_comma (line start : Nat) (r : List Char) :
    segmentsFrom line start (',' :: r) = segmentsFrom line (start + 1) r := by
  obtain ⟨first, later, -, hr, hcons⟩ :=
    @exists_firstLine line start [','] (by decide) r
  rw [← List.singleton_append, hcons, List.singleton_append, segmentsOfLine_comma]
  exact hr.symm

theorem segmentsFrom_text (line start : Nat) {text : List Char} (hne : text ≠ [])
    (htext : ∀ c ∈ text, c ≠ ',' ∧ c ≠ ';') {r : List Char} (hr : atBreak r) :
    segmentsFrom line start (text ++ r) =
      ⟨line, start, text⟩ :: segmentsFrom line (start + Text.bytes text) r := by
  obtain ⟨first, later, hfirst, hlater, happend⟩ :=
    exists_firstLine line start (fun hmem => (htext _ hmem).2 rfl) r
  have hcomma : ∀ c ∈ first.head?, c = ',' := by
    intro c hc
    obtain ⟨hhead, hsemicolon⟩ := hfirst c hc
    obtain ⟨r, rfl⟩ := List.head?_eq_some_iff.mp hhead
    simpa [atBreak, hsemicolon] using hr
  rw [happend, hlater, segmentsOfLine_text line start hne (fun hmem => (htext _ hmem).1 rfl) hcomma]
  rfl

end Assay.Mappings
