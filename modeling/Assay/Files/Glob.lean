/-!
# Glob patterns

A glob is a pattern for the bytes of a whole path. `?` stands for one byte and `*` for any number
of them, slashes included. `Glob.rests` finds what a glob can leave over of a text.
-/

namespace Assay

/-- A set of bytes given by ranges, or all bytes outside of them. -/
structure ByteClass where
  negated : Bool
  ranges : List (UInt8 × UInt8)
  deriving DecidableEq, Repr

def ByteClass.contains (c : ByteClass) (b : UInt8) : Bool :=
  c.ranges.any (fun (lo, hi) => lo ≤ b && b ≤ hi) != c.negated

inductive Glob where
  | empty
  | one (bytes : ByteClass)
  | many
  | seq (first second : Glob)
  | either (left right : Glob)
  deriving DecidableEq, Repr

namespace Glob

/-- The ends of a text, the text itself first. -/
def ends : List α → List (List α)
  | [] => [[]]
  | a :: r => (a :: r) :: ends r

/-- What can be left of a text after a front that the glob matches. -/
def rests : Glob → List UInt8 → List (List UInt8)
  | empty, s => [s]
  | one _, [] => []
  | one bytes, b :: s => if bytes.contains b then [s] else []
  | many, s => ends s
  | seq first second, s => ((rests first s).flatMap (rests second)).eraseDups
  | either left right, s => (rests left s ++ rests right s).eraseDups

def isMatch (g : Glob) (path : String) : Bool :=
  (g.rests (path.toList.flatMap String.utf8EncodeChar)).any List.isEmpty

def byte (b : UInt8) : Glob := one ⟨false, [(b, b)]⟩

def char (c : Char) : Glob := (String.utf8EncodeChar c).foldr (fun b g => seq (byte b) g) empty

def slash : Glob := char '/'

def anyByte : Glob := one ⟨true, []⟩

def ofAlternatives : List Glob → Glob
  | [] => empty
  | [g] => g
  | g :: rest => either g (ofAlternatives rest)

inductive Part where
  /-- Two stars and a slash at the front: nothing, or anything up to a slash. -/
  | leading
  /-- A slash and two stars at the end: a slash and anything. -/
  | trailing
  /-- Two stars between slashes: one slash, or anything between two. -/
  | between
  | plain (glob : Glob)
  | group (alternatives : List Glob)

def Part.glob? : Part → Option Glob
  | leading => some (either empty (either slash (seq many slash)))
  | trailing => some (seq slash many)
  | between => some (either slash (seq slash (seq many slash)))
  | plain glob => some glob
  | group [] => none
  | group (g :: rest) => some (ofAlternatives (g :: rest))

def seqAll : List Glob → Glob
  | [] => empty
  | [g] => g
  | g :: rest => seq g (seqAll rest)

def ofParts? (parts : List Part) : Option Glob :=
  match parts.filterMap Part.glob? with
  | [] => none
  | g :: rest => some (seqAll (g :: rest))

/-- Reads the items of a class up to its closing bracket, last item first. A bracket or a dash in
the first place stands for itself, and so does a dash in the last. -/
def classItems (first inRange : Bool) (items : List (Char × Char)) :
    List Char → Option (List (Char × Char) × List Char)
  | [] => none
  | c :: r =>
    if c = ']' ∧ !first then some (if inRange then ('-', '-') :: items else items, r)
    else if c = '-' ∧ !first ∧ !inRange then classItems false true items r
    else
      match inRange, items with
      | true, (lo, _) :: items =>
        if c < lo then none else classItems false false ((lo, c) :: items) r
      | _, _ => classItems false false ((c, c) :: items) r

theorem classItems_length {first inRange : Bool} {items out : List (Char × Char)}
    {s r : List Char} (h : classItems first inRange items s = some (out, r)) :
    r.length < s.length := by
  fun_induction classItems first inRange items s with
  | case1 => simp at h
  | case2 => simp_all
  | case3 _ _ _ _ _ _ _ ih => exact Nat.lt_succ_of_lt (ih h)
  | case4 => simp at h
  | case5 _ _ _ _ _ _ _ _ _ ih => exact Nat.lt_succ_of_lt (ih h)
  | case6 _ _ _ _ _ _ _ _ ih => exact Nat.lt_succ_of_lt (ih h)

/-- The ranges of bytes that an item of a class stands for. A character of several bytes adds each
of them; a range joins the last byte of its start to the first byte of its end. -/
def itemRanges : Char × Char → List (UInt8 × UInt8)
  | (lo, hi) =>
    let single (b : UInt8) := (b, b)
    let first := String.utf8EncodeChar lo
    let last := String.utf8EncodeChar hi
    if lo = hi then first.map single
    else
      first.dropLast.map single ++ (first.getLast?.toList.zip last.head?.toList) ++
        last.tail.map single

def class? (s : List Char) : Option (ByteClass × List Char) :=
  match s with
  | '!' :: r | '^' :: r =>
    (classItems true false [] r).map fun (items, rest) => (⟨true, items.flatMap itemRanges⟩, rest)
  | r =>
    (classItems true false [] r).map fun (items, rest) => (⟨false, items.flatMap itemRanges⟩, rest)

theorem class?_length {s r : List Char} {bytes : ByteClass} (h : class? s = some (bytes, r)) :
    r.length < s.length := by
  unfold class? at h
  split at h
  all_goals
    obtain ⟨⟨items, rest⟩, hi, he⟩ := Option.map_eq_some_iff.1 h
    obtain ⟨-, rfl⟩ := Prod.mk.injEq .. ▸ he
    have := classItems_length hi
    simp only [List.length_cons] at *
    omega

structure Reading where
  /-- The parts of the branch being read, last first. -/
  branch : List Part
  /-- The alternatives read of the innermost open group, last first. -/
  alternatives : List Glob
  /-- The branches and alternatives around each open group, innermost first. -/
  outer : List (List Part × List Glob)
  last : Option Char

namespace Reading

def start : Reading := ⟨[], [], [], none⟩

def inGroup (r : Reading) : Bool := !r.outer.isEmpty

def push (r : Reading) (last : Char) (part : Part) : Reading :=
  { r with branch := part :: r.branch, last := some last }

/-- The alternatives with the branch being read; a branch that matches nothing at all is left out. -/
def closed (r : Reading) : List Glob := (ofParts? r.branch.reverse).toList ++ r.alternatives

def openGroup (r : Reading) : Reading :=
  ⟨[], [], (r.branch, r.alternatives) :: r.outer, some '\x7b'⟩

/-- A comma separates alternatives in a group and is plain outside. -/
def comma (r : Reading) : Reading :=
  if r.inGroup then ⟨[], r.closed, r.outer, some ','⟩ else r.push ',' (.plain (char ','))

def closeGroup? (r : Reading) : Option Reading :=
  match r.outer with
  | [] => none
  | (branch, alternatives) :: outer =>
    some ⟨.group r.closed.reverse :: branch, alternatives, outer, some '\x7d'⟩

/-- Two stars with no special place are the same as one. -/
def stars (r : Reading) : Reading := r.push '*' (.plain many)

def atBoundary (r : Reading) : Bool :=
  r.last = some '/' || (r.inGroup && (r.last = some ',' || r.last = some '\x7b'))

/-- Two stars in the place of the part before them, which was a slash or another two stars. -/
def cross (r : Reading) (last : Char) (part : Part) : Reading :=
  match r.branch with
  | .leading :: _ | .trailing :: _ => { r with last := some last }
  | _ :: branch => { r with branch := part :: branch, last := some last }
  | [] => r.push last part

/-- Reads on after two stars behind a slash, which cross directories if a slash or the end of the
branch is behind them. -/
def crossing (r : Reading) : List Char → Reading × List Char
  | [] => (r.cross '*' .trailing, [])
  | '/' :: s => (r.cross '/' .between, s)
  | c :: s =>
    if r.inGroup && (c = ',' || c = '\x7d') then (r.cross '*' .trailing, c :: s)
    else (r.stars, c :: s)

/-- Reads on after two stars. At the front of a branch they cross directories if a slash or the end
of the pattern is behind them. -/
def twoStars (r : Reading) (s : List Char) : Reading × List Char :=
  match r.branch, s with
  | [], [] => (r.push '*' .leading, [])
  | [], '/' :: s => (r.push '/' .leading, s)
  | [], s => (r.stars, s)
  | _ :: _, s => if r.atBoundary then r.crossing s else (r.stars, s)

theorem crossing_length (r : Reading) (s : List Char) : (r.crossing s).2.length ≤ s.length := by
  fun_cases crossing r s <;> simp

theorem twoStars_length (r : Reading) (s : List Char) : (r.twoStars s).2.length ≤ s.length := by
  fun_cases twoStars r s <;> simp [crossing_length]

end Reading

def read (r : Reading) (s : List Char) : Option Reading :=
  match s with
  | [] => some r
  | '?' :: s => read (r.push '?' (.plain anyByte)) s
  | '*' :: '*' :: s => read (r.twoStars s).1 (r.twoStars s).2
  | '*' :: s => read (r.push '*' (.plain many)) s
  | '[' :: s =>
    match _h : class? s with
    | none => none
    | some (bytes, rest) => read (r.push ']' (.plain (one bytes))) rest
  | '\\' :: [] => none
  | '\\' :: c :: s => read (r.push c (.plain (char c))) s
  | '\x7b' :: s => read r.openGroup s
  | ',' :: s => read r.comma s
  | '\x7d' :: s =>
    match r.closeGroup? with
    | none => none
    | some r => read r s
  | c :: s => read (r.push c (.plain (char c))) s
termination_by s.length
decreasing_by
  all_goals simp only [List.length_cons]
  all_goals first
    | omega
    | exact Nat.lt_succ_of_le (Nat.le_succ_of_le (r.twoStars_length _))
    | exact Nat.lt_succ_of_lt (class?_length ‹_›)

/-- Reads a pattern: `**/` at the front, `/**/` and `/**` cross directories, a brace opens a group
of alternatives, a bracket a class, and a backslash makes the next character plain. -/
def ofText? (pattern : String) : Option Glob := do
  let r ← read .start pattern.toList
  if r.inGroup then none
  match r.branch with
  | [.leading] => some many
  | parts => some ((ofParts? parts.reverse).getD empty)

end Glob

end Assay
