import Assay.Codec.Vlq
import Assay.SourceMap.Basic

/-!
# The mappings text

Generated lines are separated by semicolons and segments by commas. A segment holds one, four or
five quantities, each the difference from the last one of its kind; only the generated column
starts again on every line. Sums have 64 bits, and tokens hold the low 32 of them.
-/

namespace Assay.Mappings

/-- The running sums: what the last quantity of each kind came to. -/
structure Sums where
  column : Int
  source : Int
  originLine : Int
  originColumn : Int
  name : Int
  deriving DecidableEq, Repr

def Sums.zero : Sums := ⟨0, 0, 0, 0, 0⟩

/-- The low 32 bits of a sum. -/
def word (n : Int) : Nat := (n % 0x100000000).toNat

def atBreak : List Char → Bool
  | [] => true
  | c :: _ => c == ',' || c == ';'

/-- The quantities up to the end of a segment, at most `room` of them, and the text after them with
its offset in bytes. -/
def readSegment (offset : Nat) :
    (room : Nat) → List Char → Except SourceMapError (List Int × List Char × Nat)
  | room, s =>
    if atBreak s then .ok ([], s, offset)
    else match room with
      | 0 => .error (.invalidMappings offset)
      | room + 1 =>
        match Vlq.decode? s with
        | none => .error (.invalidMappings offset)
        | some (value, count) =>
          match readSegment (offset + count) room (s.drop count) with
          | .ok (values, rest) => .ok (value :: values, rest)
          | .error e => .error e

/-! ### Sums -/

/-- What an addition does whose sum is out of range: it stops the program, or it keeps the low bits
of the sum, as the program was built. -/
inductive Arithmetic where
  | checked
  | wrapping
  deriving DecidableEq, Repr

namespace Arithmetic

/-- A sum of which its type keeps `kept`. -/
def keep [DecidableEq α] (a : Arithmetic) (kept sum : α) : Except SourceMapError α :=
  if a = .checked ∧ kept ≠ sum then .error .overflow else .ok kept

def add64 (a : Arithmetic) (m n : Int) : Except SourceMapError Int :=
  a.keep (Vlq.wrap64 (m + n)) (m + n)

/-- The number after one that fits 32 bits. -/
def next32 (a : Arithmetic) (n : Nat) : Except SourceMapError Nat :=
  a.keep ((n + 1) % 0x100000000) (n + 1)

end Arithmetic

namespace Sums

/-- Adds to the column, which must not become negative in a segment that starts at a byte. -/
def addColumn (a : Arithmetic) (start : Nat) (s : Sums) (n : Int) : Except SourceMapError Sums := do
  let column ← a.add64 s.column n
  if column < 0 then .error (.invalidMappings start) else .ok { s with column }

/-- Adds to the place of the origin, which must be in one of `count` sources. -/
def addOrigin (a : Arithmetic) (start count : Nat) (s : Sums) (source line column : Int) :
    Except SourceMapError Sums := do
  let source ← a.add64 s.source source
  let originLine ← a.add64 s.originLine line
  let originColumn ← a.add64 s.originColumn column
  if source < 0 ∨ count ≤ source then .error (.unknownSource source)
  else if originLine < 0 ∨ originColumn < 0 then .error (.invalidMappings start)
  else .ok { s with source, originLine, originColumn }

def addName (a : Arithmetic) (s : Sums) (n : Int) : Except SourceMapError Sums := do
  return { s with name := ← a.add64 s.name n }

/-- The origin that the sums point at; its line counts from one. -/
def origin (a : Arithmetic) (s : Sums) (name : Option Nat) : Except SourceMapError Origin := do
  return ⟨word s.source, ← a.next32 (word s.originLine), word s.originColumn, name⟩

end Sums

/-- Adds the quantities of a segment that starts at a byte and gives its token. -/
def applySegment (a : Arithmetic) (line start count : Nat) (sums : Sums) :
    List Int → Except SourceMapError (Sums × MapToken)
  | [column] => do
    let sums ← sums.addColumn a start column
    return (sums, ⟨⟨line, word sums.column⟩, none⟩)
  | [column, source, originLine, originColumn] => do
    let sums ← sums.addColumn a start column
    let sums ← sums.addOrigin a start count source originLine originColumn
    return (sums, ⟨⟨line, word sums.column⟩, some (← sums.origin a none)⟩)
  | [column, source, originLine, originColumn, name] => do
    let sums ← sums.addColumn a start column
    let sums ← sums.addOrigin a start count source originLine originColumn
    let sums ← sums.addName a name
    return (sums, ⟨⟨line, word sums.column⟩, some (← sums.origin a (some (word sums.name)))⟩)
  | _ => .error (.invalidMappings start)

/-- The tokens of a mappings text from a byte on, for a map of `count` sources. -/
def decodeFrom (a : Arithmetic) (count : Nat) :
    (fuel offset line : Nat) → Sums → List Char → Except SourceMapError (List MapToken)
  | 0, _, _, _, _ => .ok []
  | _ + 1, _, _, _, [] => .ok []
  | fuel + 1, offset, line, sums, c :: r =>
    if c = ';' then decodeFrom a count fuel (offset + 1) (line + 1) { sums with column := 0 } r
    else if c = ',' then decodeFrom a count fuel (offset + 1) line sums r
    else do
      let (values, rest, next) ← readSegment offset 5 (c :: r)
      let (sums, token) ← applySegment a line offset count sums values
      let tokens ← decodeFrom a count fuel next line sums rest
      return token :: tokens

/-- The tokens of a mappings text in its order. Every step reads a character, so its length is fuel
enough. -/
def decode (a : Arithmetic) (s : List Char) (count : Nat) : Except SourceMapError (List MapToken) :=
  decodeFrom a count s.length 0 1 .zero s

/-! ### Writing -/

def Sums.ofToken (s : Sums) (t : MapToken) : Sums :=
  match t.origin with
  | none => { s with column := t.generated.column }
  | some o =>
    ⟨t.generated.column, o.source, (o.line : Int) - 1, o.column,
      match o.name with
      | none => s.name
      | some name => name⟩

def encodeToken (s : Sums) (t : MapToken) : List Char :=
  Vlq.encode (t.generated.column - s.column) ++
    match t.origin with
    | none => []
    | some o =>
      Vlq.encode (o.source - s.source) ++ Vlq.encode ((o.line : Int) - 1 - s.originLine) ++
        Vlq.encode (o.column - s.originColumn) ++
        match o.name with
        | none => []
        | some name => Vlq.encode (name - s.name)

/-- The text of tokens that follow others on a line; `first` if none stands on it yet. -/
def encodeFrom (line : Nat) (first : Bool) (sums : Sums) : List MapToken → List Char
  | [] => []
  | t :: r =>
    if line < t.generated.line then
      let start := { sums with column := 0 }
      List.replicate (t.generated.line - line) ';' ++ encodeToken start t ++
        encodeFrom t.generated.line false (start.ofToken t) r
    else
      (if first then [] else [',']) ++ encodeToken sums t ++
        encodeFrom line false (sums.ofToken t) r

def encode (tokens : List MapToken) : List Char := encodeFrom 1 true .zero tokens

end Assay.Mappings
