import Assay.Bisect
import Assay.SourceMap.Basic

/-!
# Looking up source positions

A session holds the tokens of each generated line and finds the nearest one to a column by
bisection, before it or after it.
-/

namespace Assay

/-- Which token answers for a place between two. -/
inductive Bias where
  /-- The last one at or before the place. -/
  | preceding
  /-- The first one at or after the place. -/
  | following
  deriving DecidableEq, Repr, Inhabited

structure SourcePosition where
  source : Nat
  line : Nat
  column : Nat
  deriving DecidableEq, Repr, Inhabited

namespace SourcePosition

def position (p : SourcePosition) : Position := ⟨p.line, p.column⟩

def ofOrigin (o : Origin) : SourcePosition := ⟨o.source, o.line, o.column⟩

end SourcePosition

/-- Any way to answer for a generated position. -/
abbrev Lookup := Position → Bias → Option SourcePosition

structure LookupSession where
  map : SourceMap
  /-- The generated lines that have tokens, in ascending order, with their tokens. -/
  lines : Array (Nat × Array MapToken)

namespace LookupSession

/-- Puts tokens in the order of their lines together line by line. -/
def groupLines : List MapToken → List (Nat × List MapToken)
  | [] => []
  | t :: r =>
    match groupLines r with
    | [] => [(t.generated.line, [t])]
    | (line, tokens) :: rest =>
      if line = t.generated.line then (line, t :: tokens) :: rest
      else (t.generated.line, [t]) :: (line, tokens) :: rest

def ofMap (m : SourceMap) : LookupSession :=
  ⟨m, ((groupLines m.tokens).map fun (line, tokens) => (line, tokens.toArray)).toArray⟩

/-- The tokens of a generated line; there is no line 0. -/
def lineTokens (s : LookupSession) (line : Nat) : Array MapToken :=
  if line = 0 then #[]
  else match s.lines[firstFalse (·.1 < line) s.lines]? with
    | some (found, tokens) => if found = line then tokens else #[]
    | none => #[]

def nearest? (tokens : Array MapToken) (column : Nat) : Bias → Option MapToken
  | .preceding =>
    let after := firstFalse (·.generated.column ≤ column) tokens
    if after = 0 then none else tokens[after - 1]?
  | .following => tokens[firstFalse (·.generated.column < column) tokens]?

def sourcePosition? (s : LookupSession) : Lookup := fun p bias => do
  let token ← nearest? (s.lineTokens p.line) p.column bias
  return .ofOrigin (← token.origin)

end LookupSession

end Assay
