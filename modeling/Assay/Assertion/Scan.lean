import Assay.Assertion.Mask
import Assay.Text.Category
import Assay.Text.Search

/-!
# Finding assertion statements

An assertion statement is a call of the callee that starts at a word boundary and ends at the end
of its line. Matches are looked for from the front; the text of one is not searched again, and one
that starts in a comment or literal is dropped.
-/

namespace Assay.Scan

structure Match where
  start : Nat
  text : List Char
  deriving DecidableEq, Repr

def Match.stop (m : Match) : Nat := m.start + Text.bytes m.text

def isBoundary (before after : Option Char) : Bool :=
  before.any Text.isWordChar != after.any Text.isWordChar

/-- The part of a line from an opening parenthesis to the closing one that ends it, with the
semicolon after that. -/
def callEnd? (line : List Char) : Option (List Char) :=
  let line := match line.reverse with
    | '\r' :: r => r
    | r => r
  match line with
  | ';' :: ')' :: _ => some line.reverse
  | ')' :: _ => some line.reverse
  | _ => none

/-- The arguments of a call, from its opening parenthesis on, if they end with the line; and the
number of characters up to the end of the line, newline included. -/
def arguments? (s : List Char) : Option (List Char × Nat) :=
  match s with
  | '(' :: r =>
    let line := r.takeWhile (· ≠ '\n')
    if line.length < r.length then
      (callEnd? line).map fun args => ('(' :: args, line.length + 2)
    else none
  | _ => none

/-- The statement at the front of a text, and the number of characters that it takes with the end
of its line. -/
def matchAt? (callee : List Char) (before : Option Char) (s : List Char) :
    Option (List Char × Nat) := do
  if isBoundary before s.head? then
    let rest ← Text.after? callee s
    let (args, length) ← arguments? rest
    return (callee ++ args, callee.length + length)
  else none

/-- The matches in a text that follows `before` and starts at a byte; its first `skip` characters
belong to an earlier match. -/
def matchesFrom (callee : List Char) :
    (skip : Nat) → (before : Option Char) → (byte : Nat) → List Char → List Match
  | _, _, _, [] => []
  | skip + 1, _, byte, c :: r => matchesFrom callee skip (some c) (byte + c.utf8Size) r
  | 0, before, byte, c :: r =>
    match matchAt? callee before (c :: r) with
    | some (text, length) =>
      ⟨byte, text⟩ :: matchesFrom callee (length - 1) (some c) (byte + c.utf8Size) r
    | none => matchesFrom callee 0 (some c) (byte + c.utf8Size) r

/-- All matches, those in comments and literals among them. -/
def candidates (callee s : List Char) : List Match := matchesFrom callee 0 none 0 s

def isMasked (regions : List (Nat × Nat)) (byte : Nat) : Bool :=
  regions.any fun (start, stop) => start ≤ byte && byte < stop

def statements (callee s : List Char) : List Match :=
  let regions := Mask.maskedRegions s
  (candidates callee s).filter (!isMasked regions ·.start)

end Assay.Scan
