import Assay.Grammar.Token
import Assay.Grammar.Tree

/-!
# Reading by tokens

A parser looks at one token ahead of what has been read. Its repetitions are bounded by the length
of the text that is left, since each round reads at least one token.
-/

namespace Assay

namespace Grammar

/-- A text that is no script, with the byte of the token at which reading ended. -/
structure Failure where
  offset : Nat

structure State where
  ahead : Token.Placed
  /-- The end of the last token that was read. -/
  last : Cursor
  /-- How many times evaluation may be suspended in the current function so far. -/
  suspensions : Nat

abbrev Parser := StateT State (Except Failure)

/-- What the place of an expression or statement allows. -/
structure Context where
  yields : Bool
  awaits : Bool
  ins : Bool
  returns : Bool
  newTarget : Bool
  superMember : Bool
  superCall : Bool
  /-- `arguments` is not a name here. -/
  noArguments : Bool
  /-- A `break` without a label has a target. -/
  breaks : Bool
  /-- A `continue` without a label has a target. -/
  continues : Bool
  labels : List String
  loopLabels : List String
  /-- The labels of the statement that begins here. -/
  pending : List String

def Context.module : Context where
  yields := false
  awaits := true
  ins := true
  returns := false
  newTarget := false
  superMember := false
  superCall := false
  noArguments := false
  breaks := false
  continues := false
  labels := []
  loopLabels := []
  pending := []

def Context.withIn (ctx : Context) : Context := { ctx with ins := true }

/-- Ends reading at the token ahead. -/
def fail : Parser α := do throw ⟨(← get).ahead.start.offset⟩

def require (ok : Bool) : Parser Unit := if ok then pure () else fail

/-- Goes on at a cursor, up to which the text of the token ahead counts as one token. The end of the
text is none. -/
def resume (c : Cursor) : Parser Unit := do
  let s ← get
  require (s.ahead.token != .endOfText)
  match Token.next? c false with
  | some ahead => set { s with ahead, last := c }
  | none => throw ⟨c.offset⟩

def advance : Parser Unit := do resume (← get).ahead.stop

def ahead : Parser Token := return (← get).ahead.token

def here : Parser Cursor := return (← get).ahead.start

/-- Whether a line ended before the token ahead. -/
def broken : Parser Bool := return (← get).ahead.broken

def isAhead (p : String) : Parser Bool := return (← ahead) = .punct p

/-- Whether a keyword is ahead, which must not be escaped. -/
def isWord (w : String) : Parser Bool := return (← ahead) = .name w false

def eat (p : String) : Parser Bool := do
  if ← isAhead p then
    advance
    return true
  else return false

def eatWord (w : String) : Parser Bool := do
  if ← isWord w then
    advance
    return true
  else return false

def expect (p : String) : Parser Unit := do require (← eat p)

def expectWord (w : String) : Parser Unit := do require (← eatWord w)

/-- Looks at what a parser would answer without reading. -/
def lookAhead (p : Parser α) : Parser (Option α) := fun s =>
  match p s with
  | .ok (a, _) => .ok (some a, s)
  | .error _ => .ok (none, s)

def extentFrom (start : Cursor) : Parser Extent := return start.extentTo (← get).last

def writtenFrom (start : Cursor) (kind : WrittenKind) : Parser Node :=
  return .written (← extentFrom start) kind

def countSuspension : Parser Unit := modify fun s => { s with suspensions := s.suspensions + 1 }

/-- Runs a parser for another function, whose suspensions are its own. -/
def inFunction (p : Parser α) : Parser α := do
  let before := (← get).suspensions
  let a ← p
  modify fun s => { s with suspensions := before }
  return a

/-- At most `n` rounds of a step, until it gives an answer. -/
def iterate (step : α → Parser (α ⊕ β)) : Nat → α → Parser β
  | 0, _ => fail
  | n + 1, a => do
    match ← step a with
    | .inl a => iterate step n a
    | .inr b => return b

/-- Rounds of a step that reads something in each but the last. -/
def loop (step : α → Parser (α ⊕ β)) (a : α) : Parser β := do
  let s ← get
  iterate step (s.ahead.start.rest.length + 2) a

/-- Ends a statement: at a semicolon, before a closing brace, at the end of the text or where a
line has ended. -/
def endStatement : Parser Unit := do
  if ← eat ";" then return
  if ← isAhead "\x7d" then return
  if (← ahead) = .endOfText then return
  require (← broken)

/-! ### Names -/

def reserved : List String :=
  ["break", "case", "catch", "class", "const", "continue", "debugger", "default", "delete", "do",
    "else", "enum", "export", "extends", "false", "finally", "for", "function", "if", "import", "in",
    "instanceof", "new", "null", "return", "super", "switch", "this", "throw", "true", "try",
    "typeof", "var", "void", "while", "with", "let", "static", "implements", "interface", "package",
    "private", "protected", "public", "yield", "await"]

def isReserved (w : String) : Bool := reserved.contains w

def isRestricted (w : String) : Bool := w = "eval" || w = "arguments"

def anyName : Parser String := do
  match ← ahead with
  | .name w _ =>
    advance
    return w
  | _ => fail

def reference (ctx : Context) : Parser String := do
  match ← ahead with
  | .name w _ =>
    require (!isReserved w && !(ctx.noArguments && w = "arguments"))
    advance
    return w
  | _ => fail

def bindingName : Parser String := do
  match ← ahead with
  | .name w _ =>
    require (!isReserved w && !isRestricted w)
    advance
    return w
  | _ => fail

end Grammar

end Assay
