import Assay.Grammar.Expression

/-!
# The grammar of statements

The productions of statements and declarations in the strict code of a module. Statements are
checked; only expression statements keep their expressions.
-/

namespace Assay.Grammar

/-- The same place inside a statement that is no loop or switch and has no label. -/
def Context.inner (ctx : Context) : Context := { ctx with ins := true, pending := [] }

def Context.loopBody (ctx : Context) : Context :=
  { ctx with
    ins := true, breaks := true, continues := true, loopLabels := ctx.pending ++ ctx.loopLabels,
    pending := [] }

def block (g : Readers) (ctx : Context) : Parser Unit := do
  expect "\x7b"
  let _ ← statementsToBrace g ctx.inner

def condition (g : Readers) (ctx : Context) : Parser Unit := do
  expect "("
  let _ ← g.expression ctx.withIn
  expect ")"

/-- Reads a statement that is no declaration. -/
def substatement (g : Readers) (ctx : Context) : Parser Unit := do
  let _ ← g.statement ctx false

/-! ### Variables -/

def bindingTarget (g : Readers) (ctx : Context) : Parser Node := do
  if (← isAhead "[") || (← isAhead "\x7b") then
    let target ← g.primary ctx
    require (isPattern true target)
    return target
  let start ← here
  let name ← bindingName
  return .name (← extentFrom start) name

def declarator (g : Readers) (ctx : Context) : Parser (Node × Option Node) := do
  let target ← bindingTarget g ctx
  if ← eat "=" then return (target, some (← g.value ctx))
  return (target, none)

def declarators (g : Readers) (ctx : Context) : Parser (List (Node × Option Node)) := do
  let items ← loop (fun items => do
    let items := (← declarator g ctx) :: items
    if ← eat "," then return .inl items else return .inr items) []
  return items.reverse

/-- Whether variables have the initial values that they need: constants and patterns all do. -/
def areInitialized (keyword : String) (ds : List (Node × Option Node)) : Bool :=
  ds.all fun (target, value) => value.isSome || (keyword ≠ "const" && isName target)

def declaration (g : Readers) (ctx : Context) (keyword : String) : Parser Item := do
  advance
  let ds ← declarators g ctx.withIn
  require (areInitialized keyword ds)
  endStatement
  return .other

/-! ### Loops -/

def countingHead (g : Readers) (ctx : Context) : Parser Unit := do
  if !(← isAhead ";") then
    let _ ← g.expression ctx.withIn
  expect ";"
  if !(← isAhead ")") then
    let _ ← g.expression ctx.withIn
  expect ")"

/-- Reads what a loop goes over, if it goes over something: after `of` a value, after `in` an
expression. -/
def iterated (g : Readers) (ctx : Context) (awaited : Bool) : Parser Bool := do
  if ← eatWord "of" then
    let _ ← g.value ctx.withIn
    expect ")"
    return true
  if !awaited then
    if ← eatWord "in" then
      let _ ← g.expression ctx.withIn
      expect ")"
      return true
  return false

def declaringHead (g : Readers) (ctx : Context) (keyword : String) (awaited : Bool) :
    Parser Unit := do
  advance
  let ds ← declarators g { ctx with ins := false }
  let single := match ds with
    | [(_, none)] => true
    | _ => false
  if single then
    if ← iterated g ctx awaited then return
  require (!awaited && areInitialized keyword ds)
  expect ";"
  countingHead g ctx

def expressionHead (g : Readers) (ctx : Context) (awaited : Bool) : Parser Unit := do
  let isAsync ← isWord "async"
  let first ← g.assignment { ctx with ins := false }
  if isPattern false first then
    let overValues ← isWord "of"
    require (!(isAsync && isName first && overValues && !awaited))
    if ← iterated g ctx awaited then return
  require (!awaited)
  let _ ← g.sequenceFrom { ctx with ins := false } (← plain first)
  expect ";"
  countingHead g ctx

def forLoop (g : Readers) (ctx : Context) : Parser Unit := do
  advance
  let awaited ← if ctx.awaits then eatWord "await" else pure false
  if awaited then countSuspension
  expect "("
  match ← ahead with
  | .punct ";" =>
    require (!awaited)
    advance
    countingHead g ctx
  | .name "var" false => declaringHead g ctx "var" awaited
  | .name "let" false => declaringHead g ctx "let" awaited
  | .name "const" false => declaringHead g ctx "const" awaited
  | _ => expressionHead g ctx awaited
  substatement g ctx.loopBody

def whileLoop (g : Readers) (ctx : Context) : Parser Unit := do
  advance
  condition g ctx
  substatement g ctx.loopBody

/-- Reads a loop with its condition at the end, after which no semicolon is needed. -/
def doLoop (g : Readers) (ctx : Context) : Parser Unit := do
  advance
  substatement g ctx.loopBody
  expectWord "while"
  condition g ctx
  let _ ← eat ";"

/-! ### Other statements -/

def ifStatement (g : Readers) (ctx : Context) : Parser Unit := do
  advance
  condition g ctx
  substatement g ctx.inner
  if ← eatWord "else" then substatement g ctx.inner

def caseBody (g : Readers) (ctx : Context) : Parser Unit :=
  loop (fun () => do
    if (← isWord "case") || (← isWord "default") || (← isAhead "\x7d") then return .inr ()
    let _ ← g.statement ctx true
    return .inl ()) ()

def switchStatement (g : Readers) (ctx : Context) : Parser Unit := do
  advance
  condition g ctx
  expect "\x7b"
  let inside := { ctx.inner with breaks := true }
  loop (fun hasDefault => do
    if ← eat "\x7d" then return .inr ()
    let isDefault ← eatWord "default"
    if !isDefault then
      expectWord "case"
      let _ ← g.expression ctx.withIn
    require (!(isDefault && hasDefault))
    expect ":"
    caseBody g inside
    return .inl (hasDefault || isDefault)) false

def tryStatement (g : Readers) (ctx : Context) : Parser Unit := do
  advance
  block g ctx
  let caught ← eatWord "catch"
  if caught then
    if ← eat "(" then
      let _ ← bindingTarget g ctx.withIn
      expect ")"
    block g ctx
  let finished ← eatWord "finally"
  if finished then block g ctx
  require (caught || finished)

/-- Reads a jump to a label of `targets`, or without one if `bare` allows it. -/
def jump (targets : List String) (bare : Bool) : Parser Unit := do
  advance
  match ← ahead with
  | .name w _ =>
    if (← broken) then require bare
    else
      require (targets.contains w)
      advance
  | _ => require bare
  endStatement

def atEnd : Parser Bool := do
  match ← ahead with
  | .punct p => return p = ";" || p = "\x7d" || (← broken)
  | .endOfText => return true
  | _ => broken

def returnStatement (g : Readers) (ctx : Context) : Parser Unit := do
  require ctx.returns
  advance
  if !(← atEnd) then
    let _ ← g.expression ctx.withIn
  endStatement

def throwStatement (g : Readers) (ctx : Context) : Parser Unit := do
  advance
  require (!(← broken))
  let _ ← g.expression ctx.withIn
  endStatement

def isLabel : Parser Bool := do
  let found ← lookAhead do
    let _ ← anyName
    isAhead ":"
  return found == some true

def labelled (g : Readers) (ctx : Context) : Parser Unit := do
  let label ← reference ctx
  require (!ctx.labels.contains label)
  expect ":"
  substatement g { ctx with labels := label :: ctx.labels, pending := label :: ctx.pending }

def isAsyncFunction : Parser Bool := do
  if !(← isWord "async") then return false
  let found ← lookAhead do
    advance
    return (← isWord "function") && !(← broken)
  return found == some true

def expressionStatement (g : Readers) (ctx : Context) : Parser Item := do
  let e ← g.expression ctx.withIn
  endStatement
  return .expression e

/-- Whether `import` begins an expression: a call or a member follows. -/
def isImportExpression : Parser Bool := do
  let found ← lookAhead do
    advance
    return (← isAhead "(") || (← isAhead ".")
  return found == some true

/-- Reads a statement that begins with a keyword, if this is one. -/
def keywordStatement? (g : Readers) (ctx : Context) (declares : Bool) (w : String) :
    Option (Parser Unit) :=
  if w = "if" then some (ifStatement g ctx)
  else if w = "for" then some (forLoop g ctx)
  else if w = "while" then some (whileLoop g ctx)
  else if w = "do" then some (doLoop g ctx)
  else if w = "switch" then some (switchStatement g ctx)
  else if w = "try" then some (tryStatement g ctx)
  else if w = "break" then some (jump ctx.labels ctx.breaks)
  else if w = "continue" then some (jump ctx.loopLabels ctx.continues)
  else if w = "return" then some (returnStatement g ctx)
  else if w = "throw" then some (throwStatement g ctx)
  else if w = "debugger" then some (do advance; endStatement)
  else if w = "function" then some (do require declares; function g false true)
  else if w = "class" then some (do require declares; classRest g ctx true)
  else none

/-- Reads a statement, or a declaration if `declares` says that one may stand here. -/
def statement (g : Readers) (ctx : Context) (declares : Bool) : Parser Item := do
  match ← ahead with
  | .punct "\x7b" =>
    block g ctx
    return .other
  | .punct ";" =>
    advance
    return .other
  | .name w false =>
    if w = "var" then return ← declaration g ctx w
    if w = "let" || w = "const" then
      require declares
      return ← declaration g ctx w
    if w = "import" then
      require (← isImportExpression)
      return ← expressionStatement g ctx
    match keywordStatement? g ctx declares w with
    | some p =>
      p
      return .other
    | none =>
      if ← isAsyncFunction then
        require declares
        advance
        function g true true
        return .other
      if ← isLabel then
        labelled g ctx
        return .other
      expressionStatement g ctx
  | .name _ true =>
    if ← isLabel then
      labelled g ctx
      return .other
    expressionStatement g ctx
  | _ => expressionStatement g ctx

end Assay.Grammar
