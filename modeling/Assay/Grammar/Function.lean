import Assay.Grammar.Pattern

/-!
# Functions and classes

The productions of functions, methods and classes. All of them are checked and none is kept as a
tree: what holds them is printed as written. A production that contains expressions or statements
takes the readers for them from a `Readers`.
-/

namespace Assay.Grammar

/-- The readers that a production calls for what it contains. -/
structure Readers where
  /-- An assignment expression, which may still turn out to be a pattern. -/
  assignment : Context → Parser Node
  unary : Context → Parser Node
  leftHandSide : Context → Parser Node
  primary : Context → Parser Node
  /-- A statement, or a declaration if `declares` says so. -/
  statement : Context → (declares : Bool) → Parser Item

namespace Readers

/-- An assignment expression that is not a pattern. -/
def value (g : Readers) (ctx : Context) : Parser Node := do plain (← g.assignment ctx)

def sequenceFrom (g : Readers) (ctx : Context) (first : Node) : Parser Node := do
  if ← isAhead "," then
    let items ← loop (fun items => do
      if ← eat "," then return .inl ((← g.value ctx) :: items) else return .inr items) [first]
    return .sequence ⟨first.extent.lo, (← get).last.offset⟩ items.reverse
  else return first

def expression (g : Readers) (ctx : Context) : Parser Node := do
  g.sequenceFrom ctx (← g.value ctx)

end Readers

structure FunctionKind where
  isAsync : Bool
  isGenerator : Bool
  superMember : Bool
  superCall : Bool

def FunctionKind.plain : FunctionKind := ⟨false, false, false, false⟩

def FunctionKind.context (k : FunctionKind) : Context :=
  { Context.module with
    yields := k.isGenerator
    awaits := k.isAsync
    returns := true
    newTarget := true
    superMember := k.superMember
    superCall := k.superCall }

/-- The context of the parameters of a function, which suspend nothing. -/
def FunctionKind.paramContext (k : FunctionKind) : Context :=
  { k.context with yields := false, awaits := false, returns := false }

def isSimpleParam : Node → Bool
  | .name .. => true
  | _ => false

/-- Reads parameters after the opening parenthesis up to the closing one. The answer is their
number, and whether all are names alone. -/
def params (g : Readers) (ctx : Context) : Parser (Nat × Bool) :=
  loop (fun (count, simple) => do
    if ← eat ")" then return .inr (count, simple)
    if ← eat "..." then
      let target ← g.assignment ctx
      require (isPattern true target)
      expect ")"
      return .inr (count + 1, false)
    let param ← g.assignment ctx
    require (isInitialized true param)
    let next := (count + 1, simple && isSimpleParam param)
    if ← eat "," then return .inl next
    expect ")"
    return .inr next) (0, true)

def isStrictDirective : Item → Bool
  | .expression (.string _ raw) => raw = "'use strict'" || raw = "\"use strict\""
  | _ => false

def isDirective : Item → Bool
  | .expression (.string ..) => true
  | _ => false

def statementsToBrace (g : Readers) (ctx : Context) : Parser (List Item) := do
  let items ← loop (fun items => do
    if ← eat "\x7d" then return .inr items
    return .inl ((← g.statement ctx true) :: items)) []
  return items.reverse

/-- Reads the body of a function. The directive for strict code needs simple parameters. -/
def body (g : Readers) (ctx : Context) (simple : Bool) : Parser Unit := do
  expect "\x7b"
  let items ← statementsToBrace g ctx
  require (simple || !(items.takeWhile isDirective).any isStrictDirective)

/-- Reads parameters and a body. The answer is the number of parameters and whether they are
simple. -/
def functionRest (g : Readers) (k : FunctionKind) : Parser (Nat × Bool) := inFunction do
  expect "("
  let (count, simple) ← params g k.paramContext
  body g k.context simple
  return (count, simple)

/-- Reads a function from the keyword on; its name may be left out if `named` does not ask for
one. -/
def function (g : Readers) (isAsync named : Bool) : Parser Unit := do
  expectWord "function"
  let k := { FunctionKind.plain with isAsync, isGenerator := ← eat "*" }
  if named || !(← isAhead "(") then
    let _ ← bindingName
  let _ ← functionRest g k

def arrowBody (g : Readers) (ctx : Context) (isAsync simple : Bool) : Parser Unit := inFunction do
  let inner := { ctx with
    yields := false, awaits := isAsync, returns := true, breaks := false, continues := false,
    labels := [], loopLabels := [], pending := [] }
  if ← isAhead "\x7b" then body g inner.withIn simple
  else
    let _ ← g.value inner

/-! ### Members -/

def key (g : Readers) (ctx : Context) : Parser Key := do
  let start ← here
  match ← ahead with
  | .name w _ =>
    advance
    return .name w
  | .string raw =>
    advance
    return .string (← extentFrom start) raw
  | .number _ =>
    advance
    return .number (← extentFrom start)
  | _ =>
    expect "["
    let e ← g.value ctx.withIn
    expect "]"
    return .computed e

inductive MethodKind where
  | method
  | getter
  | setter
  deriving DecidableEq

structure Modifiers where
  isAsync : Bool
  isGenerator : Bool
  kind : MethodKind

def Modifiers.any (m : Modifiers) : Bool := m.isAsync || m.isGenerator || m.kind != .method

/-- Whether a word is a modifier and not itself the name of a member: another name follows. -/
def beforeName (w : String) (sameLine : Bool) : Parser Bool := do
  if !(← isWord w) then return false
  let follows ← lookAhead do
    advance
    require (!(sameLine && (← broken)))
    match ← ahead with
    | .punct p => return p = "[" || (p = "*" && w = "async")
    | .endOfText => return false
    | _ => return true
  return follows == some true

def modifiers : Parser Modifiers := do
  if ← beforeName "async" true then
    advance
    return ⟨true, ← eat "*", .method⟩
  if ← beforeName "get" false then
    advance
    return ⟨false, false, .getter⟩
  if ← beforeName "set" false then
    advance
    return ⟨false, false, .setter⟩
  return ⟨false, ← eat "*", .method⟩

/-- Reads the parameters and body of a method. A getter has no parameter and a setter one. -/
def methodRest (g : Readers) (m : Modifiers) (superCall : Bool) : Parser Unit := do
  let k : FunctionKind := ⟨m.isAsync, m.isGenerator, true, superCall⟩
  if m.kind = .setter then
    require (!(← lookAhead do expect "("; isAhead "...") == some true)
  let (count, _) ← functionRest g k
  require (m.kind = .method || (m.kind = .getter && count = 0) || (m.kind = .setter && count = 1))

/-! ### Classes -/

/-- The name of a member of a class, as far as it matters: its text unless it is computed. -/
def memberName : Key → Option String
  | .name w => some w
  | .string _ raw => some (String.ofList (raw.toList.drop 1).dropLast)
  | _ => none

/-- The context of the initial value of a field and of a static block. -/
def fieldContext : Context :=
  { Context.module with
    awaits := false, newTarget := true, superMember := true, noArguments := true }

/-- Reads a member after its modifiers; the answer says whether it was a constructor. -/
def classMember (g : Readers) (ctx : Context) (derived isStatic : Bool) (m : Modifiers) :
    Parser Bool := do
  let (name, isPrivate) ← match ← ahead with
    | .privateName raw => do
      require (raw != "#constructor")
      advance
      pure (none, true)
    | _ => do pure (memberName (← key g ctx), false)
  let isConstructor := !isPrivate && !isStatic && name = some "constructor"
  require (!(isStatic && name = some "prototype"))
  if (← isAhead "(") || m.any then
    require (!(isConstructor && m.any))
    methodRest g m (isConstructor && derived)
    return isConstructor
  else
    require (name != some "constructor")
    if ← eat "=" then
      let _ ← inFunction (g.value fieldContext)
    endStatement
    return false

def classElement (g : Readers) (ctx : Context) (derived : Bool) : Parser Bool := do
  if ← eat ";" then return false
  let isStatic ← match ← ahead with
    | .name "static" false => do
      let follows ← lookAhead do
        advance
        match ← ahead with
        | .punct p => return p = "[" || p = "*" || p = "\x7b"
        | .endOfText => return false
        | _ => return true
      if follows == some true then advance
      pure (follows == some true)
    | _ => pure false
  if isStatic && (← isAhead "\x7b") then
    advance
    let _ ← inFunction (statementsToBrace g fieldContext)
    return false
  let m ← modifiers
  classMember g ctx derived isStatic m

def classRest (g : Readers) (ctx : Context) (named : Bool) : Parser Unit := do
  expectWord "class"
  if named || !((← isWord "extends") || (← isAhead "\x7b")) then
    let _ ← bindingName
  let derived ← eatWord "extends"
  if derived then
    let _ ← plain (← g.leftHandSide ctx)
  expect "\x7b"
  loop (fun hasConstructor => do
    if ← eat "\x7d" then return .inr ()
    let isConstructor ← classElement g ctx derived
    require (!(hasConstructor && isConstructor))
    return .inl (hasConstructor || isConstructor)) false

end Assay.Grammar
