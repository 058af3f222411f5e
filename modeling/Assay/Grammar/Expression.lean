import Assay.Grammar.Function
import Assay.Grammar.Operands

/-!
# The grammar of expressions

The productions of expressions, each for readers of what it contains. A production that may turn
out to be the head of an arrow function is read as an expression and converted when the arrow
shows.
-/

namespace Assay.Grammar

/-! ### Literals and lists -/

/-- What the text of a template begins behind: its backquote, or the brace that ends a substitution. -/
def templateOpening (continues : Bool) : String := if continues then "\x7d" else "\x60"

/-- Reads the text of a template with what it begins behind, up to a substitution or its end; the
answer says whether it ends. Malformed escapes need a tag. -/
def templateText (continues tagged : Bool) : Parser Bool := do
  require (← isAhead (templateOpening continues))
  let start := (← get).ahead.stop
  match Token.templateChunk? true (start.rest.length + 1) start.rest with
  | none => fail
  | some chunk =>
    require (chunk.valid || tagged)
    resume (start.moveTo chunk.rest)
    return chunk.last

/-- Reads a template from its backquote on. -/
def template (g : Readers) (ctx : Context) (tagged : Bool) : Parser Unit :=
  loop (fun continues => do
    if ← templateText continues tagged then return .inr ()
    let _ ← g.expression ctx.withIn
    return .inl true) false

/-- Reads a regular expression whose slash is ahead, alone or as a part of `/=`. -/
def regex : Parser Unit := do
  let start ← here
  match Token.regex? start.rest with
  | some rest => resume (start.moveTo rest)
  | none => fail

def elements (g : Readers) (ctx : Context) (close : String) (holes : Bool) :
    Parser (List Element) := do
  let items ← loop (fun items => do
    if ← eat close then return .inr items
    if holes then
      if ← eat "," then return .inl (Element.hole :: items)
    let spread ← eat "..."
    let e ← g.assignment ctx.withIn
    let comma ← eat ","
    let item := if spread then Element.spread e comma else .item e
    if comma then return .inl (item :: items)
    expect close
    return .inr (item :: items)) []
  return items.reverse

def arguments (g : Readers) (ctx : Context) : Parser (List Element) := do
  let args ← elements g ctx ")" false
  require (itemsArePlain args)
  return args

def array (g : Readers) (ctx : Context) : Parser Node := do
  let start ← here
  expect "["
  let items ← elements g ctx "]" true
  return .array (← extentFrom start) items

def shorthandName? (ctx : Context) : Key → Option String
  | .name w => if isReserved w || (ctx.noArguments && w = "arguments") then none else some w
  | _ => none

def member (g : Readers) (ctx : Context) : Parser Member := do
  let start ← here
  let m ← modifiers
  let name ← key g ctx
  if m.any || (← isAhead "(") then
    methodRest g m false
    return .method (← extentFrom start)
  if ← eat ":" then return .keyed name (← g.assignment ctx.withIn)
  match shorthandName? ctx name with
  | none => fail
  | some w =>
    if ← eat "=" then
      let _ ← g.value ctx.withIn
      return .initialized (← extentFrom start) w
    return .shorthand w

def object (g : Readers) (ctx : Context) : Parser Node := do
  let start ← here
  expect "\x7b"
  let members ← loop (fun members => do
    if ← eat "\x7d" then return .inr members
    let spread ← eat "..."
    let m ← if spread then do pure (Member.spread (← g.assignment ctx.withIn) false)
      else member g ctx
    let comma ← eat ","
    let m := match m with
      | .spread e _ => .spread e comma
      | m => m
    if comma then return .inl (m :: members)
    expect "\x7d"
    return .inr (m :: members)) []
  return .object (← extentFrom start) members.reverse

/-! ### Parentheses and arrow functions -/

/-- What stands in parentheses before it shows whether it is an expression or parameters. -/
structure Cover where
  start : Cursor
  items : List Element
  comma : Bool

def cover (g : Readers) (ctx : Context) : Parser Cover := do
  let start ← here
  expect "("
  let (items, comma) ← loop (fun (items, comma) => do
    if ← eat ")" then return .inr (items, comma)
    let spread ← eat "..."
    let e ← g.assignment ctx.withIn
    let item := if spread then Element.spread e false else .item e
    if ← eat "," then return .inl (item :: items, true)
    expect ")"
    return .inr (item :: items, false)) (([] : List Element), false)
  return ⟨start, items.reverse, comma⟩

def expressionsOf? : List Element → Option (List Node)
  | [] => some []
  | .item e :: rest => if isPlain e then (expressionsOf? rest).map (e :: ·) else none
  | _ => none

def Cover.toExpr (c : Cover) : Parser Node := do
  require (!c.comma)
  match expressionsOf? c.items with
  | some [e] => return .paren (← extentFrom c.start) e
  | some (first :: rest) =>
    let last := (first :: rest).getLast?.getD first
    return .paren (← extentFrom c.start) (.sequence (joinExtent first last) (first :: rest))
  | _ => fail

def isSimpleElement : Element → Bool
  | .item e => isSimpleParam e
  | _ => false

/-- Whether items are the parameters of an arrow function: none is followed by a comma after a
spread. -/
def areParams (items : List Element) (comma : Bool) : Bool :=
  itemsArePatterns true items &&
    !(comma && match items.getLast? with
      | some (.spread ..) => true
      | _ => false)

def isArrow : Parser Bool := return (← isAhead "=>") && !(← broken)

/-- Reads an arrow function from its arrow on, after its parameters; no parameter may suspend
evaluation, which `before` counted when they began. -/
def arrow (g : Readers) (ctx : Context) (start : Cursor) (isAsync simple : Bool) (before : Nat) :
    Parser Node := do
  require ((← get).suspensions == before)
  expect "=>"
  arrowBody g ctx isAsync simple
  writtenFrom start .arrow

/-! ### Calls and members -/

def superExpr (g : Readers) (ctx : Context) : Parser Node := do
  let start ← here
  advance
  if ← eat "(" then
    require ctx.superCall
    let _ ← arguments g ctx
    writtenFrom start .superCall
  else
    require ctx.superMember
    if ← eat "." then
      let _ ← anyName
    else
      expect "["
      let _ ← g.expression ctx.withIn
      expect "]"
    writtenFrom start .superMember

def importExpr (g : Readers) (ctx : Context) : Parser Node := do
  let start ← here
  advance
  if ← eat "." then
    expectWord "meta"
    writtenFrom start .metaProperty
  else
    expect "("
    let _ ← g.value ctx.withIn
    if ← eat "," then
      let _ ← g.value ctx.withIn
    expect ")"
    writtenFrom start .importCall

def memberOf (start : Cursor) (e : Node) : Parser Node := do
  match ← ahead with
  | .privateName _ =>
    let name ← here
    advance
    return .privateMember (← extentFrom start) e (← extentFrom name)
  | _ =>
    let name ← anyName
    return .member (← extentFrom start) e name

def indexOf (g : Readers) (ctx : Context) (start : Cursor) (e : Node) : Parser Node := do
  let index ← g.expression ctx.withIn
  expect "]"
  return .index (← extentFrom start) e index

def calleeStep (g : Readers) (ctx : Context) (start : Cursor) (e : Node) :
    Parser (Node ⊕ Node) := do
  if ← eat "." then
    return .inl (← memberOf start (← plain e))
  if ← eat "[" then
    return .inl (← indexOf g ctx start (← plain e))
  if ← isAhead "\x60" then
    template g ctx true
    return .inl (← writtenFrom start .taggedTemplate)
  require (!(← isAhead "?."))
  return .inr (← plain e)

def isImportCall : Node → Bool
  | .written _ .importCall => true
  | _ => false

def isSuperCall : Node → Bool
  | .written _ .superCall => true
  | _ => false

/-- Reads a construction or `new.target`, whose keyword is ahead. -/
def newExpr (g : Readers) (ctx : Context) : Parser Node := do
  let start ← here
  advance
  if ← eat "." then
    require ctx.newTarget
    expectWord "target"
    writtenFrom start .metaProperty
  else
    let inner ← here
    let head ← g.primary ctx
    require (!isImportCall head && !isSuperCall head)
    let callee ← loop (calleeStep g ctx inner) head
    if ← eat "(" then
      let args ← arguments g ctx
      return .new (← extentFrom start) callee (some args)
    return .new (← extentFrom start) callee none

def named (g : Readers) (ctx : Context) (w : String) : Parser Node := do
  let start ← here
  if w = "this" then
    advance
    return .this (← extentFrom start)
  if w = "null" || w = "true" || w = "false" then
    advance
    return ← writtenFrom start .literal
  if w = "function" then
    function g false false
    return ← writtenFrom start .functionExpr
  if w = "class" then
    classRest g ctx false
    return ← writtenFrom start .classExpr
  if w = "new" then return ← newExpr g ctx
  if w = "super" then return ← superExpr g ctx
  if w = "import" then return ← importExpr g ctx
  if w = "async" then
    let isFunction ← lookAhead do
      advance
      return (← isWord "function") && !(← broken)
    if isFunction == some true then
      advance
      function g true false
      return ← writtenFrom start .functionExpr
  let name ← reference ctx
  return .name (← extentFrom start) name

def primary (g : Readers) (ctx : Context) : Parser Node := do
  let start ← here
  match ← ahead with
  | .name w false => named g ctx w
  | .name _ true =>
    let name ← reference ctx
    return .name (← extentFrom start) name
  | .number _ =>
    advance
    writtenFrom start .literal
  | .string raw =>
    advance
    return .string (← extentFrom start) raw
  | .punct "(" => (← cover g ctx).toExpr
  | .punct "[" => array g ctx
  | .punct "\x7b" => object g ctx
  | .punct "\x60" =>
    template g ctx false
    writtenFrom start .template
  | .punct "/" | .punct "/=" =>
    regex
    writtenFrom start .literal
  | _ => fail

/-- One call, member or tag after an expression, or the end of them. `chained` says that a `?.` has
been read, after which no tag may follow. -/
def chainStep (g : Readers) (ctx : Context) (start : Cursor) :
    Node × Bool → Parser ((Node × Bool) ⊕ (Node × Bool))
  | (e, chained) => do
    if ← eat "." then
      return .inl (← memberOf start (← plain e), chained)
    if ← eat "[" then
      return .inl (← indexOf g ctx start (← plain e), chained)
    if ← eat "(" then
      let callee ← plain e
      let args ← arguments g ctx
      return .inl (.call (← extentFrom start) callee args, chained)
    if ← isAhead "\x60" then
      require (!chained)
      let _ ← plain e
      template g ctx true
      return .inl (← writtenFrom start .taggedTemplate, false)
    if ← eat "?." then
      let base ← plain e
      if ← eat "(" then
        let args ← arguments g ctx
        return .inl (.call (← extentFrom start) base args, true)
      if ← eat "[" then return .inl (← indexOf g ctx start base, true)
      return .inl (← memberOf start base, true)
    return .inr (e, chained)

/-- Reads the calls and members after an expression that begins at `start`. A chain with `?.` is one
node. -/
def chain (g : Readers) (ctx : Context) (start : Cursor) (e : Node) : Parser Node := do
  let (e, chained) ← loop (chainStep g ctx start) (e, false)
  if chained then writtenFrom start .optionalChain else return e

def leftHandSide (g : Readers) (ctx : Context) : Parser Node := do
  chain g ctx (← here) (← primary g ctx)

/-! ### Operators -/

def postfixUpdate (start : Cursor) (e : Node) : Parser Node := do
  match ← ahead with
  | .punct p =>
    match UpdateOp.ofText? p with
    | some op =>
      if ← broken then return e
      require (isSimpleTarget e)
      advance
      return .update (← extentFrom start) op false e
    | none => return e
  | _ => return e

def unaryOp? : Token → Option UnaryOp
  | .punct p => UnaryOp.ofText? p
  | .name w false => UnaryOp.ofText? w
  | _ => none

def updateOp? : Token → Option UpdateOp
  | .punct p => UpdateOp.ofText? p
  | _ => none

def isName : Node → Bool
  | .name .. => true
  | _ => false

/-- Reads an operand with the operators before and after it. A name cannot be deleted. -/
def unary (g : Readers) (ctx : Context) : Parser Node := do
  let start ← here
  let token ← ahead
  match unaryOp? token, updateOp? token with
  | some op, _ =>
    advance
    let operand ← plain (← g.unary ctx)
    require (!(op = .delete && isName operand))
    return .unary (← extentFrom start) op operand
  | none, some op =>
    advance
    let target ← g.unary ctx
    require (isSimpleTarget target)
    return .update (← extentFrom start) op true target
  | none, none =>
    if ctx.awaits && (← isWord "await") then
      advance
      countSuspension
      let operand ← plain (← g.unary ctx)
      return .await (← extentFrom start) operand
    postfixUpdate start (← leftHandSide g ctx)

def binaryOp (ctx : Context) : Parser (Option BinaryOp) := do
  match ← ahead with
  | .punct p => return (BinaryOp.ofText? p)
  | .name w false =>
    match BinaryOp.ofText? w with
    | some .isIn => return if ctx.ins then some .isIn else none
    | op => return op
  | _ => return none

/-- Reads an operand. A private name is one only before `in` and after an operator that binds less
tightly. -/
def operand (g : Readers) (ctx : Context) (after : Option BinaryOp) : Parser Node := do
  match ← ahead with
  | .privateName _ =>
    let start ← here
    advance
    require ((← binaryOp ctx) = some .isIn && after.all (·.precedence < BinaryOp.isIn.precedence))
    writtenFrom start .privateName
  | _ => unary g ctx

def binaryFrom (g : Readers) (ctx : Context) (first : Node) : Parser Node := do
  let rest ← loop (fun rest => do
    match ← binaryOp ctx with
    | none => return .inr rest
    | some op =>
      advance
      return .inl ((op, ← plain (← operand g ctx (some op))) :: rest)) []
  if rest.isEmpty then return first
  match ofOperands? [] (← plain first) rest.reverse with
  | some e => return e
  | none => fail

def conditionalFrom (g : Readers) (ctx : Context) (test : Node) : Parser Node := do
  if ← eat "?" then
    let test ← plain test
    let yes ← g.value ctx.withIn
    expect ":"
    let no ← g.value ctx
    return .conditional (joinExtent test no) test yes no
  else return test

def assignmentOps : List String :=
  ["=", "+=", "-=", "*=", "/=", "%=", "**=", "<<=", ">>=", ">>>=", "&=", "|=", "^=", "&&=", "||=",
    "??="]

/-- Reads the rest of an assignment after its target. Only a plain assignment takes a pattern. -/
def assignmentFrom (g : Readers) (ctx : Context) (start : Cursor) (left : Node) : Parser Node := do
  match ← ahead with
  | .punct op =>
    if assignmentOps.contains op then
      require (if op = "=" then isPattern false left else isSimpleTarget left)
      advance
      let right ← g.value ctx
      return .assign (← extentFrom start) op left right
    else return left
  | _ => return left

def assignmentAfter (g : Readers) (ctx : Context) (start : Cursor) (first : Node) :
    Parser Node := do
  let e ← binaryFrom g ctx first
  let e ← conditionalFrom g ctx e
  assignmentFrom g ctx start e

def assignmentAfterPrimary (g : Readers) (ctx : Context) (start : Cursor) (e : Node) :
    Parser Node := do
  let e ← chain g ctx start e
  assignmentAfter g ctx start (← postfixUpdate start e)

/-- Whether an operand of `yield` may be left out before a token. -/
def endsYield : Token → Bool
  | .punct p => [")", "]", "\x7d", ",", ";", ":"].contains p
  | .name w false => w = "in" || w = "of"
  | .endOfText => true
  | _ => false

def yieldExpr (g : Readers) (ctx : Context) : Parser Node := do
  let start ← here
  advance
  countSuspension
  if !(← broken) then
    if ← eat "*" then
      let _ ← g.value ctx
    else if !endsYield (← ahead) then
      let _ ← g.value ctx
  writtenFrom start .yield

def isBareArrow : Parser Bool := do
  let found ← lookAhead do
    let _ ← bindingName
    isArrow
  return found == some true

/-- The ways in which an expression may begin with `async` without being a function. -/
inductive AsyncHead where
  | bare
  | parens
  | name

def asyncHead : Parser AsyncHead := do
  let found ← lookAhead do
    advance
    if ← broken then return AsyncHead.name
    if ← isAhead "(" then return .parens
    if ← isBareArrow then return .bare
    return .name
  return found.getD .name

def asyncParens (g : Readers) (ctx : Context) : Parser Node := do
  let start ← here
  let before := (← get).suspensions
  advance
  let callee := Node.name (← extentFrom start) "async"
  let c ← cover g ctx
  if ← isArrow then
    require (areParams c.items c.comma)
    arrow g ctx start true (c.items.all isSimpleElement) before
  else
    require (itemsArePlain c.items)
    assignmentAfterPrimary g ctx start (.call (← extentFrom start) callee c.items)

def parens (g : Readers) (ctx : Context) : Parser Node := do
  let start ← here
  let before := (← get).suspensions
  let c ← cover g ctx
  if ← isArrow then
    require (areParams c.items c.comma)
    arrow g ctx start false (c.items.all isSimpleElement) before
  else
    assignmentAfterPrimary g ctx start (← c.toExpr)

/-- Reads an assignment expression, which may still turn out to be a pattern. -/
def assignment (g : Readers) (ctx : Context) : Parser Node := do
  let start ← here
  if ← isAhead "(" then return ← parens g ctx
  if ctx.yields && (← isWord "yield") then return ← yieldExpr g ctx
  if ← isBareArrow then
    advance
    return ← arrow g ctx start false true (← get).suspensions
  if ← isWord "async" then
    match ← asyncHead with
    | .bare =>
      advance
      advance
      return ← arrow g ctx start true true (← get).suspensions
    | .parens => return ← asyncParens g ctx
    | .name => pure ()
  assignmentAfter g ctx start (← operand g ctx none)

end Assay.Grammar
