import Assay.Grammar.Statement

/-!
# Modules

The productions of imports and exports, and the grammar as a whole: `readers` ties the productions
together up to a depth of nesting, and `parser` reads a text as a module. What a production
contains begins after a token of its own, save that a statement may be an expression, so twice the
length of the text bounds the depth.
-/

namespace Assay.Grammar

/-- The grammar up to a depth of nesting. -/
def readers : Nat → Readers
  | 0 => ⟨fun _ => fail, fun _ => fail, fun _ => fail, fun _ => fail, fun _ _ => fail⟩
  | depth + 1 =>
    let g := readers depth
    ⟨assignment g, unary g, leftHandSide g, primary g, statement g⟩

/-! ### Imports and exports -/

def moduleName : Parser Unit := do
  match ← ahead with
  | .string _ => advance
  | _ => fail

/-- Reads a name by which a module exports: a name, a keyword or a string. -/
def exportName : Parser Unit := do
  match ← ahead with
  | .string _ => advance
  | _ => let _ ← anyName

def bracedList (item : Parser Unit) : Parser Unit := do
  expect "\x7b"
  loop (fun () => do
    if ← eat "\x7d" then return .inr ()
    item
    if ← eat "," then return .inl ()
    expect "\x7d"
    return .inr ()) ()

def importItem : Parser Unit := do
  let renamed ← lookAhead do
    exportName
    isWord "as"
  if renamed == some true then
    exportName
    advance
  let _ ← bindingName

def importNames : Parser Unit := do
  if ← eat "*" then
    expectWord "as"
    let _ ← bindingName
  else bracedList importItem

def importDeclaration : Parser Unit := do
  advance
  match ← ahead with
  | .string _ => moduleName
  | .name .. =>
    let _ ← bindingName
    if ← eat "," then importNames
    expectWord "from"
    moduleName
  | _ =>
    importNames
    expectWord "from"
    moduleName
  endStatement

/-- Reads one exported name; the answer says whether it may name a binding of this module. -/
def exportItem : Parser Bool := do
  let isBinding ← match ← ahead with
    | .name w _ => pure (!isReserved w)
    | _ => pure false
  exportName
  if ← eatWord "as" then exportName
  return isBinding

/-- Reads exported names in braces and the module they come from, if they do not name bindings of
this one. -/
def exportNames : Parser Unit := do
  expect "\x7b"
  let bindings ← loop (fun bindings => do
    if ← eat "\x7d" then return .inr bindings
    let bindings := (← exportItem) && bindings
    if ← eat "," then return .inl bindings
    expect "\x7d"
    return .inr bindings) true
  if ← eatWord "from" then moduleName else require bindings
  endStatement

def exportDefault (g : Readers) (ctx : Context) : Parser Unit := do
  if ← isWord "function" then function g false false
  else if ← isAsyncFunction then
    advance
    function g true false
  else if ← isWord "class" then classRest g ctx false
  else
    let _ ← g.value ctx
    endStatement

def exportDeclaration (g : Readers) (ctx : Context) : Parser Unit := do
  advance
  if ← eatWord "default" then exportDefault g ctx
  else if ← eat "*" then
    if ← eatWord "as" then exportName
    expectWord "from"
    moduleName
    endStatement
  else if ← isAhead "\x7b" then exportNames
  else
    let declares ← match ← ahead with
      | .name w false => pure (["var", "let", "const", "function", "class"].contains w)
      | _ => pure false
    require (declares || (← isAsyncFunction))
    let _ ← g.statement ctx true

def moduleItem (g : Readers) : Parser Item := do
  if ← isWord "export" then
    exportDeclaration g .module
    return .other
  if ← isWord "import" then
    if !(← isImportExpression) then
      importDeclaration
      return .other
  g.statement .module true

def moduleItems (g : Readers) : Parser (List Item) := do
  let items ← loop (fun items => do
    if (← ahead) = .endOfText then return .inr items
    return .inl ((← moduleItem g) :: items)) []
  return items.reverse

/-- The text after a first line that begins with `#!`. -/
def afterHashbang (s : List Char) : List Char :=
  match s with
  | '#' :: '!' :: r => r.dropWhile (!Token.isLineBreak ·)
  | _ => s

def syntaxError (f : Failure) : SyntaxError := ⟨"unexpected token at byte " ++ toString f.offset⟩

/-- The statements of a text. Its bytes are counted from one. -/
def readItems (s : List Char) : Except SyntaxError (List Item) :=
  let start := Cursor.moveTo ⟨s, 1⟩ (afterHashbang s)
  match Token.next? start true with
  | none => .error (syntaxError ⟨start.offset⟩)
  | some ahead =>
    match moduleItems (readers (2 * s.length + 2)) ⟨ahead, start, 0⟩ with
    | .ok (items, _) => .ok items
    | .error f => .error (syntaxError f)

def parser : ModuleParser where
  fileStart := 1
  read s := (readItems s).map fun items => ⟨items.map Item.toItem, []⟩

end Assay.Grammar
