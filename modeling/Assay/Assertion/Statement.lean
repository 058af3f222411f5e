import Assay.Assertion.Descriptor
import Assay.Expression.Printer

/-!
# Reading an assertion

An assertion is a module of one statement, a call with one or two arguments. If the first argument
is a comparison, its sides are the operands; the logical operators do not compare, so that what they
skip stays skipped.
-/

namespace Assay

inductive StatementError where
  /-- The statement is no module, or one with something wrong in it. -/
  | invalid (cause : SyntaxError)
  | notACall
  | argumentCount (count : Nat)
  | spreadArgument
  deriving DecidableEq, Repr

namespace StatementError

def message : StatementError → String
  | invalid cause => "statement does not parse: " ++ cause.kind
  | notACall => "statement is not a single call expression"
  | argumentCount count => "expected one or two arguments, found " ++ toString count
  | spreadArgument => "spread arguments are not supported"

end StatementError

/-- An expression as an operand: printed, with its extent in code units. -/
def Printer.operand (p : Printer) (e : Expr) : Operand :=
  ⟨String.ofList (p.print e), p.span e.extent⟩

namespace Assertion

/-- The arguments of the only statement of a module, if that is a call. -/
def callArguments? : List Item → Option (List Argument)
  | [.expression (.call _ _ args)] => some args
  | _ => none

def value? : Argument → Option Expr
  | .value e => some e
  | .spread _ => none

def ofExpressions (p : Printer) (first : Expr) (message : Option Expr) : Assertion :=
  let message := message.map fun e => String.ofList (p.print e)
  match first.stripParens with
  | .binary extent op left right =>
    if op.isLogical then ⟨p.operand (.binary extent op left right), none, message⟩
    else ⟨p.operand left, some ⟨op.text, p.operand right⟩, message⟩
  | e => ⟨p.operand e, none, message⟩

def ofArguments (p : Printer) (args : List Argument) : Except StatementError Assertion :=
  if args.length = 0 ∨ 2 < args.length then .error (.argumentCount args.length)
  else match args.mapM value? with
    | some (first :: rest) => .ok (ofExpressions p first rest.head?)
    | _ => .error .spreadArgument

/-- The items of a module, if nothing was found wrong with it. -/
def itemsOf (parser : ModuleParser) (statement : List Char) : Except SyntaxError (List Item) :=
  match parser.read statement with
  | .error cause => .error cause
  | .ok m =>
    match m.errors with
    | [] => .ok m.items
    | cause :: _ => .error cause

def parse (parser : ModuleParser) (statement : List Char) : Except StatementError Assertion :=
  match itemsOf parser statement with
  | .error cause => .error (.invalid cause)
  | .ok items =>
    match callArguments? items with
    | none => .error .notACall
    | some args => ofArguments ⟨statement, parser.fileStart⟩ args

end Assertion

def describe (parser : ModuleParser) (statement : List Char) (file : String) (position : Position) :
    Except StatementError Descriptor :=
  (Assertion.parse parser statement).map fun assertion =>
    ⟨String.ofList statement, file, position, assertion⟩

end Assay
