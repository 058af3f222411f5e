/-!
# Expressions

What a parser of modules answers, as far as assertions are read from it: the tree of an expression,
in which every node has the extent of its text. A `ModuleParser` is known by its answers alone.
-/

namespace Assay

/-- From one byte up to another one. A parser may count the bytes of a text from any number on. -/
structure Extent where
  lo : Nat
  hi : Nat
  deriving DecidableEq, Repr

inductive BinaryOp where
  | equal
  | notEqual
  | strictEqual
  | strictNotEqual
  | less
  | lessEqual
  | greater
  | greaterEqual
  | shiftLeft
  | shiftRight
  | shiftRightUnsigned
  | add
  | subtract
  | multiply
  | divide
  | remainder
  | power
  | bitOr
  | bitXor
  | bitAnd
  | logicalOr
  | logicalAnd
  | coalesce
  | isIn
  | isInstance
  deriving DecidableEq, Repr

namespace BinaryOp

def text : BinaryOp → String
  | equal => "=="
  | notEqual => "!="
  | strictEqual => "==="
  | strictNotEqual => "!=="
  | less => "<"
  | lessEqual => "<="
  | greater => ">"
  | greaterEqual => ">="
  | shiftLeft => "<<"
  | shiftRight => ">>"
  | shiftRightUnsigned => ">>>"
  | add => "+"
  | subtract => "-"
  | multiply => "*"
  | divide => "/"
  | remainder => "%"
  | power => "**"
  | bitOr => "|"
  | bitXor => "^"
  | bitAnd => "&"
  | logicalOr => "||"
  | logicalAnd => "&&"
  | coalesce => "??"
  | isIn => "in"
  | isInstance => "instanceof"

/-- The operators that may leave their right side unevaluated. -/
def isLogical : BinaryOp → Bool
  | logicalOr | logicalAnd | coalesce => true
  | _ => false

end BinaryOp

inductive UnaryOp where
  | minus
  | plus
  | not
  | complement
  | typeOf
  | void
  | delete
  deriving DecidableEq, Repr

namespace UnaryOp

def text : UnaryOp → String
  | minus => "-"
  | plus => "+"
  | not => "!"
  | complement => "~"
  | typeOf => "typeof"
  | void => "void"
  | delete => "delete"

def isWord : UnaryOp → Bool
  | typeOf | void | delete => true
  | _ => false

end UnaryOp

inductive UpdateOp where
  | increment
  | decrement
  deriving DecidableEq, Repr

namespace UpdateOp

def text : UpdateOp → String
  | increment => "++"
  | decrement => "--"

end UpdateOp

mutual

inductive Expr where
  | name (extent : Extent) (text : String)
  | this (extent : Extent)
  | string (extent : Extent)
  /-- A hole of an array has no value. -/
  | array (extent : Extent) (items : List (Option Argument))
  | object (extent : Extent) (members : List Member)
  | unary (extent : Extent) (op : UnaryOp) (operand : Expr)
  /-- `before` says that the operator stands before its target. -/
  | update (extent : Extent) (op : UpdateOp) (before : Bool) (target : Expr)
  | binary (extent : Extent) (op : BinaryOp) (left right : Expr)
  | conditional (extent : Extent) (test yes no : Expr)
  | call (extent : Extent) (callee : Expr) (args : List Argument)
  /-- A construction, perhaps without arguments. -/
  | new (extent : Extent) (callee : Expr) (args : Option (List Argument))
  | member (extent : Extent) (base : Expr) (property : Property)
  | paren (extent : Extent) (inner : Expr)
  | sequence (extent : Extent) (items : List Expr)
  | await (extent : Extent) (operand : Expr)
  /-- A number, a regular expression, a template, a function, a class, an assignment, an optional
  chain, a call of `super` or `import`, or another node that is printed as it was written. -/
  | other (extent : Extent)

inductive Argument where
  | value (e : Expr)
  | spread (e : Expr)

inductive Property where
  | name (text : String)
  | computed (e : Expr)
  | privateName (extent : Extent)

inductive Member where
  | shorthand (name : String)
  | keyed (key : Key) (value : Expr)
  | spread (e : Expr)
  /-- A method, a getter or a setter. -/
  | other (extent : Extent)

inductive Key where
  | name (text : String)
  | string (extent : Extent)
  | computed (e : Expr)
  /-- A number. -/
  | other (extent : Extent)

end

namespace Expr

def extent : Expr → Extent
  | name p _ | this p | string p | array p _ | object p _ | unary p _ _ | update p _ _ _
  | binary p _ _ _ | conditional p _ _ _ | call p _ _ | new p _ _ | member p _ _ | paren p _
  | sequence p _ | await p _ | other p => p

def stripParens : Expr → Expr
  | paren _ inner => stripParens inner
  | e => e

end Expr

/-! ### Parsers -/

/-- A statement or declaration of a module. -/
inductive Item where
  | expression (e : Expr)
  | other

/-- Why a text is no module, as the parser calls it. -/
structure SyntaxError where
  kind : String
  deriving DecidableEq, Repr

structure ParsedModule where
  items : List Item
  /-- What was found wrong and read over. -/
  errors : List SyntaxError

structure ModuleParser where
  /-- The number of the first byte of a text. -/
  fileStart : Nat
  read : List Char → Except SyntaxError ParsedModule

end Assay
