import Assay.Expression.Basic

/-!
# Trees of the grammar

The grammar keeps more of an expression than is printed of it, to tell patterns from values.
`Node.toExpr` forgets the rest.
-/

namespace Assay

/-! ### Operators as they are read -/

namespace BinaryOp

def all : List BinaryOp :=
  [equal, notEqual, strictEqual, strictNotEqual, less, lessEqual, greater, greaterEqual, shiftLeft,
    shiftRight, shiftRightUnsigned, add, subtract, multiply, divide, remainder, power, bitOr, bitXor,
    bitAnd, logicalOr, logicalAnd, coalesce, isIn, isInstance]

def ofText? (s : String) : Option BinaryOp := all.find? (·.text = s)

def precedence : BinaryOp → Nat
  | coalesce | logicalOr => 1
  | logicalAnd => 2
  | bitOr => 3
  | bitXor => 4
  | bitAnd => 5
  | equal | notEqual | strictEqual | strictNotEqual => 6
  | less | lessEqual | greater | greaterEqual | isIn | isInstance => 7
  | shiftLeft | shiftRight | shiftRightUnsigned => 8
  | add | subtract => 9
  | multiply | divide | remainder => 10
  | power => 11

end BinaryOp

def UnaryOp.ofText? (s : String) : Option UnaryOp :=
  [minus, plus, not, complement, typeOf, void, delete].find? (·.text = s)

def UpdateOp.ofText? (s : String) : Option UpdateOp := [increment, decrement].find? (·.text = s)

namespace Grammar

/-- The nodes of which no more is kept than their extent. -/
inductive WrittenKind where
  /-- A number, a regular expression, a truth value or null. -/
  | literal
  | template
  | taggedTemplate
  | functionExpr
  | arrow
  | classExpr
  | yield
  | optionalChain
  | importCall
  /-- `new.target` or `import.meta`. -/
  | metaProperty
  | superCall
  | superMember
  /-- A private name before `in`. -/
  | privateName
  deriving DecidableEq, Repr

mutual

inductive Node where
  | name (extent : Extent) (text : String)
  | this (extent : Extent)
  | string (extent : Extent) (raw : String)
  | written (extent : Extent) (kind : WrittenKind)
  | array (extent : Extent) (items : List Element)
  | object (extent : Extent) (members : List Member)
  | unary (extent : Extent) (op : UnaryOp) (operand : Node)
  | update (extent : Extent) (op : UpdateOp) (before : Bool) (target : Node)
  | binary (extent : Extent) (op : BinaryOp) (left right : Node)
  | assign (extent : Extent) (op : String) (left right : Node)
  | conditional (extent : Extent) (test yes no : Node)
  | call (extent : Extent) (callee : Node) (args : List Element)
  | new (extent : Extent) (callee : Node) (args : Option (List Element))
  | member (extent : Extent) (base : Node) (property : String)
  | privateMember (extent : Extent) (base : Node) (name : Extent)
  | index (extent : Extent) (base property : Node)
  | paren (extent : Extent) (inner : Node)
  | sequence (extent : Extent) (items : List Node)
  | await (extent : Extent) (operand : Node)

inductive Element where
  | hole
  | item (e : Node)
  /-- `comma` says that a comma follows, which no pattern allows. -/
  | spread (e : Node) (comma : Bool)

inductive Member where
  | shorthand (name : String)
  /-- A shorthand with an initial value, which only a pattern may have. -/
  | initialized (extent : Extent) (name : String)
  | keyed (key : Key) (value : Node)
  | spread (e : Node) (comma : Bool)
  | method (extent : Extent)

inductive Key where
  | name (text : String)
  | string (extent : Extent) (raw : String)
  | number (extent : Extent)
  | computed (e : Node)

end

/-- A statement or declaration of a script. Only what assertions are looked for in has a tree. -/
inductive Item where
  | expression (e : Node)
  | other

namespace Node

def extent : Node → Extent
  | name p _ | this p | string p _ | written p _ | array p _ | object p _ | unary p _ _
  | update p _ _ _ | binary p _ _ _ | assign p _ _ _ | conditional p _ _ _ | call p _ _
  | new p _ _ | member p _ _ | privateMember p _ _ | index p _ _ | paren p _ | sequence p _
  | await p _ => p

mutual

def toExpr : Node → Expr
  | .name p text => .name p text
  | .this p => .this p
  | .string p _ => .string p
  | .written p _ | .assign p _ _ _ => .other p
  | .array p items => .array p (toItems items)
  | .object p members => .object p (toMembers members)
  | .unary p op operand => .unary p op operand.toExpr
  | .update p op before target => .update p op before target.toExpr
  | .binary p op left right => .binary p op left.toExpr right.toExpr
  | .conditional p test yes no => .conditional p test.toExpr yes.toExpr no.toExpr
  | .call p callee args => .call p callee.toExpr (toArguments args)
  | .new p callee none => .new p callee.toExpr none
  | .new p callee (some args) => .new p callee.toExpr (some (toArguments args))
  | .member p base property => .member p base.toExpr (.name property)
  | .privateMember p base property => .member p base.toExpr (.privateName property)
  | .index p base property => .member p base.toExpr (.computed property.toExpr)
  | .paren p inner => .paren p inner.toExpr
  | .sequence p items => .sequence p (toSequence items)
  | .await p operand => .await p operand.toExpr

def toItems : List Element → List (Option Argument)
  | [] => []
  | .hole :: rest => none :: toItems rest
  | .item e :: rest => some (.value e.toExpr) :: toItems rest
  | .spread e _ :: rest => some (.spread e.toExpr) :: toItems rest

/-- Arguments have no holes. -/
def toArguments : List Element → List Argument
  | [] => []
  | .hole :: rest => toArguments rest
  | .item e :: rest => .value e.toExpr :: toArguments rest
  | .spread e _ :: rest => .spread e.toExpr :: toArguments rest

def toSequence : List Node → List Expr
  | [] => []
  | e :: rest => e.toExpr :: toSequence rest

def toMembers : List Member → List Assay.Member
  | [] => []
  | .shorthand text :: rest => .shorthand text :: toMembers rest
  | .initialized p _ :: rest | .method p :: rest => .other p :: toMembers rest
  | .keyed key value :: rest => .keyed (toKey key) value.toExpr :: toMembers rest
  | .spread e _ :: rest => .spread e.toExpr :: toMembers rest

def toKey : Key → Assay.Key
  | .name text => .name text
  | .string p _ => .string p
  | .number p => .other p
  | .computed e => .computed e.toExpr

end

end Node

def Item.toItem : Item → Assay.Item
  | .expression e => .expression e.toExpr
  | .other => .other

end Grammar

end Assay
