import Assay.Grammar.Tree

/-!
# Binary operators

Operands and the operators between them are read as a flat list. `ofOperands?` builds the tree by
precedence: operators of one precedence group to the left, powers to the right.
-/

namespace Assay.Grammar

def joinExtent (left right : Node) : Extent := ⟨left.extent.lo, right.extent.hi⟩

/-- Whether an operator may join these operands as they stand. A unary operand needs parentheses
before a power, and `??` does not mix with the other logical operators. -/
def admits (op : BinaryOp) (left right : Node) : Bool :=
  match op, left, right with
  | .power, .unary .., _ | .power, .await .., _ => false
  | .coalesce, .binary _ o _ _, .binary _ p _ _ =>
    o ≠ .logicalOr && o ≠ .logicalAnd && p ≠ .logicalOr && p ≠ .logicalAnd
  | .coalesce, .binary _ o _ _, _ => o ≠ .logicalOr && o ≠ .logicalAnd
  | .coalesce, _, .binary _ o _ _ => o ≠ .logicalOr && o ≠ .logicalAnd
  | .logicalOr, .binary _ o _ _, .binary _ p _ _ | .logicalAnd, .binary _ o _ _, .binary _ p _ _ =>
    o ≠ .coalesce && p ≠ .coalesce
  | .logicalOr, .binary _ o _ _, _ | .logicalAnd, .binary _ o _ _, _ => o ≠ .coalesce
  | .logicalOr, _, .binary _ o _ _ | .logicalAnd, _, .binary _ o _ _ => o ≠ .coalesce
  | _, _, _ => true

def join? (op : BinaryOp) (left right : Node) : Option Node :=
  if admits op left right then some (.binary (joinExtent left right) op left right) else none

def joinsBefore (waiting next : BinaryOp) : Bool :=
  next.precedence < waiting.precedence || (waiting.precedence == next.precedence && next != .power)

/-- Joins the waiting operands, latest first, to `right` as long as their operators bind before
`next`, or all of them if nothing comes next. -/
def reduce? (next : Option BinaryOp) :
    List (Node × BinaryOp) → Node → Option (List (Node × BinaryOp) × Node)
  | [], right => some ([], right)
  | (left, op) :: waiting, right =>
    if next.all (joinsBefore op) then (join? op left right).bind (reduce? next waiting)
    else some ((left, op) :: waiting, right)

/-- The tree of an operand and the operators and operands after it. -/
def ofOperands? (waiting : List (Node × BinaryOp)) (e : Node) :
    List (BinaryOp × Node) → Option Node
  | [] => (reduce? none waiting e).map (·.2)
  | (op, next) :: rest =>
    (reduce? (some op) waiting e).bind fun (waiting, e) => ofOperands? ((e, op) :: waiting) next rest

end Assay.Grammar
