import Assay.Assertion.Literal
import Assay.Text.LineIndex
import Assay.Text.Units

/-!
# Assertion descriptors

A descriptor says what an assertion compares and where it stands. The code that replaces the
assertion evaluates each operand once, into a temporary, and then calls the assertion function with
the descriptor.
-/

namespace Assay

/-- One side of an assertion: its code as printed and its place in the statement. -/
structure Operand where
  code : String
  range : Span
  deriving DecidableEq, Repr

structure Comparison where
  operator : String
  right : Operand
  deriving DecidableEq, Repr

structure Assertion where
  left : Operand
  comparison : Option Comparison
  /-- The second argument as printed. -/
  message : Option String
  deriving DecidableEq, Repr

structure Descriptor where
  code : String
  file : String
  position : Position
  assertion : Assertion
  deriving DecidableEq, Repr

/-- The names of the values that the `index`-th instrumented assertion keeps. -/
structure Temporaries where
  index : Nat
  deriving DecidableEq, Repr

namespace Temporaries

def left (t : Temporaries) : String := "_left" ++ toString t.index

def right (t : Temporaries) : String := "_right" ++ toString t.index

def comparison (t : Temporaries) (operator : String) : String :=
  t.left ++ " " ++ operator ++ " " ++ t.right

end Temporaries

namespace Descriptor

def operandLiteral (o : Operand) (value : Literal) : Literal :=
  .object [("code", .string o.code), ("value", value),
    ("range", .array [.number o.range.start, .number o.range.stop])]

def sourceLiteral (d : Descriptor) : Literal :=
  .object [("code", .string d.code), ("file", .string d.file),
    ("position", .object [("line", .number d.position.line), ("column", .number d.position.column)])]

/-- The descriptor as an argument, with the temporaries in the places of the values. -/
def toLiteral (d : Descriptor) (t : Temporaries) : Literal :=
  let compared := match d.assertion.comparison with
    | none => [("value", Literal.reference t.left)]
    | some c =>
      [("value", .reference (t.comparison c.operator)), ("operator", .string c.operator),
        ("right", operandLiteral c.right (.reference t.right))]
  let message := match d.assertion.message with
    | none => []
    | some m => [("message", Literal.string m)]
  .object <| [("source", d.sourceLiteral),
    ("left", operandLiteral d.assertion.left (.reference t.left))] ++ compared ++ message

/-- The statements that replace the assertion: a constant for each operand and the call. -/
def replacement (d : Descriptor) (callee : String) (t : Temporaries) : String :=
  let right := match d.assertion.comparison with
    | none => ""
    | some c => "\nconst " ++ t.right ++ " = " ++ c.right.code ++ ";"
  let message := match d.assertion.message with
    | none => ""
    | some m => ", " ++ m
  "const " ++ t.left ++ " = " ++ d.assertion.left.code ++ ";" ++ right ++
    "\n" ++ callee ++ "(" ++ (d.toLiteral t).print ++ message ++ ");"

end Descriptor

end Assay
