import Assay.Expression.Basic
import Assay.Text.Units

/-!
# Printing expressions

Expressions are printed on one line with spaces of their own, and the nodes that have no form of
their own with their text in the source. `joinOperator` keeps an operator apart from an operand that
begins with the same sign, and `Quoted.doubleQuoted` turns a string literal in single quotes into one
in double quotes with the same escapes.
-/

namespace Assay

namespace Quoted

/-- The inside of a literal in single quotes as the inside of one in double quotes: a single quote
needs no escape and a double quote does. -/
def requote : List Char → List Char
  | [] => []
  | '\\' :: '\'' :: r => '\'' :: requote r
  | '\\' :: c :: r => '\\' :: c :: requote r
  | '"' :: r => '\\' :: '"' :: requote r
  | c :: r => c :: requote r

def doubleQuoted (raw : List Char) : List Char :=
  match raw with
  | '\'' :: r => if r.isEmpty then raw else '"' :: requote r.dropLast ++ ['"']
  | _ => raw

end Quoted

namespace Expr

/-- An operator and its operand, with a space between two equal signs. -/
def joinOperator (op operand : List Char) : List Char :=
  match op.getLast?, operand.head? with
  | some last, some first =>
    if last = first ∧ (last = '+' ∨ last = '-') then op ++ ' ' :: operand else op ++ operand
  | _, _ => op ++ operand

def unaryText (op : UnaryOp) : List Char :=
  if op.isWord then op.text.toList ++ [' '] else op.text.toList

end Expr

open Assay.Expr

/-- The text that expressions were read from, with the number of its first byte. -/
structure Printer where
  source : List Char
  fileStart : Nat

namespace Printer

/-- The bytes of an extent, which ends with the source at the latest. -/
def byteRange (p : Printer) (extent : Extent) : Nat × Nat :=
  let stop := min (extent.hi - p.fileStart) (Text.bytes p.source)
  (min (extent.lo - p.fileStart) stop, stop)

/-- The code units of an extent. -/
def span (p : Printer) (extent : Extent) : Span :=
  let (start, stop) := p.byteRange extent
  ⟨Text.units (Text.splitAtByte start p.source).1, Text.units (Text.splitAtByte stop p.source).1⟩

/-- The text of an extent; none if a character stands across one of its ends. -/
def raw (p : Printer) (extent : Extent) : List Char :=
  let (start, stop) := p.byteRange extent
  (Text.slice? start stop p.source).getD []

mutual

def print (p : Printer) : Expr → List Char
  | .name _ text => text.toList
  | .this _ => "this".toList
  | .string extent => Quoted.doubleQuoted (p.raw extent)
  | .array _ items => '[' :: p.printItems items
  | .object _ members => '\x7b' :: p.printMembers members
  | .unary _ op operand => joinOperator (unaryText op) (p.print operand)
  | .update _ op true target => joinOperator op.text.toList (p.print target)
  | .update _ op false target => p.print target ++ op.text.toList
  | .binary _ op left right => p.print left ++ ' ' :: op.text.toList ++ ' ' :: p.print right
  | .conditional _ test yes no =>
    p.print test ++ " ? ".toList ++ p.print yes ++ " : ".toList ++ p.print no
  | .call _ callee args => p.print callee ++ '(' :: p.printArgs args
  | .new _ callee none => "new ".toList ++ p.print callee
  | .new _ callee (some args) => "new ".toList ++ p.print callee ++ '(' :: p.printArgs args
  | .member _ base property => p.print base ++ p.printProperty property
  | .paren _ inner => '(' :: p.print inner ++ [')']
  | .sequence _ items => p.printSequence items
  | .await _ operand => "await ".toList ++ p.print operand
  | .other extent => p.raw extent

def printArgument (p : Printer) : Argument → List Char
  | .value e => p.print e
  | .spread e => "...".toList ++ p.print e

/-- The rest of an array after its opening bracket. A hole at the end has a comma of its own. -/
def printItems (p : Printer) : List (Option Argument) → List Char
  | [] => [']']
  | [none] => [',', ']']
  | [some item] => p.printArgument item ++ [']']
  | none :: rest => ',' :: ' ' :: p.printItems rest
  | some item :: rest => p.printArgument item ++ ',' :: ' ' :: p.printItems rest

def printArgs (p : Printer) : List Argument → List Char
  | [] => [')']
  | [arg] => p.printArgument arg ++ [')']
  | arg :: rest => p.printArgument arg ++ ',' :: ' ' :: p.printArgs rest

def printSequence (p : Printer) : List Expr → List Char
  | [] => []
  | [e] => p.print e
  | e :: rest => p.print e ++ ',' :: ' ' :: p.printSequence rest

def printProperty (p : Printer) : Property → List Char
  | .name text => '.' :: text.toList
  | .computed e => '[' :: p.print e ++ [']']
  | .privateName extent => '.' :: p.raw extent

def printKey (p : Printer) : Key → List Char
  | .name text => text.toList
  | .string extent => Quoted.doubleQuoted (p.raw extent)
  | .computed e => '[' :: p.print e ++ [']']
  | .other extent => p.raw extent

def printMember (p : Printer) : Member → List Char
  | .shorthand text => text.toList
  | .keyed key value => p.printKey key ++ ':' :: ' ' :: p.print value
  | .spread e => "...".toList ++ p.print e
  | .other extent => p.raw extent

def printMembers (p : Printer) : List Member → List Char
  | [] => ['\x7d']
  | [m] => p.printMember m ++ ['\x7d']
  | m :: rest => p.printMember m ++ ',' :: ' ' :: p.printMembers rest

end

end Printer

end Assay
