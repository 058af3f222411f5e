import Assay.Json.Printer

/-!
# Literals with references

A literal is data in JSON form with places for code. A reference is written without quotes, so no
string can be taken for one.
-/

namespace Assay

inductive Literal where
  | string (value : String)
  | number (value : Nat)
  | array (items : List Literal)
  | object (fields : List (String × Literal))
  /-- Code that stands for itself. -/
  | reference (code : String)

namespace Literal

mutual

def chars : Literal → List Char
  | .string value => Json.quote value.toList
  | .number value => Json.natText value
  | .array items => '[' :: itemChars items
  | .object fields => '\x7b' :: fieldChars fields
  | .reference code => code.toList

def itemChars : List Literal → List Char
  | [] => [']']
  | [item] => chars item ++ [']']
  | item :: rest => chars item ++ ',' :: itemChars rest

def fieldChars : List (String × Literal) → List Char
  | [] => ['\x7d']
  | [(key, value)] => Json.quote key.toList ++ ':' :: chars value ++ ['\x7d']
  | (key, value) :: rest =>
    Json.quote key.toList ++ ':' :: chars value ++ ',' :: fieldChars rest

end

def print (l : Literal) : String := String.ofList l.chars

end Literal

end Assay
