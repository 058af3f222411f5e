import Assay.Json.Record

/-!
# Reading JSON

`read?` accepts one document of strict JSON with white space around it. Each function reads from
the front of a text and answers what it read together with the rest.
-/

namespace Assay.Json

def isSpace (c : Char) : Bool := c == ' ' || c == '\n' || c == '\t' || c == '\r'

def skipSpace (s : List Char) : List Char := s.dropWhile isSpace

def hexValue? (c : Char) : Option Nat :=
  let n := c.toNat
  if 48 ≤ n ∧ n ≤ 57 then some (n - 48)
  else if 97 ≤ n ∧ n ≤ 102 then some (n - 87)
  else if 65 ≤ n ∧ n ≤ 70 then some (n - 55)
  else none

def hex4? (a b c d : Char) : Option Nat := do
  let a ← hexValue? a
  let b ← hexValue? b
  let c ← hexValue? c
  let d ← hexValue? d
  return ((a * 16 + b) * 16 + c) * 16 + d

def unescape? (c : Char) : Option Char :=
  if c = '"' ∨ c = '\\' ∨ c = '/' then some c
  else if c = 'n' then some '\n'
  else if c = 'r' then some '\r'
  else if c = 't' then some '\t'
  else if c = 'b' then some '\x08'
  else if c = 'f' then some '\x0c'
  else none

/-- Reads a string after its opening quote, as code points and, for `\u` escapes, code units;
`acc` holds what was read before, last first. -/
def stringBody (acc : List Nat) : List Char → Option (List Nat × List Char)
  | [] => none
  | '"' :: r => some (acc.reverse, r)
  | '\\' :: 'u' :: a :: b :: c :: d :: r => (hex4? a b c d).bind fun n => stringBody (n :: acc) r
  | '\\' :: e :: r => (unescape? e).bind fun c => stringBody (c.toNat :: acc) r
  | c :: r => if c.toNat < 0x20 ∨ c = '\\' then none else stringBody (c.toNat :: acc) r

/-- Joins surrogate pairs; a half without its other half gives `none`. -/
def joinUnits : List Nat → Option (List Char)
  | [] => some []
  | n :: r =>
    if 0xD800 ≤ n ∧ n < 0xDC00 then
      match r with
      | m :: r =>
        if 0xDC00 ≤ m ∧ m < 0xE000 then
          (joinUnits r).map (Char.ofNat (0x10000 + (n - 0xD800) * 0x400 + (m - 0xDC00)) :: ·)
        else none
      | [] => none
    else if 0xDC00 ≤ n ∧ n < 0xE000 then none
    else (joinUnits r).map (Char.ofNat n :: ·)

def digits (s : List Char) : List Char × List Char :=
  (s.takeWhile Char.isDigit, s.dropWhile Char.isDigit)

def digitsValue (s : List Char) : Nat := s.foldl (fun n c => n * 10 + (c.toNat - 48)) 0

/-- The fraction and the exponent at the front of a text; an unfinished one gives `none`. -/
def fractionExponent? (s : List Char) : Option (List Char × List Char) := do
  let (fraction, r) ← match s with
    | '.' :: r =>
      let (ds, r) := digits r
      if ds.isEmpty then none else some ('.' :: ds, r)
    | r => some ([], r)
  let (exponent, r) ← match r with
    | c :: r' =>
      if c = 'e' ∨ c = 'E' then
        let (sign, r') := match r' with
          | '+' :: q => (['+'], q)
          | '-' :: q => (['-'], q)
          | q => ([], q)
        let (ds, q) := digits r'
        if ds.isEmpty then none else some (c :: sign ++ ds, q)
      else some ([], r)
    | [] => some ([], r)
  return (fraction ++ exponent, r)

/-- A number at the front of a text: no leading zeros, and digits around a point. -/
def number? (s : List Char) : Option (Json × List Char) := do
  let (negative, s) := match s with
    | '-' :: r => (true, r)
    | r => (false, r)
  let (whole, r) := match s with
    | '0' :: r => (['0'], r)
    | r => digits r
  if whole.isEmpty then none
  else
    let (tail, rest) ← fractionExponent? r
    if tail.isEmpty ∧ ¬ (negative ∧ whole = ['0']) then
      let n : Int := digitsValue whole
      return (.int (if negative then -n else n), rest)
    else
      return (.real (String.ofList ((if negative then ['-'] else []) ++ whole ++ tail)), rest)

mutual

def value? : Nat → List Char → Option (Json × List Char)
  | 0, _ => none
  | fuel + 1, s =>
    match skipSpace s with
    | 'n' :: 'u' :: 'l' :: 'l' :: r => some (.null, r)
    | 't' :: 'r' :: 'u' :: 'e' :: r => some (.bool true, r)
    | 'f' :: 'a' :: 'l' :: 's' :: 'e' :: r => some (.bool false, r)
    | '"' :: r => (stringBody [] r).map fun (units, rest) =>
        match joinUnits units with
        | some text => (.string (String.ofList text), rest)
        | none => (.unpaired, rest)
    | '[' :: r =>
      match skipSpace r with
      | ']' :: rest => some (.array [], rest)
      | _ => (items? fuel r).map fun (items, rest) => (.array items, rest)
    | '\x7b' :: r =>
      match skipSpace r with
      | '\x7d' :: rest => some (.object [], rest)
      | _ => (fields? fuel r).map fun (fields, rest) => (.object fields, rest)
    | r => number? r

def items? : Nat → List Char → Option (List Json × List Char)
  | 0, _ => none
  | fuel + 1, s => do
    let (item, r) ← value? fuel s
    match skipSpace r with
    | ',' :: r =>
      let (items, rest) ← items? fuel r
      return (item :: items, rest)
    | ']' :: rest => return ([item], rest)
    | _ => none

def fields? : Nat → List Char → Option (List (String × Json) × List Char)
  | 0, _ => none
  | fuel + 1, s =>
    match skipSpace s with
    | '"' :: r => do
      let (units, r) ← stringBody [] r
      let key ← joinUnits units
      match skipSpace r with
      | ':' :: r =>
        let (value, r) ← value? fuel r
        match skipSpace r with
        | ',' :: r =>
          let (fields, rest) ← fields? fuel r
          return ((String.ofList key, value) :: fields, rest)
        | '\x7d' :: rest => return ([(String.ofList key, value)], rest)
        | _ => none
      | _ => none
    | _ => none

end

/-- Reads a document. Each value costs at least one character for two calls, so the fuel is never
what ends the reading. -/
def read? (s : List Char) : Option Json :=
  match value? (2 * s.length + 2) s with
  | some (value, rest) => if (skipSpace rest).isEmpty then some value else none
  | none => none

end Assay.Json
