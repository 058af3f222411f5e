/-!
# JSON values

Object fields keep the order in which they are written. A number is an integer if it is spelled as
one; any other spelling is kept as it stands. A record is written as an object of its fields in any
order, or as an array of them in the order of their declaration; `slots?` brings both to one list
with a slot for each field.
-/

namespace Assay

inductive Json where
  | null
  | bool (value : Bool)
  | int (value : Int)
  /-- A number with a fraction or an exponent, or negative zero, as spelled. -/
  | real (spelling : String)
  | string (value : String)
  /-- A string that holds half of a surrogate pair and is therefore no text. -/
  | unpaired
  | array (items : List Json)
  | object (fields : List (String × Json))

namespace Json

def nat (n : Nat) : Json := .int n

def ofOption (f : α → Json) : Option α → Json
  | none => .null
  | some a => f a

def strings (items : List String) : Json := .array (items.map .string)

/-! ### Records -/

def valuesOf (name : String) (fields : List (String × Json)) : List Json :=
  fields.filterMap fun (key, value) => if key = name then some value else none

/-- The slot of one field of an object; a field written twice gives `none`. -/
def slot? (fields : List (String × Json)) (name : String) : Option (Option Json) :=
  match valuesOf name fields with
  | [] => some none
  | [value] => some (some value)
  | _ => none

/-- One slot for each name. Unknown fields of an object are ignored; an array may be shorter than
the names but not longer. -/
def slots? (names : List String) : Json → Option (List (Option Json))
  | .object fields => names.mapM (slot? fields)
  | .array items =>
    if items.length ≤ names.length then
      some (items.map some ++ List.replicate (names.length - items.length) none)
    else none
  | _ => none

def text? : Json → Option String
  | .string value => some value
  | _ => none

def word? : Json → Option Nat
  | .int value => if 0 ≤ value ∧ value < 0x100000000 then some value.toNat else none
  | _ => none

def nullable? (read : Json → Option α) : Json → Option (Option α)
  | .null => some none
  | value => (read value).map some

def list? (read : Json → Option α) : Json → Option (List α)
  | .array items => items.mapM read
  | _ => none

def required? (read : Json → Option α) (slot : Option Json) : Option α := slot.bind read

def orElse? (read : Json → Option α) (default : α) : Option Json → Option α
  | none => some default
  | some value => read value

end Json

end Assay
