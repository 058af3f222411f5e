import Assay.Json.Record

/-!
# Writing JSON

`compact` writes a value without any white space, `pretty` with two spaces to a level. Strings
escape the quote, the backslash and the control characters below the space, and nothing else.
-/

namespace Assay.Json

def hexDigit (n : Nat) : Char := Nat.digitChar n

def escape (c : Char) : List Char :=
  if c = '"' then ['\\', '"']
  else if c = '\\' then ['\\', '\\']
  else if c.toNat < 0x20 then
    if c = '\n' then ['\\', 'n']
    else if c = '\r' then ['\\', 'r']
    else if c = '\t' then ['\\', 't']
    else if c.toNat = 8 then ['\\', 'b']
    else if c.toNat = 12 then ['\\', 'f']
    else ['\\', 'u', '0', '0', hexDigit (c.toNat / 16), hexDigit (c.toNat % 16)]
  else [c]

def quote (s : List Char) : List Char := '"' :: s.flatMap escape ++ ['"']

def natText (n : Nat) : List Char := Nat.toDigits 10 n

def intText : Int → List Char
  | .ofNat n => natText n
  | .negSucc n => '-' :: natText (n + 1)

def scalar : Json → List Char
  | .null => "null".toList
  | .bool true => "true".toList
  | .bool false => "false".toList
  | .int value => intText value
  | .real spelling => spelling.toList
  | .string value => quote value.toList
  | _ => "\"\"".toList

mutual

def compactChars : Json → List Char
  | .array items => '[' :: compactItems items
  | .object fields => '\x7b' :: compactFields fields
  | .null => scalar .null
  | .bool value => scalar (.bool value)
  | .int value => scalar (.int value)
  | .real spelling => scalar (.real spelling)
  | .string value => scalar (.string value)
  | .unpaired => scalar .unpaired

def compactItems : List Json → List Char
  | [] => [']']
  | [item] => compactChars item ++ [']']
  | item :: rest => compactChars item ++ ',' :: compactItems rest

def compactFields : List (String × Json) → List Char
  | [] => ['\x7d']
  | [(key, value)] => quote key.toList ++ ':' :: compactChars value ++ ['\x7d']
  | (key, value) :: rest =>
    quote key.toList ++ ':' :: compactChars value ++ ',' :: compactFields rest

end

theorem compactChars_int (value : Int) : compactChars (.int value) = intText value := rfl

theorem compactChars_string (value : String) :
    compactChars (.string value) = quote value.toList := rfl

theorem compactChars_array (items : List Json) :
    compactChars (.array items) = '[' :: compactItems items := rfl

theorem compactChars_object (fields : List (String × Json)) :
    compactChars (.object fields) = '\x7b' :: compactFields fields := rfl

theorem compactItems_singleton (x : Json) : compactItems [x] = compactChars x ++ [']'] := rfl

theorem compactItems_cons_cons (x y : Json) (r : List Json) :
    compactItems (x :: y :: r) = compactChars x ++ ',' :: compactItems (y :: r) := rfl

theorem compactFields_singleton (key : String) (x : Json) :
    compactFields [(key, x)] = quote key.toList ++ ':' :: compactChars x ++ ['\x7d'] := rfl

theorem compactFields_cons_cons (key : String) (x : Json) (f : String × Json)
    (r : List (String × Json)) :
    compactFields ((key, x) :: f :: r) =
      quote key.toList ++ ':' :: compactChars x ++ ',' :: compactFields (f :: r) := rfl

/-- The value on one line without white space. -/
def compact (j : Json) : String := String.ofList (compactChars j)

def newline (level : Nat) : List Char := '\n' :: List.replicate (2 * level) ' '

mutual

def prettyChars (level : Nat) : Json → List Char
  | .array [] => "[]".toList
  | .array (item :: rest) => '[' :: prettyItems level (item :: rest)
  | .object [] => ['\x7b', '\x7d']
  | .object (field :: rest) => '\x7b' :: prettyFields level (field :: rest)
  | .null => scalar .null
  | .bool value => scalar (.bool value)
  | .int value => scalar (.int value)
  | .real spelling => scalar (.real spelling)
  | .string value => scalar (.string value)
  | .unpaired => scalar .unpaired

def prettyItems (level : Nat) : List Json → List Char
  | [] => newline level ++ [']']
  | [item] => newline (level + 1) ++ prettyChars (level + 1) item ++ newline level ++ [']']
  | item :: rest =>
    newline (level + 1) ++ prettyChars (level + 1) item ++ ',' :: prettyItems level rest

def prettyFields (level : Nat) : List (String × Json) → List Char
  | [] => newline level ++ ['\x7d']
  | [(key, value)] =>
    newline (level + 1) ++ quote key.toList ++ ':' :: ' ' :: prettyChars (level + 1) value ++
      newline level ++ ['\x7d']
  | (key, value) :: rest =>
    newline (level + 1) ++ quote key.toList ++ ':' :: ' ' :: prettyChars (level + 1) value ++
      ',' :: prettyFields level rest

end

/-- The value with two spaces to a level. -/
def pretty (j : Json) : String := String.ofList (prettyChars 0 j)

end Assay.Json
