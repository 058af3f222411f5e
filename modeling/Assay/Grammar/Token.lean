import Assay.Expression.Basic
import Assay.Text.Category
import Assay.Text.Units

/-!
# Tokens of a script

`Token.next` skips white space and comments and reads one token. It reads a slash as a division; a
regular expression and the text of a template are read by `regexEnd?` and `templateChunk?`, where
the grammar expects them. Everything is read from the front of a list of characters, and a failure
is `none`; a cursor is what remains of a text together with the byte at which it begins.
-/

namespace Assay

structure Cursor where
  rest : List Char
  /-- The byte at which the rest begins. -/
  offset : Nat

namespace Cursor

def moveTo (c : Cursor) (rest : List Char) : Cursor :=
  ⟨rest, c.offset + Text.bytes (c.rest.take (c.rest.length - rest.length))⟩

def extentTo (start stop : Cursor) : Extent := ⟨start.offset, stop.offset⟩

end Cursor

inductive Token where
  /-- An identifier or keyword with its escapes resolved; `escaped` if it had any. -/
  | name (text : String) (escaped : Bool)
  /-- A private name as written, its number sign included. -/
  | privateName (raw : String)
  | number (raw : String)
  | string (raw : String)
  | punct (text : String)
  | endOfText
  deriving DecidableEq, Repr

namespace Token

/-! ### White space and comments -/

def isLineBreak (c : Char) : Bool :=
  c == '\n' || c == '\r' || c.toNat == 0x2028 || c.toNat == 0x2029

def isSpace (c : Char) : Bool :=
  let n := c.toNat
  n == 9 || n == 11 || n == 12 || n == 0x20 || n == 0xA0 || n == 0xFEFF || n == 0x1680 ||
    (0x2000 ≤ n && n ≤ 0x200A) || n == 0x202F || n == 0x205F || n == 0x3000

/-- What follows the end of a block comment, and whether a line ended in it. -/
def blockCommentEnd? (broken : Bool) : List Char → Option (List Char × Bool)
  | [] => none
  | '*' :: '/' :: r => some (r, broken)
  | c :: r => blockCommentEnd? (broken || isLineBreak c) r

/-- Skips white space and comments; the answer says whether a line ended among them. A comment in
the form of an HTML comment, of which `-->` counts only at the start of a line, is refused. -/
def skip? : Nat → (broken : Bool) → List Char → Option (List Char × Bool)
  | 0, broken, s => some (s, broken)
  | fuel + 1, broken, s =>
    match s with
    | '/' :: '/' :: r => skip? fuel broken (r.dropWhile (!isLineBreak ·))
    | '/' :: '*' :: r => do
      let (r, broken) ← blockCommentEnd? broken r
      skip? fuel broken r
    | '<' :: '!' :: '-' :: '-' :: _ => none
    | '-' :: '-' :: '>' :: _ => if broken then none else some (s, broken)
    | c :: r =>
      if isLineBreak c then skip? fuel true r
      else if isSpace c then skip? fuel broken r
      else some (s, broken)
    | [] => some ([], broken)

/-! ### Names -/

def hexValue? (c : Char) : Option Nat :=
  let n := c.toNat
  if 48 ≤ n ∧ n ≤ 57 then some (n - 48)
  else if 97 ≤ n ∧ n ≤ 102 then some (n - 87)
  else if 65 ≤ n ∧ n ≤ 70 then some (n - 55)
  else none

def isHexDigit (c : Char) : Bool := (hexValue? c).isSome

def hexNumber (ds : List Char) : Nat := ds.foldl (fun n c => n * 16 + (hexValue? c).getD 0) 0

/-- Reads what follows `\u`: four hexadecimal digits, or a code point in braces. -/
def unicodeEscape? : List Char → Option (Nat × List Char)
  | '\x7b' :: r =>
    let ds := r.takeWhile isHexDigit
    match r.dropWhile isHexDigit with
    | '\x7d' :: rest =>
      if ds.isEmpty ∨ 0x10FFFF < hexNumber ds then none else some (hexNumber ds, rest)
    | _ => none
  | a :: b :: c :: d :: r =>
    if [a, b, c, d].all isHexDigit then some (hexNumber [a, b, c, d], r) else none
  | _ => none

def nameChar? (accepts : Char → Bool) : List Char → Option (Char × Bool × List Char)
  | '\\' :: 'u' :: r => do
    let (n, rest) ← unicodeEscape? r
    let c := Char.ofNat n
    if c.toNat = n ∧ accepts c then some (c, true, rest) else none
  | c :: r => if accepts c then some (c, false, r) else none
  | [] => none

def nameTail (escaped : Bool) : Nat → List Char → List Char × Bool × List Char
  | 0, s => ([], escaped, s)
  | fuel + 1, s =>
    match nameChar? Text.isIdentPart s with
    | none => ([], escaped, s)
    | some (c, esc, r) =>
      let (text, esc, rest) := nameTail (escaped || esc) fuel r
      (c :: text, esc, rest)

def name? (s : List Char) : Option (Token × List Char) := do
  let (c, escaped, r) ← nameChar? Text.isIdentStart s
  let (text, escaped, rest) := nameTail escaped r.length r
  -- a backslash that goes on with no character of an identifier
  if rest.head? = some '\\' then none
  else return (.name (String.ofList (c :: text)) escaped, rest)

/-! ### Numbers -/

/-- Digits with single underscores between them, after a first digit. -/
def digitsTail? (isDigit : Char → Bool) : List Char → Option (List Char)
  | '_' :: d :: r => if isDigit d then digitsTail? isDigit r else none
  | c :: r => if isDigit c then digitsTail? isDigit r else if c = '_' then none else some (c :: r)
  | [] => some []

def digits? (isDigit : Char → Bool) : List Char → Option (List Char)
  | c :: r => if isDigit c then digitsTail? isDigit r else none
  | [] => none

/-- The digits that may stand after a zero and this letter. -/
def radixDigit? (c : Char) : Option (Char → Bool) :=
  if c = 'x' ∨ c = 'X' then some isHexDigit
  else if c = 'o' ∨ c = 'O' then some fun d => '0' ≤ d && d ≤ '7'
  else if c = 'b' ∨ c = 'B' then some fun d => d == '0' || d == '1'
  else none

def exponent? : List Char → Option (List Char)
  | c :: r =>
    if c = 'e' ∨ c = 'E' then
      match r with
      | '+' :: q | '-' :: q => digits? Char.isDigit q
      | q => digits? Char.isDigit q
    else some (c :: r)
  | [] => some []

/-- What follows the fraction after a point; `digits` if it must have one. -/
def fraction? (needed : Bool) (s : List Char) : Option (List Char) :=
  if s.head?.any Char.isDigit then (digits? Char.isDigit s).bind exponent?
  else if needed then none
  else exponent? s

/-- What follows a whole number in decimal digits: a fraction, an exponent or the mark of a big
integer. -/
def afterWhole? : List Char → Option (List Char)
  | 'n' :: r => some r
  | '.' :: r => fraction? false r
  | r => exponent? r

/-- What follows a number. A zero before other digits is refused. -/
def numberEnd? : List Char → Option (List Char)
  | '.' :: r => fraction? true r
  | '0' :: c :: r =>
    match radixDigit? c with
    | some isDigit =>
      match digits? isDigit r with
      | some ('n' :: rest) => some rest
      | rest => rest
    | none => if c.isDigit ∨ c = '_' then none else afterWhole? (c :: r)
  | s => (digits? Char.isDigit s).bind afterWhole?

/-- Whether a number may end before this text: no identifier or digit follows. -/
def endsNumber : List Char → Bool
  | [] => true
  | c :: _ => !(Text.isIdentStart c || c.isDigit || c == '\\')

/-! ### Strings, templates and regular expressions -/

/-- What follows an escape after its backslash. Octal escapes are refused. -/
def escapeEnd? : List Char → Option (List Char)
  | [] => none
  | '\r' :: '\n' :: r => some r
  | 'x' :: a :: b :: r => if isHexDigit a ∧ isHexDigit b then some r else none
  | 'u' :: r => (unicodeEscape? r).map (·.2)
  | c :: r =>
    if c = 'x' then none
    else if c = '0' then
      if r.head?.any fun d => '0' ≤ d && d ≤ '7' then none else some r
    else if '1' ≤ c ∧ c ≤ '7' then none
    else some r

def stringEnd? (quote : Char) : Nat → List Char → Option (List Char)
  | 0, _ => none
  | fuel + 1, s =>
    match s with
    | [] => none
    | '\\' :: r => (escapeEnd? r).bind (stringEnd? quote fuel)
    | c :: r =>
      if c = quote then some r
      else if c = '\n' ∨ c = '\r' then none
      else stringEnd? quote fuel r

structure Chunk where
  rest : List Char
  /-- The template ends here; else a substitution begins. -/
  last : Bool
  valid : Bool

def templateChunk? (valid : Bool) : Nat → List Char → Option Chunk
  | 0, _ => none
  | fuel + 1, s =>
    match s with
    | [] => none
    | '\x60' :: r => some ⟨r, true, valid⟩
    | '$' :: '\x7b' :: r => some ⟨r, false, valid⟩
    | '\\' :: r =>
      match escapeEnd? r with
      | some rest => templateChunk? valid fuel rest
      | none => templateChunk? false fuel (r.drop 1)
    | _ :: r => templateChunk? valid fuel r

/-- What follows the body of a regular expression; `inClass` inside brackets. -/
def regexBodyEnd? (inClass : Bool) : List Char → Option (List Char)
  | [] => none
  | '\\' :: c :: r => if isLineBreak c then none else regexBodyEnd? inClass r
  | c :: r =>
    if isLineBreak c ∨ c = '\\' then none
    else if c = '/' ∧ ¬ inClass then some r
    else if c = '[' then regexBodyEnd? true r
    else if c = ']' then regexBodyEnd? false r
    else regexBodyEnd? inClass r

/-- What follows a regular expression after its opening slash: known flags, each at most once. -/
def regexEnd? (s : List Char) : Option (List Char) := do
  let r ← regexBodyEnd? false s
  let flags := r.takeWhile Text.isIdentPart
  if flags.all ("dgimsuvy".toList.contains ·) ∧ flags.eraseDups.length = flags.length then
    some (r.dropWhile Text.isIdentPart)
  else none

/-- What follows a regular expression. -/
def regex? : List Char → Option (List Char)
  | '/' :: body => regexEnd? body
  | _ => none

/-! ### One token -/

/-- The punctuators, longer ones first. The backquote opens a template. -/
def punctuators : List String :=
  [">>>=", "...", "===", "!==", "**=", "<<=", ">>=", ">>>", "&&=", "||=", "??=", "=>", "==", "!=",
    "<=", ">=", "&&", "||", "??", "?.", "++", "--", "+=", "-=", "*=", "/=", "%=", "&=", "|=", "^=",
    "<<", ">>", "**", "\x7b", "\x7d", "(", ")", "[", "]", ";", ",", "<", ">", "+", "-", "*", "/",
    "%", "&", "|", "^", "!", "~", "?", ":", "=", ".", "\x60"]

/-- Whether a punctuator stands at the front of a text; `?.` does not before a digit. -/
def standsAt (s : List Char) (p : String) : Bool :=
  p.toList.isPrefixOf s && !(p == "?." && (s.drop 2).head?.any Char.isDigit)

def punct? (s : List Char) : Option (Token × List Char) :=
  (punctuators.find? (standsAt s)).map fun p => (.punct p, s.drop p.length)

def taken (s rest : List Char) : String := String.ofList (s.take (s.length - rest.length))

def read? (s : List Char) : Option (Token × List Char) :=
  match s with
  | [] => some (.endOfText, [])
  | c :: r =>
    if Text.isIdentStart c ∨ c = '\\' then name? s
    else if c.isDigit ∨ (c = '.' ∧ r.head?.any Char.isDigit) then
      match numberEnd? s with
      | some rest => if endsNumber rest then some (.number (taken s rest), rest) else none
      | none => none
    else if c = '"' ∨ c = '\'' then
      (stringEnd? c s.length r).map fun rest => (.string (taken s rest), rest)
    else if c = '#' then
      (name? r).map fun (_, rest) => (.privateName (taken s rest), rest)
    else punct? s

structure Placed where
  token : Token
  start : Cursor
  stop : Cursor
  broken : Bool

/-- The next token from a cursor on; `broken` at the start of the text. -/
def next? (c : Cursor) (broken : Bool) : Option Placed := do
  let (rest, broken) ← skip? (c.rest.length + 1) broken c.rest
  let start := c.moveTo rest
  let (token, rest) ← read? rest
  return ⟨token, start, start.moveTo rest, broken⟩

end Token

end Assay
