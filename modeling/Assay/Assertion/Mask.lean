import Assay.Text.Units

/-!
# Comments and literals of a script

`pieces` cuts a script into comments, quoted literals and the code between them, without parsing
it; `maskedRegions` are the byte ranges of the comments and literals.
-/

namespace Assay.Mask

structure Piece where
  masked : Bool
  text : List Char
  deriving DecidableEq, Repr

/-- Takes a literal after its opening quote up to the closing one. A backslash keeps the character
after it from closing the literal, and only a template goes beyond a newline. A literal that is not
closed gives `false` and what it swallowed. -/
def takeQuoted (quote : Char) : List Char → Bool × List Char × List Char
  | [] => (false, [], [])
  | '\\' :: c :: r =>
    let (closed, text, rest) := takeQuoted quote r
    (closed, '\\' :: c :: text, rest)
  | c :: r =>
    if c = quote then (true, [c], r)
    else if c = '\n' ∧ quote ≠ '\x60' then (false, [], c :: r)
    else
      let (closed, text, rest) := takeQuoted quote r
      (closed, c :: text, rest)

def takeBlock? : List Char → Option (List Char × List Char)
  | [] => none
  | '*' :: '/' :: r => some (['*', '/'], r)
  | c :: r => (takeBlock? r).map fun (text, rest) => (c :: text, rest)

def isQuote (c : Char) : Bool := c == '"' || c == '\'' || c == '\x60'

def isPlain (c : Char) : Bool := c != '/' && !isQuote c

/-- Takes the piece at the front of a text that starts with `c`. A slash that opens no comment is a
piece of code of its own. -/
def takePiece (c : Char) (r : List Char) : Piece × List Char :=
  if isQuote c then
    let (closed, text, rest) := takeQuoted c r
    (⟨closed, c :: text⟩, rest)
  else if c = '/' then
    match r with
    | '/' :: r' =>
      (⟨true, c :: '/' :: r'.takeWhile (· ≠ '\n')⟩, r'.dropWhile (· ≠ '\n'))
    | '*' :: r' =>
      match takeBlock? r' with
      | some (text, rest) => (⟨true, c :: '*' :: text⟩, rest)
      | none => (⟨false, [c]⟩, r)
    | _ => (⟨false, [c]⟩, r)
  else
    (⟨false, c :: r.takeWhile isPlain⟩, r.dropWhile isPlain)

def piecesUpTo : Nat → List Char → List Piece
  | 0, _ => []
  | _, [] => []
  | n + 1, c :: r =>
    let (piece, rest) := takePiece c r
    piece :: piecesUpTo n rest

/-- The pieces of a script; none is empty, so it has no more than characters. -/
def pieces (s : List Char) : List Piece := piecesUpTo s.length s

def regionsOf (byte : Nat) : List Piece → List (Nat × Nat)
  | [] => []
  | p :: rest =>
    let stop := byte + Text.bytes p.text
    if p.masked then (byte, stop) :: regionsOf stop rest else regionsOf stop rest

/-- The byte ranges of the comments and literals of a script, in its order. -/
def maskedRegions (s : List Char) : List (Nat × Nat) := regionsOf 0 (pieces s)

theorem takeQuoted_append (quote : Char) (s : List Char) :
    (takeQuoted quote s).2.1 ++ (takeQuoted quote s).2.2 = s := by
  fun_induction takeQuoted quote s <;> simp_all

theorem takeBlock?_append {s text rest : List Char} (h : takeBlock? s = some (text, rest)) :
    text ++ rest = s := by
  fun_induction takeBlock? s generalizing text rest with
  | case1 => simp at h
  | case2 r => simp at h; simp [← h.1, ← h.2]
  | case3 c r _ ih =>
    simp only [Option.map_eq_some_iff, Prod.mk.injEq, Prod.exists] at h
    obtain ⟨t, u, ht, rfl, rfl⟩ := h
    simp [ih ht]

theorem takePiece_append (c : Char) (r : List Char) :
    (takePiece c r).1.text ++ (takePiece c r).2 = c :: r := by
  unfold takePiece
  split
  · simp [takeQuoted_append]
  · split
    · split
      · simp [List.takeWhile_append_dropWhile]
      · split
        next h => simp [takeBlock?_append h]
        · rfl
      · rfl
    · simp [List.takeWhile_append_dropWhile]

theorem takePiece_text_ne_nil (c : Char) (r : List Char) : (takePiece c r).1.text ≠ [] := by
  unfold takePiece
  repeat' split
  all_goals simp

end Assay.Mask
