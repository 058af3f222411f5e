import Assay.Assertion.Descriptor
import Assay.Proofs.Json.Scalar
import Assay.Proofs.Text.Words

/-!
# The words of a replacement

What replaces an assertion holds the names of its temporaries among the words of its operands, of
its callee and of the descriptor. `words_replacement` and `words_toLiteral` list them in their
order.
-/

namespace Assay

/-! ### The words of a literal -/

theorem Text.words_natText (n : Nat) : Text.words (Json.natText n) = [Json.natText n] :=
  Text.words_of_identifier Nat.toDigits_ne_nil <| List.all_eq_true.mpr fun c hc =>
    Text.isIdentPart_of_isDigit (Json.natText_digits n c hc)

namespace Literal

mutual

/-- The words of a literal in their order. -/
def words : Literal → List (List Char)
  | .string value => Text.words (Json.quote value.toList)
  | .number value => [Json.natText value]
  | .array items => itemWords items
  | .object fields => fieldWords fields
  | .reference code => Text.words code.toList

def itemWords : List Literal → List (List Char)
  | [] => []
  | item :: rest => words item ++ itemWords rest

def fieldWords : List (String × Literal) → List (List Char)
  | [] => []
  | (key, value) :: rest => Text.words (Json.quote key.toList) ++ words value ++ fieldWords rest

end

theorem itemChars_cons_cons (item next : Literal) (rest : List Literal) :
    itemChars (item :: next :: rest) = chars item ++ ',' :: itemChars (next :: rest) := by
  rw [itemChars]
  nofun

theorem fieldChars_cons_cons (key : String) (value : Literal) (next : String × Literal)
    (rest : List (String × Literal)) : fieldChars ((key, value) :: next :: rest) =
      Json.quote key.toList ++ ':' :: chars value ++ ',' :: fieldChars (next :: rest) := by
  rw [fieldChars]
  nofun

mutual

theorem words_chars : ∀ l : Literal, Text.words l.chars = l.words
  | .string _ | .reference _ => rfl
  | .number value => Text.words_natText value
  | .array items => by
    rw [chars, Text.words_cons (by decide), words_itemChars items, words]
  | .object fields => by
    rw [chars, Text.words_cons (by decide), words_fieldChars fields, words]

theorem words_itemChars : ∀ items : List Literal, Text.words (itemChars items) = itemWords items
  | [] => Text.words_cons (by decide) []
  | [item] => by
    rw [itemChars, Text.words_append_cons (by decide), words_chars item]
    rfl
  | item :: next :: rest => by
    rw [itemChars_cons_cons, Text.words_append_cons (by decide), words_chars item,
      words_itemChars (next :: rest)]
    rfl

theorem words_fieldChars :
    ∀ fields : List (String × Literal), Text.words (fieldChars fields) = fieldWords fields
  | [] => Text.words_cons (by decide) []
  | [(key, value)] => by
    rw [fieldChars, Text.words_append_cons (by decide), Text.words_append_cons (by decide),
      words_chars value]
    rfl
  | (key, value) :: next :: rest => by
    rw [fieldChars_cons_cons, Text.words_append_cons (by decide),
      Text.words_append_cons (by decide), words_chars value, words_fieldChars (next :: rest)]
    rfl

end

end Literal

namespace Temporaries

theorem left_toList (t : Temporaries) : t.left.toList = "_left".toList ++ Json.natText t.index := by
  rw [left, String.toList_append, Nat.toString_eq_repr, Nat.toList_repr, Json.natText]

theorem right_toList (t : Temporaries) :
    t.right.toList = "_right".toList ++ Json.natText t.index := by
  rw [right, String.toList_append, Nat.toString_eq_repr, Nat.toList_repr, Json.natText]

theorem words_numbered {name : List Char} (hname : name.all Text.isIdentPart) (n : Nat) :
    Text.words (name ++ Json.natText n) = [name ++ Json.natText n] := by
  have hdigits : (Json.natText n).all Text.isIdentPart :=
    List.all_eq_true.mpr fun c hc => Text.isIdentPart_of_isDigit (Json.natText_digits n c hc)
  refine Text.words_of_identifier (by simp [Json.natText, Nat.toDigits_ne_nil]) ?_
  rw [List.all_append, hname, hdigits]
  rfl

theorem words_left (t : Temporaries) : Text.words t.left.toList = [t.left.toList] := by
  rw [left_toList, words_numbered (by decide)]

theorem words_right (t : Temporaries) : Text.words t.right.toList = [t.right.toList] := by
  rw [right_toList, words_numbered (by decide)]

end Temporaries

namespace Descriptor

/-! ### The words of a replacement -/

/-- The words of the declaration of a constant. -/
def constantWords (name : String) (code : String) : List (List Char) :=
  "const".toList :: name.toList :: Text.words code.toList

/-- The declaration of the right operand's constant, if there is one. -/
def rightText (d : Descriptor) (t : Temporaries) : List Char :=
  match d.assertion.comparison with
  | none => []
  | some c =>
    '\n' :: ("const ".toList ++ t.right.toList ++ " = ".toList ++ c.right.code.toList ++ [';'])

def rightWords (d : Descriptor) (t : Temporaries) : List (List Char) :=
  match d.assertion.comparison with
  | none => []
  | some c => constantWords t.right c.right.code

/-- The second argument of the call, if there is one. -/
def messageText (d : Descriptor) : List Char :=
  match d.assertion.message with
  | none => []
  | some m => ',' :: ' ' :: m.toList

def messageWords (d : Descriptor) : List (List Char) :=
  match d.assertion.message with
  | none => []
  | some m => Text.words m.toList

theorem replacement_toList (d : Descriptor) (callee : String) (t : Temporaries) :
    (d.replacement callee t).toList =
      "const ".toList ++ t.left.toList ++ " = ".toList ++ d.assertion.left.code.toList ++
        ';' :: (d.rightText t ++ '\n' :: (callee.toList ++ '(' ::
          ((d.toLiteral t).chars ++ (d.messageText ++ [')', ';'])))) := by
  unfold replacement rightText messageText Literal.print
  cases d.assertion.comparison <;> cases d.assertion.message <;> simp

theorem words_constant {name : String} (hname : Text.words name.toList = [name.toList])
    (code : String) (rest : List Char) :
    Text.words ("const ".toList ++ name.toList ++ " = ".toList ++ code.toList ++ ';' :: rest) =
      constantWords name code ++ Text.words rest := by
  have hspace : Text.isIdentPart ' ' = false := by decide
  have hconst : "const ".toList = "const".toList ++ [' '] := rfl
  have hequals : " = ".toList = [' ', '=', ' '] := rfl
  rw [hconst, hequals, Text.words_append_cons (by decide)]
  simp only [List.append_assoc, List.cons_append, List.nil_append]
  rw [Text.words_append_cons hspace, Text.words_append_cons hspace, Text.words_cons (by decide),
    Text.words_cons hspace, Text.words_of_identifier (by decide) (by decide), hname]
  rfl

theorem words_rightText (d : Descriptor) (t : Temporaries) :
    Text.words (d.rightText t) = d.rightWords t := by
  unfold rightText rightWords
  cases d.assertion.comparison with
  | none => rfl
  | some c =>
    dsimp only
    rw [Text.words_cons (by decide), words_constant t.words_right, Text.words_nil, List.append_nil]

theorem words_messageText (d : Descriptor) : Text.words d.messageText = d.messageWords := by
  unfold messageText messageWords
  cases d.assertion.message with
  | none => rfl
  | some m =>
    dsimp only
    rw [Text.words_cons (by decide), Text.words_cons (by decide)]

theorem startsWords_messageText (d : Descriptor) :
    Text.StartsWords (d.messageText ++ [')', ';']) := by
  unfold messageText
  cases d.assertion.message with
  | none => rintro c ⟨⟩; decide
  | some m => rintro c ⟨⟩; decide

theorem words_replacement (d : Descriptor) (callee : String) (t : Temporaries) :
    Text.words (d.replacement callee t).toList =
      constantWords t.left d.assertion.left.code ++ d.rightWords t ++ Text.words callee.toList ++
        (d.toLiteral t).words ++ d.messageWords := by
  rw [replacement_toList, words_constant t.words_left, Text.words_append_cons (by decide),
    Text.words_append_cons (by decide), Text.words_append_of_starts _ d.startsWords_messageText,
    Text.words_append_cons (by decide), Text.words_cons (by decide), Text.words_nil,
    words_rightText, Literal.words_chars, words_messageText]
  simp only [List.append_assoc, List.append_nil]

theorem endsWords_replacement (d : Descriptor) (callee : String) (t : Temporaries) :
    Text.EndsWords (d.replacement callee t).toList := by
  unfold replacement
  rw [String.toList_append]
  exact Text.EndsWords.append _ (by decide) (by decide)

/-! ### The words of the argument -/

def sourceWords (d : Descriptor) : List (List Char) :=
  "source".toList :: "code".toList :: Text.words (Json.quote d.code.toList) ++
    "file".toList :: Text.words (Json.quote d.file.toList) ++
      ["position".toList, "line".toList, Json.natText d.position.line, "column".toList,
        Json.natText d.position.column]

def operandWords (o : Operand) (name : String) : List (List Char) :=
  "code".toList :: Text.words (Json.quote o.code.toList) ++
    ["value".toList, name.toList, "range".toList, Json.natText o.range.start,
      Json.natText o.range.stop]

/-- What follows the name of the left operand in the value of the assertion. -/
def comparisonWords (d : Descriptor) (t : Temporaries) : List (List Char) :=
  match d.assertion.comparison with
  | none => []
  | some c =>
    Text.words c.operator.toList ++ t.right.toList :: "operator".toList ::
      Text.words (Json.quote c.operator.toList) ++ "right".toList :: operandWords c.right t.right

def messageFieldWords (d : Descriptor) : List (List Char) :=
  match d.assertion.message with
  | none => []
  | some m => "message".toList :: Text.words (Json.quote m.toList)

theorem words_comparison (t : Temporaries) (operator : String) :
    Text.words (t.comparison operator).toList =
      t.left.toList :: Text.words operator.toList ++ [t.right.toList] := by
  have htext : (t.comparison operator).toList =
      t.left.toList ++ ' ' :: (operator.toList ++ ' ' :: t.right.toList) := by
    simp [Temporaries.comparison]
  rw [htext, Text.words_append_cons (by decide), Text.words_append_cons (by decide), t.words_left,
    t.words_right]
  rfl

theorem words_toLiteral (d : Descriptor) (t : Temporaries) :
    (d.toLiteral t).words = d.sourceWords ++
      "left".toList :: operandWords d.assertion.left t.left ++
      "value".toList :: t.left.toList :: d.comparisonWords t ++ d.messageFieldWords := by
  unfold toLiteral comparisonWords messageFieldWords
  cases d.assertion.comparison <;> cases d.assertion.message <;>
    simp (disch := decide) [operandLiteral, sourceLiteral, Literal.words, Literal.fieldWords,
      Literal.itemWords, Json.words_quote_of_identifier, sourceWords, operandWords, t.words_left,
      t.words_right, words_comparison]

end Descriptor

end Assay
