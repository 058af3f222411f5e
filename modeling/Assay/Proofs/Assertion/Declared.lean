import Assay.Proofs.Assertion.Operands
import Assay.Proofs.Assertion.Replacement

/-!
# Declarations in a replacement

A replacement declares the name of each of its temporaries once and uses it twice behind that, if
the name is no word of what the replacement takes from the script: `declaredOnce_of_mem`. Any other
such name does not stand in it: `not_mem_replacement`.
-/

namespace Assay

/-! ### Declarations among words -/

/-- The words that are declared as constants, in their order. -/
def declared : List (List Char) → List (List Char)
  | w :: x :: rest =>
    if w = "const".toList then x :: declared (x :: rest) else declared (x :: rest)
  | _ => []

/-- Among words a name stands a number of times, each time behind another word than `const`. -/
inductive Uses (x : List Char) : Nat → List (List Char) → Prop where
  | none {ws : List (List Char)} (absent : x ∉ ws) : Uses x 0 ws
  | next {n : Nat} {ws : List (List Char)} (front : List (List Char)) (w : List Char)
      (absent : x ∉ front) (other : w ≠ x) (undeclared : w ≠ "const".toList) (rest : Uses x n ws) :
      Uses x (n + 1) (front ++ w :: x :: ws)

/-- Among words a name is declared once, with two uses behind its declaration. -/
structure DeclaredOnce (x : List Char) (ws : List (List Char)) : Prop where
  place : ∃ front back, ws = front ++ "const".toList :: x :: back ∧ x ∉ front ∧ Uses x 2 back

variable {x : List Char}

theorem count_declared_cons {w : List Char} {ws : List (List Char)}
    (h : w ≠ "const".toList ∨ ws.head? ≠ some x) :
    (declared (w :: ws)).count x = (declared ws).count x := by
  cases ws with
  | nil => rfl
  | cons y ws =>
    rw [declared]
    split
    next hw =>
      rw [List.count_cons_of_ne]
      rintro rfl
      exact h.elim (fun h => h hw) fun h => h rfl
    next => rfl

theorem count_declared_append {front ws : List (List Char)} (hfront : x ∉ front)
    (hws : ws.head? ≠ some x) : (declared (front ++ ws)).count x = (declared ws).count x := by
  induction front with
  | nil => rfl
  | cons w front ih =>
    rw [List.mem_cons, not_or] at hfront
    rw [List.cons_append, count_declared_cons (Or.inr ?_), ih hfront.2]
    cases front with
    | nil => exact hws
    | cons y front =>
      rintro ⟨⟩
      exact hfront.2 List.mem_cons_self

namespace Uses

theorem append {m n : Nat} {front back : List (List Char)} (hfront : Uses x m front)
    (hback : Uses x n back) : Uses x (m + n) (front ++ back) := by
  induction hfront with
  | none absent =>
    rw [Nat.zero_add]
    cases hback with
    | none absent' => exact none (by simp [absent, absent'])
    | next front' w absent' other undeclared rest =>
      rw [← List.append_assoc]
      exact next _ w (by simp [absent, absent']) other undeclared rest
  | next front w absent other undeclared _ ih =>
    rw [List.append_assoc, Nat.add_right_comm]
    exact next front w absent other undeclared ih

theorem of_last {n : Nat} {front ws : List (List Char)} (hne : front ≠ []) (hx : x ∉ front)
    (hconst : "const".toList ∉ front) (h : Uses x n ws) : Uses x (n + 1) (front ++ x :: ws) := by
  obtain rfl | ⟨front, w, rfl⟩ := List.eq_nil_or_concat' front
  · exact absurd rfl hne
  · simp only [List.mem_append, List.mem_singleton, not_or] at hx hconst
    rw [List.append_assoc]
    exact next front w hx.1 (Ne.symm hx.2) (Ne.symm hconst.2) h

theorem count_eq {n : Nat} {ws : List (List Char)} (h : Uses x n ws) : ws.count x = n := by
  induction h with
  | none absent => exact List.count_eq_zero.mpr absent
  | next front w absent other _ _ ih =>
    rw [List.count_append, List.count_eq_zero.mpr absent, List.count_cons_of_ne other,
      List.count_cons_self, ih, Nat.zero_add]

theorem count_declared {n : Nat} {ws : List (List Char)} (h : Uses x n ws)
    (hx : x ≠ "const".toList) : (declared ws).count x = 0 := by
  induction h with
  | none absent =>
    have hdeclared := @count_declared_append x _ [] absent nofun
    rwa [List.append_nil] at hdeclared
  | next front w absent other undeclared _ ih =>
    rw [count_declared_append absent (by simpa using other),
      count_declared_cons (Or.inl undeclared), count_declared_cons (Or.inl hx), ih]

end Uses

namespace DeclaredOnce

theorem frame {front ws back : List (List Char)} (hfront : x ∉ front) (h : DeclaredOnce x ws)
    (hback : x ∉ back) : DeclaredOnce x (front ++ ws ++ back) := by
  obtain ⟨before, after, rfl, hbefore, huses⟩ := h.place
  exact ⟨front ++ before, after ++ back, by simp, by simp [hfront, hbefore],
    huses.append (.none hback)⟩

theorem count_eq {ws : List (List Char)} (h : DeclaredOnce x ws) (hx : x ≠ "const".toList) :
    ws.count x = 3 := by
  obtain ⟨front, back, rfl, hfront, huses⟩ := h.place
  rw [List.count_append, List.count_eq_zero.mpr hfront, List.count_cons_of_ne hx.symm,
    List.count_cons_self, huses.count_eq]

theorem count_declared {ws : List (List Char)} (h : DeclaredOnce x ws)
    (hx : x ≠ "const".toList) : (declared ws).count x = 1 := by
  obtain ⟨front, back, rfl, hfront, huses⟩ := h.place
  rw [count_declared_append hfront (by simpa using hx.symm), declared, if_pos rfl,
    List.count_cons_self, count_declared_cons (Or.inl hx), huses.count_declared hx]

end DeclaredOnce

/-! ### The names in a replacement -/

namespace Temporaries

theorem numbered_inj {name : List Char} {i j : Nat}
    (h : name ++ Json.natText i = name ++ Json.natText j) : i = j := by
  have hvalue := congrArg Json.digitsValue (List.append_cancel_left h)
  rwa [Json.digitsValue_natText, Json.digitsValue_natText] at hvalue

theorem left_inj {i j : Nat} (h : (mk i).left.toList = (mk j).left.toList) : i = j := by
  rw [left_toList, left_toList] at h
  exact numbered_inj h

theorem right_inj {i j : Nat} (h : (mk i).right.toList = (mk j).right.toList) : i = j := by
  rw [right_toList, right_toList] at h
  exact numbered_inj h

theorem left_ne_right (t u : Temporaries) : t.left.toList ≠ u.right.toList := by
  simp [left_toList, right_toList]

end Temporaries

namespace Descriptor

/-- The names that the replacement declares. -/
def temporaries (d : Descriptor) (t : Temporaries) : List (List Char) :=
  t.left.toList :: (d.assertion.comparison.map fun _ => t.right.toList).toList

theorem eq_or_eq_of_mem_temporaries (d : Descriptor) {t : Temporaries} {x : List Char}
    (h : x ∈ d.temporaries t) : x = t.left.toList ∨ x = t.right.toList := by
  rw [temporaries, List.mem_cons] at h
  refine h.imp_right fun h => ?_
  cases hc : d.assertion.comparison with
  | none => simp [hc] at h
  | some c => simpa [hc] using h

theorem nodup_temporaries (d : Descriptor) (t : Temporaries) : (d.temporaries t).Nodup := by
  unfold temporaries
  cases d.assertion.comparison with
  | none => simp
  | some c => simp [t.left_ne_right t]

/-- The operator of a comparison is one of the language. -/
def Operates (d : Descriptor) : Prop :=
  ∀ c ∈ d.assertion.comparison, ∃ op : BinaryOp, c.operator = op.text

/-- A name is no word of what a replacement takes from the script. -/
structure Avoids (d : Descriptor) (x : List Char) : Prop where
  code : x ∉ Text.words d.code.toList
  file : x ∉ Text.words d.file.toList
  operands : ∀ c ∈ d.assertion.codes, x ∉ Text.words c.toList
  message : ∀ m ∈ d.assertion.message, x ∉ Text.words m.toList

theorem underscore_ne_natText (w : List Char) (n : Nat) : '_' :: w ≠ Json.natText n := by
  intro h
  have hdigit := Json.natText_digits n '_' (h ▸ List.mem_cons_self)
  exact absurd hdigit (by decide)

theorem words_operator (op : BinaryOp) :
    ∀ w ∈ Text.words op.text.toList, w = "in".toList ∨ w = "instanceof".toList := by
  cases op <;> decide

theorem not_mem_quoted {w s : List Char} (h : '_' :: w ∉ Text.words s) :
    '_' :: w ∉ Text.words (Json.quote s) :=
  fun hquote => h (Json.mem_words_of_mem_words_quote hquote)

theorem not_mem_operandWords {w : List Char} {o : Operand} {name : String}
    (h : '_' :: w ∉ Text.words o.code.toList) (hname : '_' :: w ≠ name.toList) :
    '_' :: w ∉ operandWords o name := by
  simp [operandWords, not_mem_quoted h, underscore_ne_natText, hname]

theorem uses_operandWords {w : List Char} {o : Operand} {name : String}
    (h : '_' :: w ∉ Text.words o.code.toList) (hname : name.toList = '_' :: w) :
    Uses ('_' :: w) 1 (operandWords o name) := by
  rw [operandWords, hname]
  exact .next ("code".toList :: Text.words (Json.quote o.code.toList)) "value".toList
    (by simp [not_mem_quoted h]) (by simp) (by decide) (.none (by simp [underscore_ne_natText]))

namespace Avoids

variable {d : Descriptor} {w : List Char}

theorem left_code (h : d.Avoids ('_' :: w)) : '_' :: w ∉ Text.words d.assertion.left.code.toList :=
  h.operands _ List.mem_cons_self

theorem right_code (h : d.Avoids ('_' :: w)) {c : Comparison}
    (hc : d.assertion.comparison = some c) : '_' :: w ∉ Text.words c.right.code.toList :=
  h.operands _ (by simp [Assertion.codes, hc])

theorem not_mem_sourceWords (h : d.Avoids ('_' :: w)) : '_' :: w ∉ d.sourceWords := by
  simp [sourceWords, not_mem_quoted h.code, not_mem_quoted h.file, underscore_ne_natText]

theorem not_mem_messageFieldWords (h : d.Avoids ('_' :: w)) :
    '_' :: w ∉ d.messageFieldWords := by
  have hmessage := h.message
  unfold messageFieldWords
  cases hm : d.assertion.message with
  | none => exact List.not_mem_nil
  | some m => simp [not_mem_quoted (hmessage m hm)]

theorem not_mem_messageWords (h : d.Avoids ('_' :: w)) : '_' :: w ∉ d.messageWords := by
  have hmessage := h.message
  unfold messageWords
  cases hm : d.assertion.message with
  | none => exact List.not_mem_nil
  | some m => exact hmessage m hm

theorem not_mem_operator (h : d.Operates) {c : Comparison}
    (hc : d.assertion.comparison = some c) : '_' :: w ∉ Text.words c.operator.toList := by
  obtain ⟨op, hop⟩ := h c hc
  rw [hop]
  intro hmem
  rcases words_operator op _ hmem with h | h <;> simp at h

theorem not_mem_rightWords (h : d.Avoids ('_' :: w)) {t : Temporaries}
    (hright : d.assertion.comparison.isSome → '_' :: w ≠ t.right.toList) :
    '_' :: w ∉ d.rightWords t := by
  unfold rightWords
  cases hc : d.assertion.comparison with
  | none => exact List.not_mem_nil
  | some c => simp [constantWords, h.right_code hc, hright (by rw [hc]; rfl)]

theorem not_mem_comparisonWords (h : d.Avoids ('_' :: w)) (hop : d.Operates) {t : Temporaries}
    (hright : d.assertion.comparison.isSome → '_' :: w ≠ t.right.toList) :
    '_' :: w ∉ d.comparisonWords t := by
  unfold comparisonWords
  cases hc : d.assertion.comparison with
  | none => exact List.not_mem_nil
  | some c =>
    have hoperator : '_' :: w ∉ Text.words c.operator.toList := not_mem_operator hop hc
    have hright : '_' :: w ≠ t.right.toList := hright (by rw [hc]; rfl)
    simp [hoperator, not_mem_quoted hoperator, hright,
      not_mem_operandWords (h.right_code hc) hright]

theorem not_mem_replacement (h : d.Avoids ('_' :: w)) (hop : d.Operates) {callee : String}
    (hcallee : '_' :: w ∉ Text.words callee.toList) {t : Temporaries}
    (ht : '_' :: w ∉ d.temporaries t) :
    '_' :: w ∉ Text.words (d.replacement callee t).toList := by
  rw [temporaries, List.mem_cons, not_or] at ht
  have hright : d.assertion.comparison.isSome → '_' :: w ≠ t.right.toList := by
    intro hc heq
    obtain ⟨c, hc⟩ := Option.isSome_iff_exists.mp hc
    exact ht.2 (by simp [hc, heq])
  simp [words_replacement, words_toLiteral, constantWords, ht.1, hcallee, h.left_code,
    h.not_mem_rightWords hright, h.not_mem_sourceWords, not_mem_operandWords h.left_code ht.1,
    h.not_mem_comparisonWords hop hright, h.not_mem_messageFieldWords, h.not_mem_messageWords]

/-- The left name stands in its declaration, with its operand and in the value. -/
theorem declaredOnce_left (h : d.Avoids ('_' :: w)) (hop : d.Operates) {callee : String}
    (hcallee : '_' :: w ∉ Text.words callee.toList) {t : Temporaries}
    (hleft : t.left.toList = '_' :: w) (hright : '_' :: w ≠ t.right.toList) :
    DeclaredOnce ('_' :: w) (Text.words (d.replacement callee t).toList) := by
  have hbefore : Uses ('_' :: w) 0 (Text.words d.assertion.left.code.toList ++ d.rightWords t ++
      Text.words callee.toList ++ d.sourceWords ++ ["left".toList]) :=
    .none (by simp [h.left_code, h.not_mem_rightWords fun _ => hright, hcallee,
      h.not_mem_sourceWords])
  have hoperand := uses_operandWords h.left_code hleft
  have hvalue : Uses ('_' :: w) 1 ([] ++ "value".toList :: ('_' :: w) ::
      (d.comparisonWords t ++ d.messageFieldWords ++ d.messageWords)) := by
    refine .next [] "value".toList nofun (by simp) (by decide) (.none ?_)
    simp [h.not_mem_comparisonWords hop fun _ => hright, h.not_mem_messageFieldWords,
      h.not_mem_messageWords]
  refine ⟨[], _, ?_, nofun, (hbefore.append hoperand).append hvalue⟩
  rw [words_replacement, words_toLiteral, constantWords, hleft]
  simp

/-- The right name stands in its declaration, behind the operator and with its operand. -/
theorem declaredOnce_right (h : d.Avoids ('_' :: w)) (hop : d.Operates) {callee : String}
    (hcallee : '_' :: w ∉ Text.words callee.toList) {t : Temporaries} {c : Comparison}
    (hc : d.assertion.comparison = some c) (hright : t.right.toList = '_' :: w)
    (hleft : '_' :: w ≠ t.left.toList) :
    DeclaredOnce ('_' :: w) (Text.words (d.replacement callee t).toList) := by
  have hoperator : '_' :: w ∉ Text.words c.operator.toList := not_mem_operator hop hc
  -- in the value the name stands behind the operator or, if that is no word, behind the left name
  have hconst : "const".toList ∉ t.left.toList :: Text.words c.operator.toList := by
    obtain ⟨op, hop⟩ := hop c hc
    rw [hop, List.mem_cons]
    rintro (hmem | hmem)
    · simp [t.left_toList] at hmem
    · rcases words_operator op _ hmem with hmem | hmem <;> simp at hmem
  have hbefore : Uses ('_' :: w) 0 (Text.words c.right.code.toList ++ Text.words callee.toList ++
      d.sourceWords ++ "left".toList :: operandWords d.assertion.left t.left ++
      ["value".toList]) :=
    .none (by simp [h.right_code hc, hcallee, h.not_mem_sourceWords,
      not_mem_operandWords h.left_code hleft])
  have hfield : Uses ('_' :: w) 0 ("operator".toList ::
      Text.words (Json.quote c.operator.toList) ++ ["right".toList]) :=
    .none (by simp [not_mem_quoted hoperator])
  have hoperand := uses_operandWords (h.right_code hc) hright
  have hafter : Uses ('_' :: w) 0 (d.messageFieldWords ++ d.messageWords) :=
    .none (by simp [h.not_mem_messageFieldWords, h.not_mem_messageWords])
  have hvalue := Uses.of_last (List.cons_ne_nil _ _) (by simp [hleft, hoperator]) hconst
    ((hfield.append hoperand).append hafter)
  refine ⟨"const".toList :: t.left.toList :: Text.words d.assertion.left.code.toList, _, ?_,
    by simp [hleft, h.left_code], hbefore.append hvalue⟩
  rw [words_replacement, words_toLiteral, rightWords, comparisonWords, hc]
  simp [constantWords, hright]

theorem declaredOnce_of_mem (h : d.Avoids ('_' :: w)) (hop : d.Operates) {callee : String}
    (hcallee : '_' :: w ∉ Text.words callee.toList) {t : Temporaries}
    (ht : '_' :: w ∈ d.temporaries t) :
    DeclaredOnce ('_' :: w) (Text.words (d.replacement callee t).toList) := by
  rw [temporaries, List.mem_cons] at ht
  rcases ht with ht | ht
  · exact h.declaredOnce_left hop hcallee ht.symm (ht ▸ t.left_ne_right t)
  · cases hc : d.assertion.comparison with
    | none => simp [hc] at ht
    | some c =>
      have ht : '_' :: w = t.right.toList := by simpa [hc] using ht
      exact h.declaredOnce_right hop hcallee hc ht.symm (ht ▸ (t.left_ne_right t).symm)

end Avoids

/-- The left name is a word of whatever text the replacement stands in. -/
theorem left_mem_words_replacement (d : Descriptor) (callee : String) (t : Temporaries)
    (before after : List Char) :
    t.left.toList ∈ Text.words (before ++ (d.replacement callee t).toList ++ after) := by
  obtain ⟨tail, htext⟩ : ∃ tail, (d.replacement callee t).toList =
      "const".toList ++ ' ' :: (t.left.toList ++ ' ' :: tail) := by
    have htext := d.replacement_toList callee t
    simp only [List.append_assoc] at htext
    exact ⟨_, htext⟩
  have hplace : before ++ (d.replacement callee t).toList ++ after =
      (before ++ "const".toList) ++ ' ' :: (t.left.toList ++ ' ' :: (tail ++ after)) := by
    simp only [htext, List.append_assoc, List.cons_append]
  rw [hplace, Text.words_append_cons (by decide), Text.words_append_cons (by decide), t.words_left]
  simp

end Descriptor

end Assay
