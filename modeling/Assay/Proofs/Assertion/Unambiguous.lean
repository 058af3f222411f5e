import Assay.Proofs.Assertion.Declared
import Assay.Proofs.Assertion.LiteralText

/-!
# What a printed literal says

A printed literal can be read in one way only: `print_unambiguous` says so of literals and of the
descriptors that are passed as literals, in which no data can be taken for code.
-/

namespace Assay

namespace Temporaries

open Literal

theorem forall_mem_numbered {p : Char → Prop} {name : List Char} (hname : ∀ c ∈ name, p c)
    (hdigit : ∀ c, c.isDigit → p c) (n : Nat) : ∀ c ∈ name ++ Json.natText n, p c :=
  List.forall_mem_append.mpr ⟨hname, fun c hc => hdigit c (Json.natText_digits n c hc)⟩

theorem not_isEnd_left (t : Temporaries) : ∀ c ∈ t.left.toList, ¬ isEnd c := by
  rw [left_toList]
  exact forall_mem_numbered (not_isEnd_of_all (by decide)) (fun _ => not_isEnd_of_isDigit) t.index

theorem not_isEnd_right (t : Temporaries) : ∀ c ∈ t.right.toList, ¬ isEnd c := by
  rw [right_toList]
  exact forall_mem_numbered (not_isEnd_of_all (by decide)) (fun _ => not_isEnd_of_isDigit) t.index

theorem unbroken_left (t : Temporaries) : Unbroken t.left where
  begins := ⟨'_', by rw [left_toList]; rfl, by decide, by decide⟩
  holds := t.not_isEnd_left

theorem unbroken_right (t : Temporaries) : Unbroken t.right where
  begins := ⟨'_', by rw [right_toList]; rfl, by decide, by decide⟩
  holds := t.not_isEnd_right

theorem not_isEnd_operator (op : BinaryOp) : ∀ c ∈ op.text.toList, ¬ isEnd c :=
  not_isEnd_of_all (by cases op <;> decide)

theorem unbroken_comparison (t : Temporaries) (op : BinaryOp) :
    Unbroken (t.comparison op.text) where
  begins := by
    obtain ⟨c, hc, hword, hdigit⟩ := t.unbroken_left.begins
    refine ⟨c, ?_, hword, hdigit⟩
    simp only [comparison, String.toList_append, List.append_assoc]
    rw [List.head?_append, Option.mem_def.mp hc]
    rfl
  holds := by
    have hspace : ∀ c ∈ " ".toList, ¬ isEnd c := not_isEnd_of_all (by decide)
    intro c hc
    simp only [comparison, String.toList_append, List.mem_append] at hc
    rcases hc with (((hc | hc) | hc) | hc) | hc
    · exact t.not_isEnd_left c hc
    · exact hspace c hc
    · exact not_isEnd_operator op c hc
    · exact hspace c hc
    · exact t.not_isEnd_right c hc

end Temporaries

namespace Descriptor

open Literal

theorem everyReference_operandLiteral {p : String → Prop} {o : Operand} {value : Literal}
    (h : EveryReference p value) : EveryReference p (operandLiteral o value) := by
  simp [operandLiteral, h]

theorem everyReference_sourceLiteral {p : String → Prop} (d : Descriptor) :
    EveryReference p d.sourceLiteral := by
  simp [sourceLiteral]

/-- The fields of the value and, in a comparison, of the operator and the right operand. -/
def valueFields (t : Temporaries) : Option Comparison → List (String × Literal)
  | none => [("value", .reference t.left)]
  | some c =>
    [("value", .reference (t.comparison c.operator)), ("operator", .string c.operator),
      ("right", operandLiteral c.right (.reference t.right))]

def messageFields : Option String → List (String × Literal)
  | none => []
  | some m => [("message", .string m)]

theorem toLiteral_eq (d : Descriptor) (t : Temporaries) : d.toLiteral t =
    .object (("source", d.sourceLiteral) ::
      ("left", operandLiteral d.assertion.left (.reference t.left)) ::
      (valueFields t d.assertion.comparison ++ messageFields d.assertion.message)) := by
  unfold toLiteral valueFields messageFields
  cases d.assertion.comparison <;> cases d.assertion.message <;> rfl

/-- The references of a descriptor are temporaries and their comparison. -/
theorem everyReference_toLiteral {p : String → Prop} {d : Descriptor} {t : Temporaries}
    (hleft : p t.left) (hright : p t.right)
    (hcomparison : ∀ c ∈ d.assertion.comparison, p (t.comparison c.operator)) :
    EveryReference p (d.toLiteral t) := by
  have hvalue : ∀ f ∈ valueFields t d.assertion.comparison, EveryReference p f.2 := by
    cases hc : d.assertion.comparison with
    | none => simpa [valueFields] using hleft
    | some c =>
      have hoperand : EveryReference p (operandLiteral c.right (.reference t.right)) :=
        everyReference_operandLiteral (.reference hright)
      simpa [valueFields, hoperand] using hcomparison c hc
  have hmessage : ∀ f ∈ messageFields d.assertion.message, EveryReference p f.2 := by
    cases d.assertion.message <;> simp [messageFields]
  rw [toLiteral_eq]
  refine .object ?_
  simp only [List.mem_cons, List.mem_append, forall_eq_or_imp]
  refine ⟨d.everyReference_sourceLiteral, ?_, fun f hf => hf.elim (hvalue f) (hmessage f)⟩
  exact everyReference_operandLiteral (.reference hleft)

theorem Operates.unbroken {d : Descriptor} (h : d.Operates) (t : Temporaries) :
    EveryReference Unbroken (d.toLiteral t) := by
  refine everyReference_toLiteral t.unbroken_left t.unbroken_right fun c hc => ?_
  obtain ⟨op, hop⟩ := h c hc
  exact hop ▸ t.unbroken_comparison op

theorem sourceLiteral_inj {d d' : Descriptor} (h : d.sourceLiteral = d'.sourceLiteral) :
    d.code = d'.code ∧ d.file = d'.file ∧ d.position = d'.position := by
  obtain ⟨code, file, ⟨line, column⟩, assertion⟩ := d
  obtain ⟨code', file', ⟨line', column'⟩, assertion'⟩ := d'
  simp only [sourceLiteral, object.injEq, List.cons.injEq, Prod.mk.injEq, string.injEq,
    number.injEq, true_and, and_true] at h
  obtain ⟨rfl, rfl, rfl, rfl⟩ := h
  exact ⟨rfl, rfl, rfl⟩

theorem operandLiteral_inj {o o' : Operand} {value value' : Literal}
    (h : operandLiteral o value = operandLiteral o' value') : o = o' := by
  obtain ⟨code, start, stop⟩ := o
  obtain ⟨code', start', stop'⟩ := o'
  simp only [operandLiteral, object.injEq, List.cons.injEq, Prod.mk.injEq, string.injEq,
    array.injEq, number.injEq, true_and, and_true] at h
  obtain ⟨rfl, -, rfl, rfl⟩ := h
  rfl

theorem messageFields_inj {m m' : Option String} (h : messageFields m = messageFields m') :
    m = m' := by
  cases m <;> cases m' <;> simp_all [messageFields]

theorem left_ne_comparison (t : Temporaries) (operator : String) :
    t.left ≠ t.comparison operator := by
  intro h
  have hlength := congrArg (·.toList.length) h
  simp [Temporaries.comparison] at hlength

/-- The value tells whether there is a comparison, and so which of the fields is the message. -/
theorem valueFields_append_inj {t : Temporaries} {c c' : Option Comparison} {m m' : Option String}
    (h : valueFields t c ++ messageFields m = valueFields t c' ++ messageFields m') :
    c = c' ∧ m = m' := by
  cases c with
  | none =>
    cases c' with
    | none => exact ⟨rfl, messageFields_inj (List.append_cancel_left h)⟩
    | some c' =>
      have hvalue := (List.cons.inj h).1
      rw [Prod.mk.injEq, reference.injEq] at hvalue
      exact absurd hvalue.2 (left_ne_comparison t c'.operator)
  | some c =>
    cases c' with
    | none =>
      have hvalue := (List.cons.inj h).1
      rw [Prod.mk.injEq, reference.injEq] at hvalue
      exact absurd hvalue.2.symm (left_ne_comparison t c.operator)
    | some c' =>
      simp only [valueFields, List.cons_append, List.nil_append, List.cons.injEq, Prod.mk.injEq,
        true_and, string.injEq] at h
      obtain ⟨-, hoperator, hright, hmessage⟩ := h
      obtain ⟨operator, right⟩ := c
      obtain ⟨operator', right'⟩ := c'
      obtain rfl : operator = operator' := hoperator
      obtain rfl : right = right' := operandLiteral_inj hright
      exact ⟨rfl, messageFields_inj hmessage⟩

theorem toLiteral_inj {d d' : Descriptor} {t : Temporaries} (h : d.toLiteral t = d'.toLiteral t) :
    d = d' := by
  rw [toLiteral_eq, toLiteral_eq] at h
  obtain ⟨code, file, position, left, comparison, message⟩ := d
  obtain ⟨code', file', position', left', comparison', message'⟩ := d'
  simp only [object.injEq, List.cons.injEq, Prod.mk.injEq, true_and] at h
  obtain ⟨hsource, hleft, hrest⟩ := h
  obtain ⟨rfl, rfl, rfl⟩ := sourceLiteral_inj hsource
  obtain rfl := operandLiteral_inj hleft
  obtain ⟨rfl, rfl⟩ := valueFields_append_inj hrest
  rfl

end Descriptor

namespace Literal

/-- A printed literal says one thing only: literals of one text are equal, a literal without
references reads as JSON for its data, and descriptors that print alike are equal. -/
theorem print_unambiguous :
    (∀ l l' : Literal, EveryReference Unbroken l → EveryReference Unbroken l' →
      l.print = l'.print → l = l') ∧
    (∀ l : Literal, EveryReference (fun _ => False) l →
      Json.read? l.print.toList = some l.data) ∧
    ∀ (d d' : Descriptor) (t : Temporaries), d.Operates → d'.Operates →
      (d.toLiteral t).print = (d'.toLiteral t).print → d = d' := by
  refine ⟨fun l l' h h' => eq_of_print_eq h h', fun l h => read?_print h, ?_⟩
  intro d d' t h h' heq
  exact Descriptor.toLiteral_inj <|
    eq_of_print_eq (h.unbroken t) (h'.unbroken t) heq

/-- A string that looks like a reference and the end of its array, and descriptors of one statement
of which one takes for its operator what the other takes for its message. -/
theorem print_unambiguous_placeholder :
    let code : Literal := .array [.reference "_left1"]
    let data : Literal := .array [.string "_left1", .number 7, .object [("k]", .string "\",_")]]
    let a : Operand := ⟨"a", ⟨9, 10⟩⟩
    let compared : Descriptor := ⟨"t.assert(a)", "a.js", ⟨1, 2⟩, ⟨a, some ⟨"===", a⟩, none⟩⟩
    let message : Descriptor := ⟨"t.assert(a)", "a.js", ⟨1, 2⟩, ⟨a, none, some "==="⟩⟩
    EveryReference Unbroken code ∧ EveryReference (fun _ => False) data ∧
      compared.Operates ∧ message.Operates ∧
      code.print ≠ data.print ∧
      Json.read? data.print.toList =
        some (.array [.string "_left1", .int 7, .object [("k]", .string "\",_")]]) ∧
      (compared.toLiteral ⟨1⟩).print ≠ (message.toLiteral ⟨1⟩).print := by
  intro code data a compared message
  have hcode : EveryReference Unbroken code := by
    have hreference : Unbroken "_left1" :=
      ⟨⟨'_', rfl, by decide, by decide⟩, not_isEnd_of_all (by decide)⟩
    simpa [code] using hreference
  have hdata : EveryReference (fun _ => False) data := by
    simp [data]
  have hcompared : compared.Operates := by
    rintro c ⟨⟩
    exact ⟨.strictEqual, rfl⟩
  have hmessage : message.Operates := nofun
  obtain ⟨hliterals, hjson, hdescriptors⟩ := print_unambiguous
  refine ⟨hcode, hdata, hcompared, hmessage, fun h => ?_, hjson data hdata, fun h => ?_⟩
  · exact absurd (hliterals code data hcode (hdata.mono fun _ => False.elim) h) (by simp [code, data])
  · exact absurd (hdescriptors compared message ⟨1⟩ hcompared hmessage h) (by decide)

end Literal

end Assay
