import Assay.Assertion.Statement
import Assay.Grammar.Module
import Assay.Proofs.Expression.Written

/-!
# The operands of an assertion

An accepted statement is a call whose arguments are an expression and perhaps a message. `operandExprs`
are the expressions that its operands are printed from: the first argument without the parentheses
around it, or both sides of it if it is a comparison. A sequence loses the parentheses it needs to be
the value of a constant: `parse_parenthesizedSequence`.
-/

namespace Assay.Assertion

open Assay.Expr

theorem eq_call_of_callArguments? {items : List Item} {args : List Argument}
    (h : callArguments? items = some args) :
    ∃ extent callee, items = [.expression (.call extent callee args)] := by
  unfold callArguments? at h
  split at h
  next extent callee args' =>
    obtain rfl := Option.some.inj h
    exact ⟨extent, callee, rfl⟩
  next => cases h

theorem eq_values_of_mapM {args : List Argument} {es : List Expr}
    (h : args.mapM value? = some es) : args = es.map .value := by
  induction args generalizing es with
  | nil =>
    obtain rfl : [] = es := Option.some.inj h
    rfl
  | cons arg rest ih =>
    rw [List.mapM_cons] at h
    cases arg with
    | value e =>
      cases hrest : rest.mapM value? with
      | none => rw [hrest] at h; cases h
      | some tail =>
        rw [hrest] at h
        obtain rfl : e :: tail = es := Option.some.inj h
        exact congrArg _ (ih hrest)
    | spread e => cases h

theorem ofArguments_ok {p : Printer} {args : List Argument} {a : Assertion}
    (h : ofArguments p args = .ok a) :
    ∃ first, ∃ message : Option Expr, args = .value first :: message.toList.map .value ∧
      a = ofExpressions p first message := by
  unfold ofArguments at h
  split at h
  next => cases h
  next hcount =>
    split at h
    next first rest hmap =>
      obtain rfl := eq_values_of_mapM hmap
      obtain rfl := Except.ok.inj h
      refine ⟨first, rest.head?, ?_, rfl⟩
      -- at most one expression follows the first
      match rest with
      | [] => rfl
      | [_] => rfl
      | _ :: _ :: _ => simp at hcount
    next => cases h

theorem itemsOf_ok {parser : ModuleParser} {statement : List Char} {items : List Item}
    (h : itemsOf parser statement = .ok items) : parser.read statement = .ok ⟨items, []⟩ := by
  unfold itemsOf at h
  cases hread : parser.read statement with
  | error cause => rw [hread] at h; cases h
  | ok m =>
    obtain ⟨found, errors⟩ := m
    rw [hread] at h
    cases errors with
    | nil =>
      obtain rfl := Except.ok.inj h
      rfl
    | cons cause rest => cases h

/-- A statement is accepted if the parser finds in it nothing wrong and no more than a call with an
expression and perhaps another. -/
theorem parse_ok {parser : ModuleParser} {statement : List Char} {a : Assertion}
    (h : parse parser statement = .ok a) :
    ∃ extent callee first, ∃ message : Option Expr, parser.read statement =
        .ok ⟨[.expression (.call extent callee (.value first :: message.toList.map .value))], []⟩ ∧
      a = ofExpressions ⟨statement, parser.fileStart⟩ first message := by
  unfold parse at h
  cases hitems : itemsOf parser statement with
  | error cause => rw [hitems] at h; cases h
  | ok items =>
    rw [hitems] at h
    dsimp only at h
    cases hargs : callArguments? items with
    | none => rw [hargs] at h; cases h
    | some args =>
      rw [hargs] at h
      obtain ⟨extent, callee, rfl⟩ := eq_call_of_callArguments? hargs
      obtain ⟨first, message, rfl, rfl⟩ := ofArguments_ok h
      exact ⟨extent, callee, first, message, itemsOf_ok hitems, rfl⟩

theorem parse_of_read {parser : ModuleParser} {statement : List Char} {extent : Extent}
    {callee first : Expr} {message : Option Expr}
    (h : parser.read statement =
      .ok ⟨[.expression (.call extent callee (.value first :: message.toList.map .value))], []⟩) :
    parse parser statement =
      .ok (ofExpressions ⟨statement, parser.fileStart⟩ first message) := by
  simp only [parse, itemsOf, h, callArguments?]
  cases message <;> rfl

/-! ### Operands -/

/-- The expressions that are printed as the operands. -/
def operandExprs (first : Expr) : List Expr :=
  match first.stripParens with
  | .binary extent op left right =>
    if op.isLogical then [.binary extent op left right] else [left, right]
  | e => [e]

def operands (a : Assertion) : List Operand :=
  a.left :: (a.comparison.map (·.right)).toList

def codes (a : Assertion) : List String :=
  a.left.code :: (a.comparison.map (·.right.code)).toList

theorem operands_ofExpressions (p : Printer) (first : Expr) (message : Option Expr) :
    (ofExpressions p first message).operands = (operandExprs first).map p.operand := by
  unfold ofExpressions operandExprs
  generalize first.stripParens = e
  cases e with
  | binary extent op left right =>
    dsimp only
    cases op.isLogical <;> rfl
  | _ => rfl

theorem codes_ofExpressions (p : Printer) (first : Expr) (message : Option Expr) :
    (ofExpressions p first message).codes =
      (operandExprs first).map fun e => String.ofList (p.print e) := by
  have hcodes (a : Assertion) : a.codes = a.operands.map (·.code) := by
    unfold codes operands
    cases a.comparison <;> rfl
  rw [hcodes, operands_ofExpressions, List.map_map]
  rfl

theorem message_ofExpressions (p : Printer) (first : Expr) (message : Option Expr) :
    (ofExpressions p first message).message = message.map fun e => String.ofList (p.print e) := by
  unfold ofExpressions
  generalize first.stripParens = e
  cases e with
  | binary extent op left right =>
    dsimp only
    cases op.isLogical <;> rfl
  | _ => rfl

theorem mem_nodes_of_mem_operandExprs {first e n : Expr} (he : e ∈ operandExprs first)
    (hn : n ∈ e.nodes) : n ∈ first.nodes := by
  refine first.nodes_stripParens ?_
  unfold operandExprs at he
  split at he
  next extent op left right hbinary =>
    rw [hbinary]
    split at he
    next =>
      obtain rfl := List.mem_singleton.mp he
      exact hn
    next =>
      rw [nodes, List.mem_cons, List.mem_append]
      rcases List.mem_cons.mp he with rfl | he
      · exact .inr (.inl hn)
      · obtain rfl := List.mem_singleton.mp he
        exact .inr (.inr hn)
  next =>
    obtain rfl := List.mem_singleton.mp he
    exact hn

/-- What an assertion compares are the sides of a binary expression. -/
theorem exists_sides {p : Printer} {first : Expr} {message : Option Expr} {c : Comparison}
    (h : (ofExpressions p first message).comparison = some c) :
    ∃ extent op left right, first.stripParens = .binary extent op left right ∧
      operandExprs first = [left, right] ∧ c = ⟨op.text, p.operand right⟩ := by
  unfold ofExpressions at h
  dsimp only at h
  split at h
  next extent op left right hstrip =>
    split at h
    next => cases h
    next hlogical =>
      have hexprs : operandExprs first = [left, right] := by
        unfold operandExprs
        rw [hstrip]
        exact if_neg hlogical
      exact ⟨extent, op, left, right, hstrip, hexprs, (Option.some.inj h).symm⟩
  next => cases h

/-! ### Operands as values -/

/-- The declaration that keeps the value of an operand. -/
def constantOf (code : String) : List Char := "const x = ".toList ++ code.toList ++ [';']

/-- The parentheses around a sequence are taken off before it is printed, and behind its first comma
a constant without a value would begin. -/
theorem parse_parenthesizedSequence :
    ∃ a, parse Grammar.parser "t.assert((a, b));".toList = .ok a ∧ a.left.code = "a, b" ∧
      (Grammar.parser.read (constantOf a.left.code)).toOption.isNone := by
  have hread : (parse Grammar.parser "t.assert((a, b));".toList).toOption.map (·.left.code) =
      some "a, b" := by
    decide +kernel
  cases h : parse Grammar.parser "t.assert((a, b));".toList with
  | error e =>
    rw [h] at hread
    cases hread
  | ok a =>
    rw [h] at hread
    have hcode : a.left.code = "a, b" := Option.some.inj hread
    refine ⟨a, rfl, hcode, ?_⟩
    rw [hcode]
    decide +kernel

end Assay.Assertion
