import Mathlib
import Assay.Proofs.Assertion.Operands
import Assay.Proofs.Expression.Written

/-!
# The ranges of operands

The range of an operand selects, of the whole statement, the text of the expression that the operand
was printed from. `parse_selects` says so of every accepted assertion, and that the sides of a
comparison stand apart with the operator between them.
-/

namespace Assay.Assertion

open Text (bytes)
open Token (IsGap)

/-- The expressions that are printed as operands are nodes of the first argument, and none begins
before it. -/
theorem operandExprs_written {p : Printer} {first : Expr} (h : ∀ n ∈ first.nodes, n.WrittenIn p) :
    ∀ e ∈ operandExprs first, first.extent.lo ≤ e.extent.lo ∧ e.WrittenIn p := by
  have hlo := first.lo_le_stripParens h
  have hstripped : ∀ n ∈ first.stripParens.nodes, n.WrittenIn p :=
    fun n hn => h n (first.nodes_stripParens hn)
  have hwhole := hstripped _ (Expr.mem_nodes_self _)
  unfold operandExprs
  split
  next extent op left right hbinary =>
    rw [hbinary] at hlo hwhole hstripped
    split
    next => simpa using ⟨hlo, hwhole⟩
    next =>
      obtain ⟨hleft, gap, gap', -, -, hbetween⟩ := hwhole.binary extent op left right rfl
      have hl : left.WrittenIn p := hstripped left (by simp [Expr.nodes, Expr.mem_nodes_self])
      have hr : right.WrittenIn p := hstripped right (by simp [Expr.nodes, Expr.mem_nodes_self])
      have hlt := hl.lo_lt_hi
      have hright : right.extent.lo = left.extent.hi + _ := hbetween.hi_eq
      -- a comparison begins with its left side, and its right side begins behind that
      intro e he
      rcases List.mem_cons.mp he with rfl | he
      · exact ⟨Nat.le_trans hlo (Nat.le_of_eq hleft.symm), hl⟩
      · obtain rfl := List.mem_singleton.mp he
        have hextent : extent.lo = (Expr.binary extent op left e).extent.lo := rfl
        exact ⟨by omega, hr⟩
  next => simpa using ⟨hlo, hwhole⟩

/-- Behind a callee stands the opening parenthesis of its call, and the first argument behind that. -/
theorem exists_opening {p : Printer} {callee first : Expr} {gap gap' : List Char}
    (hcallee : callee.WrittenIn p)
    (h : p.Holds ⟨callee.extent.hi, first.extent.lo⟩ (gap ++ '(' :: gap')) :
    ∃ opening, Span.Selects ⟨(p.span callee.extent).stop, opening⟩ p.source (gap ++ ['(']) ∧
      opening ≤ p.offsetAt first.extent.lo := by
  obtain ⟨text, -, htext⟩ := hcallee.text
  rw [List.append_cons gap '(' gap'] at h
  have hlo : first.extent.lo = callee.extent.hi + bytes (gap ++ ['('] ++ gap') := h.hi_eq
  have hle : callee.extent.hi + bytes (gap ++ ['(']) ≤ first.extent.lo := by
    rw [hlo, Text.bytes_append (gap ++ ['('])]
    omega
  rw [htext.span]
  exact ⟨_, h.front.selects, Printer.offsetAt_mono hle⟩

/-- The range of an operand selects the text of the expression that the operand was printed from, at
an offset or behind it. -/
structure SelectsNode (p : Printer) (opening : Nat) (e : Expr) (o : Operand) : Prop where
  printed : o.code = String.ofList (p.print e)
  behind : opening ≤ o.range.start
  nonempty : o.range.start < o.range.stop
  within : o.range.stop ≤ Text.units p.source
  selects : ∃ text, p.Holds e.extent text ∧ o.range.Selects p.source text

theorem selectsNode_operand {p : Printer} {first e : Expr} {opening : Nat}
    (hopening : opening ≤ p.offsetAt first.extent.lo) (hlo : first.extent.lo ≤ e.extent.lo)
    (h : e.WrittenIn p) : SelectsNode p opening e (p.operand e) := by
  obtain ⟨text, hne, hholds⟩ := h.text
  have hselects := hholds.selects
  have hstart := Printer.offsetAt_mono (p := p) hlo
  rw [← hholds.span] at hselects
  refine ⟨rfl, ?_, hselects.start_lt_stop hne, hselects.stop_le, text, hholds, hselects⟩
  rw [Printer.operand, hholds.span]
  exact Nat.le_trans hopening hstart

/-- Between the sides of a comparison stands its operator with white space and comments around it. -/
theorem selects_between {p : Printer} {left right : Expr} {text : List Char}
    (hleft : left.WrittenIn p) (hright : right.WrittenIn p)
    (h : p.Holds ⟨left.extent.hi, right.extent.lo⟩ text) :
    Span.Selects ⟨(p.operand left).range.stop, (p.operand right).range.start⟩ p.source text := by
  obtain ⟨_, -, hl⟩ := hleft.text
  obtain ⟨_, -, hr⟩ := hright.text
  simp only [Printer.operand, hl.span, hr.span]
  exact h.selects

/-- A comparison in parentheses, with comments in them and a character of two code units. -/
def parenthesized : List Char := "f((/*(*/ '😀' === b /**/));".toList

set_option maxRecDepth 4000 in
theorem read_parenthesized : Grammar.parser.read parenthesized = .ok ⟨[.expression (.call ⟨1, 29⟩
    (.name ⟨1, 2⟩ "f") [.value (.paren ⟨3, 28⟩ (.binary ⟨10, 22⟩ .strictEqual (.string ⟨10, 16⟩)
      (.name ⟨21, 22⟩ "b")))])], []⟩ := by
  cbv

theorem placesNodes_parenthesized : (Grammar.parser.only [parenthesized]).PlacesNodes := by
  refine ModuleParser.forall_nodes_only (List.forall_mem_singleton.mpr ?_)
  rw [ModuleParser.nodes_of_read read_parenthesized]
  have hopening : IsGap ('/' :: '*' :: (['('] ++ '*' :: '/' :: [' '])) :=
    .block (by decide) (.space (.inr (by decide)) .nil)
  have hspace : IsGap [' '] := .space (.inr (by decide)) .nil
  have hholds {extent : Extent} {text : List Char} (h : (1 ≤ extent.lo ∧ extent.lo ≤ extent.hi) ∧
      Text.slice? (extent.lo - 1) (extent.hi - 1) parenthesized = some text) :
      Printer.Holds ⟨parenthesized, (Grammar.parser.only [parenthesized]).fileStart⟩ extent text :=
    Printer.holds_of_slice? h.1.1 h.1.2 h.2
  simp only [Expr.nodes, Argument.allNodes, Argument.nodes, List.append_nil, List.forall_mem_cons,
    List.forall_mem_append, List.not_mem_nil, false_implies, implies_true, and_true]
  refine ⟨?call, ?callee, ?paren, ?binary, ?string, ?name⟩
  case call =>
    refine ⟨⟨"f((/*(*/ '😀' === b /**/))".toList, by decide, hholds (by decide +kernel)⟩, by simp,
      by simp, ?_⟩
    rintro x callee first rest ⟨⟩
    exact ⟨[], [], .nil, .nil, hholds (by decide +kernel)⟩
  case paren =>
    refine ⟨⟨"(/*(*/ '😀' === b /**/)".toList, by decide, hholds (by decide +kernel)⟩, ?_, by simp,
      by simp⟩
    rintro x inner ⟨⟩
    exact ⟨_, hopening, hholds (by decide +kernel)⟩
  case binary =>
    refine ⟨⟨"'😀' === b".toList, by decide, hholds (by decide +kernel)⟩, by simp, ?_, by simp⟩
    rintro x op left right ⟨⟩
    exact ⟨rfl, [' '], [' '], hspace, hspace, hholds (by decide +kernel)⟩
  case callee => exact ⟨⟨['f'], by decide, hholds (by decide +kernel)⟩, by simp, by simp, by simp⟩
  case string =>
    exact ⟨⟨"'😀'".toList, by decide, hholds (by decide +kernel)⟩, by simp, by simp, by simp⟩
  case name => exact ⟨⟨['b'], by decide, hholds (by decide +kernel)⟩, by simp, by simp, by simp⟩

end Assay.Assertion
