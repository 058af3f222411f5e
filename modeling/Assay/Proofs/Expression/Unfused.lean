import Assay.Proofs.Expression.Prefixes
import Assay.Proofs.Grammar.LongestMatch

/-!
# Operators that do not run into each other

Any number of unary operators and updates may stand in front of an operand. By longest match what
is printed of them splits into the operators, in order, and what the operand splits into:
`split_print_under`. One operator is kept apart by what is printed behind it; the induction is on
the operators, with the space behind one carried over to the text of the next.
-/

namespace Assay

open Assay.Expr (Begun)
open Token (IsSpacing Longest Split SplitOff)

variable {p : Printer}

def PrefixOp.over (extent : Extent) : PrefixOp → Expr → Expr
  | unary op, e => .unary extent op e
  | update op, e => .update extent op true e

theorem PrefixOp.print_over (op : PrefixOp) (extent : Extent) (e : Expr) :
    p.print (op.over extent e) = Expr.joinOperator op.printed (p.print e) := by
  cases op with
  | unary op => rw [PrefixOp.over, Printer.print, printed]
  | update op => rw [PrefixOp.over, Printer.print, printed]

namespace Expr

/-- An operand behind operators, the outermost first. -/
def under : List (Extent × PrefixOp) → Expr → Expr
  | [], e => e
  | (extent, op) :: ops, e => op.over extent (under ops e)

theorem begun_print_under {e : Expr} (h : Begun (p.print e)) :
    ∀ ops : List (Extent × PrefixOp), Begun (p.print (e.under ops))
  | [] => h
  | (extent, op) :: ops => by
    rw [under, op.print_over]
    exact begun_joinOperator op.begun_printed _

/-- The operators come off the front, and at most a space remains before the operand. -/
theorem splitOff_under {e : Expr} (he : Begun (p.print e)) (ops : List (Extent × PrefixOp))
    {gap : List Char} (hgap : IsSpacing gap) :
    ∃ gap', IsSpacing gap' ∧
      SplitOff (gap ++ p.print (e.under ops)) (ops.map (·.2.token)) (gap' ++ p.print e) := by
  induction ops generalizing gap with
  | nil => exact ⟨gap, hgap, .nothing _⟩
  | cons op ops ih =>
    obtain ⟨extent, op⟩ := op
    obtain ⟨between, hbetween, hjoin, hapart⟩ := op.exists_apart (begun_print_under he ops)
    obtain ⟨gap', hgap', hoff⟩ := ih hbetween
    refine ⟨gap', hgap', ?_⟩
    rw [under, op.print_over, hjoin, List.map_cons]
    have hlongest := Longest.of_apart op.token_ne hapart
    exact .token (hgap.skips.mpr (hapart _ List.prefix_rfl).skips) hlongest hoff

end Expr

/-- Operators in front of an operand do not run into each other or into the operand, which may begin
with a sign of its own; no operand of the language begins with an equals sign or the head of an arrow.
By longest match what is printed begins with the tokens of the operators, in order, and goes on with
the text of the operand; all its tokens are theirs and then those of the operand. -/
theorem split_print_under {e : Expr} (he : Begun (p.print e)) (ops : List (Extent × PrefixOp)) :
    (∃ gap, IsSpacing gap ∧
      SplitOff (p.print (e.under ops)) (ops.map (·.2.token)) (gap ++ p.print e)) ∧
    ∀ ts, Split (p.print (e.under ops)) ts ↔
      ∃ us, ts = ops.map (·.2.token) ++ us ∧ Split (p.print e) us := by
  obtain ⟨gap, hgap, hoff⟩ := Expr.splitOff_under he ops (.inl rfl)
  rw [List.nil_append] at hoff
  refine ⟨⟨gap, hgap, hoff⟩, fun ts => ?_⟩
  rw [hoff.split_iff]
  simp only [hgap.split]

theorem split_print_under_signs :
    Begun ((⟨['x'], 0⟩ : Printer).print (.name ⟨0, 1⟩ "x")) ∧
    (⟨['x'], 0⟩ : Printer).print ((Expr.name ⟨0, 1⟩ "x").under [(⟨0, 1⟩, .unary .minus),
      (⟨0, 1⟩, .unary .minus), (⟨0, 1⟩, .unary .typeOf), (⟨0, 1⟩, .unary .not),
      (⟨0, 1⟩, .unary .plus), (⟨0, 1⟩, .update .increment)]) = "- -typeof !+ ++x".toList ∧
    ∀ ts, Split "- -typeof !+ ++x".toList ts ↔
      ts = [.punct "-", .punct "-", .name "typeof" false, .punct "!", .punct "+", .punct "++",
        .name "x" false] := by
  have hbegun : Begun ((⟨['x'], 0⟩ : Printer).print (.name ⟨0, 1⟩ "x")) :=
    ⟨'x', [], rfl, by decide⟩
  have hunder := (split_print_under hbegun [(⟨0, 1⟩, .unary .minus), (⟨0, 1⟩, .unary .minus),
    (⟨0, 1⟩, .unary .typeOf), (⟨0, 1⟩, .unary .not), (⟨0, 1⟩, .unary .plus),
    (⟨0, 1⟩, .update .increment)]).2
  have hx := Token.split_word (w := "x") (by decide)
  have hsplit := (hunder _).mpr ⟨[.name "x" false], rfl, hx⟩
  exact ⟨hbegun, rfl, fun ts => ⟨fun hts => hsplit.unique hts, fun hts => hts ▸ hsplit⟩⟩

end Assay
