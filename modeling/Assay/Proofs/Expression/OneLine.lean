import Assay.Proofs.Expression.Written

/-!
# Expressions on one line

What is printed of an expression that stands on one line holds no newline, if no name in it does:
`newline_not_mem_print`. All else comes from the printer or is cut from the line.
-/

namespace Assay

theorem BinaryOp.newline_not_mem_text (op : BinaryOp) : '\n' ∉ op.text.toList := by
  cases op <;> decide

theorem UpdateOp.newline_not_mem_text (op : UpdateOp) : '\n' ∉ op.text.toList := by
  cases op <;> decide

namespace Quoted

theorem newline_not_mem_requote {s : List Char} (h : '\n' ∉ s) : '\n' ∉ requote s := by
  fun_induction requote s <;> simp_all

theorem newline_not_mem_doubleQuoted {s : List Char} (h : '\n' ∉ s) : '\n' ∉ doubleQuoted s := by
  unfold doubleQuoted
  split
  next r =>
    split
    next => exact h
    next =>
      have hr : '\n' ∉ r.dropLast := fun hmem =>
        h (List.mem_cons_of_mem _ ((List.dropLast_sublist r).mem hmem))
      simpa using newline_not_mem_requote hr
  next => exact h

end Quoted

namespace Expr

theorem newline_not_mem_unaryText (op : UnaryOp) : '\n' ∉ unaryText op := by
  cases op <;> decide

theorem newline_not_mem_joinOperator {op operand : List Char} (hop : '\n' ∉ op)
    (h : '\n' ∉ operand) : '\n' ∉ joinOperator op operand := by
  unfold joinOperator
  split
  next =>
    split
    next => simp [hop, h]
    next => simp [hop, h]
  next => simp [hop, h]

end Expr

namespace Printer

open Assay.Expr

variable {p : Printer}

/-- No name of the nodes holds a newline. -/
def NamedInLine (nodes : List Expr) : Prop := ∀ n ∈ nodes, ∀ w ∈ n.names, '\n' ∉ w.toList

theorem namedInLine_cons {e : Expr} {nodes : List Expr} :
    NamedInLine (e :: nodes) ↔ (∀ w ∈ e.names, '\n' ∉ w.toList) ∧ NamedInLine nodes :=
  List.forall_mem_cons

theorem namedInLine_append {front back : List Expr} :
    NamedInLine (front ++ back) ↔ NamedInLine front ∧ NamedInLine back :=
  List.forall_mem_append

theorem newline_not_mem_quoted (hp : '\n' ∉ p.source) (extent : Extent) :
    '\n' ∉ Quoted.doubleQuoted (p.raw extent) :=
  Quoted.newline_not_mem_doubleQuoted (newline_not_mem_raw hp extent)

mutual

theorem newline_not_mem_print (hp : '\n' ∉ p.source) : ∀ {e : Expr}, NamedInLine e.nodes →
    '\n' ∉ p.print e
  | .name _ w, h => by
    rw [print]
    exact h _ (mem_nodes_self _) w (List.mem_singleton_self w)
  | .this _, _ => by
    rw [print]
    decide
  | .string extent, _ => by
    rw [print]
    exact newline_not_mem_quoted hp extent
  | .array _ items, h => by
    rw [nodes, namedInLine_cons] at h
    simp [print, newline_not_mem_printItems hp h.2]
  | .object _ members, h => by
    rw [nodes, namedInLine_cons, names, List.forall_mem_flatMap] at h
    simp [print, newline_not_mem_printMembers hp h.1 h.2]
  | .unary _ op operand, h => by
    rw [nodes, namedInLine_cons] at h
    rw [print]
    exact newline_not_mem_joinOperator (newline_not_mem_unaryText op)
      (newline_not_mem_print hp h.2)
  | .update _ op before target, h => by
    rw [nodes, namedInLine_cons] at h
    have htarget := newline_not_mem_print hp h.2
    cases before with
    | true =>
      rw [print]
      exact newline_not_mem_joinOperator op.newline_not_mem_text htarget
    | false => simp [print, htarget, op.newline_not_mem_text]
  | .binary _ op left right, h => by
    rw [nodes, namedInLine_cons, namedInLine_append] at h
    simp [print, newline_not_mem_print hp h.2.1, newline_not_mem_print hp h.2.2,
      op.newline_not_mem_text]
  | .conditional _ test yes no, h => by
    rw [nodes, namedInLine_cons, namedInLine_append, namedInLine_append] at h
    simp [print, newline_not_mem_print hp h.2.1, newline_not_mem_print hp h.2.2.1,
      newline_not_mem_print hp h.2.2.2]
  | .call _ callee args, h => by
    rw [nodes, namedInLine_cons, namedInLine_append] at h
    simp [print, newline_not_mem_print hp h.2.1, newline_not_mem_printArgs hp h.2.2]
  | .new _ callee none, h => by
    rw [nodes, namedInLine_cons] at h
    simp [print, newline_not_mem_print hp h.2]
  | .new _ callee (some args), h => by
    rw [nodes, namedInLine_cons, namedInLine_append] at h
    simp [print, newline_not_mem_print hp h.2.1, newline_not_mem_printArgs hp h.2.2]
  | .member _ base property, h => by
    rw [nodes, namedInLine_cons, namedInLine_append, names] at h
    simp [print, newline_not_mem_print hp h.2.1, newline_not_mem_printProperty hp h.1 h.2.2]
  | .paren _ inner, h => by
    rw [nodes, namedInLine_cons] at h
    simp [print, newline_not_mem_print hp h.2]
  | .sequence _ items, h => by
    rw [nodes, namedInLine_cons] at h
    rw [print]
    exact newline_not_mem_printSequence hp h.2
  | .await _ operand, h => by
    rw [nodes, namedInLine_cons] at h
    simp [print, newline_not_mem_print hp h.2]
  | .other extent, _ => by
    rw [print]
    exact newline_not_mem_raw hp extent

theorem newline_not_mem_printArgument (hp : '\n' ∉ p.source) : ∀ {arg : Argument},
    NamedInLine arg.nodes → '\n' ∉ p.printArgument arg
  | .value e, h => by
    rw [printArgument]
    exact newline_not_mem_print hp h
  | .spread e, h => by
    simp [printArgument, newline_not_mem_print hp h]

theorem newline_not_mem_printItems (hp : '\n' ∉ p.source) : ∀ {items : List (Option Argument)},
    NamedInLine (Argument.itemsNodes items) → '\n' ∉ p.printItems items
  | [], _ | [none], _ => by
    rw [printItems]
    decide
  | [some item], h => by
    rw [Argument.itemsNodes, namedInLine_append] at h
    simp [printItems, newline_not_mem_printArgument hp h.1]
  | none :: next :: rest, h => by
    have hrest : '\n' ∉ p.printItems (next :: rest) := newline_not_mem_printItems hp h
    simp [printItems, hrest]
  | some item :: next :: rest, h => by
    rw [Argument.itemsNodes, namedInLine_append] at h
    simp [printItems, newline_not_mem_printArgument hp h.1, newline_not_mem_printItems hp h.2]

theorem newline_not_mem_printArgs (hp : '\n' ∉ p.source) : ∀ {args : List Argument},
    NamedInLine (Argument.allNodes args) → '\n' ∉ p.printArgs args
  | [], _ => by
    rw [printArgs]
    decide
  | [arg], h => by
    rw [Argument.allNodes, namedInLine_append] at h
    simp [printArgs, newline_not_mem_printArgument hp h.1]
  | arg :: next :: rest, h => by
    rw [Argument.allNodes, namedInLine_append] at h
    simp [printArgs, newline_not_mem_printArgument hp h.1, newline_not_mem_printArgs hp h.2]

theorem newline_not_mem_printSequence (hp : '\n' ∉ p.source) : ∀ {items : List Expr},
    NamedInLine (allNodes items) → '\n' ∉ p.printSequence items
  | [], _ => by
    rw [printSequence]
    exact List.not_mem_nil
  | [e], h => by
    rw [allNodes, namedInLine_append] at h
    rw [printSequence]
    exact newline_not_mem_print hp h.1
  | e :: next :: rest, h => by
    rw [allNodes, namedInLine_append] at h
    simp [printSequence, newline_not_mem_print hp h.1, newline_not_mem_printSequence hp h.2]

theorem newline_not_mem_printProperty (hp : '\n' ∉ p.source) : ∀ {property : Property},
    (∀ w ∈ property.names, '\n' ∉ w.toList) → NamedInLine property.nodes →
    '\n' ∉ p.printProperty property
  | .name w, h, _ => by
    simpa [printProperty] using h w (List.mem_singleton_self w)
  | .computed e, _, h => by
    simp [printProperty, newline_not_mem_print hp h]
  | .privateName extent, _, _ => by
    simp [printProperty, newline_not_mem_raw hp extent]

theorem newline_not_mem_printKey (hp : '\n' ∉ p.source) : ∀ {key : Key},
    (∀ w ∈ key.names, '\n' ∉ w.toList) → NamedInLine key.nodes → '\n' ∉ p.printKey key
  | .name w, h, _ => by
    rw [printKey]
    exact h w (List.mem_singleton_self w)
  | .string extent, _, _ => by
    rw [printKey]
    exact newline_not_mem_quoted hp extent
  | .computed e, _, h => by
    simp [printKey, newline_not_mem_print hp h]
  | .other extent, _, _ => by
    rw [printKey]
    exact newline_not_mem_raw hp extent

theorem newline_not_mem_printMember (hp : '\n' ∉ p.source) : ∀ {m : Member},
    (∀ w ∈ m.names, '\n' ∉ w.toList) → NamedInLine m.nodes → '\n' ∉ p.printMember m
  | .shorthand w, h, _ => by
    rw [printMember]
    exact h w (List.mem_singleton_self w)
  | .keyed key value, hnames, h => by
    rw [Member.nodes, namedInLine_append] at h
    simp [printMember, newline_not_mem_printKey hp hnames h.1, newline_not_mem_print hp h.2]
  | .spread e, _, h => by
    simp [printMember, newline_not_mem_print hp h]
  | .other extent, _, _ => by
    rw [printMember]
    exact newline_not_mem_raw hp extent

theorem newline_not_mem_printMembers (hp : '\n' ∉ p.source) : ∀ {members : List Member},
    (∀ m ∈ members, ∀ w ∈ m.names, '\n' ∉ w.toList) → NamedInLine (Member.allNodes members) →
    '\n' ∉ p.printMembers members
  | [], _, _ => by
    rw [printMembers]
    decide
  | [m], hnames, h => by
    rw [Member.allNodes, namedInLine_append] at h
    have hm := newline_not_mem_printMember hp (List.forall_mem_singleton.mp hnames) h.1
    simp [printMembers, hm]
  | m :: next :: rest, hnames, h => by
    rw [Member.allNodes, namedInLine_append] at h
    obtain ⟨hname, hrest⟩ := List.forall_mem_cons.mp hnames
    simp [printMembers, newline_not_mem_printMember hp hname h.1,
      newline_not_mem_printMembers hp hrest h.2]

end

end Printer

end Assay
