import Assay.Proofs.Expression.Written

/-!
# Expressions in another place

`Expr.move` gives the nodes of an expression other extents. It is printed as before if the texts that
are copied stand in these extents: `print_move`.
-/

namespace Assay

mutual

/-- An expression that is the same but for the extents of its nodes. -/
def Expr.move (f : Extent → Extent) : Expr → Expr
  | .name x w => .name (f x) w
  | .this x => .this (f x)
  | .string x => .string (f x)
  | .array x items => .array (f x) (Argument.moveItems f items)
  | .object x members => .object (f x) (Member.moveAll f members)
  | .unary x op operand => .unary (f x) op (operand.move f)
  | .update x op before target => .update (f x) op before (target.move f)
  | .binary x op left right => .binary (f x) op (left.move f) (right.move f)
  | .conditional x test yes no => .conditional (f x) (test.move f) (yes.move f) (no.move f)
  | .call x callee args => .call (f x) (callee.move f) (Argument.moveAll f args)
  | .new x callee none => .new (f x) (callee.move f) none
  | .new x callee (some args) => .new (f x) (callee.move f) (some (Argument.moveAll f args))
  | .member x base property => .member (f x) (base.move f) (property.move f)
  | .paren x inner => .paren (f x) (inner.move f)
  | .sequence x items => .sequence (f x) (Expr.moveAll f items)
  | .await x operand => .await (f x) (operand.move f)
  | .other x => .other (f x)

def Expr.moveAll (f : Extent → Extent) : List Expr → List Expr
  | [] => []
  | e :: rest => e.move f :: Expr.moveAll f rest

def Argument.move (f : Extent → Extent) : Argument → Argument
  | .value e => .value (e.move f)
  | .spread e => .spread (e.move f)

def Argument.moveAll (f : Extent → Extent) : List Argument → List Argument
  | [] => []
  | arg :: rest => arg.move f :: Argument.moveAll f rest

def Argument.moveItems (f : Extent → Extent) : List (Option Argument) → List (Option Argument)
  | [] => []
  | none :: rest => none :: Argument.moveItems f rest
  | some item :: rest => some (item.move f) :: Argument.moveItems f rest

def Property.move (f : Extent → Extent) : Property → Property
  | .name w => .name w
  | .computed e => .computed (e.move f)
  | .privateName x => .privateName (f x)

def Key.move (f : Extent → Extent) : Key → Key
  | .name w => .name w
  | .string x => .string (f x)
  | .computed e => .computed (e.move f)
  | .other x => .other (f x)

def Member.move (f : Extent → Extent) : Member → Member
  | .shorthand w => .shorthand w
  | .keyed key value => .keyed (key.move f) (value.move f)
  | .spread e => .spread (e.move f)
  | .other x => .other (f x)

def Member.moveAll (f : Extent → Extent) : List Member → List Member
  | [] => []
  | m :: rest => m.move f :: Member.moveAll f rest

end

def Item.move (f : Extent → Extent) : Item → Item
  | .expression e => .expression (e.move f)
  | .other => .other

/-! ### What is copied -/

/-- The extents whose texts are copied for a node itself. -/
def Property.copied : Property → List Extent
  | .privateName x => [x]
  | _ => []

def Key.copied : Key → List Extent
  | .string x | .other x => [x]
  | _ => []

def Member.copied : Member → List Extent
  | .keyed key _ => key.copied
  | .other x => [x]
  | _ => []

def Expr.copied : Expr → List Extent
  | .string x | .other x => [x]
  | .object _ members => members.flatMap Member.copied
  | .member _ _ property => property.copied
  | _ => []

theorem Property.copied_move (f : Extent → Extent) (property : Property) :
    (property.move f).copied = property.copied.map f := by
  cases property <;> rfl

theorem Member.copied_move (f : Extent → Extent) (m : Member) :
    (m.move f).copied = m.copied.map f := by
  cases m with
  | keyed key value => cases key <;> rfl
  | _ => rfl

theorem Member.flatMap_copied_moveAll (f : Extent → Extent) (members : List Member) :
    (Member.moveAll f members).flatMap copied = (members.flatMap copied).map f := by
  induction members with
  | nil => rfl
  | cons m rest ih =>
    rw [moveAll, List.flatMap_cons, List.flatMap_cons, List.map_append, copied_move, ih]

namespace Expr

variable (f : Extent → Extent)

theorem copied_move (e : Expr) : (e.move f).copied = e.copied.map f := by
  cases e with
  | object x members => exact Member.flatMap_copied_moveAll f members
  | member x base property => exact property.copied_move f
  | new x callee args => cases args <;> rfl
  | _ => rfl

mutual

theorem nodes_move : ∀ e : Expr, (e.move f).nodes = e.nodes.map (·.move f)
  | .name .. | .this _ | .string _ | .other _ => by
    simp only [move, nodes, List.map_cons, List.map_nil]
  | .array _ items => by simp only [move, nodes, List.map_cons, itemsNodes_move items]
  | .object _ members => by simp only [move, nodes, List.map_cons, membersNodes_move members]
  | .unary _ _ e | .update _ _ _ e | .paren _ e | .await _ e | .new _ e none => by
    simp only [move, nodes, List.map_cons, nodes_move e]
  | .binary _ _ left right => by
    simp only [move, nodes, List.map_cons, List.map_append, nodes_move left, nodes_move right]
  | .conditional _ test yes no => by
    simp only [move, nodes, List.map_cons, List.map_append, nodes_move test, nodes_move yes,
      nodes_move no]
  | .call _ callee args | .new _ callee (some args) => by
    simp only [move, nodes, List.map_cons, List.map_append, nodes_move callee, argsNodes_move args]
  | .member _ base property => by
    simp only [move, nodes, List.map_cons, List.map_append, nodes_move base,
      propertyNodes_move property]
  | .sequence _ items => by simp only [move, nodes, List.map_cons, allNodes_move items]

theorem allNodes_move : ∀ es : List Expr, allNodes (moveAll f es) = (allNodes es).map (·.move f)
  | [] => by simp only [moveAll, allNodes, List.map_nil]
  | e :: rest => by
    simp only [moveAll, allNodes, List.map_append, nodes_move e, allNodes_move rest]

theorem argumentNodes_move : ∀ arg : Argument, (arg.move f).nodes = arg.nodes.map (·.move f)
  | .value e | .spread e => by simp only [Argument.move, Argument.nodes, nodes_move e]

theorem argsNodes_move : ∀ args : List Argument,
    Argument.allNodes (Argument.moveAll f args) = (Argument.allNodes args).map (·.move f)
  | [] => by simp only [Argument.moveAll, Argument.allNodes, List.map_nil]
  | arg :: rest => by
    simp only [Argument.moveAll, Argument.allNodes, List.map_append, argumentNodes_move arg,
      argsNodes_move rest]

theorem itemsNodes_move : ∀ items : List (Option Argument),
    Argument.itemsNodes (Argument.moveItems f items) =
      (Argument.itemsNodes items).map (·.move f)
  | [] => by simp only [Argument.moveItems, Argument.itemsNodes, List.map_nil]
  | none :: rest => by simp only [Argument.moveItems, Argument.itemsNodes, itemsNodes_move rest]
  | some item :: rest => by
    simp only [Argument.moveItems, Argument.itemsNodes, List.map_append, argumentNodes_move item,
      itemsNodes_move rest]

theorem propertyNodes_move : ∀ property : Property,
    (property.move f).nodes = property.nodes.map (·.move f)
  | .name _ | .privateName _ => by simp only [Property.move, Property.nodes, List.map_nil]
  | .computed e => by simp only [Property.move, Property.nodes, nodes_move e]

theorem keyNodes_move : ∀ key : Key, (key.move f).nodes = key.nodes.map (·.move f)
  | .name _ | .string _ | .other _ => by simp only [Key.move, Key.nodes, List.map_nil]
  | .computed e => by simp only [Key.move, Key.nodes, nodes_move e]

theorem memberNodes_move : ∀ m : Member, (m.move f).nodes = m.nodes.map (·.move f)
  | .shorthand _ | .other _ => by simp only [Member.move, Member.nodes, List.map_nil]
  | .keyed key value => by
    simp only [Member.move, Member.nodes, List.map_append, keyNodes_move key, nodes_move value]
  | .spread e => by simp only [Member.move, Member.nodes, nodes_move e]

theorem membersNodes_move : ∀ members : List Member,
    Member.allNodes (Member.moveAll f members) = (Member.allNodes members).map (·.move f)
  | [] => by simp only [Member.moveAll, Member.allNodes, List.map_nil]
  | m :: rest => by
    simp only [Member.moveAll, Member.allNodes, List.map_append, memberNodes_move m,
      membersNodes_move rest]

end

/-- What is copied for moved arguments are the moved extents. -/
theorem flatMap_copied_move (nodes : List Expr) :
    (nodes.map (·.move f)).flatMap copied = (nodes.flatMap copied).map f := by
  induction nodes with
  | nil => rfl
  | cons e rest ih =>
    rw [List.map_cons, List.flatMap_cons, List.flatMap_cons, List.map_append, copied_move, ih]

end Expr

namespace Printer

open Assay.Expr

variable {p p' : Printer} {f : Extent → Extent}

/-- What is copied for the nodes is copied for the moved nodes too. -/
def CopiesAlike (p p' : Printer) (f : Extent → Extent) (nodes : List Expr) : Prop :=
  ∀ n ∈ nodes, ∀ x ∈ n.copied, p'.raw (f x) = p.raw x

theorem copiesAlike_cons {e : Expr} {nodes : List Expr} : CopiesAlike p p' f (e :: nodes) ↔
    (∀ x ∈ e.copied, p'.raw (f x) = p.raw x) ∧ CopiesAlike p p' f nodes :=
  List.forall_mem_cons

theorem copiesAlike_append {front back : List Expr} : CopiesAlike p p' f (front ++ back) ↔
    CopiesAlike p p' f front ∧ CopiesAlike p p' f back :=
  List.forall_mem_append

mutual

theorem print_move : ∀ {e : Expr}, CopiesAlike p p' f e.nodes → p'.print (e.move f) = p.print e
  | .name .., _ | .this _, _ => by simp only [move, print]
  | .string x, h | .other x, h => by
    rw [move, print, print, h _ (mem_nodes_self _) x (List.mem_singleton_self x)]
  | .array _ items, h => by
    rw [nodes, copiesAlike_cons] at h
    rw [move, print, print, printItems_move h.2]
  | .object _ members, h => by
    rw [nodes, copiesAlike_cons, copied, List.forall_mem_flatMap] at h
    rw [move, print, print, printMembers_move h.1 h.2]
  | .unary _ op operand, h => by
    rw [nodes, copiesAlike_cons] at h
    rw [move, print, print, print_move h.2]
  | .update _ op before target, h => by
    rw [nodes, copiesAlike_cons] at h
    rw [move]
    cases before <;> rw [print, print, print_move h.2]
  | .binary _ op left right, h => by
    rw [nodes, copiesAlike_cons, copiesAlike_append] at h
    rw [move, print, print, print_move h.2.1, print_move h.2.2]
  | .conditional _ test yes no, h => by
    rw [nodes, copiesAlike_cons, copiesAlike_append, copiesAlike_append] at h
    rw [move, print, print, print_move h.2.1, print_move h.2.2.1, print_move h.2.2.2]
  | .call _ callee args, h => by
    rw [nodes, copiesAlike_cons, copiesAlike_append] at h
    rw [move, print, print, print_move h.2.1, printArgs_move h.2.2]
  | .new _ callee none, h => by
    rw [nodes, copiesAlike_cons] at h
    rw [move, print, print, print_move h.2]
  | .new _ callee (some args), h => by
    rw [nodes, copiesAlike_cons, copiesAlike_append] at h
    rw [move, print, print, print_move h.2.1, printArgs_move h.2.2]
  | .member _ base property, h => by
    rw [nodes, copiesAlike_cons, copiesAlike_append, copied] at h
    rw [move, print, print, print_move h.2.1, printProperty_move h.1 h.2.2]
  | .paren _ inner, h => by
    rw [nodes, copiesAlike_cons] at h
    rw [move, print, print, print_move h.2]
  | .sequence _ items, h => by
    rw [nodes, copiesAlike_cons] at h
    rw [move, print, print, printSequence_move h.2]
  | .await _ operand, h => by
    rw [nodes, copiesAlike_cons] at h
    rw [move, print, print, print_move h.2]

theorem printArgument_move : ∀ {arg : Argument}, CopiesAlike p p' f arg.nodes →
    p'.printArgument (arg.move f) = p.printArgument arg
  | .value e, h | .spread e, h => by
    rw [Argument.move, printArgument, printArgument, print_move (e := e) h]

theorem printItems_move : ∀ {items : List (Option Argument)},
    CopiesAlike p p' f (Argument.itemsNodes items) →
    p'.printItems (Argument.moveItems f items) = p.printItems items
  | [], _ | [none], _ => by simp only [Argument.moveItems, printItems]
  | [some item], h => by
    rw [Argument.itemsNodes, copiesAlike_append] at h
    simp only [Argument.moveItems, printItems, printArgument_move h.1]
  | none :: next :: rest, h => by
    -- the printer asks whether this is the last item, so the others stay together
    have hrest : p'.printItems (Argument.moveItems f (next :: rest)) = p.printItems (next :: rest) :=
      printItems_move h
    cases next <;> simp only [Argument.moveItems, printItems] at hrest ⊢ <;> rw [hrest]
  | some item :: next :: rest, h => by
    rw [Argument.itemsNodes, copiesAlike_append] at h
    have hrest := printItems_move h.2
    cases next <;>
      simp only [Argument.moveItems, printItems, printArgument_move h.1] at hrest ⊢ <;> rw [hrest]

theorem printArgs_move : ∀ {args : List Argument}, CopiesAlike p p' f (Argument.allNodes args) →
    p'.printArgs (Argument.moveAll f args) = p.printArgs args
  | [], _ => by simp only [Argument.moveAll, printArgs]
  | [arg], h => by
    rw [Argument.allNodes, copiesAlike_append] at h
    simp only [Argument.moveAll, printArgs, printArgument_move h.1]
  | arg :: next :: rest, h => by
    rw [Argument.allNodes, copiesAlike_append] at h
    have hrest := printArgs_move h.2
    simp only [Argument.moveAll] at hrest ⊢
    simp only [printArgs, printArgument_move h.1, hrest]

theorem printSequence_move : ∀ {items : List Expr}, CopiesAlike p p' f (allNodes items) →
    p'.printSequence (moveAll f items) = p.printSequence items
  | [], _ => by simp only [moveAll, printSequence]
  | [e], h => by
    rw [allNodes, copiesAlike_append] at h
    simp only [moveAll, printSequence, print_move h.1]
  | e :: next :: rest, h => by
    rw [allNodes, copiesAlike_append] at h
    have hrest := printSequence_move h.2
    simp only [moveAll] at hrest ⊢
    simp only [printSequence, print_move h.1, hrest]

theorem printProperty_move : ∀ {property : Property},
    (∀ x ∈ property.copied, p'.raw (f x) = p.raw x) → CopiesAlike p p' f property.nodes →
    p'.printProperty (property.move f) = p.printProperty property
  | .name w, _, _ => by simp only [Property.move, printProperty]
  | .computed e, _, h => by
    rw [Property.move, printProperty, printProperty, print_move (e := e) h]
  | .privateName x, h, _ => by
    rw [Property.move, printProperty, printProperty, h x (List.mem_singleton_self x)]

theorem printKey_move : ∀ {key : Key}, (∀ x ∈ key.copied, p'.raw (f x) = p.raw x) →
    CopiesAlike p p' f key.nodes → p'.printKey (key.move f) = p.printKey key
  | .name w, _, _ => by simp only [Key.move, printKey]
  | .string x, h, _ | .other x, h, _ => by
    rw [Key.move, printKey, printKey, h x (List.mem_singleton_self x)]
  | .computed e, _, h => by
    rw [Key.move, printKey, printKey, print_move (e := e) h]

theorem printMember_move : ∀ {m : Member}, (∀ x ∈ m.copied, p'.raw (f x) = p.raw x) →
    CopiesAlike p p' f m.nodes → p'.printMember (m.move f) = p.printMember m
  | .shorthand w, _, _ => by simp only [Member.move, printMember]
  | .keyed key value, hcopied, h => by
    rw [Member.nodes, copiesAlike_append] at h
    rw [Member.move, printMember, printMember, printKey_move hcopied h.1, print_move h.2]
  | .spread e, _, h => by
    rw [Member.move, printMember, printMember, print_move (e := e) h]
  | .other x, h, _ => by
    rw [Member.move, printMember, printMember, h x (List.mem_singleton_self x)]

theorem printMembers_move : ∀ {members : List Member},
    (∀ m ∈ members, ∀ x ∈ m.copied, p'.raw (f x) = p.raw x) →
    CopiesAlike p p' f (Member.allNodes members) →
    p'.printMembers (Member.moveAll f members) = p.printMembers members
  | [], _, _ => by simp only [Member.moveAll, printMembers]
  | [m], hcopied, h => by
    rw [Member.allNodes, copiesAlike_append] at h
    have hm := printMember_move (List.forall_mem_singleton.mp hcopied) h.1
    simp only [Member.moveAll, printMembers, hm]
  | m :: next :: rest, hcopied, h => by
    rw [Member.allNodes, copiesAlike_append] at h
    obtain ⟨hm, hmembers⟩ := List.forall_mem_cons.mp hcopied
    have hrest := printMembers_move hmembers h.2
    simp only [Member.moveAll] at hrest ⊢
    simp only [printMembers, printMember_move hm h.1, hrest]

end

end Printer

end Assay
