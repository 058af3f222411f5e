import Assay.Expression.Printer
import Assay.Grammar.Token

/-!
# Expressions where they are written

What a parser answers tells of a text where its nodes are written. `PlacesNodes` says of a parser that
the extents in its answers are those of the nodes, and `NamesInLine` that names hold no newline; of
what is read into a tree nothing more is known. `Holds.raw` and `Holds.span` say which text and which
code units the printer takes for an extent.
-/

namespace Assay

open Text (bytes units splitAtByte)

/-- White space and comments; a comment that a line ends includes the end of the line. -/
inductive Token.IsGap : List Char → Prop where
  | nil : IsGap []
  | space {c : Char} {g : List Char} (space : isLineBreak c ∨ isSpace c) (after : IsGap g) :
      IsGap (c :: g)
  | line {body g : List Char} {c : Char} (inside : ∀ d ∈ body, isLineBreak d = false)
      (ends : isLineBreak c) (after : IsGap g) : IsGap ('/' :: '/' :: (body ++ c :: g))
  | block {body g : List Char} (inside : ¬ ['*', '/'] <:+: body) (after : IsGap g) :
      IsGap ('/' :: '*' :: (body ++ '*' :: '/' :: g))

open Token (IsGap)

/-- A range of code units is where a text stands in a source. -/
def Span.Selects (range : Span) (source text : List Char) : Prop :=
  ∃ before after, source = before ++ (text ++ after) ∧
    range = ⟨units before, units before + units text⟩

namespace Span.Selects

variable {range : Span} {source text : List Char}

theorem start_lt_stop (h : range.Selects source text) (hne : text ≠ []) :
    range.start < range.stop := by
  obtain ⟨before, after, -, rfl⟩ := h
  cases text with
  | nil => exact absurd rfl hne
  | cons c text =>
    have hpos := Text.charUnits_pos c
    rw [Text.units_cons]
    dsimp only
    omega

theorem start_le_stop (h : range.Selects source text) : range.start ≤ range.stop := by
  obtain ⟨before, after, -, rfl⟩ := h
  exact Nat.le_add_right ..

theorem stop_le (h : range.Selects source text) : range.stop ≤ units source := by
  obtain ⟨before, after, rfl, rfl⟩ := h
  rw [Text.units_append, Text.units_append]
  dsimp only
  omega

end Span.Selects

theorem Text.exists_of_slice? {start stop : Nat} {s text : List Char}
    (h : slice? start stop s = some text) :
    ∃ before after, s = before ++ (text ++ after) ∧ start = bytes before ∧
      stop = bytes before + bytes text := by
  unfold slice? at h
  dsimp only at h
  split at h
  next hbytes =>
    obtain rfl := Option.some.inj h
    have hs := splitAtByte_append stop s
    have hfront := splitAtByte_append start (splitAtByte stop s).1
    refine ⟨_, (splitAtByte stop s).2, ?_, hbytes.2.symm, ?_⟩
    · rw [← List.append_assoc, hfront, hs]
    · rw [← bytes_append, hfront, hbytes.1]
  next => cases h

/-! ### Texts of extents -/

namespace Printer

variable {p : Printer} {extent : Extent} {text : List Char}

/-- A text stands in the source from one end of an extent to the other. -/
def Holds (p : Printer) (extent : Extent) (text : List Char) : Prop :=
  ∃ before after, p.source = before ++ (text ++ after) ∧
    extent.lo = p.fileStart + bytes before ∧ extent.hi = extent.lo + bytes text

theorem Holds.byteRange (h : p.Holds extent text) :
    p.byteRange extent = (extent.lo - p.fileStart, extent.hi - p.fileStart) := by
  obtain ⟨before, after, hsource, hlo, hhi⟩ := h
  have hbytes : bytes p.source = bytes before + bytes text + bytes after := by
    rw [hsource, Text.bytes_append, Text.bytes_append, Nat.add_assoc]
  unfold Printer.byteRange
  ext <;> dsimp only <;> omega

theorem Holds.raw (h : p.Holds extent text) : p.raw extent = text := by
  have hrange := h.byteRange
  obtain ⟨before, after, hsource, hlo, hhi⟩ := h
  have hstart : extent.lo - p.fileStart = bytes before := by omega
  have hstop : extent.hi - p.fileStart = bytes before + bytes text := by omega
  simp only [Printer.raw, hrange, hsource, hstart, hstop, Text.slice?_bytes, Option.getD_some]

/-- The code units before a byte. -/
def offsetAt (p : Printer) (byte : Nat) : Nat :=
  units (splitAtByte (byte - p.fileStart) p.source).1

theorem Holds.span (h : p.Holds extent text) :
    p.span extent = ⟨p.offsetAt extent.lo, p.offsetAt extent.hi⟩ := by
  rw [Printer.span, h.byteRange]
  rfl

theorem offsetAt_bytes {before after : List Char} (h : p.source = before ++ after) :
    p.offsetAt (p.fileStart + bytes before) = units before := by
  rw [offsetAt, Nat.add_sub_cancel_left, h, Text.splitAtByte_bytes]

theorem units_splitAtByte_mono {m n : Nat} (h : m ≤ n) (s : List Char) :
    units (splitAtByte m s).1 ≤ units (splitAtByte n s).1 := by
  induction s generalizing m n with
  | nil => exact Nat.le_refl 0
  | cons c s ih =>
    unfold splitAtByte
    split
    next hm =>
      rw [if_pos (Nat.le_trans hm h)]
      have hrest := ih (Nat.sub_le_sub_right h c.utf8Size)
      simp only [Text.units_cons]
      omega
    next => exact Nat.zero_le _

theorem offsetAt_mono {byte byte' : Nat} (h : byte ≤ byte') : p.offsetAt byte ≤ p.offsetAt byte' :=
  units_splitAtByte_mono (Nat.sub_le_sub_right h p.fileStart) p.source

theorem Holds.selects (h : p.Holds extent text) :
    Span.Selects ⟨p.offsetAt extent.lo, p.offsetAt extent.hi⟩ p.source text := by
  obtain ⟨before, after, hsource, hlo, hhi⟩ := h
  have hstop : extent.hi = p.fileStart + bytes (before ++ text) := by
    rw [Text.bytes_append]
    omega
  refine ⟨before, after, hsource, ?_⟩
  rw [hlo, hstop, offsetAt_bytes hsource,
    offsetAt_bytes (hsource.trans (List.append_assoc ..).symm), Text.units_append]

/-- What is held in two parts is held in each of them. -/
theorem Holds.front {front back : List Char} (h : p.Holds extent (front ++ back)) :
    p.Holds ⟨extent.lo, extent.lo + bytes front⟩ front := by
  obtain ⟨before, after, hsource, hlo, -⟩ := h
  exact ⟨before, back ++ after, by rw [hsource, List.append_assoc], hlo, rfl⟩

theorem Holds.hi_eq (h : p.Holds extent text) : extent.hi = extent.lo + bytes text := by
  obtain ⟨before, after, -, -, hhi⟩ := h
  exact hhi

theorem newline_not_mem_raw (h : '\n' ∉ p.source) (extent : Extent) : '\n' ∉ p.raw extent := by
  unfold Printer.raw
  obtain ⟨start, stop⟩ := p.byteRange extent
  dsimp only
  cases hslice : Text.slice? start stop p.source with
  | none => exact List.not_mem_nil
  | some text =>
    obtain ⟨before, after, hsource, -⟩ := Text.exists_of_slice? hslice
    rw [hsource, List.mem_append, List.mem_append, not_or, not_or] at h
    exact h.2.1

theorem holds_of_slice? (hlo : p.fileStart ≤ extent.lo) (hhi : extent.lo ≤ extent.hi)
    (h : Text.slice? (extent.lo - p.fileStart) (extent.hi - p.fileStart) p.source = some text) :
    p.Holds extent text := by
  obtain ⟨before, after, hsource, hstart, hstop⟩ := Text.exists_of_slice? h
  exact ⟨before, after, hsource, by omega, by omega⟩

end Printer

/-! ### Nodes -/

mutual

/-- An expression with all the expressions in it. -/
def Expr.nodes : Expr → List Expr
  | .array x items => .array x items :: Argument.itemsNodes items
  | .object x members => .object x members :: Member.allNodes members
  | .unary x op operand => .unary x op operand :: operand.nodes
  | .update x op before target => .update x op before target :: target.nodes
  | .binary x op left right => .binary x op left right :: (left.nodes ++ right.nodes)
  | .conditional x test yes no => .conditional x test yes no :: (test.nodes ++ (yes.nodes ++ no.nodes))
  | .call x callee args => .call x callee args :: (callee.nodes ++ Argument.allNodes args)
  | .new x callee none => .new x callee none :: callee.nodes
  | .new x callee (some args) => .new x callee (some args) :: (callee.nodes ++ Argument.allNodes args)
  | .member x base property => .member x base property :: (base.nodes ++ property.nodes)
  | .paren x inner => .paren x inner :: inner.nodes
  | .sequence x items => .sequence x items :: Expr.allNodes items
  | .await x operand => .await x operand :: operand.nodes
  | e => [e]

def Expr.allNodes : List Expr → List Expr
  | [] => []
  | e :: rest => e.nodes ++ Expr.allNodes rest

def Argument.nodes : Argument → List Expr
  | .value e | .spread e => e.nodes

def Argument.allNodes : List Argument → List Expr
  | [] => []
  | arg :: rest => arg.nodes ++ Argument.allNodes rest

def Argument.itemsNodes : List (Option Argument) → List Expr
  | [] => []
  | none :: rest => Argument.itemsNodes rest
  | some item :: rest => item.nodes ++ Argument.itemsNodes rest

def Property.nodes : Property → List Expr
  | .computed e => e.nodes
  | _ => []

def Key.nodes : Key → List Expr
  | .computed e => e.nodes
  | _ => []

def Member.nodes : Member → List Expr
  | .keyed key value => key.nodes ++ value.nodes
  | .spread e => e.nodes
  | _ => []

def Member.allNodes : List Member → List Expr
  | [] => []
  | m :: rest => m.nodes ++ Member.allNodes rest

end

/-- The names that are printed for a node itself. -/
def Property.names : Property → List String
  | .name w => [w]
  | _ => []

def Key.names : Key → List String
  | .name w => [w]
  | _ => []

def Member.names : Member → List String
  | .shorthand w => [w]
  | .keyed key _ => key.names
  | _ => []

def Expr.names : Expr → List String
  | .name _ w => [w]
  | .object _ members => members.flatMap Member.names
  | .member _ _ property => property.names
  | _ => []

namespace Expr

theorem mem_nodes_self (e : Expr) : e ∈ e.nodes := by
  cases e with
  | new x callee args => cases args <;> simp [nodes]
  | _ => simp [nodes]

theorem nodes_stripParens : ∀ (e : Expr) {n : Expr}, n ∈ e.stripParens.nodes → n ∈ e.nodes
  | .paren _ inner, _, h => by
    rw [nodes]
    exact List.mem_cons_of_mem _ (nodes_stripParens inner h)
  | .name .., _, h | .this _, _, h | .string _, _, h | .array .., _, h | .object .., _, h
  | .unary .., _, h | .update .., _, h | .binary .., _, h | .conditional .., _, h | .call .., _, h
  | .new .., _, h | .member .., _, h | .sequence .., _, h | .await .., _, h | .other _, _, h => h

/-- The extent of an expression is that of its text, and between the parts of an expression stands
what belongs there: the opening parenthesis before what is inside, the operator between its sides and
the opening parenthesis between a callee and its first argument. -/
structure WrittenIn (p : Printer) (e : Expr) : Prop where
  text : ∃ text, text ≠ [] ∧ p.Holds e.extent text
  paren : ∀ x inner, e = .paren x inner →
    ∃ gap, IsGap gap ∧ p.Holds ⟨x.lo, inner.extent.lo⟩ ('(' :: gap)
  binary : ∀ x op left right, e = .binary x op left right → left.extent.lo = x.lo ∧
    ∃ gap gap', IsGap gap ∧ IsGap gap' ∧
      p.Holds ⟨left.extent.hi, right.extent.lo⟩ (gap ++ (op.text.toList ++ gap'))
  call : ∀ x callee first rest, e = .call x callee (.value first :: rest) →
    ∃ gap gap', IsGap gap ∧ IsGap gap' ∧
      p.Holds ⟨callee.extent.hi, first.extent.lo⟩ (gap ++ '(' :: gap')

theorem WrittenIn.lo_lt_hi {p : Printer} {e : Expr} (h : e.WrittenIn p) :
    e.extent.lo < e.extent.hi := by
  obtain ⟨text, hne, hholds⟩ := h.text
  cases text with
  | nil => exact absurd rfl hne
  | cons c text =>
    have hhi := hholds.hi_eq
    have hpos := c.utf8Size_pos
    rw [Text.bytes_cons] at hhi
    omega

/-- What stands in parentheses begins behind them. -/
theorem lo_le_stripParens {p : Printer} : ∀ (e : Expr), (∀ n ∈ e.nodes, n.WrittenIn p) →
    e.extent.lo ≤ e.stripParens.extent.lo
  | .paren x inner, h => by
    rw [nodes, List.forall_mem_cons] at h
    obtain ⟨gap, -, hholds⟩ := h.1.paren x inner rfl
    have hopening : inner.extent.lo = x.lo + bytes ('(' :: gap) := hholds.hi_eq
    exact Nat.le_trans (by rw [hopening]; exact Nat.le_add_right ..) (lo_le_stripParens inner h.2)
  | .name .., _ | .this _, _ | .string _, _ | .array .., _ | .object .., _ | .unary .., _
  | .update .., _ | .binary .., _ | .conditional .., _ | .call .., _ | .new .., _ | .member .., _
  | .sequence .., _ | .await .., _ | .other _, _ => Nat.le_refl _

end Expr

/-! ### Laws of parsers -/

namespace ModuleParser

/-- The nodes of a text that is a module with nothing wrong in it, as far as its statements are
expressions. -/
def nodes (parser : ModuleParser) (s : List Char) : List Expr :=
  match parser.read s with
  | .ok ⟨items, []⟩ => items.flatMap fun
    | .expression e => e.nodes
    | .other => []
  | _ => []

theorem nodes_of_read {parser : ModuleParser} {s : List Char} {e : Expr}
    (h : parser.read s = .ok ⟨[.expression e], []⟩) : parser.nodes s = e.nodes := by
  simp only [nodes, h, List.flatMap_singleton]

/-- The nodes that a parser answers have the extents of their texts. -/
def PlacesNodes (parser : ModuleParser) : Prop :=
  ∀ s, ∀ n ∈ parser.nodes s, n.WrittenIn ⟨s, parser.fileStart⟩

/-- The names that a parser answers hold no newline. -/
def NamesInLine (parser : ModuleParser) : Prop :=
  ∀ s, ∀ n ∈ parser.nodes s, ∀ w ∈ n.names, '\n' ∉ w.toList

/-- A parser that accepts no more than some texts. -/
def only (parser : ModuleParser) (texts : List (List Char)) : ModuleParser where
  fileStart := parser.fileStart
  read s := if s ∈ texts then parser.read s else .error ⟨"another text"⟩

theorem only_read {parser : ModuleParser} {texts : List (List Char)} {s : List Char}
    (h : s ∈ texts) : (parser.only texts).read s = parser.read s := if_pos h

theorem forall_nodes_only {parser : ModuleParser} {texts : List (List Char)}
    {P : List Char → Expr → Prop} (h : ∀ s ∈ texts, ∀ n ∈ parser.nodes s, P s n) :
    ∀ s, ∀ n ∈ (parser.only texts).nodes s, P s n := by
  intro s n hn
  unfold nodes only at hn
  dsimp only at hn
  split at hn
  next items hread =>
    split at hread
    next hs =>
      refine h s hs n ?_
      unfold nodes
      rw [hread]
      exact hn
    next => cases hread
  next => cases hn

end ModuleParser

end Assay
