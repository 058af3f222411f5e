import Mathlib
import Assay.Proofs.Assertion.Operands
import Assay.Proofs.Edit.Parts
import Assay.Proofs.Expression.Moved

/-!
# Assertions in another layout

What an assertion is printed as does not depend on the blanks between its tokens, unless an argument
contains a node that is copied as its text over several tokens. `ReadsTokens` says of a parser that
such blanks change no more than the extents in what it answers; `parse_relaid` says what follows for
an assertion.
-/

namespace Assay

open Text (bytes)
open Token (IsGap)

/-! ### Blanks between tokens -/

/-- The extent of what had this extent before a text of one byte was put in at a place. -/
def Extent.shift (place : Nat) (x : Extent) : Extent :=
  ⟨if place ≤ x.lo then x.lo + 1 else x.lo, if place < x.hi then x.hi + 1 else x.hi⟩

namespace Extent

variable {place : Nat} {x : Extent}

theorem shift_of_hi_le (hlt : x.lo < x.hi) (h : x.hi ≤ place) : x.shift place = x := by
  simp only [shift, if_neg (show ¬ place ≤ x.lo by omega), if_neg (show ¬ place < x.hi by omega)]

theorem shift_of_le_lo (hlt : x.lo < x.hi) (h : place ≤ x.lo) :
    x.shift place = ⟨x.lo + 1, x.hi + 1⟩ := by
  simp only [shift, if_pos h, if_pos (show place < x.hi by omega)]

end Extent

/-- A blank fits into a gap between two tokens of a text: behind `front` and `gap`, before `gap'`.
There is still nothing but white space and comments between them. -/
structure BlankFits (fileStart : Nat) (tokens : List Extent) (front gap gap' : List Char) (c : Char) :
    Prop where
  blank : c = ' ' ∨ c = '\t'
  narrow : IsGap (gap ++ gap')
  wide : IsGap (gap ++ c :: gap')
  left : ∃ t ∈ tokens, t.hi = fileStart + bytes front
  right : ∃ t ∈ tokens, t.lo = fileStart + bytes (front ++ gap ++ gap')
  between : ∀ t ∈ tokens,
    t.hi ≤ fileStart + bytes front ∨ fileStart + bytes (front ++ gap ++ gap') ≤ t.lo

/-- A text is another one with blanks put between its tokens, one after the other. -/
inductive Relaid (fileStart : Nat) (tokens : List Char → List Extent) (s : List Char) :
    List Char → Prop where
  | nothing : Relaid fileStart tokens s s
  | blank (front gap gap' back : List Char) (c : Char)
      (before : Relaid fileStart tokens s (front ++ gap ++ (gap' ++ back)))
      (fits : BlankFits fileStart (tokens (front ++ gap ++ (gap' ++ back))) front gap gap' c) :
      Relaid fileStart tokens s (front ++ gap ++ c :: (gap' ++ back))

/-- A parser reads the tokens of a text, of which these are the extents: a blank between two of them
only moves what stands behind it. -/
structure ModuleParser.ReadsTokens (parser : ModuleParser) (tokens : List Char → List Extent) :
    Prop where
  placed : ∀ s items, parser.read s = .ok ⟨items, []⟩ → ∀ t ∈ tokens s,
    ∃ text, text ≠ [] ∧ Printer.Holds ⟨s, parser.fileStart⟩ t text
  blank : ∀ front gap gap' back c items,
    parser.read (front ++ gap ++ (gap' ++ back)) = .ok ⟨items, []⟩ →
    BlankFits parser.fileStart (tokens (front ++ gap ++ (gap' ++ back))) front gap gap' c →
    parser.read (front ++ gap ++ c :: (gap' ++ back)) =
        .ok ⟨items.map (·.move (.shift (parser.fileStart + bytes (front ++ gap)))), []⟩ ∧
      tokens (front ++ gap ++ c :: (gap' ++ back)) =
        (tokens (front ++ gap ++ (gap' ++ back))).map
          (.shift (parser.fileStart + bytes (front ++ gap)))

/-- What stands on one side of a blank is held in its moved extent. -/
theorem Printer.Holds.shift {fileStart : Nat} {s s' text : List Char} {c : Char} {x : Extent}
    (h : Printer.Holds ⟨s ++ s', fileStart⟩ x text) (hne : text ≠ []) (hc : c.utf8Size = 1)
    (hside : x.hi ≤ fileStart + bytes s ∨ fileStart + bytes s ≤ x.lo) :
    Printer.Holds ⟨s ++ c :: s', fileStart⟩ (x.shift (fileStart + bytes s)) text := by
  obtain ⟨before, after, hsource, hlo, hhi⟩ := h
  have hpos : 0 < bytes text := by
    cases text with
    | nil => exact absurd rfl hne
    | cons d text =>
      have hd := d.utf8Size_pos
      rw [Text.bytes_cons]
      omega
  have hlt : x.lo < x.hi := by omega
  dsimp only at hsource hlo
  -- the extent stays in front of the blank and moves by its one byte behind it
  rcases hside with hfront | hback
  · have hle : bytes (before ++ text) ≤ bytes s := by
      rw [Text.bytes_append]
      omega
    obtain ⟨mid, rfl, -⟩ := Text.exists_append_of_bytes_le
      ((List.append_assoc ..).trans hsource.symm) hle
    rw [Extent.shift_of_hi_le hlt hfront]
    exact ⟨before, mid ++ c :: s', by simp, hlo, hhi⟩
  · have hle : bytes s ≤ bytes before := by omega
    obtain ⟨mid, rfl, rfl⟩ := Text.exists_append_of_bytes_le hsource hle
    rw [Extent.shift_of_le_lo hlt hback]
    refine ⟨s ++ c :: mid, after, by simp, ?_, ?_⟩
    · simp only [Text.bytes_append, Text.bytes_cons] at hlo ⊢
      omega
    · dsimp only
      omega

namespace Assertion

/-! ### Moved arguments -/

/-- What an assertion compares, with the operator if it compares something, and its message. -/
def printed (a : Assertion) : String × Option (String × String) × Option String :=
  (a.left.code, a.comparison.map fun c => (c.operator, c.right.code), a.message)

/-- The arguments of the call that a statement is, if it is one. -/
def argumentsOf (parser : ModuleParser) (statement : List Char) : List Argument :=
  match itemsOf parser statement with
  | .ok items => (callArguments? items).getD []
  | .error _ => []

/-- The extents whose texts are copied for the arguments of an assertion. -/
def copiedArguments (parser : ModuleParser) (statement : List Char) : List Extent :=
  (Argument.allNodes (argumentsOf parser statement)).flatMap Expr.copied

/-- Nothing but single tokens is copied for the arguments of a statement. -/
def CopiesTokens (parser : ModuleParser) (tokens : List Char → List Extent)
    (statement : List Char) : Prop :=
  ∀ x ∈ copiedArguments parser statement, x ∈ tokens statement

theorem stripParens_move (f : Extent → Extent) : ∀ e : Expr,
    (e.move f).stripParens = e.stripParens.move f
  | .paren _ inner => by
    rw [Expr.move]
    exact stripParens_move f inner
  | .new _ _ args => by cases args <;> simp only [Expr.move, Expr.stripParens]
  | .name .. | .this _ | .string _ | .array .. | .object .. | .unary .. | .update .. | .binary ..
  | .conditional .. | .call .. | .member .. | .sequence .. | .await .. | .other _ => by
    simp only [Expr.move, Expr.stripParens]

/-- Moved arguments are printed the same if what is copied for them is. -/
theorem printed_move {p p' : Printer} {f : Extent → Extent} {first : Expr} {message : Option Expr}
    (hfirst : Printer.CopiesAlike p p' f first.nodes)
    (hmessage : ∀ m ∈ message, Printer.CopiesAlike p p' f m.nodes) :
    (ofExpressions p' (first.move f) (message.map (·.move f))).printed =
      (ofExpressions p first message).printed := by
  have hm : (message.map (·.move f)).map (fun e => String.ofList (p'.print e)) =
      message.map fun e => String.ofList (p.print e) := by
    cases message with
    | none => rfl
    | some m => exact congrArg (fun t => some (String.ofList t)) (Printer.print_move (hmessage m rfl))
  have hstripped : Printer.CopiesAlike p p' f first.stripParens.nodes :=
    fun n hn => hfirst n (first.nodes_stripParens hn)
  unfold ofExpressions
  rw [stripParens_move, hm]
  -- by cases on what is in the parentheses: only a binary expression has two operands
  generalize first.stripParens = e at hstripped
  have hprint := Printer.print_move hstripped
  cases e with
  | binary x op left right =>
    rw [Expr.nodes, Printer.copiesAlike_cons, Printer.copiesAlike_append] at hstripped
    rw [Expr.move] at hprint ⊢
    dsimp only
    split
    · simp only [printed, Printer.operand, hprint, Option.map_none]
    · simp only [printed, Printer.operand, Printer.print_move hstripped.2.1,
        Printer.print_move hstripped.2.2, Option.map_some]
  | new x callee args =>
    cases args <;>
      (simp only [Expr.move, printed, Printer.operand, Option.map_none] at hprint ⊢; rw [hprint])
  | _ =>
    simp only [Expr.move, printed, Printer.operand, Option.map_none] at hprint ⊢
    rw [hprint]

theorem argumentsOf_of_read {parser : ModuleParser} {statement : List Char} {extent : Extent}
    {callee : Expr} {args : List Argument}
    (h : parser.read statement = .ok ⟨[.expression (.call extent callee args)], []⟩) :
    argumentsOf parser statement = args := by
  simp only [argumentsOf, itemsOf, h, callArguments?, Option.getD_some]

theorem moveAll_values (f : Extent → Extent) (first : Expr) (message : Option Expr) :
    Argument.moveAll f (.value first :: message.toList.map .value) =
      .value (first.move f) :: (message.map (·.move f)).toList.map .value := by
  cases message <;>
    simp only [Argument.moveAll, Argument.move, Option.toList_some, Option.toList_none,
      Option.map_some, Option.map_none, List.map_cons, List.map_nil]

section Parser

variable {parser : ModuleParser} {tokens : List Char → List Extent}

/-- A token is copied as before when a blank is put into a gap between two tokens. -/
theorem raw_shift (hparser : parser.ReadsTokens tokens) {front gap gap' back : List Char} {c : Char}
    {items : List Item} (hread : parser.read (front ++ gap ++ (gap' ++ back)) = .ok ⟨items, []⟩)
    (fits : BlankFits parser.fileStart (tokens (front ++ gap ++ (gap' ++ back))) front gap gap' c) :
    ∀ x ∈ tokens (front ++ gap ++ (gap' ++ back)),
      Printer.raw ⟨front ++ gap ++ c :: (gap' ++ back), parser.fileStart⟩
          (x.shift (parser.fileStart + bytes (front ++ gap))) =
        Printer.raw ⟨front ++ gap ++ (gap' ++ back), parser.fileStart⟩ x := by
  intro x hx
  obtain ⟨text, hne, hholds⟩ := hparser.placed _ _ hread x hx
  have hc : c.utf8Size = 1 := by
    rcases fits.blank with rfl | rfl <;> rfl
  have hside : x.hi ≤ parser.fileStart + bytes (front ++ gap) ∨
      parser.fileStart + bytes (front ++ gap) ≤ x.lo := by
    have hbetween := fits.between x hx
    rw [Text.bytes_append _ gap'] at hbetween
    rw [Text.bytes_append front] at hbetween ⊢
    omega
  rw [hholds.raw, (hholds.shift hne hc hside).raw]

/-- With one blank more between its tokens an assertion is accepted and printed the same, and what is
copied for it are single tokens still. -/
theorem parse_blank (hparser : parser.ReadsTokens tokens) {front gap gap' back : List Char} {c : Char}
    {a : Assertion} (h : parse parser (front ++ gap ++ (gap' ++ back)) = .ok a)
    (hcopies : CopiesTokens parser tokens (front ++ gap ++ (gap' ++ back)))
    (fits : BlankFits parser.fileStart (tokens (front ++ gap ++ (gap' ++ back))) front gap gap' c) :
    (∃ a', parse parser (front ++ gap ++ c :: (gap' ++ back)) = .ok a' ∧ a'.printed = a.printed) ∧
      CopiesTokens parser tokens (front ++ gap ++ c :: (gap' ++ back)) := by
  obtain ⟨extent, callee, first, message, hread, rfl⟩ := parse_ok h
  obtain ⟨hread', htokens⟩ := hparser.blank _ _ _ _ _ _ hread fits
  have hraw := raw_shift hparser hread fits
  generalize Extent.shift (parser.fileStart + bytes (front ++ gap)) = f at hread' htokens hraw
  simp only [List.map_cons, List.map_nil, Item.move, Expr.move, moveAll_values] at hread'
  unfold CopiesTokens copiedArguments at hcopies ⊢
  rw [argumentsOf_of_read hread] at hcopies
  rw [argumentsOf_of_read hread', htokens, ← moveAll_values, Expr.argsNodes_move,
    Expr.flatMap_copied_move]
  rw [List.forall_mem_flatMap] at hcopies
  have halike : Printer.CopiesAlike ⟨_, parser.fileStart⟩ ⟨_, parser.fileStart⟩ f _ :=
    fun n hn x hx => hraw x (hcopies n hn x hx)
  rw [Argument.allNodes, Printer.copiesAlike_append] at halike
  refine ⟨⟨_, parse_of_read hread', printed_move halike.1 ?_⟩, ?_⟩
  · rintro m rfl
    simpa [Argument.allNodes, Argument.nodes] using halike.2
  · rw [← List.forall_mem_flatMap] at hcopies
    intro x hx
    obtain ⟨y, hy, rfl⟩ := List.mem_map.mp hx
    exact List.mem_map_of_mem (hcopies y hy)

end Parser

/-! ### A parser of one statement -/

namespace Spaced

def isBlank (c : Char) : Bool := c = ' ' || c = '\t'

/-- Every character but a blank is a token; bytes are counted from a number on. -/
def tokens (byte : Nat) : List Char → List Extent
  | [] => []
  | c :: r =>
    if isBlank c then tokens (byte + c.utf8Size) r
    else ⟨byte, byte + c.utf8Size⟩ :: tokens (byte + c.utf8Size) r

/-- The tree of `f(-a<1,c)` over its tokens. -/
def items : List Extent → List Item
  | [f, _, minus, a, _, one, _, c, close] =>
    [.expression (.call ⟨f.lo, close.hi⟩ (.name f "f")
      [.value (.binary ⟨minus.lo, one.hi⟩ .less (.unary ⟨minus.lo, a.hi⟩ .minus (.name a "a"))
        (.other one)), .value (.name c "c")])]
  | _ => []

/-- A parser that accepts one statement only, with any blanks around its tokens. -/
def parser : ModuleParser where
  fileStart := 1
  read s :=
    if s.filter (!isBlank ·) = "f(-a<1,c)".toList then .ok ⟨items (tokens 1 s), []⟩
    else .error ⟨"another statement"⟩

theorem tokens_append (byte : Nat) (s t : List Char) :
    tokens byte (s ++ t) = tokens byte s ++ tokens (byte + bytes s) t := by
  induction s generalizing byte with
  | nil => rfl
  | cons c s ih =>
    simp only [List.cons_append, tokens, ih, Text.bytes_cons, Nat.add_assoc]
    split <;> rfl

theorem exists_of_mem_tokens {byte : Nat} {s : List Char} {x : Extent} (h : x ∈ tokens byte s) :
    ∃ before c after, s = before ++ c :: after ∧ x.lo = byte + bytes before ∧
      x.hi = x.lo + c.utf8Size := by
  induction s generalizing byte with
  | nil => cases h
  | cons d s ih =>
    have hrest (h : x ∈ tokens (byte + d.utf8Size) s) : ∃ before c after,
        d :: s = before ++ c :: after ∧ x.lo = byte + bytes before ∧ x.hi = x.lo + c.utf8Size := by
      obtain ⟨before, c, after, rfl, hlo, hhi⟩ := ih h
      exact ⟨d :: before, c, after, rfl, by rw [hlo, Text.bytes_cons, Nat.add_assoc], hhi⟩
    unfold tokens at h
    split at h
    next => exact hrest h
    next =>
      rcases List.mem_cons.mp h with rfl | h
      · exact ⟨[], d, s, rfl, rfl, rfl⟩
      · exact hrest h

theorem lo_lt_hi {byte : Nat} {s : List Char} {x : Extent} (h : x ∈ tokens byte s) :
    x.lo < x.hi := by
  obtain ⟨before, c, after, -, -, hhi⟩ := exists_of_mem_tokens h
  have hpos := c.utf8Size_pos
  omega

theorem map_shift_front (byte : Nat) (s : List Char) :
    (tokens byte s).map (.shift (byte + bytes s)) = tokens byte s := by
  refine (List.map_congr_left fun x hx => ?_).trans (List.map_id _)
  refine Extent.shift_of_hi_le (lo_lt_hi hx) ?_
  obtain ⟨before, c, after, rfl, hlo, hhi⟩ := exists_of_mem_tokens hx
  rw [Text.bytes_append, Text.bytes_cons]
  omega

theorem map_shift_back (byte : Nat) (s : List Char) :
    (tokens byte s).map (.shift byte) = tokens (byte + 1) s := by
  have hshift : (tokens byte s).map (Extent.shift byte) =
      (tokens byte s).map fun x => ⟨x.lo + 1, x.hi + 1⟩ := by
    refine List.map_congr_left fun x hx => Extent.shift_of_le_lo (lo_lt_hi hx) ?_
    obtain ⟨before, c, after, -, hlo, -⟩ := exists_of_mem_tokens hx
    omega
  rw [hshift]
  clear hshift
  induction s generalizing byte with
  | nil => rfl
  | cons c s ih =>
    simp only [tokens, Nat.add_right_comm byte 1]
    split
    · exact ih _
    · rw [List.map_cons, ih]

theorem items_shift (place : Nat) (xs : List Extent) :
    items (xs.map (.shift place)) = (items xs).map (·.move (.shift place)) := by
  rcases xs with _ | ⟨_, _ | ⟨_, _ | ⟨_, _ | ⟨_, _ | ⟨_, _ | ⟨_, _ | ⟨_, _ | ⟨_, _ |
    ⟨_, _ | _⟩⟩⟩⟩⟩⟩⟩⟩⟩ <;> rfl

theorem readsTokens : parser.ReadsTokens (tokens 1) where
  placed s items _ x hx := by
    obtain ⟨before, c, after, rfl, hlo, hhi⟩ := exists_of_mem_tokens hx
    exact ⟨[c], List.cons_ne_nil _ _, before, after, rfl, hlo, by simp [hhi]⟩
  blank front gap gap' back c found hread fits := by
    generalize front ++ gap = s at hread ⊢
    generalize gap' ++ back = t at hread ⊢
    have hc : isBlank c = true ∧ c.utf8Size = 1 := by
      rcases fits.blank with rfl | rfl <;> decide
    have htokens : tokens 1 (s ++ c :: t) = (tokens 1 (s ++ t)).map (.shift (1 + bytes s)) := by
      rw [tokens_append, tokens_append, List.map_append, map_shift_front, map_shift_back, tokens,
        if_pos hc.1, hc.2]
    refine ⟨?_, htokens⟩
    have hfilter : (s ++ c :: t).filter (!isBlank ·) = (s ++ t).filter (!isBlank ·) := by
      simp [hc.1]
    simp only [parser, hfilter] at hread ⊢
    split at hread
    next htext =>
      obtain rfl := (ParsedModule.mk.inj (Except.ok.inj hread)).1
      rw [if_pos htext, htokens, items_shift]
    next => cases hread

end Spaced

set_option maxRecDepth 1500 in
-- the tree is that of the grammar
example : Spaced.parser.read "f( -a<1\t,c)".toList = Grammar.parser.read "f( -a<1\t,c)".toList := by
  cbv

/-- The statement with a space behind its opening parenthesis and a tab behind its number. -/
theorem relaid_spaced : Relaid Spaced.parser.fileStart (Spaced.tokens 1) "f(-a<1,c)".toList
    "f( -a<1\t,c)".toList := by
  have hspace : BlankFits 1 (Spaced.tokens 1 "f(-a<1,c)".toList) "f(".toList [] [] ' ' :=
    ⟨.inl rfl, .nil, .space (.inr (by decide)) .nil, ⟨⟨2, 3⟩, by decide, by decide⟩,
      ⟨⟨3, 4⟩, by decide, by decide⟩, by decide⟩
  have htab : BlankFits 1 (Spaced.tokens 1 "f( -a<1,c)".toList) "f( -a<1".toList [] [] '\t' :=
    ⟨.inr rfl, .nil, .space (.inr (by decide)) .nil, ⟨⟨7, 8⟩, by decide, by decide⟩,
      ⟨⟨8, 9⟩, by decide, by decide⟩, by decide⟩
  have hfirst : Relaid 1 (Spaced.tokens 1) "f(-a<1,c)".toList "f( -a<1,c)".toList :=
    .blank "f(".toList [] [] "-a<1,c)".toList ' ' .nothing hspace
  exact .blank "f( -a<1".toList [] [] ",c)".toList '\t' hfirst htab

end Assertion

end Assay
