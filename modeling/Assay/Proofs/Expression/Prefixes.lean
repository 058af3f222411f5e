import Assay.Expression.Printer
import Assay.Proofs.Grammar.Begins

/-!
# Operators in front of an operand

A unary operator or an update is printed with a space behind it only if it is a word or would meet
its own sign. `PrefixOp.exists_apart` says that this is enough: the operator is read as it stands, if
what is printed of the operand begins with neither an equals sign nor the head of an arrow.
-/

namespace Assay

open Token

namespace Expr

/-! ### What an operator may stand in front of -/

/-- The text begins with something that no operator in front of it runs into, except its own sign. -/
def Begun (s : List Char) : Prop := ∃ c r, s = c :: r ∧ c ≠ '=' ∧ c ≠ '>'

theorem joinOperator_eq (c : Char) (op operand : List Char) :
    ∃ rest, joinOperator (c :: op) operand = c :: op ++ rest := by
  unfold joinOperator
  split
  · split
    · exact ⟨_, rfl⟩
    · exact ⟨_, rfl⟩
  · exact ⟨_, rfl⟩

theorem begun_joinOperator {op : List Char} (h : Begun op) (operand : List Char) :
    Begun (joinOperator op operand) := by
  obtain ⟨c, r, rfl, hc⟩ := h
  obtain ⟨rest, hjoin⟩ := joinOperator_eq c r operand
  rw [hjoin]
  exact ⟨c, r ++ rest, rfl, hc⟩

theorem begun_unaryText (op : UnaryOp) : Begun (unaryText op) := by
  cases op <;> exact ⟨_, _, rfl, by decide, by decide⟩

theorem begun_updateText (op : UpdateOp) : Begun op.text.toList := by
  cases op <;> exact ⟨_, _, rfl, by decide, by decide⟩

end Expr

open Assay.Expr

/-! ### Operators -/

def Expr.unaryToken (op : UnaryOp) : Token :=
  if op.isWord then .name op.text false else .punct op.text

/-- An operator in front of an operand. -/
inductive PrefixOp where
  | unary (op : UnaryOp)
  | update (op : UpdateOp)
  deriving DecidableEq, Repr

namespace PrefixOp

def text : PrefixOp → String
  | unary op => op.text
  | update op => op.text

/-- What is printed of an operator, whatever its operand is. -/
def printed : PrefixOp → List Char
  | unary op => unaryText op
  | update op => op.text.toList

def token : PrefixOp → Token
  | unary op => unaryToken op
  | update op => .punct op.text

theorem token_ne (op : PrefixOp) : op.token ≠ .punct "?." := by
  rcases op with op | op <;> cases op <;> decide

theorem begun_printed : ∀ op : PrefixOp, Begun op.printed
  | unary op => begun_unaryText op
  | update op => begun_updateText op

end PrefixOp

/-! ### Signs before a text -/

theorem apart_single {u : Char} (hu : u = '-' ∨ u = '+') {s : List Char} (hs : Begun s)
    (hne : s.head? ≠ some u) : Apart (.punct (String.ofList [u])) [u] s := by
  obtain ⟨c, r, rfl, hc, -⟩ := hs
  intro z hz
  rcases List.prefix_cons_iff.mp hz with rfl | ⟨q, rfl, -⟩
  · refine begins_of_read (by simp [Token.text]) (by simp [Token.text]) (fun fuel _ => ?_) ?_
    · rcases hu with rfl | rfl <;> cases fuel <;> rfl
    · rcases hu with rfl | rfl <;> rfl
  · exact begins_sign hu (fun hcu => hne (congrArg some hcu)) hc q

theorem apart_double {u : Char} (hu : u = '-' ∨ u = '+') {s : List Char} (hs : Begun s) :
    Apart (.punct (String.ofList [u, u])) [u, u] s := by
  obtain ⟨c, r, rfl, -, hc⟩ := hs
  intro z hz
  refine begins_double hu ?_
  rcases List.prefix_cons_iff.mp hz with rfl | ⟨q, rfl, -⟩
  · exact nofun
  · exact fun h => hc (Option.some.inj h)

theorem apart_not {s : List Char} (hs : Begun s) : Apart (.punct "!") ['!'] s := by
  obtain ⟨c, r, rfl, hc, -⟩ := hs
  intro z hz
  rcases List.prefix_cons_iff.mp hz with rfl | ⟨q, rfl, -⟩
  · exact begins_of_read rfl (by decide) (skip?_of_code (by decide)) rfl
  · exact begins_not hc q

theorem apart_complement (s : List Char) : Apart (.punct "~") ['~'] s := fun z _ =>
  begins_bracket (p := '~') (by decide) z

theorem apart_word {w : String} (hw : isWordText w) (s : List Char) :
    Apart (.name w false) w.toList (' ' :: s) := by
  intro z hz
  refine begins_word hw ?_
  rcases List.prefix_cons_iff.mp hz with rfl | ⟨q, rfl, -⟩
  · rfl
  · rfl

/-! ### Operators before an operand -/

/-- The space that is printed behind a sign, if any, keeps it from meeting itself. -/
theorem exists_spacing (sign : List Char) {s : List Char} (hs : Begun s) :
    ∃ gap, IsSpacing gap ∧ joinOperator sign s = sign ++ (gap ++ s) ∧ Begun (gap ++ s) ∧
      ∀ u, sign.getLast? = some u → u = '-' ∨ u = '+' → (gap ++ s).head? ≠ some u := by
  obtain ⟨c, r, rfl, hc⟩ := hs
  unfold joinOperator
  split
  next last first hlast hfirst =>
    obtain rfl : c = first := Option.some.inj hfirst
    split
    next =>
      refine ⟨[' '], .inr rfl, rfl, ⟨' ', _, rfl, by decide⟩, fun u _ hu hhead => ?_⟩
      obtain rfl : ' ' = u := Option.some.inj hhead
      revert hu
      decide
    next hne =>
      refine ⟨[], .inl rfl, rfl, ⟨c, r, rfl, hc⟩, fun u hend hu hhead => hne ?_⟩
      obtain rfl : last = u := Option.some.inj (hlast.symm.trans hend)
      obtain rfl : c = last := Option.some.inj hhead
      exact ⟨rfl, hu.symm⟩
  next hnone =>
    exact ⟨[], .inl rfl, rfl, ⟨c, r, rfl, hc⟩, fun u hend => (hnone u c hend rfl).elim⟩

theorem exists_apart_sign {t : Token} {sign s : List Char} (hs : Begun s)
    (h : ∀ s', Begun s' →
      (∀ u, sign.getLast? = some u → u = '-' ∨ u = '+' → s'.head? ≠ some u) → Apart t sign s') :
    ∃ gap, IsSpacing gap ∧ joinOperator sign s = sign ++ (gap ++ s) ∧ Apart t sign (gap ++ s) := by
  obtain ⟨gap, hgap, hjoin, hbegun, hne⟩ := exists_spacing sign hs
  exact ⟨gap, hgap, hjoin, h _ hbegun hne⟩

theorem exists_apart_word {w : String} (hw : isWordText w) {s : List Char} (hs : Begun s) :
    ∃ gap, IsSpacing gap ∧ joinOperator (w.toList ++ [' ']) s = w.toList ++ (gap ++ s) ∧
      Apart (.name w false) w.toList (gap ++ s) := by
  obtain ⟨c, r, rfl, -⟩ := hs
  exact ⟨[' '], .inr rfl, by simp [joinOperator], apart_word hw _⟩

/-- An operator is printed apart from its operand, with a space between them where it needs one. -/
theorem PrefixOp.exists_apart (op : PrefixOp) {s : List Char} (hs : Begun s) :
    ∃ gap, IsSpacing gap ∧ joinOperator op.printed s = op.text.toList ++ (gap ++ s) ∧
      Apart op.token op.text.toList (gap ++ s) := by
  rcases op with op | op
  · cases op
    case minus =>
      exact exists_apart_sign hs fun s' hs' hne =>
        apart_single (.inl rfl) hs' (hne '-' rfl (.inl rfl))
    case plus =>
      exact exists_apart_sign hs fun s' hs' hne =>
        apart_single (.inr rfl) hs' (hne '+' rfl (.inr rfl))
    case not => exact exists_apart_sign hs fun s' hs' _ => apart_not hs'
    case complement => exact exists_apart_sign hs fun s' _ _ => apart_complement s'
    case typeOf => exact exists_apart_word (w := "typeof") (by decide) hs
    case void => exact exists_apart_word (w := "void") (by decide) hs
    case delete => exact exists_apart_word (w := "delete") (by decide) hs
  · cases op
    case increment => exact exists_apart_sign hs fun s' hs' _ => apart_double (.inr rfl) hs'
    case decrement => exact exists_apart_sign hs fun s' hs' _ => apart_double (.inl rfl) hs'

end Assay
