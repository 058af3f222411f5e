import Assay.Proofs.SourceMap.Accepted
import Assay.Proofs.SourceMap.Session

/-!
# Sessions and the table of a map

A session divides the tokens of a map by lines and bisects those of one line.
`sourcePosition?_scan` says that it answers as a walk over the whole table does.
-/

namespace Assay

/-! ### Bisection of a list that is in order -/

section

variable {α : Type} {p : α → Bool} {l : List α}

/-- Where a predicate that holds of an element holds of all before it, the list is what satisfies
the predicate and then the rest. -/
theorem filter_append_filter_not (h : l.Pairwise fun a b => p b → p a) :
    l.filter p ++ l.filter (!p ·) = l := by
  induction l with
  | nil => rfl
  | cons a l ih =>
    obtain ⟨hfirst, hrest⟩ := List.pairwise_cons.mp h
    cases ha : p a with
    | true =>
      rw [List.filter_cons_of_pos ha, List.filter_cons_of_neg (by simp [ha]), List.cons_append,
        ih hrest]
    | false =>
      have hnone : ∀ b ∈ l, ¬ p b := fun b hb hpb => by simp [hfirst b hb hpb] at ha
      have hall : ∀ b ∈ l, (!p b) = true := fun b hb => by simpa using hnone b hb
      rw [List.filter_cons_of_neg (by simp [ha]), List.filter_cons_of_pos (by simp [ha]),
        List.filter_eq_nil_iff.mpr hnone, List.filter_eq_self.mpr hall, List.nil_append]

theorem firstFalse_of_pairwise (h : l.Pairwise fun a b => p b → p a) :
    firstFalse p l.toArray = (l.filter p).length :=
  calc firstFalse p l.toArray
      = firstFalse p (l.filter p ++ l.filter (!p ·)).toArray := by rw [filter_append_filter_not h]
    _ = (l.filter p).length := firstFalse_append (fun a ha => (List.mem_filter.mp ha).2)
        fun a ha => by simpa using (List.mem_filter.mp ha).2

/-- The element that a bisection stops at is the first at which the predicate fails. -/
theorem getElem?_firstFalse (h : l.Pairwise fun a b => p b → p a) :
    l[firstFalse p l.toArray]? = l.find? (!p ·) :=
  calc l[firstFalse p l.toArray]?
      = (l.filter p ++ l.filter (!p ·))[(l.filter p).length]? := by
        rw [firstFalse_of_pairwise h, filter_append_filter_not h]
    _ = (l.filter (!p ·)).head? := by
        rw [List.getElem?_append_right (Nat.le_refl _), Nat.sub_self, List.head?_eq_getElem?]
    _ = l.find? (!p ·) := List.head?_filter

/-- The element before it is the last one that satisfies the predicate. -/
theorem getElem?_firstFalse_pred (h : l.Pairwise fun a b => p b → p a) :
    (if firstFalse p l.toArray = 0 then none else l[firstFalse p l.toArray - 1]?) =
      (l.filter p).getLast? := by
  rw [firstFalse_of_pairwise h]
  split
  next hzero => rw [List.length_eq_zero_iff.mp hzero, List.getLast?_nil]
  next hpos =>
    calc l[(l.filter p).length - 1]?
        = (l.filter p ++ l.filter (!p ·))[(l.filter p).length - 1]? := by
          rw [filter_append_filter_not h]
      _ = (l.filter p).getLast? := by
          rw [List.getElem?_append_left (by omega), List.getLast?_eq_getElem?]

end

namespace SourceMap

/-- The ways to come by a map: from its parts, from a document, and from the comment of a text. -/
inductive Decoded : SourceMap → Prop where
  | parts (sources contents : List String) (tokens : List MapToken) :
    Decoded (ofTokens sources contents tokens)
  | document {text : List Char} {m : SourceMap} (h : ofJson text = .ok m) : Decoded m
  | comment {text : List Char} {m : SourceMap} (h : ofInline text = .ok m) : Decoded m

theorem Decoded.sorted {m : SourceMap} (h : m.Decoded) :
    m.tokens.Pairwise (·.generated.le ·.generated) := by
  cases h with
  | parts sources contents tokens => exact (sortTokens_ordered tokens).sorted
  | document h => exact (wellFormed_of_ofJson h).sorted
  | comment h => exact (wellFormed_of_ofInline h).sorted

end SourceMap

namespace LookupSession

/-- The token that a walk over a whole table picks for a place: of the tokens on its line the first
one from its column on, or the last one up to its column. -/
def scanToken? (tokens : List MapToken) (p : Position) : Bias → Option MapToken
  | .following => tokens.find? fun t => t.generated.line = p.line ∧ p.column ≤ t.generated.column
  | .preceding =>
    (tokens.filter fun t => t.generated.line = p.line ∧ t.generated.column ≤ p.column).getLast?

/-! ### The tokens of one line -/

variable {tokens : List MapToken}

theorem nearest?_following (h : tokens.Pairwise (·.generated.column ≤ ·.generated.column))
    (column : Nat) :
    nearest? tokens.toArray column .following = tokens.find? (column ≤ ·.generated.column) := by
  -- the bisection goes by what is left of the column, the walk by what is not
  have hbefore : tokens.Pairwise fun t u =>
      decide (u.generated.column < column) → decide (t.generated.column < column) :=
    h.imp fun hle hu => decide_eq_true (Nat.lt_of_le_of_lt hle (of_decide_eq_true hu))
  rw [nearest?, List.getElem?_toArray, getElem?_firstFalse hbefore]
  simp only [← decide_not, Nat.not_lt]

theorem nearest?_preceding (h : tokens.Pairwise (·.generated.column ≤ ·.generated.column))
    (column : Nat) :
    nearest? tokens.toArray column .preceding =
      (tokens.filter (·.generated.column ≤ column)).getLast? := by
  have hupTo : tokens.Pairwise fun t u =>
      decide (u.generated.column ≤ column) → decide (t.generated.column ≤ column) :=
    h.imp fun hle hu => decide_eq_true (Nat.le_trans hle (of_decide_eq_true hu))
  simp only [nearest?, List.getElem?_toArray]
  exact getElem?_firstFalse_pred hupTo

/-- The columns of the tokens of a line ascend. -/
theorem columns_of_sorted (h : tokens.Pairwise (·.generated.le ·.generated)) (line : Nat) :
    (tokens.filter (·.generated.line = line)).Pairwise
      (·.generated.column ≤ ·.generated.column) := by
  refine (h.filter _).imp_of_mem fun {t u} ht hu hle => ?_
  have hline : t.generated.line = line := of_decide_eq_true (List.mem_filter.mp ht).2
  have hline' : u.generated.line = line := of_decide_eq_true (List.mem_filter.mp hu).2
  rw [Position.le_iff] at hle
  omega

theorem nearest?_eq_scanToken? {m : SourceMap}
    (h : m.tokens.Pairwise (·.generated.le ·.generated)) {p : Position} (hline : p.line ≠ 0)
    (bias : Bias) :
    nearest? ((ofMap m).lineTokens p.line) p.column bias = scanToken? m.tokens p bias := by
  have hcolumns := columns_of_sorted h p.line
  rw [lineTokens_ofMap (lines_of_sorted h) hline]
  cases bias with
  | following =>
    rw [nearest?_following hcolumns, scanToken?, List.find?_filter]
    simp only [decide_eq_true_eq]
  | preceding =>
    rw [nearest?_preceding hcolumns, scanToken?, List.filter_filter]
    simp only [Bool.decide_and, Bool.and_comm]

/-- A session of any map answers with the origin of the token that a walk over the table picks, and
not at all if there is no such token or the token has no origin. There is no line 0, whatever tokens
stand there. -/
theorem sourcePosition?_scan {m : SourceMap} (h : m.Decoded) (p : Position) (bias : Bias) :
    (1 ≤ p.line → (ofMap m).sourcePosition? p bias =
      ((scanToken? m.tokens p bias).bind (·.origin)).map .ofOrigin) ∧
    (p.line = 0 → (ofMap m).sourcePosition? p bias = none) := by
  refine ⟨fun hline => ?_, fun hzero => ?_⟩
  · rw [sourcePosition?, nearest?_eq_scanToken? h.sorted (by omega)]
    cases scanToken? m.tokens p bias with
    | none => rfl
    | some t => cases ht : t.origin <;> simp [ht]
  · rw [sourcePosition?, hzero, lineTokens, if_pos rfl]
    cases bias <;> rfl

/-- Two tokens at one place, one without an origin behind them, and one on line 0. -/
def crowdedTokens : List MapToken :=
  [⟨⟨0, 0⟩, some ⟨0, 1, 9, none⟩⟩, ⟨⟨1, 4⟩, some ⟨0, 1, 0, none⟩⟩, ⟨⟨1, 4⟩, some ⟨1, 1, 1, none⟩⟩,
    ⟨⟨1, 9⟩, none⟩, ⟨⟨3, 2⟩, some ⟨1, 1, 2, none⟩⟩]

/-- The first of two tokens at one place answers from the left, the last from the right, and the
token without an origin hides both. -/
theorem sourcePosition?_scan_crowded :
    let m := SourceMap.ofTokens ["a.js", "b.js"] ["a", "b"] crowdedTokens
    m.Decoded ∧
      (ofMap m).sourcePosition? ⟨1, 2⟩ .following = some ⟨0, 1, 0⟩ ∧
      (ofMap m).sourcePosition? ⟨1, 8⟩ .preceding = some ⟨1, 1, 1⟩ ∧
      (ofMap m).sourcePosition? ⟨1, 5⟩ .following = none ∧
      (ofMap m).sourcePosition? ⟨1, 50⟩ .preceding = none ∧
      (ofMap m).sourcePosition? ⟨2, 0⟩ .following = none ∧
      (ofMap m).sourcePosition? ⟨0, 0⟩ .preceding = none := by
  intro m
  have hm : m.Decoded := .parts _ _ _
  have htokens : m.tokens = crowdedTokens := SourceMap.sortTokens_of_pairwise (by decide)
  have hscan (p : Position) (bias : Bias) (hline : 1 ≤ p.line) :=
    (sourcePosition?_scan hm p bias).1 hline
  rw [htokens] at hscan
  refine ⟨hm, (hscan _ _ (by decide)).trans ?_, (hscan _ _ (by decide)).trans ?_,
    (hscan _ _ (by decide)).trans ?_, (hscan _ _ (by decide)).trans ?_,
    (hscan _ _ (by decide)).trans ?_, (sourcePosition?_scan hm _ _).2 rfl⟩
  all_goals decide

end LookupSession

end Assay
