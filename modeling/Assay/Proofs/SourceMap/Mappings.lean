import Assay.Proofs.Codec.Vlq
import Assay.SourceMap.Mappings

/-!
# Mappings there and back

A token is written as the differences of its numbers from the running sums, and reading adds them up
again. `reread_decode` says that the mappings of ordered tokens are read as these tokens, and not at
all if an origin is on line 0.
-/

namespace Assay

theorem bind_eq_ok {ε α β : Type} {x : Except ε α} {f : α → Except ε β} {b : β}
    (h : x >>= f = .ok b) : ∃ a, x = .ok a ∧ f a = .ok b := by
  cases x with
  | error e => cases h
  | ok a => exact ⟨a, rfl, h⟩

structure Origin.Fits (o : Origin) : Prop where
  source : o.source < 0x100000000
  line : o.line < 0x100000000
  column : o.column < 0x100000000
  name : ∀ n ∈ o.name, n < 0x100000000

instance (o : Origin) : Decidable o.Fits :=
  decidable_of_iff
    (o.source < 0x100000000 ∧ o.line < 0x100000000 ∧ o.column < 0x100000000 ∧
      ∀ n ∈ o.name, n < 0x100000000)
    ⟨fun ⟨hs, hl, hc, hn⟩ => ⟨hs, hl, hc, hn⟩, fun ⟨hs, hl, hc, hn⟩ => ⟨hs, hl, hc, hn⟩⟩

structure MapToken.Fits (t : MapToken) : Prop where
  column : t.generated.column < 0x100000000
  origin : ∀ o ∈ t.origin, o.Fits

instance (t : MapToken) : Decidable t.Fits :=
  decidable_of_iff (t.generated.column < 0x100000000 ∧ ∀ o ∈ t.origin, o.Fits)
    ⟨fun ⟨hc, ho⟩ => ⟨hc, ho⟩, fun ⟨hc, ho⟩ => ⟨hc, ho⟩⟩

/-- A token whose origin, if it has one, is on a line from 1 on. -/
def MapToken.LineFromOne (t : MapToken) : Prop := ∀ o ∈ t.origin, 1 ≤ o.line

instance (t : MapToken) : Decidable t.LineFromOne :=
  inferInstanceAs (Decidable (∀ o ∈ t.origin, 1 ≤ o.line))

/-- A token whose origin, if it has one, is in one of `count` sources. -/
def MapToken.SourceBelow (count : Nat) (t : MapToken) : Prop := ∀ o ∈ t.origin, o.source < count

instance (count : Nat) (t : MapToken) : Decidable (t.SourceBelow count) :=
  inferInstanceAs (Decidable (∀ o ∈ t.origin, o.source < count))

namespace Mappings

/-! ### Quantities of a token -/

/-- The differences between a token and the sums before it. -/
def quantities (s : Sums) (t : MapToken) : List Int :=
  (t.generated.column - s.column) ::
    match t.origin with
    | none => []
    | some o =>
      (o.source - s.source) :: ((o.line : Int) - 1 - s.originLine) :: (o.column - s.originColumn) ::
        match o.name with
        | none => []
        | some name => [name - s.name]

theorem encodeToken_eq (s : Sums) (t : MapToken) :
    encodeToken s t = (quantities s t).flatMap Vlq.encode := by
  obtain ⟨generated, origin⟩ := t
  cases origin with
  | none => rfl
  | some o =>
    obtain ⟨source, line, column, name⟩ := o
    cases name <;> simp [encodeToken, quantities]

theorem quantities_ne_nil (s : Sums) (t : MapToken) : quantities s t ≠ [] := List.cons_ne_nil _ _

theorem quantities_length_le (s : Sums) (t : MapToken) : (quantities s t).length ≤ 5 := by
  obtain ⟨generated, origin⟩ := t
  cases origin with
  | none => exact Nat.le_of_ble_eq_true rfl
  | some o =>
    obtain ⟨source, line, column, name⟩ := o
    cases name <;> exact Nat.le_of_ble_eq_true rfl

/-- Sums as tokens leave them: a line counts from -1 for an origin on line 0. -/
structure Sums.Small (s : Sums) : Prop where
  column : 0 ≤ s.column ∧ s.column < 0x100000000
  source : 0 ≤ s.source ∧ s.source < 0x100000000
  originLine : -1 ≤ s.originLine ∧ s.originLine < 0x100000000
  originColumn : 0 ≤ s.originColumn ∧ s.originColumn < 0x100000000
  name : 0 ≤ s.name ∧ s.name < 0x100000000

theorem Sums.small_zero : Sums.zero.Small := by
  constructor <;> decide

theorem Sums.Small.startLine {s : Sums} (h : s.Small) : Sums.Small { s with column := 0 } :=
  { h with column := ⟨Int.le_refl 0, show (0 : Int) < 0x100000000 by decide⟩ }

theorem Sums.Small.ofToken {s : Sums} (h : s.Small) {t : MapToken} (ht : t.Fits) :
    (s.ofToken t).Small := by
  obtain ⟨generated, origin⟩ := t
  have hcolumn := ht.column
  cases origin with
  | none => exact { h with column := by dsimp only [Sums.ofToken] at hcolumn ⊢; omega }
  | some o =>
    have ho := ht.origin o rfl
    obtain ⟨source, line, column, name⟩ := o
    obtain ⟨hs, hl, hc, hn⟩ := ho
    have hname := h.name
    dsimp only at hcolumn hs hl hc hn
    cases name with
    | none => constructor <;> dsimp only [Sums.ofToken] <;> omega
    | some n =>
      have := hn n rfl
      constructor <;> dsimp only [Sums.ofToken] <;> omega

theorem quantities_lt {s : Sums} (h : s.Small) {t : MapToken} (ht : t.Fits) :
    ∀ v ∈ quantities s t, v.natAbs < 0x10000000000 := by
  obtain ⟨⟨_, _⟩, ⟨_, _⟩, ⟨_, _⟩, ⟨_, _⟩, ⟨_, _⟩⟩ := h
  obtain ⟨generated, origin⟩ := t
  have hcolumn := ht.column
  dsimp only at hcolumn
  cases origin with
  | none =>
    simp only [quantities, List.forall_mem_cons, List.not_mem_nil, false_implies, implies_true,
      and_true]
    omega
  | some o =>
    have ho := ht.origin o rfl
    obtain ⟨source, line, column, name⟩ := o
    obtain ⟨hs, hl, hc, hn⟩ := ho
    dsimp only at hs hl hc hn
    cases name with
    | none =>
      simp only [quantities, List.forall_mem_cons, List.not_mem_nil, false_implies, implies_true,
        and_true]
      omega
    | some n =>
      have := hn n rfl
      simp only [quantities, List.forall_mem_cons, List.not_mem_nil, false_implies, implies_true,
        and_true]
      omega

theorem quantities_small {s : Sums} (h : s.Small) {t : MapToken} (ht : t.Fits) :
    ∀ v ∈ quantities s t, v.natAbs < 0x4000000000000000 := fun v hv =>
  Nat.lt_trans (quantities_lt h ht v hv) (by decide)

/-! ### Segments -/

theorem digit_ne_break : ∀ d < 64, Base64.digit d ≠ ';' ∧ Base64.digit d ≠ ',' := by decide

theorem encode_head (v : Int) : ∃ c r, Vlq.encode v = c :: r ∧ c ≠ ';' ∧ c ≠ ',' := by
  obtain ⟨c, r, h⟩ := List.exists_cons_of_ne_nil (Vlq.encode_ne_nil v)
  have hmem : c ∈ Vlq.encodeNat (Vlq.fold v) := by
    rw [← Vlq.encode, h]
    exact List.mem_cons_self
  obtain ⟨d, hd, rfl⟩ := Vlq.encodeNat_digits _ c hmem
  exact ⟨_, r, h, digit_ne_break d hd⟩

theorem readSegment_break (offset room : Nat) {rest : List Char} (h : atBreak rest) :
    readSegment offset room rest = .ok ([], rest, offset) := by
  unfold readSegment
  rw [if_pos h]

/-- A segment is read as the quantities that it was written from. -/
theorem readSegment_flatMap {vs : List Int} (hsmall : ∀ v ∈ vs, v.natAbs < 0x4000000000000000)
    {rest : List Char} (hrest : atBreak rest) (offset room : Nat) (hroom : vs.length ≤ room) :
    readSegment offset room (vs.flatMap Vlq.encode ++ rest) =
      .ok (vs, rest, offset + (vs.flatMap Vlq.encode).length) := by
  induction vs generalizing offset room with
  | nil => exact readSegment_break offset room hrest
  | cons v vs ih =>
    cases room with
    | zero => exact absurd hroom (Nat.not_succ_le_zero _)
    | succ room =>
      obtain ⟨c, r, hc, hsemicolon, hcomma⟩ := encode_head v
      have hbreak : atBreak (Vlq.encode v ++ (vs.flatMap Vlq.encode ++ rest)) = false := by
        simp [hc, atBreak, hsemicolon, hcomma]
      have hv := Vlq.decode?_encode_append v (vs.flatMap Vlq.encode ++ rest)
        (hsmall v List.mem_cons_self)
      have hvs := ih (fun w hw => hsmall w (List.mem_cons_of_mem v hw))
        (offset + (Vlq.encode v).length) room (Nat.le_of_succ_le_succ hroom)
      rw [List.flatMap_cons, List.append_assoc, readSegment, hbreak, hv]
      simp only [Bool.false_eq_true, if_false, List.drop_left, hvs, List.length_append,
        Nat.add_assoc]

theorem Arithmetic.keep_self {α : Type} [DecidableEq α] (a : Arithmetic) (n : α) :
    a.keep n n = .ok n := if_neg fun h => h.2 rfl

theorem Arithmetic.add64_sub (a : Arithmetic) (m : Int) {n : Int} (h : -1 ≤ n ∧ n < 0x100000000) :
    a.add64 m (n - m) = .ok n := by
  rw [add64, show m + (n - m) = n by omega, Vlq.wrap64_of_small n (by omega), keep_self]

theorem Arithmetic.add64_natCast_sub (a : Arithmetic) (m : Int) {n : Nat} (h : n < 0x100000000) :
    a.add64 m (n - m) = .ok (n : Int) := a.add64_sub m (by omega)

theorem word_natCast {n : Nat} (h : n < 0x100000000) : word n = n := by
  unfold word
  omega

variable {a : Arithmetic}

theorem Sums.addColumn_sub (start : Nat) (s : Sums) {n : Nat} (h : n < 0x100000000) :
    s.addColumn a start (n - s.column) = .ok { s with column := n } := by
  simp only [addColumn, a.add64_natCast_sub s.column h, bind, Except.bind,
    if_neg (Int.not_lt.mpr (Int.natCast_nonneg n))]

/-- The sums come to an origin if its line is from 1 on. -/
theorem Sums.addOrigin_sub (start : Nat) (s : Sums) {o : Origin} (h : o.Fits) {count : Nat}
    (hsource : o.source < count) :
    s.addOrigin a start count (o.source - s.source) ((o.line : Int) - 1 - s.originLine)
        (o.column - s.originColumn) =
      if 1 ≤ o.line then
        .ok { s with source := o.source, originLine := (o.line : Int) - 1, originColumn := o.column }
      else .error (.invalidMappings start) := by
  have hline := a.add64_sub s.originLine (n := (o.line : Int) - 1) (by have := h.line; omega)
  have hbelow : ¬ ((o.source : Int) < 0 ∨ (count : Int) ≤ o.source) := by omega
  have hnegative : ((o.line : Int) - 1 < 0 ∨ (o.column : Int) < 0) ↔ ¬ 1 ≤ o.line := by omega
  simp only [addOrigin, a.add64_natCast_sub _ h.source, hline, a.add64_natCast_sub _ h.column, bind,
    Except.bind, if_neg hbelow, hnegative, ite_not]

theorem Sums.addName_sub (s : Sums) {n : Nat} (h : n < 0x100000000) :
    s.addName a (n - s.name) = .ok { s with name := n } := by
  rw [addName, a.add64_natCast_sub _ h]
  rfl

theorem Arithmetic.next32_pred {n : Nat} (h : 1 ≤ n ∧ n < 0x100000000) :
    a.next32 (word ((n : Int) - 1)) = .ok n := by
  have hword : word ((n : Int) - 1) + 1 = n := by
    unfold word
    omega
  rw [next32, hword, Nat.mod_eq_of_lt h.2, keep_self]

/-- Sums that came to an origin point at it. -/
theorem Sums.origin_ofToken (s : Sums) {o : Origin} (h : o.Fits) (hline : 1 ≤ o.line)
    (hsource : s.source = o.source) (horiginLine : s.originLine = (o.line : Int) - 1)
    (horiginColumn : s.originColumn = o.column) : s.origin a o.name = .ok o := by
  rw [origin, hsource, horiginLine, horiginColumn, Arithmetic.next32_pred ⟨hline, h.line⟩,
    word_natCast h.source, word_natCast h.column]
  rfl

/-- Reading the quantities of a token gives the token and leaves its sums. -/
theorem applySegment_quantities (s : Sums) {t : MapToken} (ht : t.Fits) (start : Nat) {count : Nat}
    (hsource : t.SourceBelow count) :
    applySegment a t.generated.line start count s (quantities s t) =
      if t.LineFromOne then .ok (s.ofToken t, t) else .error (.invalidMappings start) := by
  obtain ⟨⟨line, column⟩, origin⟩ := t
  have hcolumn : column < 0x100000000 := ht.column
  cases origin with
  | none =>
    have hline : MapToken.LineFromOne ⟨⟨line, column⟩, none⟩ := by
      intro o ho
      cases ho
    rw [if_pos hline]
    simp only [applySegment, quantities, Sums.addColumn_sub start s hcolumn, bind, Except.bind, pure,
      Except.pure, Sums.ofToken, word_natCast hcolumn]
  | some o =>
    have ho := ht.origin o rfl
    have horigin := Sums.addOrigin_sub (a := a) start { s with column := column } ho (hsource o rfl)
    have hline : MapToken.LineFromOne ⟨⟨line, column⟩, some o⟩ ↔ 1 ≤ o.line := by
      simp [MapToken.LineFromOne]
    by_cases hone : 1 ≤ o.line
    · rw [if_pos hone] at horigin
      rw [if_pos (hline.mpr hone)]
      have hof (name : Int) :=
        Sums.origin_ofToken (a := a) ⟨column, o.source, (o.line : Int) - 1, o.column, name⟩ ho hone
          rfl rfl rfl
      cases hname : o.name with
      | none =>
        rw [hname] at hof
        simp only [applySegment, quantities, hname, Sums.addColumn_sub start s hcolumn, horigin, hof,
          word_natCast hcolumn, Sums.ofToken, bind, Except.bind, pure, Except.pure]
      | some n =>
        have hn := ho.name n hname
        have hadd := Sums.addName_sub (a := a)
          ⟨column, o.source, (o.line : Int) - 1, o.column, s.name⟩ hn
        rw [hname] at hof
        simp only [applySegment, quantities, hname, Sums.addColumn_sub start s hcolumn, horigin, hadd,
          hof, word_natCast hcolumn, word_natCast hn, Sums.ofToken, bind, Except.bind, pure,
          Except.pure]
    · rw [if_neg hone] at horigin
      rw [if_neg (mt hline.mp hone)]
      cases hname : o.name with
      | none =>
        simp only [applySegment, quantities, hname, Sums.addColumn_sub start s hcolumn, horigin, bind,
          Except.bind]
      | some n =>
        simp only [applySegment, quantities, hname, Sums.addColumn_sub start s hcolumn, horigin, bind,
          Except.bind]

/-! ### Lines -/

theorem atBreak_encodeFrom (line : Nat) (s : Sums) (tokens : List MapToken) :
    atBreak (encodeFrom line false s tokens) := by
  cases tokens with
  | nil => rfl
  | cons t tokens =>
    rw [encodeFrom]
    split
    next h =>
      obtain ⟨k, hk⟩ : ∃ k, t.generated.line - line = k + 1 :=
        ⟨t.generated.line - line - 1, by omega⟩
      rw [hk]
      rfl
    next => rfl

theorem decodeFrom_semicolons (count fuel offset line : Nat) (s : Sums) (k : Nat) (r : List Char) :
    decodeFrom a count (fuel + (k + 1)) offset line s (List.replicate (k + 1) ';' ++ r) =
      decodeFrom a count fuel (offset + (k + 1)) (line + (k + 1)) { s with column := 0 } r := by
  induction k generalizing offset line s with
  | zero => rfl
  | succ k ih =>
    rw [List.replicate_succ, List.cons_append, ← Nat.add_assoc fuel]
    refine (ih (offset + 1) (line + 1) { s with column := 0 }).trans ?_
    rw [Nat.add_right_comm offset, Nat.add_right_comm line, Nat.add_assoc offset,
      Nat.add_assoc line]

theorem decodeFrom_segment {vs : List Int} (hne : vs ≠ []) (hlength : vs.length ≤ 5)
    (hsmall : ∀ v ∈ vs, v.natAbs < 0x4000000000000000) {rest : List Char} (hrest : atBreak rest)
    (count fuel offset line : Nat) (s : Sums) :
    decodeFrom a count (fuel + 1) offset line s (vs.flatMap Vlq.encode ++ rest) =
      (applySegment a line offset count s vs).bind fun (s', t) =>
        (decodeFrom a count fuel (offset + (vs.flatMap Vlq.encode).length) line s' rest).map
          (t :: ·) := by
  have hread := readSegment_flatMap hsmall hrest offset 5 hlength
  obtain ⟨v, vs, rfl⟩ := List.exists_cons_of_ne_nil hne
  obtain ⟨c, r, hc, hsemicolon, hcomma⟩ := encode_head v
  rw [List.flatMap_cons, hc, List.append_assoc, List.cons_append] at hread ⊢
  rw [decodeFrom, if_neg hsemicolon, if_neg hcomma, hread]
  rfl

theorem decodeFrom_token {s : Sums} (hs : s.Small) {t : MapToken} (ht : t.Fits) {count : Nat}
    (hsource : t.SourceBelow count) {rest : List Char} (hrest : atBreak rest) (fuel offset : Nat) :
    decodeFrom a count (fuel + 1) offset t.generated.line s (encodeToken s t ++ rest) =
      if t.LineFromOne then
        (decodeFrom a count fuel (offset + (encodeToken s t).length) t.generated.line (s.ofToken t)
          rest).map (t :: ·)
      else .error (.invalidMappings offset) := by
  rw [encodeToken_eq, decodeFrom_segment (quantities_ne_nil s t) (quantities_length_le s t)
    (quantities_small hs ht) hrest, applySegment_quantities s ht offset hsource]
  split <;> rfl

theorem encodeToken_length_pos (s : Sums) (t : MapToken) : 0 < (encodeToken s t).length := by
  have hv := List.length_pos_iff.mpr (Vlq.encode_ne_nil (t.generated.column - s.column))
  rw [encodeToken, List.length_append]
  omega

/-! ### The whole text -/

/-- What becomes of tokens that are written and read again. -/
def Reread (tokens : List MapToken) (result : Except SourceMapError (List MapToken)) : Prop :=
  ((∀ t ∈ tokens, t.LineFromOne) ∧ result = .ok tokens) ∨
    ((∃ t ∈ tokens, ¬ t.LineFromOne) ∧ ∃ byte, result = .error (.invalidMappings byte))

theorem Reread.cons {t : MapToken} {tokens : List MapToken}
    {result : Except SourceMapError (List MapToken)} (h : Reread tokens result) (offset : Nat) :
    Reread (t :: tokens)
      (if t.LineFromOne then result.map (t :: ·) else .error (.invalidMappings offset)) := by
  by_cases ht : t.LineFromOne
  · rw [if_pos ht]
    rcases h with ⟨hall, rfl⟩ | ⟨⟨u, hu, hline⟩, byte, rfl⟩
    · exact Or.inl ⟨List.forall_mem_cons.mpr ⟨ht, hall⟩, rfl⟩
    · exact Or.inr ⟨⟨u, List.mem_cons_of_mem t hu, hline⟩, byte, rfl⟩
  · rw [if_neg ht]
    exact Or.inr ⟨⟨t, List.mem_cons_self, ht⟩, offset, rfl⟩

/-- Reading the text of tokens from a line on, by induction on the tokens; the sums are the same on
both sides. -/
theorem reread_decodeFrom {count : Nat} {tokens : List MapToken} (hfits : ∀ t ∈ tokens, t.Fits)
    (hsource : ∀ t ∈ tokens, t.SourceBelow count)
    (hlines : tokens.Pairwise (·.generated.line ≤ ·.generated.line)) {line : Nat}
    (hline : ∀ t ∈ tokens, line ≤ t.generated.line) (first : Bool) {s : Sums} (hs : s.Small)
    (offset fuel : Nat) (hfuel : (encodeFrom line first s tokens).length ≤ fuel) :
    Reread tokens (decodeFrom a count fuel offset line s (encodeFrom line first s tokens)) := by
  induction tokens generalizing line first s offset fuel with
  | nil => exact Or.inl ⟨by simp, by cases fuel <;> rfl⟩
  | cons t tokens ih =>
    obtain ⟨ht, hfits⟩ := List.forall_mem_cons.mp hfits
    obtain ⟨hbelow, hsource⟩ := List.forall_mem_cons.mp hsource
    obtain ⟨hfrom, hline⟩ := List.forall_mem_cons.mp hline
    obtain ⟨hafter, hlines⟩ := List.pairwise_cons.mp hlines
    -- on the line of the token, whatever stands before it
    have step {s : Sums} (hs : s.Small) (offset fuel : Nat)
        (hfuel : (encodeToken s t ++ encodeFrom t.generated.line false (s.ofToken t) tokens).length ≤
          fuel) :
        Reread (t :: tokens) (decodeFrom a count fuel offset t.generated.line s
          (encodeToken s t ++ encodeFrom t.generated.line false (s.ofToken t) tokens)) := by
      have hpos := encodeToken_length_pos s t
      rw [List.length_append] at hfuel
      obtain ⟨fuel, rfl⟩ : ∃ k, fuel = k + 1 := ⟨fuel - 1, by omega⟩
      rw [decodeFrom_token hs ht hbelow (atBreak_encodeFrom _ _ _)]
      exact (ih hfits hsource hlines hafter false (hs.ofToken ht) _ fuel (by omega)).cons offset
    rw [encodeFrom] at hfuel ⊢
    split
    next hlt =>
      obtain ⟨k, hk⟩ : ∃ k, t.generated.line - line = k + 1 :=
        ⟨t.generated.line - line - 1, by omega⟩
      rw [if_pos hlt, hk, List.append_assoc, List.length_append, List.length_replicate] at hfuel
      obtain ⟨fuel, rfl⟩ : ∃ n, fuel = n + (k + 1) := ⟨fuel - (k + 1), by omega⟩
      have hline : line + (k + 1) = t.generated.line := by omega
      rw [hk, List.append_assoc, decodeFrom_semicolons, hline]
      exact step hs.startLine _ fuel (by omega)
    next hlt =>
      obtain rfl : line = t.generated.line := by omega
      rw [if_neg hlt] at hfuel
      cases first with
      | true => exact step hs offset fuel hfuel
      | false =>
        obtain ⟨fuel, rfl⟩ : ∃ k, fuel = k + 1 := ⟨fuel - 1, by simp at hfuel; omega⟩
        exact step hs (offset + 1) fuel (by simpa using hfuel)

/-- The mappings of tokens in order are read as these tokens, or not at all if an origin is on
line 0. -/
theorem reread_decode {count : Nat} {tokens : List MapToken} (hfits : ∀ t ∈ tokens, t.Fits)
    (hsource : ∀ t ∈ tokens, t.SourceBelow count)
    (hsorted : tokens.Pairwise (·.generated.line ≤ ·.generated.line))
    (hline : ∀ t ∈ tokens, 1 ≤ t.generated.line) :
    Reread tokens (decode a (encode tokens) count) :=
  reread_decodeFrom hfits hsource hsorted hline true Sums.small_zero 0 _ (Nat.le_refl _)

end Mappings

end Assay
