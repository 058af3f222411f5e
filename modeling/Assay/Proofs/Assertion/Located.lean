import Assay.Assertion.Scan

/-!
# Where statements stand

`Located` says that matches stand in a text at the bytes that they name, one after the other.
`statements_located` shows it of everything that the scan of a script reports.
-/

namespace Assay.Scan

/-- The matches stand in a text that starts at a byte, in their order and apart from each other. -/
inductive Located : Nat → List Char → List Match → Prop where
  | nil (byte : Nat) (s : List Char) : Located byte s []
  | cons {byte : Nat} {m : Match} {ms : List Match} (gap rest : List Char)
      (start : m.start = byte + Text.bytes gap) (after : Located m.stop rest ms) :
      Located byte (gap ++ m.text ++ rest) (m :: ms)

namespace Located

theorem append_left {byte : Nat} {s : List Char} {ms : List Match} (before : List Char)
    (h : Located (byte + Text.bytes before) s ms) : Located byte (before ++ s) ms := by
  cases h with
  | nil => exact .nil _ _
  | @cons _ m ms gap rest start after =>
    have hstart : m.start = byte + Text.bytes (before ++ gap) := by
      rw [start, Text.bytes_append, Nat.add_assoc]
    simpa only [List.append_assoc] using cons (before ++ gap) rest hstart after

theorem filter {byte : Nat} {s : List Char} {ms : List Match} (p : Match → Bool)
    (h : Located byte s ms) : Located byte s (ms.filter p) := by
  induction h with
  | nil => exact .nil _ _
  | @cons byte m ms gap rest start _ ih =>
    rw [List.filter_cons]
    split
    · exact .cons gap rest start ih
    · refine append_left (gap ++ m.text) ?_
      rwa [Text.bytes_append, ← Nat.add_assoc, ← start]

theorem mem {byte : Nat} {s : List Char} {ms : List Match} (h : Located byte s ms) :
    ∀ m ∈ ms, ∃ before after, s = before ++ m.text ++ after ∧
      m.start = byte + Text.bytes before := by
  induction h with
  | nil => simp
  | @cons byte m ms gap rest start _ ih =>
    intro m' hm
    rcases List.mem_cons.mp hm with rfl | hm
    · exact ⟨gap, rest, rfl, start⟩
    · obtain ⟨before, after, rfl, hb⟩ := ih m' hm
      refine ⟨gap ++ m.text ++ before, after, by simp only [List.append_assoc], ?_⟩
      rw [hb, Match.stop, start, Text.bytes_append, Text.bytes_append]
      omega

end Located

/-! ### What a match takes -/

/-- A line is its reverse, without a carriage return in front, put around again and a rest. -/
theorem reverse_dropReturn (line : List Char) :
    ∃ tail, line = (match line.reverse with
      | '\r' :: r => r
      | r => r).reverse ++ tail := by
  split
  next r hr => exact ⟨['\r'], by simpa using congrArg List.reverse hr⟩
  next r hr => exact ⟨[], by simp⟩

theorem callEnd?_eq {line args : List Char} (h : callEnd? line = some args) :
    ∃ tail, line = args ++ tail := by
  obtain ⟨tail, htail⟩ := reverse_dropReturn line
  unfold callEnd? at h
  dsimp only at h
  split at h <;> cases h <;> exact ⟨tail, htail⟩

theorem arguments?_eq {s args : List Char} {n : Nat} (h : arguments? s = some (args, n)) :
    ∃ tail, s = args ++ tail ∧ args.length ≤ n := by
  unfold arguments? at h
  split at h
  case h_1 r =>
    dsimp only at h
    split at h
    · simp only [Option.map_eq_some_iff, Prod.mk.injEq] at h
      obtain ⟨call, hcall, rfl, rfl⟩ := h
      obtain ⟨tail, hline⟩ := callEnd?_eq hcall
      have hlength := congrArg List.length hline
      rw [List.length_append] at hlength
      refine ⟨tail ++ r.dropWhile (· ≠ '\n'), ?_, by simp only [List.length_cons]; omega⟩
      rw [List.cons_append, ← List.append_assoc, ← hline, List.takeWhile_append_dropWhile]
    · cases h
  case h_2 => cases h

theorem matchAt?_eq {callee s text : List Char} {before : Option Char} {n : Nat}
    (h : matchAt? callee before s = some (text, n)) :
    ∃ tail, s = text ++ tail ∧ text.length ≤ n ∧ text ≠ [] := by
  unfold matchAt? at h
  split at h
  · simp only [Option.bind_eq_bind, Option.bind_eq_some_iff, Option.pure_def, Option.some.injEq,
      Prod.mk.injEq, Prod.exists] at h
    obtain ⟨rest, hrest, args, length, hargs, rfl, rfl⟩ := h
    obtain ⟨tail, rfl, hle⟩ := arguments?_eq hargs
    have hs := (Text.after?_iff _ _ _).mp hrest
    refine ⟨tail, by rw [hs, List.append_assoc], by rw [List.length_append]; omega, ?_⟩
    intro hnil
    obtain ⟨-, rfl⟩ := List.append_eq_nil_iff.mp hnil
    unfold arguments? at hargs
    split at hargs
    · dsimp only at hargs
      split at hargs
      · simp [Option.map_eq_some_iff] at hargs
      · cases hargs
    · cases hargs
  · cases h

/-! ### What a scan reports -/

theorem matchesFrom_located (callee : List Char) (skip : Nat) (before : Option Char) (byte : Nat)
    (s : List Char) :
    Located (byte + Text.bytes (s.take skip)) (s.drop skip) (matchesFrom callee skip before byte s) := by
  fun_induction matchesFrom callee skip before byte s with
  | case1 => exact .nil _ _
  | case2 before byte skip c r ih =>
    rw [List.take_succ_cons, List.drop_succ_cons, Text.bytes_cons, ← Nat.add_assoc]
    exact ih
  | case3 before byte c r text length hmatch ih =>
    obtain ⟨tail, hs, hle, hne⟩ := matchAt?_eq hmatch
    obtain ⟨_, text, rfl⟩ := List.exists_cons_of_ne_nil hne
    simp only [List.cons_append, List.cons.injEq] at hs
    obtain ⟨rfl, rfl⟩ := hs
    -- What is skipped goes on to the end of the line; the match ends before.
    have hskip : (text ++ tail).take (length - 1) = text ++ tail.take (length - 1 - text.length) := by
      rw [List.take_append, List.take_of_length_le (by simp at hle; omega)]
    have hrest : (text ++ tail).drop (length - 1) = tail.drop (length - 1 - text.length) := by
      rw [List.drop_append, List.drop_eq_nil_of_le (by simp at hle; omega), List.nil_append]
    rw [hskip, hrest, Text.bytes_append] at ih
    have hstop : Match.stop ⟨byte, c :: text⟩ = byte + c.utf8Size + Text.bytes text := by
      simp only [Match.stop, Text.bytes_cons, Nat.add_assoc]
    rw [← Nat.add_assoc, ← hstop] at ih
    have after := ih.append_left
    rw [List.take_append_drop] at after
    exact .cons [] tail rfl after
  | case4 before byte c r hmatch ih =>
    simp only [List.take_zero, List.drop_zero, Text.bytes_nil, Nat.add_zero] at ih ⊢
    exact Located.append_left [c] (by simpa using ih)

theorem text_ne_nil_of_mem_matchesFrom {callee s : List Char} {skip byte : Nat}
    {before : Option Char} {m : Match} (h : m ∈ matchesFrom callee skip before byte s) :
    m.text ≠ [] := by
  fun_induction matchesFrom callee skip before byte s with
  | case1 => cases h
  | case2 before byte skip c r ih => exact ih h
  | case3 before byte c r text length hmatch ih =>
    obtain ⟨tail, -, -, hne⟩ := matchAt?_eq hmatch
    rcases List.mem_cons.mp h with rfl | h
    · exact hne
    · exact ih h
  | case4 before byte c r hmatch ih => exact ih h

/-- A statement is never empty. -/
theorem start_lt_stop {callee s : List Char} {m : Match} (h : m ∈ statements callee s) :
    m.start < m.stop := by
  obtain ⟨c, text, htext⟩ := List.exists_cons_of_ne_nil
    (text_ne_nil_of_mem_matchesFrom (List.mem_filter.mp h).1)
  have := c.utf8Size_pos
  rw [Match.stop, htext, Text.bytes_cons]
  omega

theorem statements_located (callee s : List Char) : Located 0 s (statements callee s) := by
  have := matchesFrom_located callee 0 none 0 s
  exact Located.filter _ (by simpa [candidates] using this)

end Assay.Scan
