import Assay.Proofs.Assertion.Located
import Assay.Text.Lines
import Mathlib.Data.List.Basic
import Mathlib.Data.List.TakeWhile
import Mathlib.Order.Minimal

/-!
# Statements line by line

The statements of a script are found by one pattern, looked for from the front over the whole
text. `statements_by_line` says that this is a rule for each line: the call that starts first among
those that end the line, unless it starts in a comment or literal.
-/

namespace Assay.Scan

/-! ### The pattern at one place -/

/-- What closes a call: its parenthesis, with or without a semicolon. -/
inductive Closing : List Char → Prop where
  | bare : Closing [')']
  | semicolon : Closing [')', ';']

/-- What ends a line besides its newline. -/
inductive LineReturn : List Char → Prop where
  | none : LineReturn []
  | carriage : LineReturn ['\r']

theorem callEnd?_append {args closing ret : List Char} (hclosing : Closing closing)
    (hret : LineReturn ret) : callEnd? (args ++ closing ++ ret) = some (args ++ closing) := by
  cases hclosing <;> cases hret <;> simp [callEnd?]

theorem callEnd?_eq_some {line call : List Char} : callEnd? line = some call ↔
    ∃ args closing ret, Closing closing ∧ LineReturn ret ∧ call = args ++ closing ∧
      line = call ++ ret := by
  constructor
  · intro h
    unfold callEnd? at h
    dsimp only at h
    split at h
    next r hr =>
      rw [hr] at h
      cases h
      split at hr
      next hline =>
        exact ⟨r.reverse, _, _, .semicolon, .carriage, by simp,
          by simp [List.reverse_eq_iff.mp hline, hr]⟩
      next =>
        exact ⟨r.reverse, _, _, .semicolon, .none, by simp, by simp [List.reverse_eq_iff.mp hr]⟩
    next r hr =>
      rw [hr] at h
      cases h
      split at hr
      next hline =>
        exact ⟨r.reverse, _, _, .bare, .carriage, by simp,
          by simp [List.reverse_eq_iff.mp hline, hr]⟩
      next => exact ⟨r.reverse, _, _, .bare, .none, by simp, by simp [List.reverse_eq_iff.mp hr]⟩
    · cases h
  · rintro ⟨args, closing, ret, hclosing, hret, rfl, rfl⟩
    exact callEnd?_append hclosing hret

theorem append_newline_inj {line line' rest rest' : List Char} (hline : '\n' ∉ line)
    (hline' : '\n' ∉ line') (h : line ++ '\n' :: rest = line' ++ '\n' :: rest') :
    line = line' ∧ rest = rest' := by
  have hsplit := congrArg (List.splitOn '\n') h
  rw [List.splitOn_append_cons_self_of_not_mem hline,
    List.splitOn_append_cons_self_of_not_mem hline'] at hsplit
  obtain rfl := (List.cons.inj hsplit).1
  exact ⟨rfl, (List.cons.inj (List.append_cancel_left h)).2⟩

theorem arguments?_line {line : List Char} (hline : '\n' ∉ line) (rest : List Char) :
    arguments? ('(' :: line ++ '\n' :: rest) =
      (callEnd? line).map fun call => ('(' :: call, line.length + 2) := by
  have htake : (line ++ '\n' :: rest).takeWhile (· ≠ '\n') = line := by
    rw [List.takeWhile_append_of_pos fun c hc => by simpa using ne_of_mem_of_not_mem hc hline]
    simp
  simp only [arguments?, List.cons_append, htake]
  rw [if_pos (by simp)]

theorem exists_line_of_arguments? {s args : List Char} {n : Nat}
    (h : arguments? s = some (args, n)) :
    ∃ line rest call, '\n' ∉ line ∧ s = '(' :: line ++ '\n' :: rest ∧ callEnd? line = some call ∧
      args = '(' :: call ∧ n = line.length + 2 := by
  have hopen : ∃ r, s = '(' :: r := by
    unfold arguments? at h
    split at h
    next r => exact ⟨r, rfl⟩
    next => cases h
  obtain ⟨r, rfl⟩ := hopen
  by_cases hmem : '\n' ∈ r
  · obtain ⟨line, rest, rfl, hline⟩ := List.eq_append_cons_of_mem hmem
    rw [← List.cons_append, arguments?_line hline] at h
    simp only [Option.map_eq_some_iff, Prod.mk.injEq] at h
    obtain ⟨call, hcall, rfl, rfl⟩ := h
    exact ⟨line, rest, call, hline, rfl, hcall, rfl, rfl⟩
  · have htake : r.takeWhile (· ≠ '\n') = r :=
      List.takeWhile_eq_self_iff.mpr fun c hc => by simpa using ne_of_mem_of_not_mem hc hmem
    simp only [arguments?, htake, Nat.lt_irrefl, if_false] at h
    cases h

/-- What the pattern of a statement matches at the front of a text: a call of the callee at a word
boundary, with anything but a newline for its arguments, then the end of the line. -/
structure Matches (callee : List Char) (prior : Option Char) (s call ret rest : List Char) :
    Prop where
  text : s = call ++ ret ++ '\n' :: rest
  boundary : isBoundary prior s.head?
  form : ∃ args closing, '\n' ∉ args ∧ Closing closing ∧ call = callee ++ '(' :: args ++ closing
  ending : LineReturn ret

theorem Closing.newline_not_mem {closing : List Char} (h : Closing closing) : '\n' ∉ closing := by
  cases h <;> decide

theorem LineReturn.newline_not_mem {ret : List Char} (h : LineReturn ret) : '\n' ∉ ret := by
  cases h <;> decide

/-- The match at a place is the one way in which the pattern fits there, so it does not matter in
which order the ways are tried. -/
theorem matchAt?_eq_some {callee s call : List Char} {prior : Option Char} {n : Nat} :
    matchAt? callee prior s = some (call, n) ↔
      ∃ ret rest, Matches callee prior s call ret rest ∧ n = call.length + ret.length + 1 := by
  unfold matchAt?
  by_cases hboundary : isBoundary prior s.head?
  · simp only [hboundary, if_true, Option.bind_eq_bind, Option.bind_eq_some_iff, Option.pure_def,
      Option.some.injEq, Prod.mk.injEq, Prod.exists, Text.after?_iff]
    constructor
    · rintro ⟨behind, rfl, args, length, hargs, rfl, rfl⟩
      obtain ⟨line, rest, text, hline, rfl, htext, rfl, rfl⟩ := exists_line_of_arguments? hargs
      obtain ⟨args, closing, ret, hclosing, hret, rfl, rfl⟩ := callEnd?_eq_some.mp htext
      simp only [List.mem_append, not_or] at hline
      refine ⟨ret, rest,
        ⟨by simp, hboundary, ⟨args, closing, hline.1.1, hclosing, by simp⟩, hret⟩, ?_⟩
      simp only [List.length_append, List.length_cons]
      omega
    · rintro ⟨ret, rest, ⟨htext, -, ⟨args, closing, hargs, hclosing, rfl⟩, hret⟩, rfl⟩
      have hline : '\n' ∉ args ++ closing ++ ret := by
        simp only [List.mem_append, not_or]
        exact ⟨⟨hargs, hclosing.newline_not_mem⟩, hret.newline_not_mem⟩
      have hread := arguments?_line hline rest
      rw [callEnd?_append hclosing hret] at hread
      refine ⟨'(' :: (args ++ closing ++ ret) ++ '\n' :: rest, by simpa using htext, _, _, hread,
        by simp, ?_⟩
      simp only [List.length_append, List.length_cons]
      omega
  · simp only [hboundary]
    constructor
    · intro h
      cases h
    · rintro ⟨ret, rest, h, -⟩
      exact absurd h.boundary hboundary

theorem form_of_mem_matchesFrom {callee s : List Char} {skip byte : Nat} {prior : Option Char}
    {m : Match} (h : m ∈ matchesFrom callee skip prior byte s) :
    ∃ args closing, '\n' ∉ args ∧ Closing closing ∧ m.text = callee ++ '(' :: args ++ closing := by
  fun_induction matchesFrom callee skip prior byte s with
  | case1 => cases h
  | case2 before byte skip c r ih => exact ih h
  | case3 before byte c r text length hmatch ih =>
    obtain ⟨ret, rest, ⟨-, -, ⟨args, closing, hargs, hclosing, htext⟩, -⟩, -⟩ :=
      matchAt?_eq_some.mp hmatch
    rcases List.mem_cons.mp h with rfl | h
    · exact ⟨args, closing, hargs, hclosing, htext⟩
    · exact ih h
  | case4 before byte c r hmatch ih => exact ih h

theorem form_of_mem_statements {callee s : List Char} {m : Match} (h : m ∈ statements callee s) :
    ∃ args closing, '\n' ∉ args ∧ Closing closing ∧ m.text = callee ++ '(' :: args ++ closing :=
  form_of_mem_matchesFrom (List.mem_filter.mp h).1

/-! ### The calls of a line -/

/-- A call stands in a line, after `before`, at a word boundary and up to the end of the line, its
carriage return aside; `prior` is what stands before the line. -/
structure CallIn (callee : List Char) (prior : Option Char) (line before call : List Char) :
    Prop where
  text : ∃ ret, LineReturn ret ∧ line = before ++ call ++ ret
  boundary : isBoundary (before.getLast?.or prior) call.head?
  form : ∃ args closing, Closing closing ∧ call = callee ++ '(' :: args ++ closing

/-- Of the calls of a line the one that starts first. -/
structure FirstCall (callee line before call : List Char) : Prop where
  call : CallIn callee none line before call
  first : ∀ before' call', CallIn callee none line before' call' → before.length ≤ before'.length

variable {callee : List Char}

theorem CallIn.ne_nil {prior : Option Char} {line before call : List Char}
    (h : CallIn callee prior line before call) : call ≠ [] := by
  obtain ⟨args, closing, -, rfl⟩ := h.form
  simp

theorem callIn_cons {prior : Option Char} {c d : Char} {line before call : List Char} :
    CallIn callee prior (c :: line) (d :: before) call ↔
      c = d ∧ CallIn callee (some c) line before call := by
  have hlast : (d :: before).getLast?.or prior = before.getLast?.or (some d) := by
    rw [List.getLast?_cons]
    cases before.getLast? <;> rfl
  constructor
  · rintro ⟨⟨ret, hret, htext⟩, hboundary, hform⟩
    simp only [List.cons_append, List.cons.injEq] at htext
    obtain ⟨rfl, htext⟩ := htext
    exact ⟨rfl, ⟨ret, hret, htext⟩, hlast ▸ hboundary, hform⟩
  · rintro ⟨rfl, ⟨ret, hret, htext⟩, hboundary, hform⟩
    exact ⟨⟨ret, hret, by rw [htext]; rfl⟩, hlast ▸ hboundary, hform⟩

/-- A newline before a line is no more of a word than nothing is. -/
theorem callIn_newline {line before call : List Char} :
    CallIn callee (some '\n') line before call ↔ CallIn callee none line before call := by
  have hboundary (after : Option Char) : isBoundary (before.getLast?.or (some '\n')) after =
      isBoundary (before.getLast?.or none) after := by
    cases before.getLast? <;> rfl
  constructor
  · rintro ⟨htext, h, hform⟩
    exact ⟨htext, hboundary _ ▸ h, hform⟩
  · rintro ⟨htext, h, hform⟩
    exact ⟨htext, (hboundary _).symm ▸ h, hform⟩

theorem matchAt?_line (hcallee : '\n' ∉ callee) {line : List Char} (hline : '\n' ∉ line)
    {prior : Option Char} {rest call : List Char} {n : Nat} :
    matchAt? callee prior (line ++ '\n' :: rest) = some (call, n) ↔
      CallIn callee prior line [] call ∧ n = line.length + 1 := by
  rw [matchAt?_eq_some]
  constructor
  · rintro ⟨ret, rest', ⟨htext, hboundary, ⟨args, closing, hargs, hclosing, rfl⟩, hret⟩, rfl⟩
    have hcall : '\n' ∉ callee ++ '(' :: args ++ closing ++ ret := by
      simp only [List.mem_append, List.mem_cons, not_or]
      exact ⟨⟨⟨hcallee, by decide, hargs⟩, hclosing.newline_not_mem⟩, hret.newline_not_mem⟩
    obtain ⟨rfl, rfl⟩ := append_newline_inj hline hcall htext
    refine ⟨⟨⟨ret, hret, rfl⟩, ?_, args, closing, hclosing, rfl⟩, by
      simp only [List.length_append]⟩
    rwa [List.append_assoc, List.head?_append_of_ne_nil _ (by simp)] at hboundary
  · rintro ⟨⟨⟨ret, hret, rfl⟩, hboundary, args, closing, hclosing, rfl⟩, rfl⟩
    simp only [List.nil_append, List.mem_append, List.mem_cons, not_or] at hline
    refine ⟨ret, rest, ⟨rfl, ?_, ⟨args, closing, hline.1.1.2.2, hclosing, rfl⟩, hret⟩, by
      simp only [List.nil_append, List.length_append]⟩
    rwa [List.nil_append, List.append_assoc, List.head?_append_of_ne_nil _ (by simp)]

theorem matchAt?_eq_none (hcallee : '\n' ∉ callee) {line : List Char} (hline : '\n' ∉ line)
    {prior : Option Char} (h : ∀ call, ¬ CallIn callee prior line [] call) {rest : List Char} :
    matchAt? callee prior (line ++ '\n' :: rest) = none := by
  cases hmatch : matchAt? callee prior (line ++ '\n' :: rest) with
  | none => rfl
  | some found => exact absurd ((matchAt?_line hcallee hline).mp hmatch).1 (h found.1)

/-! ### The matches of a line -/

theorem matchesFrom_skip (skipped : List Char) (prior : Option Char) (byte : Nat)
    (s : List Char) : matchesFrom callee skipped.length prior byte (skipped ++ s) =
      matchesFrom callee 0 (skipped.getLast?.or prior) (byte + Text.bytes skipped) s := by
  induction skipped generalizing prior byte with
  | nil => rfl
  | cons c skipped ih =>
    rw [List.length_cons, List.cons_append, matchesFrom, ih, List.getLast?_cons, Text.bytes_cons,
      Nat.add_assoc]
    cases skipped.getLast? <;> rfl

theorem matchesFrom_without (hcallee : '\n' ∉ callee) {line : List Char} (hline : '\n' ∉ line)
    {prior : Option Char} (h : ∀ before call, ¬ CallIn callee prior line before call) (byte : Nat)
    (rest : List Char) : matchesFrom callee 0 prior byte (line ++ '\n' :: rest) =
      matchesFrom callee 0 (some '\n') (byte + Text.bytes line + 1) rest := by
  induction line generalizing prior byte with
  | nil =>
    rw [List.nil_append, matchesFrom, ← List.nil_append ('\n' :: rest),
      matchAt?_eq_none hcallee hline (h [])]
    rfl
  | cons c line ih =>
    have hlater before call : ¬ CallIn callee (some c) line before call :=
      fun hcall => h (c :: before) call (callIn_cons.mpr ⟨rfl, hcall⟩)
    rw [List.cons_append, matchesFrom, ← List.cons_append, matchAt?_eq_none hcallee hline (h [])]
    dsimp only
    rw [ih (fun hmem => hline (List.mem_cons_of_mem c hmem)) hlater, Text.bytes_cons,
      ← Nat.add_assoc byte]

theorem matchesFrom_call (hcallee : '\n' ∉ callee) {line : List Char} (hline : '\n' ∉ line)
    {prior : Option Char} {call : List Char} (h : CallIn callee prior line [] call) (byte : Nat)
    (rest : List Char) : matchesFrom callee 0 prior byte (line ++ '\n' :: rest) =
      ⟨byte, call⟩ :: matchesFrom callee 0 (some '\n') (byte + Text.bytes line + 1) rest := by
  cases line with
  | nil =>
    obtain ⟨ret, -, htext⟩ := h.text
    simp only [List.nil_append, List.nil_eq, List.append_eq_nil_iff] at htext
    exact absurd htext.1 h.ne_nil
  | cons c line =>
    have hskip := @matchesFrom_skip callee (line ++ ['\n']) (some c) (byte + c.utf8Size) rest
    have hnewline : Text.bytes ['\n'] = 1 := rfl
    rw [List.getLast?_append, Text.bytes_append, hnewline, List.append_assoc] at hskip
    rw [List.cons_append, matchesFrom, ← List.cons_append,
      (matchAt?_line hcallee hline).mpr ⟨h, rfl⟩]
    rw [List.length_append] at hskip
    refine congrArg _ (hskip.trans ?_)
    rw [Text.bytes_cons, ← Nat.add_assoc, ← Nat.add_assoc]
    rfl

theorem matchesFrom_first (hcallee : '\n' ∉ callee) {line : List Char} (hline : '\n' ∉ line)
    {prior : Option Char} {before call : List Char} (h : CallIn callee prior line before call)
    (hfirst : ∀ before' call', CallIn callee prior line before' call' →
      before.length ≤ before'.length) (byte : Nat) (rest : List Char) :
    matchesFrom callee 0 prior byte (line ++ '\n' :: rest) =
      ⟨byte + Text.bytes before, call⟩ ::
        matchesFrom callee 0 (some '\n') (byte + Text.bytes line + 1) rest := by
  -- on the way to the call nothing matches, as no call starts before it
  induction before generalizing prior line byte with
  | nil => exact matchesFrom_call hcallee hline h byte rest
  | cons d before ih =>
    cases line with
    | nil =>
      obtain ⟨ret, -, htext⟩ := h.text
      cases htext
    | cons c line =>
      obtain ⟨rfl, hcall⟩ := callIn_cons.mp h
      have hnone call' : ¬ CallIn callee prior (c :: line) [] call' :=
        fun hcall' => absurd (hfirst [] call' hcall') (by simp)
      have hlater before' call' (hcall' : CallIn callee (some c) line before' call') :
          before.length ≤ before'.length :=
        Nat.le_of_succ_le_succ (hfirst (c :: before') call' (callIn_cons.mpr ⟨rfl, hcall'⟩))
      rw [List.cons_append, matchesFrom, ← List.cons_append, matchAt?_eq_none hcallee hline hnone]
      dsimp only
      rw [ih (fun hmem => hline (List.mem_cons_of_mem c hmem)) hcall hlater, Text.bytes_cons,
        Text.bytes_cons, ← Nat.add_assoc byte, ← Nat.add_assoc byte]

/-- Without a newline there is no match. -/
theorem matchesFrom_last {s : List Char} (h : '\n' ∉ s) (prior : Option Char) (byte : Nat) :
    matchesFrom callee 0 prior byte s = [] := by
  induction s generalizing prior byte with
  | nil => rfl
  | cons c s ih =>
    have hnone : matchAt? callee prior (c :: s) = none := by
      cases hmatch : matchAt? callee prior (c :: s) with
      | none => rfl
      | some found =>
        obtain ⟨ret, rest, hmatches, -⟩ := matchAt?_eq_some.mp hmatch
        rw [hmatches.text] at h
        simp at h
    rw [matchesFrom, hnone]
    exact ih (fun hmem => h (List.mem_cons_of_mem c hmem)) _ _

/-! ### All lines -/

/-- The matches that lines give, of which the first starts at a byte: the first call of each line
that has one. -/
inductive LineMatches (callee : List Char) : Nat → List (List Char) → List Match → Prop where
  | nil (byte : Nat) : LineMatches callee byte [] []
  | call {byte : Nat} {line before call : List Char} {lines : List (List Char)} {ms : List Match}
      (first : FirstCall callee line before call)
      (later : LineMatches callee (byte + Text.bytes line + 1) lines ms) :
      LineMatches callee byte (line :: lines) (⟨byte + Text.bytes before, call⟩ :: ms)
  | without {byte : Nat} {line : List Char} {lines : List (List Char)} {ms : List Match}
      (none : ∀ before call, ¬ CallIn callee none line before call)
      (later : LineMatches callee (byte + Text.bytes line + 1) lines ms) :
      LineMatches callee byte (line :: lines) ms

theorem exists_lineMatches (callee : List Char) (byte : Nat) (lines : List (List Char)) :
    ∃ ms, LineMatches callee byte lines ms := by
  induction lines generalizing byte with
  | nil => exact ⟨[], .nil byte⟩
  | cons line lines ih =>
    obtain ⟨ms, hms⟩ := ih (byte + Text.bytes line + 1)
    by_cases hcall : ∃ before call, CallIn callee none line before call
    · obtain ⟨before, ⟨call, hcall⟩, hleast⟩ := exists_minimalFor_of_wellFoundedLT
        (fun before => ∃ call, CallIn callee none line before call) List.length hcall
      have hfirst before' call' (h : CallIn callee none line before' call') :
          before.length ≤ before'.length :=
        (Nat.le_total _ _).elim id (hleast ⟨call', h⟩)
      exact ⟨_, .call ⟨hcall, hfirst⟩ hms⟩
    · exact ⟨ms, .without (fun before call h => hcall ⟨before, call, h⟩) hms⟩

theorem matchesFrom_lines (hcallee : '\n' ∉ callee) {byte : Nat} {lines : List (List Char)}
    {ms : List Match} (h : LineMatches callee byte lines ms) (hlines : ∀ line ∈ lines, '\n' ∉ line)
    {last : List Char} (hlast : '\n' ∉ last) {prior : Option Char}
    (hprior : prior = none ∨ prior = some '\n') :
    matchesFrom callee 0 prior byte (lines.flatMap (· ++ ['\n']) ++ last) = ms := by
  have hcallIn {prior : Option Char} (hprior : prior = none ∨ prior = some '\n')
      {line before call : List Char} :
      CallIn callee prior line before call ↔ CallIn callee none line before call := by
    rcases hprior with rfl | rfl
    · exact Iff.rfl
    · exact callIn_newline
  induction h generalizing prior with
  | nil byte => exact matchesFrom_last hlast prior byte
  | @call byte line before call lines ms first later ih =>
    have hline := hlines line List.mem_cons_self
    rw [List.flatMap_cons, List.append_assoc, List.append_assoc, List.singleton_append,
      matchesFrom_first hcallee hline ((hcallIn hprior).mpr first.call)
        (fun before' call' h => first.first before' call' ((hcallIn hprior).mp h)),
      ih (fun line h => hlines line (List.mem_cons_of_mem _ h)) (Or.inr rfl)]
  | @without byte line lines ms none later ih =>
    have hline := hlines line List.mem_cons_self
    rw [List.flatMap_cons, List.append_assoc, List.append_assoc, List.singleton_append,
      matchesFrom_without hcallee hline
        (fun before call h => none before call ((hcallIn hprior).mp h)),
      ih (fun line h => hlines line (List.mem_cons_of_mem _ h)) (Or.inr rfl)]

/-- The lines that a newline ends, each with it, and what follows the last newline. -/
theorem exists_last_line (s : List Char) :
    ∃ last ∈ Text.lines s, s = (Text.lines s).dropLast.flatMap (· ++ ['\n']) ++ last := by
  have hunlines (lines : List (List Char)) (last : List Char) :
      Text.unlines (lines ++ [last]) = lines.flatMap (· ++ ['\n']) ++ last := by
    induction lines with
    | nil => rfl
    | cons line lines ih =>
      rw [List.cons_append, List.flatMap_cons, List.append_assoc, List.append_assoc, ← ih]
      cases lines <;> rfl
  have hne := Text.lines_ne_nil s
  refine ⟨(Text.lines s).getLast hne, List.getLast_mem hne, ?_⟩
  rw [← hunlines, List.dropLast_concat_getLast, Text.unlines_lines]

theorem isMasked_iff {regions : List (Nat × Nat)} {byte : Nat} :
    isMasked regions byte ↔ ∃ region ∈ regions, region.1 ≤ byte ∧ byte < region.2 := by
  simp [isMasked]

/-- For a callee without a newline, the lines that a newline ends determine what is found in a
script: in each at most one match, none behind the last newline. A match stands in the script as it
says, and those that do not start in a comment or literal are reported. -/
theorem statements_by_line {callee : List Char} (hcallee : '\n' ∉ callee) (s : List Char) :
    (∃ found, LineMatches callee 0 (Text.lines s).dropLast found) ∧
      ∀ found, LineMatches callee 0 (Text.lines s).dropLast found →
        (∀ m ∈ found, ∃ before after, s = before ++ m.text ++ after ∧
          m.start = Text.bytes before) ∧
        statements callee s = found.filter fun m =>
          ∀ region ∈ Mask.maskedRegions s, ¬ (region.1 ≤ m.start ∧ m.start < region.2) := by
  refine ⟨exists_lineMatches callee 0 _, fun found hfound => ?_⟩
  obtain ⟨last, hlast, hs⟩ := exists_last_line s
  have hlines := Text.newline_not_mem_lines s
  have hcandidates : candidates callee s = found := by
    rw [candidates]
    conv_lhs => rw [hs]
    exact matchesFrom_lines hcallee hfound
      (fun line h => hlines line ((List.dropLast_sublist _).subset h)) (hlines last hlast)
      (Or.inl rfl)
  refine ⟨?_, ?_⟩
  · have hlocated := matchesFrom_located callee 0 none 0 s
    rw [← hcandidates]
    simpa [candidates] using hlocated.mem
  · rw [statements, hcandidates]
    refine List.filter_congr fun m _ => ?_
    rw [Bool.eq_iff_iff, Bool.not_eq_true', ← Bool.not_eq_true, isMasked_iff, decide_eq_true_iff]
    push Not
    exact Iff.rfl

/-- A call between calls, one in a comment and one without a newline behind it. -/
def threeLines : List Char := "é; g(f(f(a)));\r\n// f(b)\nf(c)".toList

theorem statements_by_line_threeLines :
    '\n' ∉ "f".toList ∧ ∃ found,
      LineMatches "f".toList 0 (Text.lines threeLines).dropLast found ∧
      statements "f".toList threeLines = [⟨6, "f(f(a)));".toList⟩] ∧
      found.filter (fun m => ∀ region ∈ Mask.maskedRegions threeLines,
        ¬ (region.1 ≤ m.start ∧ m.start < region.2)) = [⟨6, "f(f(a)));".toList⟩] := by
  have hcallee : '\n' ∉ "f".toList := by decide
  have hstatements : statements "f".toList threeLines = [⟨6, "f(f(a)));".toList⟩] := by
    decide +kernel
  obtain ⟨⟨found, hfound⟩, hrule⟩ := statements_by_line hcallee threeLines
  exact ⟨hcallee, found, hfound, hstatements, (hrule found hfound).2 ▸ hstatements⟩

end Assay.Scan
