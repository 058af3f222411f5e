import Assay.Proofs.Assertion.Joined
import Assay.Proofs.Edit.Parts
import Assay.Text.Category

/-!
# Which calls are reported

Of the calls that end a line the scan takes the one that opens first, and drops it if that one
starts in a comment or literal. `reported_iff` says when a call is reported or stands in one that
is; `not_findsAll` has calls outside comments and literals that are not.
-/

namespace Assay.Scan

/-- The callee stands behind `before` in a line, at a word boundary and with its parenthesis. -/
structure Opening (callee line before : List Char) : Prop where
  text : ∃ after, line = before ++ callee ++ '(' :: after
  boundary : isBoundary before.getLast? (callee ++ ['(']).head?

/-- Of the openings of a line the one that stands first. -/
structure FirstOpening (callee line before : List Char) : Prop where
  opening : Opening callee line before
  first : ∀ other, Opening callee line other → before.length ≤ other.length

variable {callee s front before first args closing ret back line call : List Char}

/-! ### Openings and calls -/

theorem CallIn.opening (h : CallIn callee none line before call) :
    Opening callee line before := by
  obtain ⟨⟨ret, -, hline⟩, hboundary, args, closing, -, rfl⟩ := h
  have hhead : (callee ++ '(' :: args ++ closing).head? = (callee ++ ['(']).head? := by
    cases callee <;> rfl
  rw [Option.or_none, hhead] at hboundary
  refine ⟨⟨args ++ closing ++ ret, ?_⟩, hboundary⟩
  rw [hline]
  simp only [List.append_assoc, List.cons_append]

/-- What opens at or before a call that ends the line is closed at the end of the line too. -/
theorem Opening.exists_call (h : Opening callee line first) (hclosing : Closing closing)
    (hret : LineReturn ret) (hline : line = before ++ callee ++ '(' :: args ++ closing ++ ret)
    (hle : first.length ≤ before.length) : ∃ call, CallIn callee none line first call := by
  obtain ⟨⟨after, hafter⟩, hboundary⟩ := h
  obtain ⟨inner, hinner⟩ : ∃ inner, after = inner ++ (closing ++ ret) := by
    have hsame : (first ++ callee ++ ['(']) ++ after =
        (before ++ callee ++ '(' :: args) ++ (closing ++ ret) := by
      rw [← List.append_assoc, ← hline, hafter]
      simp only [List.append_assoc, List.cons_append, List.nil_append]
    rcases List.append_eq_append_iff.mp hsame with ⟨inner, -, h⟩ | ⟨extra, hlonger, h⟩
    · exact ⟨inner, h⟩
    · have hlength := congrArg List.length hlonger
      simp only [List.length_append, List.length_cons, List.length_nil] at hlength
      obtain rfl : extra = [] := List.eq_nil_of_length_eq_zero (by omega)
      exact ⟨[], h.symm⟩
  have hhead : (callee ++ '(' :: inner ++ closing).head? = (callee ++ ['(']).head? := by
    cases callee <;> rfl
  refine ⟨callee ++ '(' :: inner ++ closing, ⟨ret, hret, ?_⟩, ?_, inner, closing, hclosing, rfl⟩
  · rw [hafter, hinner]
    simp only [List.append_assoc, List.cons_append]
  · rwa [Option.or_none, hhead]

/-! ### The match of a line -/

theorem candidates_of_firstCall (hcallee : '\n' ∉ callee) (hline : '\n' ∉ line)
    (h : FirstCall callee line first call) :
    candidates callee (line ++ ['\n']) = [⟨Text.bytes first, call⟩] := by
  have hmatch := matchesFrom_first hcallee hline h.call h.first 0 []
  rw [Nat.zero_add, Nat.zero_add] at hmatch
  exact hmatch

theorem candidates_of_no_call (hcallee : '\n' ∉ callee) (hline : '\n' ∉ line)
    (h : ∀ before call, ¬ CallIn callee none line before call) :
    candidates callee (line ++ ['\n']) = [] :=
  matchesFrom_without hcallee hline h 0 []

/-- The matches of a script around those of one of its lines. -/
theorem candidates_around (hcallee : '\n' ∉ callee) (hfront : Mask.EndsLine front) :
    candidates callee (front ++ (line ++ '\n' :: back)) = candidates callee front ++
      (candidates callee (line ++ ['\n'])).map (Match.shift (Text.bytes front)) ++
        (candidates callee back).map (Match.shift (Text.bytes front + Text.bytes line + 1)) := by
  have hline : Mask.EndsLine (line ++ ['\n']) := by
    intro c hc
    rw [List.getLast?_concat] at hc
    exact (Option.some.inj hc).symm
  have hbytes : Text.bytes (line ++ ['\n']) = Text.bytes line + 1 := Text.bytes_append _ _
  rw [candidates_append hcallee hfront, ← List.singleton_append, ← List.append_assoc,
    candidates_append hcallee hline, List.map_append, List.map_map, ← List.append_assoc, hbytes]
  congr 2
  funext m
  simp only [Function.comp_apply, Match.shift, Nat.add_assoc]

/-- Only the first call of a line can be matched over a place of it. -/
theorem exists_firstCall_of_mem (hcallee : '\n' ∉ callee) (hfront : Mask.EndsLine front)
    (hline : '\n' ∉ line) {m : Match} {byte : Nat}
    (h : m ∈ candidates callee (front ++ (line ++ '\n' :: back)))
    (hbyte : byte ≤ Text.bytes line) (hstart : m.start ≤ Text.bytes front + byte)
    (hstop : Text.bytes front + byte < m.stop) :
    ∃ first call, FirstCall callee line first call ∧
      m = ⟨Text.bytes front + Text.bytes first, call⟩ := by
  rw [candidates_around hcallee hfront, List.mem_append, List.mem_append] at h
  rcases h with (h | h) | h
  · have := (within_of_mem_candidates h).2
    omega
  · obtain ⟨ms, hms⟩ := exists_lineMatches callee 0 [line]
    cases hms with
    | @call _ _ first call _ _ hfirst later =>
      rw [candidates_of_firstCall hcallee hline hfirst] at h
      exact ⟨first, call, hfirst, by simpa [Match.shift] using h⟩
    | without hnone later =>
      rw [candidates_of_no_call hcallee hline hnone] at h
      cases h
  · obtain ⟨m, -, rfl⟩ := List.mem_map.mp h
    simp only [Match.shift] at hstart
    omega

theorem mem_candidates_of_firstCall (hcallee : '\n' ∉ callee) (hfront : Mask.EndsLine front)
    (hline : '\n' ∉ line) (h : FirstCall callee line first call) :
    ⟨Text.bytes front + Text.bytes first, call⟩ ∈
      candidates callee (front ++ (line ++ '\n' :: back)) := by
  rw [candidates_around hcallee hfront, candidates_of_firstCall hcallee hline h]
  simp [Match.shift]

/-! ### What is reported -/

/-- A call of the callee stands in a line of a script, behind `before`, and ends the line. -/
structure Stands (callee s front line back before : List Char) : Prop where
  script : s = front ++ (line ++ '\n' :: back)
  front : Mask.EndsLine front
  newline : '\n' ∉ line
  call : ∃ args closing ret, Closing closing ∧ LineReturn ret ∧
    line = before ++ callee ++ '(' :: args ++ closing ++ ret

/-- A statement that starts at a byte is reported, or one that starts before it and goes on over
it. -/
def Reported (callee s : List Char) (byte : Nat) : Prop :=
  ∃ m ∈ statements callee s, m.start = byte ∨ (m.start < byte ∧ byte < m.stop)

def Masked (s : List Char) (byte : Nat) : Prop :=
  ∃ region ∈ Mask.maskedRegions s, region.1 ≤ byte ∧ byte < region.2

instance (s : List Char) (byte : Nat) : Decidable (Masked s byte) :=
  inferInstanceAs (Decidable (∃ region ∈ _, _))

theorem mem_statements {m : Match} :
    m ∈ statements callee s ↔ m ∈ candidates callee s ∧ ¬ Masked s m.start := by
  rw [statements, List.mem_filter, Masked, ← isMasked_iff, Bool.not_eq_true', Bool.not_eq_true]

theorem reported_iff_exists {byte : Nat} : Reported callee s byte ↔
    ∃ m ∈ statements callee s, m.start ≤ byte ∧ byte < m.stop := by
  constructor
  · rintro ⟨m, hm, rfl | ⟨hstart, hstop⟩⟩
    · exact ⟨m, hm, Nat.le_refl _, start_lt_stop hm⟩
    · exact ⟨m, hm, Nat.le_of_lt hstart, hstop⟩
  · rintro ⟨m, hm, hstart, hstop⟩
    rcases Nat.lt_or_eq_of_le hstart with hlt | heq
    · exact ⟨m, hm, Or.inr ⟨hlt, hstop⟩⟩
    · exact ⟨m, hm, Or.inl heq⟩

theorem Closing.bytes_pos (h : Closing closing) : 0 < Text.bytes closing := by
  cases h <;> decide

theorem LineReturn.bytes_le (h : LineReturn ret) : Text.bytes ret ≤ 1 := by
  cases h <;> decide

/-- A call that ends the line of another and does not open behind it goes on over its start. -/
theorem CallIn.over (h : CallIn callee none line first call) (hclosing : Closing closing)
    (hline : line = before ++ callee ++ '(' :: args ++ closing ++ ret)
    (hle : first.length ≤ before.length) : Text.bytes first ≤ Text.bytes before ∧
      Text.bytes before < Text.bytes first + Text.bytes call := by
  obtain ⟨ret', hret', htext⟩ := h.text
  have hfirst : first <+: line := ⟨call ++ ret', by rw [htext, List.append_assoc]⟩
  have hbefore : before <+: line := ⟨callee ++ '(' :: args ++ closing ++ ret, by
    rw [hline]
    simp only [List.append_assoc]⟩
  obtain ⟨rest, rfl⟩ := List.prefix_of_prefix_length_le hfirst hbefore hle
  have hbytes := congrArg Text.bytes (htext.symm.trans hline)
  have hparen : 0 < '('.utf8Size := by decide
  have hclosed := hclosing.bytes_pos
  have hreturn := hret'.bytes_le
  simp only [Text.bytes_append, Text.bytes_cons] at hbytes ⊢
  omega

theorem reported_iff_firstOpening (h : Stands callee s front line back before) :
    Reported callee s (Text.bytes (front ++ before)) ↔
      ∃ first, FirstOpening callee line first ∧ first.length ≤ before.length ∧
        ¬ Masked s (Text.bytes (front ++ first)) := by
  obtain ⟨hs, hfront, hnewline, args, closing, ret, hclosing, hret, hline⟩ := h
  have hcallee : '\n' ∉ callee := by
    rw [hline] at hnewline
    simp only [List.mem_append, not_or] at hnewline
    exact hnewline.1.1.1.2
  have hbytes : Text.bytes before ≤ Text.bytes line := by
    rw [hline]
    simp only [Text.bytes_append]
    omega
  rw [reported_iff_exists, Text.bytes_append]
  constructor
  · rintro ⟨m, hm, hstart, hstop⟩
    obtain ⟨hcandidate, hmask⟩ := mem_statements.mp hm
    obtain ⟨first, call, hfirst, rfl⟩ :=
      exists_firstCall_of_mem hcallee hfront hnewline (hs ▸ hcandidate) hbytes hstart hstop
    obtain ⟨ret', -, hcall⟩ := hfirst.call.text
    have hle : first.length ≤ before.length := by
      have hsame : first ++ (call ++ ret') =
          before ++ (callee ++ '(' :: args ++ closing ++ ret) := by
        rw [← List.append_assoc, ← hcall, hline]
        simp only [List.append_assoc]
      obtain ⟨rest, rfl, -⟩ :=
        Text.exists_append_of_bytes_le hsame (Nat.le_of_add_le_add_left hstart)
      simp
    refine ⟨first, ⟨hfirst.call.opening, fun other hother => ?_⟩, hle, ?_⟩
    · rcases Nat.le_total other.length before.length with hshort | hlong
      · obtain ⟨call', hcall'⟩ := hother.exists_call hclosing hret hline hshort
        exact hfirst.first other call' hcall'
      · exact Nat.le_trans hle hlong
    · rwa [Text.bytes_append]
  · rintro ⟨first, hfirst, hle, hmask⟩
    rw [Text.bytes_append] at hmask
    obtain ⟨call, hcall⟩ := hfirst.opening.exists_call hclosing hret hline hle
    obtain ⟨hstart, hstop⟩ := hcall.over hclosing hline hle
    have hfirstCall : FirstCall callee line first call :=
      ⟨hcall, fun other call' h => hfirst.first other h.opening⟩
    refine ⟨⟨_, call⟩, mem_statements.mpr ⟨?_, hmask⟩, Nat.add_le_add_left hstart _, ?_⟩
    · rw [hs]
      exact mem_candidates_of_firstCall hcallee hfront hnewline hfirstCall
    · simp only [Match.stop]
      omega

theorem Opening.exists_first (h : Opening callee line before) :
    ∃ first, FirstOpening callee line first := by
  obtain ⟨first, hfirst, hleast⟩ := exists_minimalFor_of_wellFoundedLT
    (Opening callee line) List.length ⟨before, h⟩
  exact ⟨first, hfirst, fun other hother => (Nat.le_total _ _).elim id (hleast hother)⟩

/-- A callee that begins with a word character opens wherever none stands before it. -/
theorem Stands.opening (h : Stands callee s front line back before)
    (hcallee : callee.head?.any Text.isWordChar)
    (hbefore : ¬ before.getLast?.any Text.isWordChar) : Opening callee line before := by
  obtain ⟨args, closing, ret, -, -, hline⟩ := h.call
  refine ⟨⟨args ++ closing ++ ret, ?_⟩, ?_⟩
  · rw [hline]
    simp only [List.append_assoc, List.cons_append]
  · have hafter : (callee ++ ['(']).head?.any Text.isWordChar := by
      cases callee with
      | nil => cases hcallee
      | cons c callee => exact hcallee
    rw [isBoundary, hafter, Bool.eq_false_iff.mpr hbefore]
    rfl

/-- A call that ends its line is reported, or stands in a statement that is, exactly when the first
opening of its line is not behind it and not in a comment or literal. So it is if it stands outside
of them, the callee begins with a word character, none stands before it, and no opening before it on
its line stands in a comment or literal. -/
theorem reported_iff (h : Stands callee s front line back before) :
    (Reported callee s (Text.bytes (front ++ before)) ↔
      ∃ first, FirstOpening callee line first ∧ first.length ≤ before.length ∧
        ¬ Masked s (Text.bytes (front ++ first))) ∧
    (callee.head?.any Text.isWordChar → ¬ before.getLast?.any Text.isWordChar →
      ¬ Masked s (Text.bytes (front ++ before)) →
      (∀ other, Opening callee line other → other.length < before.length →
        ¬ Masked s (Text.bytes (front ++ other))) →
      Reported callee s (Text.bytes (front ++ before))) := by
  refine ⟨reported_iff_firstOpening h, fun hcallee hbefore hmask hearlier => ?_⟩
  have hopening := h.opening hcallee hbefore
  obtain ⟨first, hfirst⟩ := hopening.exists_first
  have hle := hfirst.first before hopening
  refine (reported_iff_firstOpening h).mpr ⟨first, hfirst, hle, ?_⟩
  rcases Nat.lt_or_eq_of_le hle with hlt | heq
  · exact hearlier first hfirst.opening hlt
  · obtain ⟨after, hafter⟩ := hopening.text
    obtain ⟨after', hafter'⟩ := hfirst.opening.text
    rw [List.append_assoc] at hafter hafter'
    rwa [(List.append_inj (hafter'.symm.trans hafter) heq).1]

/-- A call in a comment, and two calls of which one stands in the other. -/
def nestedCalls : List Char := "// f(1)\nf(f(a));\r\n".toList

theorem stands_nestedCalls : Stands ['f'] nestedCalls "// f(1)\n".toList "f(f(a));\r".toList []
    "f(".toList where
  script := by decide
  front c hc := (Option.some.inj (show some '\n' = some c from hc)).symm
  newline := by decide
  call := ⟨['a', ')'], _, _, .semicolon, .carriage, by decide⟩

/-- The inner call is found as part of the outer one. -/
theorem reported_iff_nestedCalls :
    Stands ['f'] nestedCalls "// f(1)\n".toList "f(f(a));\r".toList [] "f(".toList ∧
      ¬ Masked nestedCalls (Text.bytes ("// f(1)\n".toList ++ "f(".toList)) ∧
      Reported ['f'] nestedCalls (Text.bytes ("// f(1)\n".toList ++ "f(".toList)) := by
  have hmask : ¬ Masked nestedCalls (Text.bytes ("// f(1)\n".toList ++ "f(".toList)) := by
    decide +kernel
  refine ⟨stands_nestedCalls, hmask,
    (reported_iff stands_nestedCalls).2 rfl (by decide) hmask ?_⟩
  -- the comment ends before the line begins
  rintro other - - ⟨region, hregion, -, hstop⟩
  have hregions : Mask.maskedRegions nestedCalls = [(0, 7)] := by decide +kernel
  have hfront : Text.bytes "// f(1)\n".toList = 8 := by decide
  rw [hregions, List.mem_singleton] at hregion
  rw [Text.bytes_append, hfront, hregion] at hstop
  omega

/-! ### Calls that are missed -/

def IsIdentifier (s : List Char) : Prop :=
  s.head?.any Text.isIdentStart ∧ s.all Text.isIdentPart

/-- Identifiers with dots between them. -/
def IsPath (callee : List Char) : Prop := ∀ name ∈ callee.splitOn '.', IsIdentifier name

instance (s : List Char) : Decidable (IsIdentifier s) := inferInstanceAs (Decidable (_ ∧ _))

instance (callee : List Char) : Decidable (IsPath callee) :=
  inferInstanceAs (Decidable (∀ name ∈ _, _))

/-- Every call outside comments and literals that ends its line and continues no identifier is
reported, or stands in a statement that is. -/
def FindsAll (callee s : List Char) : Prop :=
  ∀ front line back before, Stands callee s front line back before →
    ¬ before.getLast?.any Text.isIdentPart →
    ¬ Masked s (Text.bytes (front ++ before)) → Reported callee s (Text.bytes (front ++ before))

theorem not_reported (h : statements callee s = []) (byte : Nat) : ¬ Reported callee s byte := by
  rintro ⟨m, hm, -⟩
  rw [h] at hm
  cases hm

/-- A call in a comment hides the one behind it on its line, and a callee that begins with a dollar
sign is not found at the beginning of a line. -/
theorem not_findsAll :
    (IsPath "t.assert".toList ∧
      ¬ FindsAll "t.assert".toList "/* t.assert(a); */ t.assert(b);\n".toList) ∧
    (IsPath "$.ok".toList ∧ ¬ FindsAll "$.ok".toList "$.ok(a);\n".toList) := by
  have hfront : Mask.EndsLine [] := fun c hc => by cases hc
  refine ⟨⟨by decide, fun h => ?_⟩, by decide, fun h => ?_⟩
  · have hstands : Stands "t.assert".toList "/* t.assert(a); */ t.assert(b);\n".toList []
        "/* t.assert(a); */ t.assert(b);".toList [] "/* t.assert(a); */ ".toList :=
      ⟨by decide, hfront, by decide, ['b'], _, _, .semicolon, .none, by decide⟩
    exact not_reported (by decide +kernel) _
      (h _ _ _ _ hstands (by decide) (by decide +kernel))
  · have hstands : Stands "$.ok".toList "$.ok(a);\n".toList [] "$.ok(a);".toList [] [] :=
      ⟨by decide, hfront, by decide, ['a'], _, _, .semicolon, .none, by decide⟩
    exact not_reported (by decide +kernel) _
      (h _ _ _ _ hstands (by decide) (by decide +kernel))

end Assay.Scan
