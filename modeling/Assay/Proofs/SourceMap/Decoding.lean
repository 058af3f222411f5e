import Assay.Proofs.SourceMap.Mappings
import Assay.Proofs.SourceMap.Segments

/-!
# The meaning of a mappings text

Segments follow each other with running sums, and the first that breaks a rule decides the error.
`meaning` says this of the list of all segments, with no text behind a segment in sight;
`decode_eq_meaning` says that decoding, which reads the text in one pass, comes to the same.
-/

namespace Assay.Mappings

/-- The byte of the first text that is no quantity or has five others before it. -/
def faultFrom (index start : Nat) (texts : List (List Char)) : Option Nat :=
  (((placeFrom 0 start texts).zipIdx index).find? fun ((_, text), index) =>
    5 ≤ index ∨ Vlq.quantity? text = none).map (·.1.1)

def Segment.fault? (g : Segment) : Option Nat := faultFrom 0 g.start (Vlq.texts g.text)

def Segment.values (g : Segment) : List Int := (Vlq.texts g.text).filterMap Vlq.quantity?

/-- What the quantities of one kind add up to, in 64-bit two's complement. -/
def total (kind : Nat) (gs : List Segment) : Int :=
  Vlq.wrap64 (gs.filterMap (·.values[kind]?)).sum

/-- The sums after segments; the column is that of a line. -/
def totals (line : Nat) (gs : List Segment) : Sums :=
  ⟨total 0 (gs.filter (·.line = line)), total 1 gs, total 2 gs, total 3 gs, total 4 gs⟩

/-- Whether the program stops where the quantity of a kind is added, as 64 bits do not hold the
sum. -/
def Stops (a : Arithmetic) (kind : Nat) (before : List Segment) (g : Segment) : Prop :=
  a = .checked ∧ total kind (before ++ [g]) ≠ total kind before + g.values[kind]?.getD 0

instance (a : Arithmetic) (kind : Nat) (before : List Segment) (g : Segment) :
    Decidable (Stops a kind before g) := instDecidableAnd

/-- The origin of a segment that stands behind others, or the first rule for origins that it
breaks. -/
def originAfter (a : Arithmetic) (count : Nat) (before : List Segment) (g : Segment) :
    Except SourceMapError Origin :=
  let sums := totals g.line (before ++ [g])
  if Stops a 1 before g ∨ Stops a 2 before g ∨ Stops a 3 before g then .error .overflow
  else if sums.source < 0 ∨ count ≤ sums.source then .error (.unknownSource sums.source)
  else if sums.originLine < 0 ∨ sums.originColumn < 0 then .error (.invalidMappings g.start)
  else if Stops a 4 before g ∨ a = .checked ∧ word sums.originLine = 0xffffffff then
    .error .overflow
  else .ok ⟨word sums.source, word (sums.originLine + 1), word sums.originColumn,
    if g.values.length = 5 then some (word sums.name) else none⟩

/-- The token of a segment that stands behind others, or the first rule that it breaks. -/
def tokenAfter (a : Arithmetic) (count : Nat) (before : List Segment) (g : Segment) :
    Except SourceMapError MapToken :=
  let sums := totals g.line (before ++ [g])
  match g.fault? with
  | some byte => .error (.invalidMappings byte)
  | none =>
    if g.values.length ∉ [1, 4, 5] then .error (.invalidMappings g.start)
    else if Stops a 0 (before.filter (·.line = g.line)) g then .error .overflow
    else if sums.column < 0 then .error (.invalidMappings g.start)
    else if g.values.length = 1 then .ok ⟨⟨g.line, word sums.column⟩, none⟩
    else (originAfter a count before g).map fun origin => ⟨⟨g.line, word sums.column⟩, some origin⟩

/-- The tokens of all segments of a text, for a map of `count` sources. -/
def meaning (a : Arithmetic) (s : List Char) (count : Nat) :
    Except SourceMapError (List MapToken) :=
  (segments s).zipIdx.mapM fun (g, i) => tokenAfter a count ((segments s).take i) g

/-! ### Quantities of a segment -/

theorem faultFrom_cons (index start : Nat) (text : List Char) (texts : List (List Char)) :
    faultFrom index start (text :: texts) =
      if 5 ≤ index ∨ Vlq.quantity? text = none then some start
      else faultFrom (index + 1) (start + Text.bytes text) texts := by
  rw [faultFrom, placeFrom, List.zipIdx_cons, List.find?_cons]
  by_cases h : 5 ≤ index ∨ Vlq.quantity? text = none
  · simp only [h, decide_true, if_true, Option.map_some]
  · simp only [h, decide_false, if_false]
    rfl

theorem atBreak_of_ne {c : Char} (hc : c ≠ ',' ∧ c ≠ ';') (r : List Char) :
    atBreak (c :: r) = false := by
  simp [atBreak, hc]

theorem value?_of_atBreak {rest : List Char} (h : atBreak rest) :
    ∀ c ∈ rest.head?, Base64.value? c = none := by
  intro c hc
  obtain ⟨r, rfl⟩ := List.head?_eq_some_iff.mp hc
  have hbreak : c = ',' ∨ c = ';' := by simpa [atBreak] using h
  rcases hbreak with rfl | rfl
  · rfl
  · rfl

/-- A segment is read as its values up to its fault; `index` of its quantities stand before. -/
theorem readSegment_texts {text rest : List Char} {chunks : List (List Char)}
    (h : Vlq.texts text = chunks) (htext : ∀ c ∈ text, c ≠ ',' ∧ c ≠ ';') (hrest : atBreak rest)
    {index room : Nat} (hroom : index + room = 5) (offset : Nat) :
    readSegment offset room (text ++ rest) =
      match faultFrom index offset chunks with
      | some byte => .error (.invalidMappings byte)
      | none => .ok (chunks.filterMap Vlq.quantity?, rest, offset + Text.bytes text) := by
  induction chunks generalizing text index room offset with
  | nil =>
    obtain rfl : text = [] := List.splitBy_eq_nil.mp h
    exact readSegment_break offset room hrest
  | cons chunk chunks ih =>
    have hdecode := Vlq.decode?_texts h (value?_of_atBreak hrest)
    obtain ⟨hne, hcut, htexts⟩ := Vlq.texts_tail h
    have hbreak : atBreak (text ++ rest) = false := by
      obtain ⟨c, r, hc⟩ := List.exists_cons_of_ne_nil hne
      rw [hcut, hc]
      exact atBreak_of_ne (htext c (by simp [hcut, hc])) _
    rw [faultFrom_cons]
    cases room with
    | zero =>
      rw [readSegment, hbreak, if_pos (Or.inl (by omega))]
      rfl
    | succ room =>
      rw [readSegment, hbreak, hdecode, if_neg Bool.false_ne_true]
      cases hvalue : Vlq.quantity? chunk with
      | none =>
        rw [if_pos (Or.inr rfl)]
        rfl
      | some v =>
        have hbytes := Vlq.bytes_of_quantity? hvalue
        have hnext := ih htexts (fun c hc => htext c (hcut ▸ List.mem_append_right chunk hc))
          (show index + 1 + room = 5 by omega) (offset + chunk.length)
        have hdrop : (text ++ rest).drop chunk.length = chunks.flatten ++ rest := by
          rw [hcut, List.append_assoc, List.drop_left]
        have hindex : ¬ (5 ≤ index ∨ some v = none) := by
          simp only [reduceCtorEq, or_false]
          omega
        rw [if_neg hindex, List.filterMap_cons_some hvalue, hbytes]
        simp only [Option.map_some, hdrop, hnext]
        cases faultFrom (index + 1) (offset + chunk.length) chunks with
        | none => rw [hcut, Text.bytes_append, hbytes, Nat.add_assoc]
        | some byte => rfl

/-! ### Running sums -/

theorem total_concat (kind : Nat) (gs : List Segment) (g : Segment) :
    total kind (gs ++ [g]) =
      match g.values[kind]? with
      | some v => Vlq.wrap64 (total kind gs + v)
      | none => total kind gs := by
  unfold total
  cases h : g.values[kind]? with
  | none => simp [h]
  | some v => simp [h, Vlq.wrap64_wrap64_add]

theorem totals_newLine {line : Nat} {gs : List Segment} (h : ∀ g ∈ gs, g.line ≤ line) :
    { totals line gs with column := 0 } = totals (line + 1) gs := by
  have hnone : gs.filter (·.line = line + 1) = [] := by
    apply List.filter_eq_nil_iff.mpr
    intro g hg
    have := h g hg
    simp only [decide_eq_true_eq]
    omega
  rw [totals, totals, hnone]
  rfl

section

variable {ε α β : Type} {c : Prop} [Decidable c] (e : ε) (x : Except ε α)

theorem ite_error_bind (f : α → Except ε β) :
    (if c then .error e else x) >>= f = if c then .error e else x >>= f := by
  split <;> rfl

theorem ok_bind (a : α) (f : α → Except ε β) : Except.ok a >>= f = f a := rfl

theorem map_ite_error (f : α → β) :
    Except.map f (if c then .error e else x) = if c then .error e else x.map f := by
  split <;> rfl

end

theorem filter_line_concat (before : List Segment) (g : Segment) :
    (before ++ [g]).filter (·.line = g.line) = before.filter (·.line = g.line) ++ [g] := by simp

theorem totals_concat (before : List Segment) (g : Segment) :
    totals g.line (before ++ [g]) =
      ⟨total 0 (before.filter (·.line = g.line) ++ [g]), total 1 (before ++ [g]),
        total 2 (before ++ [g]), total 3 (before ++ [g]), total 4 (before ++ [g])⟩ := by
  rw [totals, filter_line_concat]

section

variable {a : Arithmetic} {before : List Segment} {g : Segment} {v : Int}

theorem add64_total {kind : Nat} (h : g.values[kind]? = some v) :
    a.add64 (total kind before) v =
      if Stops a kind before g then .error .overflow else .ok (total kind (before ++ [g])) := by
  simp only [Arithmetic.add64, Arithmetic.keep, Stops, total_concat, h, Option.getD_some]

theorem not_stops_of_none {kind : Nat} (h : g.values[kind]? = none) : ¬ Stops a kind before g := by
  simp [Stops, total_concat, h]

theorem next32_word (n : Int) :
    a.next32 (word n) =
      if a = .checked ∧ word n = 0xffffffff then .error .overflow else .ok (word (n + 1)) := by
  have hnext : (word n + 1) % 0x100000000 = word (n + 1) := by
    unfold word
    omega
  have hstops : word (n + 1) ≠ word n + 1 ↔ word n = 0xffffffff := by
    unfold word
    omega
  simp only [Arithmetic.next32, Arithmetic.keep, hnext, hstops]

theorem total_of_none {kind : Nat} (h : g.values[kind]? = none) :
    total kind (before ++ [g]) = total kind before := by
  rw [total_concat, h]

theorem addName_totals (s : Sums) (hs : s.name = total 4 before) (h : g.values[4]? = some v) :
    s.addName a v =
      if Stops a 4 before g then .error .overflow
      else .ok { s with name := total 4 (before ++ [g]) } := by
  rw [Sums.addName, hs, add64_total h, ite_error_bind]
  rfl

theorem origin_eq (s : Sums) (name : Option Nat) :
    s.origin a name =
      if a = .checked ∧ word s.originLine = 0xffffffff then .error .overflow
      else .ok ⟨word s.source, word (s.originLine + 1), word s.originColumn, name⟩ := by
  rw [Sums.origin, next32_word, ite_error_bind]
  rfl

theorem addColumn_totals (start : Nat) (s : Sums) (hs : s.column = total 0 before)
    (h : g.values[0]? = some v) :
    s.addColumn a start v =
      if Stops a 0 before g then .error .overflow
      else if total 0 (before ++ [g]) < 0 then .error (.invalidMappings start)
      else .ok { s with column := total 0 (before ++ [g]) } := by
  rw [Sums.addColumn, hs, add64_total h, ite_error_bind]
  rfl

theorem addOrigin_totals (start count : Nat) (s : Sums) {line column : Int}
    (hs : s.source = total 1 before ∧ s.originLine = total 2 before ∧
      s.originColumn = total 3 before)
    (hsource : g.values[1]? = some v) (hline : g.values[2]? = some line)
    (hcolumn : g.values[3]? = some column) :
    s.addOrigin a start count v line column =
      if Stops a 1 before g ∨ Stops a 2 before g ∨ Stops a 3 before g then .error .overflow
      else if total 1 (before ++ [g]) < 0 ∨ count ≤ total 1 (before ++ [g]) then
        .error (.unknownSource (total 1 (before ++ [g])))
      else if total 2 (before ++ [g]) < 0 ∨ total 3 (before ++ [g]) < 0 then
        .error (.invalidMappings start)
      else .ok { s with
        source := total 1 (before ++ [g]), originLine := total 2 (before ++ [g]),
        originColumn := total 3 (before ++ [g]) } := by
  obtain ⟨hs₁, hs₂, hs₃⟩ := hs
  rw [Sums.addOrigin, hs₁, hs₂, hs₃, add64_total hsource, add64_total hline, add64_total hcolumn]
  by_cases h₁ : Stops a 1 before g
  · simp [h₁, bind, Except.bind]
  by_cases h₂ : Stops a 2 before g
  · simp [h₁, h₂, bind, Except.bind]
  by_cases h₃ : Stops a 3 before g
  · simp [h₁, h₂, h₃, bind, Except.bind]
  simp only [h₁, h₂, h₃, or_self, if_false, ok_bind]

/-- What follows the sums of sources, lines and columns has to answer as the last rule for origins
does. -/
theorem map_originAfter (count : Nat) (s : Sums) {line column : Int} {α : Type}
    (hs : s.source = total 1 before ∧ s.originLine = total 2 before ∧
      s.originColumn = total 3 before)
    (hsource : g.values[1]? = some v) (hline : g.values[2]? = some line)
    (hcolumn : g.values[3]? = some column) (f : Origin → α) (rest : Sums → Except SourceMapError α)
    (hrest : rest { s with
        source := total 1 (before ++ [g]), originLine := total 2 (before ++ [g]),
        originColumn := total 3 (before ++ [g]) } =
      if Stops a 4 before g ∨ a = .checked ∧ word (total 2 (before ++ [g])) = 0xffffffff then
        .error .overflow
      else .ok (f ⟨word (total 1 (before ++ [g])), word (total 2 (before ++ [g]) + 1),
        word (total 3 (before ++ [g])),
        if g.values.length = 5 then some (word (total 4 (before ++ [g]))) else none⟩)) :
    s.addOrigin a g.start count v line column >>= rest = (originAfter a count before g).map f := by
  rw [addOrigin_totals g.start count s hs hsource hline hcolumn, originAfter, totals_concat]
  simp only [map_ite_error, ite_error_bind]
  refine ite_congr rfl (fun _ => rfl) fun _ => ite_congr rfl (fun _ => rfl) fun _ =>
    ite_congr rfl (fun _ => rfl) fun _ => ?_
  exact hrest

end

/-- A segment without a fault adds its values to the sums and gives its token. -/
theorem applySegment_eq (a : Arithmetic) (count : Nat) (before : List Segment) {g : Segment}
    (hfault : g.fault? = none) :
    applySegment a g.line g.start count (totals g.line before) g.values =
      (tokenAfter a count before g).map (totals g.line (before ++ [g]), ·) := by
  have hcolumn {v : Int} (h : g.values[0]? = some v) :=
    addColumn_totals (a := a) g.start (totals g.line before) rfl h
  rw [tokenAfter, hfault, totals_concat]
  dsimp only
  match h : g.values with
  | [] => rfl
  | [column] =>
    have hnone (kind : Nat) : total (kind + 1) (before ++ [g]) = total (kind + 1) before :=
      total_of_none (by rw [h]; rfl)
    rw [applySegment, hcolumn (by rw [h]; rfl), hnone 0, hnone 1, hnone 2, hnone 3]
    simp only [ite_error_bind, map_ite_error]
    rfl
  | [_, _] => rfl
  | [_, _, _] => rfl
  | [column, source, originLine, originColumn] =>
    have hname : total 4 (before ++ [g]) = total 4 before := total_of_none (by rw [h]; rfl)
    have hstops : ¬ Stops a 4 before g := not_stops_of_none (by rw [h]; rfl)
    have hcount : ¬ [column, source, originLine, originColumn].length ∉ [1, 4, 5] := by simp
    have hone : ¬ [column, source, originLine, originColumn].length = 1 := by simp
    rw [applySegment, hcolumn (by rw [h]; rfl), hname, if_neg hcount, if_neg hone]
    simp only [ite_error_bind, map_ite_error]
    refine ite_congr rfl (fun _ => rfl) fun _ => ite_congr rfl (fun _ => rfl) fun _ => ?_
    refine (map_originAfter count _ ⟨rfl, rfl, rfl⟩ (by rw [h]; rfl) (by rw [h]; rfl)
      (by rw [h]; rfl) _ _ ?_).trans (comp_map _ _ (originAfter a count before g))
    simp only [origin_eq, hstops, false_or, ite_error_bind, h]
    rfl
  | [column, source, originLine, originColumn, name] =>
    have hcount : ¬ [column, source, originLine, originColumn, name].length ∉ [1, 4, 5] := by simp
    have hone : ¬ [column, source, originLine, originColumn, name].length = 1 := by simp
    rw [applySegment, hcolumn (by rw [h]; rfl), if_neg hcount, if_neg hone]
    simp only [ite_error_bind, map_ite_error]
    refine ite_congr rfl (fun _ => rfl) fun _ => ite_congr rfl (fun _ => rfl) fun _ => ?_
    refine (map_originAfter count _ ⟨rfl, rfl, rfl⟩ (by rw [h]; rfl) (by rw [h]; rfl)
      (by rw [h]; rfl) _ _ ?_).trans (comp_map _ _ (originAfter a count before g))
    rw [addName_totals _ rfl (by rw [h]; rfl)]
    simp only [origin_eq, ite_error_bind, ok_bind, h]
    by_cases hstops : Stops a 4 before g
    · simp only [hstops, true_or, if_true]
    · simp only [hstops, false_or, if_false]
      rfl
  | _ :: _ :: _ :: _ :: _ :: _ :: _ => simp [applySegment, Except.map]

/-! ### The whole text -/

/-- The tokens of segments that stand behind others. -/
def meaningFrom (a : Arithmetic) (count : Nat) (before : List Segment) :
    List Segment → Except SourceMapError (List MapToken)
  | [] => .ok []
  | g :: r => do
    let token ← tokenAfter a count before g
    let tokens ← meaningFrom a count (before ++ [g]) r
    return token :: tokens

theorem mapM_tokenAfter (a : Arithmetic) (count : Nat) (before gs : List Segment) :
    (gs.zipIdx before.length).mapM (fun (g, i) => tokenAfter a count ((before ++ gs).take i) g) =
      meaningFrom a count before gs := by
  induction gs generalizing before with
  | nil => rfl
  | cons g gs ih =>
    have h := ih (before ++ [g])
    rw [List.length_append, List.length_singleton, List.append_assoc] at h
    rw [List.zipIdx_cons, List.mapM_cons, meaningFrom, ← h]
    simp only [List.take_left, List.singleton_append]

theorem exists_segment {c : Char} (hc : c ≠ ',' ∧ c ≠ ';') (r : List Char) :
    ∃ text rest, text ≠ [] ∧ c :: r = text ++ rest ∧ (∀ d ∈ text, d ≠ ',' ∧ d ≠ ';') ∧
      atBreak rest := by
  induction r generalizing c with
  | nil => exact ⟨[c], [], List.cons_ne_nil c [], rfl, by simpa using hc, rfl⟩
  | cons d r ih =>
    by_cases hd : d ≠ ',' ∧ d ≠ ';'
    · obtain ⟨text, rest, -, hcut, htext, hrest⟩ := ih hd
      exact ⟨c :: text, rest, List.cons_ne_nil c text, congrArg (c :: ·) hcut,
        List.forall_mem_cons.mpr ⟨hc, htext⟩, hrest⟩
    · refine ⟨[c], d :: r, List.cons_ne_nil c [], rfl, by simpa using hc, ?_⟩
      simpa [atBreak, or_iff_not_imp_left] using hd

theorem readSegment_text {g : Segment} (htext : ∀ c ∈ g.text, c ≠ ',' ∧ c ≠ ';')
    {rest : List Char} (hrest : atBreak rest) :
    readSegment g.start 5 (g.text ++ rest) =
      match g.fault? with
      | some byte => .error (.invalidMappings byte)
      | none => .ok (g.values, rest, g.start + Text.bytes g.text) :=
  readSegment_texts rfl htext hrest (Nat.zero_add 5) g.start

/-- Decoding from a segment on reads the segment and goes on behind it. -/
theorem decodeFrom_text {g : Segment} (hne : g.text ≠ [])
    (htext : ∀ c ∈ g.text, c ≠ ',' ∧ c ≠ ';') {rest : List Char} (hrest : atBreak rest)
    (a : Arithmetic) (count fuel : Nat) (before : List Segment) :
    decodeFrom a count (fuel + 1) g.start g.line (totals g.line before) (g.text ++ rest) = do
      let token ← tokenAfter a count before g
      let tokens ← decodeFrom a count fuel (g.start + Text.bytes g.text) g.line
        (totals g.line (before ++ [g])) rest
      return token :: tokens := by
  obtain ⟨c, r, hc⟩ := List.exists_cons_of_ne_nil hne
  obtain ⟨hcomma, hsemicolon⟩ := htext c (hc ▸ List.mem_cons_self)
  have hread := readSegment_text htext hrest
  rw [hc, List.cons_append] at hread ⊢
  rw [decodeFrom, if_neg hsemicolon, if_neg hcomma, hread, ← hc]
  cases hfault : g.fault? with
  | some byte =>
    have htoken : tokenAfter a count before g = .error (.invalidMappings byte) := by
      rw [tokenAfter, hfault]
    rw [htoken]
    rfl
  | none =>
    have happly := applySegment_eq a count before hfault
    simp only [bind, Except.bind, happly]
    cases tokenAfter a count before g with
    | error e => rfl
    | ok token => rfl

/-- By induction on the fuel; the sums are those of the segments in front. -/
theorem decodeFrom_eq (a : Arithmetic) (count : Nat) {fuel : Nat} {s : List Char}
    (hfuel : s.length ≤ fuel) {line : Nat} {before : List Segment}
    (hbefore : ∀ g ∈ before, g.line ≤ line) (offset : Nat) :
    decodeFrom a count fuel offset line (totals line before) s =
      meaningFrom a count before (segmentsFrom line offset s) := by
  induction fuel generalizing s line before offset with
  | zero =>
    obtain rfl := List.length_eq_zero_iff.mp (Nat.le_zero.mp hfuel)
    rfl
  | succ fuel ih =>
    cases s with
    | nil => rfl
    | cons c r =>
      have hr : r.length ≤ fuel := Nat.le_of_succ_le_succ hfuel
      by_cases hsemicolon : c = ';'
      · subst hsemicolon
        rw [decodeFrom, if_pos rfl, totals_newLine hbefore, segmentsFrom_semicolon]
        exact ih hr (fun g hg => Nat.le_succ_of_le (hbefore g hg)) _
      by_cases hcomma : c = ','
      · subst hcomma
        rw [decodeFrom, if_neg hsemicolon, if_pos rfl, segmentsFrom_comma]
        exact ih hr hbefore _
      obtain ⟨text, rest, hne, hcut, htext, hrest⟩ := exists_segment ⟨hcomma, hsemicolon⟩ r
      have hlength : rest.length ≤ fuel := by
        have := congrArg List.length hcut
        have := List.length_pos_iff.mpr hne
        simp only [List.length_cons, List.length_append] at *
        omega
      have hlines : ∀ g ∈ before ++ [⟨line, offset, text⟩], g.line ≤ line := by
        simpa [or_imp, forall_and] using hbefore
      have hstep := @decodeFrom_text ⟨line, offset, text⟩ hne htext rest hrest a count fuel before
      rw [hcut, hstep, ih hlength hlines, segmentsFrom_text line offset hne htext hrest]
      rfl

/-- The one pass over the characters of a mappings text gives what its lines and segments mean, errors
included, whichever way the sums are built. -/
theorem decode_eq_meaning (a : Arithmetic) (s : List Char) (count : Nat) :
    decode a s count = meaning a s count := by
  rw [meaning]
  exact (decodeFrom_eq a count (Nat.le_refl _) (List.forall_mem_nil _) 0).trans
    (mapM_tokenAfter a count [] (segments s)).symm

/-- An origin on the last line that 32 bits can count from zero. -/
example : decode .checked "AA+/////HA".toList 1 = .error .overflow := by decide +kernel

example : decode .wrapping "AA+/////HA".toList 1 = .ok [⟨⟨1, 0⟩, some ⟨0, 0, 0, none⟩⟩] := by
  decide +kernel

end Assay.Mappings
