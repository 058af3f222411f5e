import Assay.Proofs.Assertion.Temporaries
import Assay.Proofs.Assertion.Unambiguous
import Assay.Proofs.Expression.OneLine

/-!
# The lines that instrumenting adds

Nothing that is printed for an assertion holds a newline but the code that replaces it, which has
one line more for each constant. `newlines_instrument` counts the newlines of an instrumented script
from that.
-/

namespace Assay

/-! ### Printed literals -/

theorem Json.newline_not_mem_escape (c : Char) : '\n' ∉ escape c := by
  by_cases hcontrol : c.toNat < 0x20
  · have hall : ∀ n < 0x20, '\n' ∉ escape (Char.ofNat n) := by decide
    have h := hall c.toNat hcontrol
    rwa [Char.ofNat_toNat] at h
  · have hnewline : '\n' ≠ c := by
      rintro rfl
      exact hcontrol (by decide)
    unfold escape
    split
    next => decide
    next =>
      split
      next => decide
      next => simp [hnewline]

theorem Json.newline_not_mem_quote (s : List Char) : '\n' ∉ quote s := by
  simp [quote, newline_not_mem_escape]

namespace Literal

theorem newline_not_mem_separated {α : Type} {f : α → List Char} {as : List α} (close : Char)
    (hclose : close ≠ '\n') (h : ∀ a ∈ as, '\n' ∉ f a) : '\n' ∉ separated f close as := by
  induction as with
  | nil => simpa [separated] using hclose.symm
  | cons a as ih =>
    obtain ⟨ha, has⟩ := List.forall_mem_cons.mp h
    have hrest := ih has
    rw [separated_cons]
    cases as with
    | nil => simp [ha, hclose.symm]
    | cons b as => simp [ha, hrest]

theorem newline_not_mem_chars {l : Literal} (h : EveryReference ('\n' ∉ ·.toList) l) :
    '\n' ∉ chars l := by
  induction h with
  | string value => exact Json.newline_not_mem_quote value.toList
  | number value =>
    intro hmem
    exact absurd (Json.natText_digits value '\n' hmem) (by decide)
  | array _ ih =>
    rw [chars, itemChars_eq]
    simpa using newline_not_mem_separated ']' (by decide) ih
  | @object fields _ ih =>
    have hfield : ∀ f ∈ fields, '\n' ∉ field f := fun f hf => by
      simp [field, Json.newline_not_mem_quote, ih f hf]
    rw [chars, fieldChars_eq]
    simpa using newline_not_mem_separated '\x7d' (by decide) hfield
  | reference h => exact h

end Literal

namespace Temporaries

theorem newline_not_mem_numbered {name : List Char} (hname : '\n' ∉ name) (n : Nat) :
    '\n' ∉ name ++ Json.natText n := by
  have hdigit : ∀ c : Char, c.isDigit → c ≠ '\n' := by
    rintro c hc rfl
    exact absurd hc (by decide)
  exact fun h =>
    forall_mem_numbered (fun _ hc => ne_of_mem_of_not_mem hc hname) hdigit n '\n' h rfl

theorem newline_not_mem_left (t : Temporaries) : '\n' ∉ t.left.toList := by
  rw [left_toList]
  exact newline_not_mem_numbered (by decide) t.index

theorem newline_not_mem_right (t : Temporaries) : '\n' ∉ t.right.toList := by
  rw [right_toList]
  exact newline_not_mem_numbered (by decide) t.index

end Temporaries

namespace Descriptor

/-- The literal of a descriptor is one line, whatever its texts are. -/
theorem Operates.newline_not_mem_toLiteral {d : Descriptor} (h : d.Operates) (t : Temporaries) :
    '\n' ∉ (d.toLiteral t).chars := by
  refine Literal.newline_not_mem_chars <|
    everyReference_toLiteral t.newline_not_mem_left t.newline_not_mem_right fun c hc => ?_
  obtain ⟨op, hop⟩ := h c hc
  rw [hop]
  simp [Temporaries.comparison, t.newline_not_mem_left, t.newline_not_mem_right,
    op.newline_not_mem_text]

end Descriptor

/-! ### Printed operands and messages -/

namespace Assertion

/-- Everything printed of an assertion is one line: its operands and its message. -/
structure OneLine (a : Assertion) : Prop where
  codes : ∀ code ∈ a.codes, '\n' ∉ code.toList
  message : ∀ m ∈ a.message, '\n' ∉ m.toList

theorem oneLine_of_parse {parser : ModuleParser} (hparser : parser.NamesInLine)
    {statement : List Char} {a : Assertion} (h : parse parser statement = .ok a)
    (hstatement : '\n' ∉ statement) : a.OneLine := by
  obtain ⟨extent, callee, first, message, hread, rfl⟩ := parse_ok h
  have hnamed : Printer.NamedInLine (parser.nodes statement) := hparser statement
  rw [ModuleParser.nodes_of_read hread, Expr.nodes, Printer.namedInLine_cons,
    Printer.namedInLine_append, Argument.allNodes,
    Printer.namedInLine_append, Argument.nodes] at hnamed
  -- the callee is not printed
  obtain ⟨-, -, hfirst, hrest⟩ := hnamed
  have hprint {e : Expr} (he : Printer.NamedInLine e.nodes) :
      '\n' ∉ (String.ofList (Printer.print ⟨statement, parser.fileStart⟩ e)).toList := by
    rw [String.toList_ofList]
    exact Printer.newline_not_mem_print hstatement he
  refine ⟨?_, ?_⟩
  · rw [codes_ofExpressions]
    intro code hcode
    obtain ⟨e, he, rfl⟩ := List.mem_map.mp hcode
    exact hprint fun n hn => hfirst n (mem_nodes_of_mem_operandExprs he hn)
  · rw [message_ofExpressions]
    intro m hm
    obtain ⟨e, rfl, rfl⟩ := Option.map_eq_some_iff.mp (Option.mem_def.mp hm)
    simp only [Option.toList_some, List.map_cons, List.map_nil, Argument.allNodes, Argument.nodes,
      List.append_nil] at hrest
    exact hprint hrest

end Assertion

/-! ### Replacements -/

theorem Scan.newline_not_mem_text {callee s : List Char} {m : Scan.Match}
    (h : m ∈ Scan.statements callee s) (hcallee : '\n' ∉ callee) : '\n' ∉ m.text := by
  obtain ⟨args, closing, hargs, hclosing, htext⟩ := Scan.form_of_mem_statements h
  rw [htext]
  simp [hcallee, hargs, hclosing.newline_not_mem]

namespace Descriptor

/-- The newlines in the code of a descriptor: one behind each constant. -/
def lineBreaks (d : Descriptor) : Nat := if d.assertion.comparison.isSome then 2 else 1

theorem lineBreaks_eq (d : Descriptor) : d.lineBreaks =
    (if d.assertion.comparison.isNone then 1 else 0) +
      2 * if d.assertion.comparison.isSome then 1 else 0 := by
  unfold lineBreaks
  cases d.assertion.comparison <;> rfl

theorem count_replacement {d : Descriptor} (hop : d.Operates) (hline : d.assertion.OneLine)
    {callee : String} (hcallee : '\n' ∉ callee.toList) (t : Temporaries) :
    (d.replacement callee t).toList.count '\n' = d.lineBreaks := by
  have hleft : '\n' ∉ d.assertion.left.code.toList := hline.codes _ List.mem_cons_self
  have hmessage : d.messageText.count '\n' = 0 := by
    unfold messageText
    cases hm : d.assertion.message with
    | none => rfl
    | some m => simpa [List.count_eq_zero] using hline.message m hm
  have hright : (d.rightText t).count '\n' + 1 = d.lineBreaks := by
    unfold rightText lineBreaks
    cases hc : d.assertion.comparison with
    | none => rfl
    | some c =>
      have hcode : '\n' ∉ c.right.code.toList :=
        hline.codes _ (List.mem_cons_of_mem _ (by simp [hc]))
      simp [List.count_eq_zero_of_not_mem, t.newline_not_mem_right, hcode]
  rw [replacement_toList, ← hright]
  simp [List.count_eq_zero_of_not_mem, t.newline_not_mem_left, hleft, hcallee, hmessage,
    hop.newline_not_mem_toLiteral t]

end Descriptor

namespace Instrument

/-- With every statement that is replaced the newlines of its code come to those of the script. -/
theorem exists_code_of_lines {callee : String} (hcallee : '\n' ∉ callee.toList) {byte : Nat}
    {s : List Char} {found : List (Scan.Match × Descriptor)} (index : Nat)
    (h : Scan.Located byte s (found.map (·.1)))
    (hfound : ∀ k ∈ found, '\n' ∉ k.1.text ∧ k.2.Operates ∧ k.2.assertion.OneLine) :
    ∃ code, Edit.Spliced byte s (edits callee index found) code ∧
      code.count '\n' = s.count '\n' + found.countP (·.2.assertion.comparison.isNone) +
        2 * found.countP (·.2.assertion.comparison.isSome) := by
  induction found generalizing byte s index with
  | nil => exact ⟨s, .nil byte s, by simp⟩
  | cons k found ih =>
    obtain ⟨m, d⟩ := k
    cases h with
    | cons gap rest start after =>
      obtain ⟨htext, hop, hline⟩ := hfound (m, d) List.mem_cons_self
      obtain ⟨code, hcode, hcount⟩ := ih (index + 1) after fun k hk =>
        hfound k (List.mem_cons_of_mem _ hk)
      have hreplacement := d.count_replacement hop hline hcallee ⟨index⟩
      have htext : m.text.count '\n' = 0 := List.count_eq_zero_of_not_mem htext
      refine ⟨_, .cons gap m.text rest start rfl hcode, ?_⟩
      simp only [List.count_append, hreplacement, hcount, htext, List.countP_cons, d.lineBreaks_eq]
      omega

/-- A statement is one line, and so is what is printed of it. -/
theorem oneLine_of_mem_assertions {parser : ModuleParser} (hparser : parser.NamesInLine)
    {callee : String} {source : List Char} {file : String}
    (hcallee : '\n' ∉ callee.toList) {k : Scan.Match × Descriptor}
    (hk : k ∈ assertions parser callee source file) :
    '\n' ∉ k.1.text ∧ k.2.Operates ∧ k.2.assertion.OneLine := by
  obtain ⟨m', hm', hd⟩ := List.mem_filterMap.mp hk
  split at hd
  next d hdescribe =>
    cases hd
    obtain ⟨-, -, hparse⟩ := describe_ok hdescribe
    have htext := Scan.newline_not_mem_text hm' hcallee
    exact ⟨htext, operates_of_parse hparse, Assertion.oneLine_of_parse hparser hparse htext⟩
  next => cases hd

/-- An instrumented script has one line more than its source for every assertion that is replaced,
and another one if it is a comparison: no operand, message or descriptor is printed with a newline,
whatever the script and its path hold. -/
theorem newlines_instrument {parser : ModuleParser} (hparser : parser.NamesInLine)
    {callee : String} {source : List Char} {file : String} {r : Instrumented}
    (hcallee : '\n' ∉ callee.toList) (h : instrument parser callee source file = .ok (some r)) :
    Edit.Spliced 0 source (edits callee 1 (assertions parser callee source file)) r.code ∧
      r.code.count '\n' = source.count '\n' +
        (assertions parser callee source file).countP (·.2.assertion.comparison.isNone) +
        2 * (assertions parser callee source file).countP (·.2.assertion.comparison.isSome) ∧
      ∀ k ∈ assertions parser callee source file, k.2.assertion.OneLine ∧
        ∀ t, '\n' ∉ (k.2.toLiteral t).print.toList := by
  have hspliced := code_spliced h
  have hlines : ∀ k ∈ assertions parser callee source file,
      '\n' ∉ k.1.text ∧ k.2.Operates ∧ k.2.assertion.OneLine := fun k hk =>
    oneLine_of_mem_assertions hparser hcallee hk
  obtain ⟨code, hcode, hcount⟩ :=
    exists_code_of_lines hcallee 1 (located_assertions parser callee source file) hlines
  have heq : r.code = code := (Edit.apply_spliced hspliced).symm.trans (Edit.apply_spliced hcode)
  refine ⟨hspliced, ?_, fun k hk => ⟨(hlines k hk).2.2, fun t => ?_⟩⟩
  · rw [heq, hcount]
  · rw [Literal.print, String.toList_ofList]
    exact (hlines k hk).2.1.newline_not_mem_toLiteral t

/-- The statements of `twoAssertions` and nothing else. -/
def twoStatements : ModuleParser :=
  Grammar.parser.only ["t.assert(a === b, 'm');".toList, "t.assert(c);".toList]

/-- A path of two lines, a comparison with a message and an assertion without either. -/
theorem newlines_instrument_brokenPath :
    twoStatements.NamesInLine ∧ '\n' ∉ "t.assert".toList ∧
      ∃ r, instrument twoStatements "t.assert" twoAssertions "a\nb.js" = .ok (some r) ∧
        r.code.count '\n' = 5 ∧
        ∀ k ∈ assertions twoStatements "t.assert" twoAssertions "a\nb.js", k.2.file = "a\nb.js" ∧
          k.2.assertion.OneLine ∧ ∀ t, '\n' ∉ (k.2.toLiteral t).print.toList := by
  have hnames : twoStatements.NamesInLine := ModuleParser.forall_nodes_only (by decide +kernel)
  have hcallee : '\n' ∉ "t.assert".toList := by decide
  obtain ⟨r, hr, -⟩ := exists_instrumented twoStatements "t.assert" twoAssertions "a\nb.js"
    (fun _ => true) (by decide +kernel)
  obtain ⟨-, hcount, hlines⟩ := newlines_instrument hnames hcallee hr
  have hkinds : twoAssertions.count '\n' = 2 ∧
      (assertions twoStatements "t.assert" twoAssertions "a\nb.js").countP
        (·.2.assertion.comparison.isNone) = 1 ∧
      (assertions twoStatements "t.assert" twoAssertions "a\nb.js").countP
        (·.2.assertion.comparison.isSome) = 1 := by
    decide +kernel
  have hfile : ∀ k ∈ assertions twoStatements "t.assert" twoAssertions "a\nb.js",
      k.2.file = "a\nb.js" := fun k hk => (described_spec hk).2.2.1
  rw [hkinds.1, hkinds.2.1, hkinds.2.2] at hcount
  exact ⟨hnames, hcallee, r, hr, hcount, fun k hk => ⟨hfile k hk, hlines k hk⟩⟩

end Instrument

end Assay
