import Assay.Coverage.Trace
import Assay.Proofs.Text.Decimal
import Mathlib.Data.List.TakeWhile

/-!
# Lines of a remapped trace

Remapping goes line by line. `remap_by_lines` says which lines it changes and what they become:
those whose last group in parentheses ends in a place that the map resolves.
-/

namespace Assay.Trace

/-! ### The last group of a line -/

section

variable {c : Char} {s before after : List Char}

theorem ne_of_mem_reverse (h : c ∉ s) : ∀ d ∈ s.reverse, decide (d ≠ c) = true := by
  intro d hd
  rw [decide_eq_true_iff]
  rintro rfl
  exact h (List.mem_reverse.mp hd)

theorem splitLast?_append (h : c ∉ after) :
    splitLast? c (before ++ c :: after) = some (before, after) := by
  have hstop : (c :: before.reverse).takeWhile (· ≠ c) = [] := by
    apply List.takeWhile_cons_of_neg
    simp
  rw [splitLast?, List.reverse_append, List.reverse_cons, List.append_assoc, List.singleton_append,
    List.takeWhile_append_of_pos (ne_of_mem_reverse h), hstop, List.append_nil, List.drop_left]
  simp only [List.reverse_reverse]

theorem splitLast?_of_not_mem (h : c ∉ s) : splitLast? c s = none := by
  have hall := List.takeWhile_eq_self_iff.mpr (ne_of_mem_reverse h)
  rw [splitLast?, hall, List.drop_length]

theorem splitLast?_eq_some :
    splitLast? c s = some (before, after) ↔ s = before ++ c :: after ∧ c ∉ after := by
  constructor
  · intro h
    by_cases hc : c ∈ s
    · -- the last place of a character is its first one from behind
      obtain ⟨back, front, hs, hback⟩ := List.eq_append_cons_of_mem (List.mem_reverse.mpr hc)
      have hs : s = front.reverse ++ c :: back.reverse := by
        rw [← List.reverse_reverse s, hs, List.reverse_append, List.reverse_cons,
          List.append_assoc, List.singleton_append]
      have hback : c ∉ back.reverse := fun hmem => hback (List.mem_reverse.mp hmem)
      rw [hs, splitLast?_append hback] at h
      obtain ⟨rfl, rfl⟩ := Prod.mk.inj (Option.some.inj h)
      exact ⟨hs, hback⟩
    · rw [splitLast?_of_not_mem hc] at h
      cases h
  · rintro ⟨rfl, hafter⟩
    exact splitLast?_append hafter

end

variable {line before group : List Char}

theorem lastGroup?_eq_some : lastGroup? line = some (before, group) ↔
    line = before ++ '(' :: group ++ [')'] ∧ '(' ∉ group := by
  rw [lastGroup?]
  constructor
  · intro h
    split at h
    next hlast =>
      obtain ⟨hline, hgroup⟩ := splitLast?_eq_some.mp h
      refine ⟨?_, hgroup⟩
      obtain ⟨front, rfl⟩ := List.getLast?_eq_some_iff.mp hlast
      rw [List.dropLast_concat] at hline
      rw [hline]
    next => cases h
  · rintro ⟨rfl, hgroup⟩
    rw [List.getLast?_concat, if_pos rfl, List.dropLast_concat]
    exact splitLast?_append hgroup

theorem Reference.ofText?_eq_some {r : Reference} : Reference.ofText? group = some r ↔
    group = r.path ++ ':' :: r.line ++ ':' :: r.column ∧ ':' ∉ r.line ∧ ':' ∉ r.column := by
  constructor
  · intro h
    obtain ⟨⟨rest, column⟩, hcolumn, h⟩ := Option.bind_eq_some_iff.mp h
    obtain ⟨⟨path, line⟩, hline, h⟩ := Option.bind_eq_some_iff.mp h
    obtain rfl := Option.some.inj h
    obtain ⟨hgroup, hcolumn⟩ := splitLast?_eq_some.mp hcolumn
    obtain ⟨hrest, hline⟩ := splitLast?_eq_some.mp hline
    exact ⟨by rw [hgroup, hrest], hline, hcolumn⟩
  · rintro ⟨rfl, hline, hcolumn⟩
    simp only [Reference.ofText?, splitLast?_append hcolumn, splitLast?_append hline,
      Option.bind_eq_bind, Option.bind_some, Option.pure_def]

/-! ### The place that a line refers to -/

/-- The last group in parentheses of a line, at its end, is a path, a line and a column, and the
first token at or after that place comes from a source of the map. -/
structure Refers (map : SourceMap) (text before : List Char) (r : Reference) (place : Position)
    (found : SourcePosition) (source : String) : Prop where
  text : text = before ++ '(' :: (r.path ++ ':' :: r.line ++ ':' :: r.column) ++ [')']
  group : '(' ∉ r.path ++ ':' :: r.line ++ ':' :: r.column
  line : ':' ∉ r.line ∧ Text.IsWord r.line place.line
  column : ':' ∉ r.column ∧ Text.IsWord r.column place.column
  resolved : (LookupSession.ofMap map).sourcePosition? place .following = some found
  listed : map.sources[found.source]? = some source

def placeText (source : String) (p : Position) : List Char :=
  source.toList ++ ':' :: Nat.toDigits 10 p.line ++ ':' :: Nat.toDigits 10 p.column

theorem remapLine_of_resolve? {session : LookupSession} {source : String} {p : Position}
    (hgroup : lastGroup? line = some (before, group))
    (hresolve : resolve? session group = some (source, p)) :
    remapLine session line = before ++ '(' :: placeText source p ++ [')'] := by
  simp only [remapLine, hgroup, hresolve, placeText, List.append_assoc, List.cons_append]

theorem resolve?_eq_some {map : SourceMap} {source : String} {p : Position} :
    resolve? (.ofMap map) group = some (source, p) ↔
      ∃ r place found, Reference.ofText? group = some r ∧ Text.IsWord r.line place.line ∧
        Text.IsWord r.column place.column ∧
        (LookupSession.ofMap map).sourcePosition? place .following = some found ∧
        map.sources[found.source]? = some source ∧ found.position = p := by
  constructor
  · intro h
    obtain ⟨r, hr, h⟩ := Option.bind_eq_some_iff.mp h
    obtain ⟨n, hn, h⟩ := Option.bind_eq_some_iff.mp h
    obtain ⟨k, hk, h⟩ := Option.bind_eq_some_iff.mp h
    obtain ⟨found, hfound, h⟩ := Option.bind_eq_some_iff.mp h
    obtain ⟨path, hpath, h⟩ := Option.bind_eq_some_iff.mp h
    obtain ⟨rfl, rfl⟩ := Prod.mk.inj (Option.some.inj h)
    exact ⟨r, ⟨n, k⟩, found, hr, Text.word?_eq_some.mp hn, Text.word?_eq_some.mp hk, hfound, hpath,
      rfl⟩
  · rintro ⟨r, ⟨n, k⟩, found, hr, hn, hk, hfound, hpath, rfl⟩
    simp only [resolve?, hr, Text.word?_eq_some.mpr hn, Text.word?_eq_some.mpr hk, hfound,
      Option.bind_eq_bind, Option.bind_some]
    rw [show (LookupSession.ofMap map).map.source? found.source = some source from hpath]
    rfl

/-- A line stays as it is, or its last group is resolved and replaced. -/
theorem remapLine_cases (map : SourceMap) (line : List Char) :
    remapLine (.ofMap map) line = line ∨
      ∃ before group source p, lastGroup? line = some (before, group) ∧
        resolve? (.ofMap map) group = some (source, p) ∧
        remapLine (.ofMap map) line = before ++ '(' :: placeText source p ++ [')'] := by
  cases hgroup : lastGroup? line with
  | none =>
    left
    simp only [remapLine, hgroup]
  | some parts =>
    obtain ⟨before, group⟩ := parts
    cases hresolve : resolve? (.ofMap map) group with
    | none =>
      left
      simp only [remapLine, hgroup, hresolve]
    | some answer =>
      obtain ⟨source, p⟩ := answer
      right
      exact ⟨before, group, source, p, rfl, hresolve, remapLine_of_resolve? hgroup hresolve⟩

theorem remapLine_of_refers {map : SourceMap} {r : Reference} {place : Position}
    {found : SourcePosition} {source : String} (h : Refers map line before r place found source) :
    remapLine (.ofMap map) line = before ++ '(' :: placeText source found.position ++ [')'] := by
  have hgroup := lastGroup?_eq_some.mpr ⟨h.text, h.group⟩
  have href := Reference.ofText?_eq_some.mpr ⟨rfl, h.line.1, h.column.1⟩
  have hresolve := resolve?_eq_some.mpr
    ⟨r, place, found, href, h.line.2, h.column.2, h.resolved, h.listed, rfl⟩
  exact remapLine_of_resolve? hgroup hresolve

theorem remapLine_of_not_refers {map : SourceMap}
    (h : ∀ before r place found source, ¬ Refers map line before r place found source) :
    remapLine (.ofMap map) line = line := by
  obtain hsame | ⟨before, group, source, p, hgroup, hresolve, -⟩ := remapLine_cases map line
  · exact hsame
  · obtain ⟨rfl, hopen⟩ := lastGroup?_eq_some.mp hgroup
    obtain ⟨r, place, found, hr, hline, hcolumn, hfound, hsource, -⟩ := resolve?_eq_some.mp hresolve
    obtain ⟨rfl, hline', hcolumn'⟩ := Reference.ofText?_eq_some.mp hr
    exact absurd ⟨rfl, hopen, ⟨hline', hline⟩, ⟨hcolumn', hcolumn⟩, hfound, hsource⟩
      (h before r place found source)

/-! ### Whole traces -/

theorem remap_append (session : LookupSession) (a b : List Char) :
    remap session (a ++ '\n' :: b) = remap session a ++ '\n' :: remap session b := by
  rw [remap, Text.lines_append, List.map_append]
  apply Text.unlines_append
  · exact mt List.map_eq_nil_iff.mp (Text.lines_ne_nil a)
  · exact mt List.map_eq_nil_iff.mp (Text.lines_ne_nil b)

theorem remap_line (session : LookupSession) (h : '\n' ∉ line) :
    remap session line = remapLine session line := by
  rw [remap, Text.lines_of_not_mem h]
  rfl

/-- A trace is remapped by its lines. A line that refers to a place of a source gets that place for
its last group and keeps all in front of it, and any other line stays as it is. -/
theorem remap_by_lines (map : SourceMap) :
    (∀ a b, remap (.ofMap map) (a ++ '\n' :: b) =
      remap (.ofMap map) a ++ '\n' :: remap (.ofMap map) b) ∧
    ∀ line, '\n' ∉ line →
      (∀ before r place found source, Refers map line before r place found source →
        remap (.ofMap map) line =
          before ++ '(' :: (source.toList ++ ':' :: Nat.toDigits 10 found.line ++
            ':' :: Nat.toDigits 10 found.column) ++ [')']) ∧
      ((∀ before r place found source, ¬ Refers map line before r place found source) →
        remap (.ofMap map) line = line) := by
  refine ⟨remap_append _, fun line hline => ?_⟩
  rw [remap_line _ hline]
  exact ⟨fun _ _ _ _ _ h => remapLine_of_refers h, remapLine_of_not_refers⟩

/-- A token behind column 1 of line 3 and one at the start of line 7. -/
def bundleMap : SourceMap :=
  ⟨["src/a.js", "src/b.js"], ["a\n", "b\n"], [],
    [⟨⟨3, 4⟩, some ⟨0, 10, 2, none⟩⟩, ⟨⟨7, 0⟩, some ⟨1, 1, 0, none⟩⟩]⟩

theorem remap_by_lines_bundle :
    '\n' ∉ "    at check (http://localhost/bundle.js:3:+1)".toList ∧
      remap (.ofMap bundleMap) ("    at check (http://localhost/bundle.js:3:+1)".toList ++
          '\n' :: "    at http://localhost/bundle.js:3:1".toList) =
        "    at check (src/a.js:10:2)\n    at http://localhost/bundle.js:3:1".toList := by
  have hcheck : '\n' ∉ "    at check (http://localhost/bundle.js:3:+1)".toList := by decide
  have hplain : '\n' ∉ "    at http://localhost/bundle.js:3:1".toList := by decide
  have hrefers : Refers bundleMap "    at check (http://localhost/bundle.js:3:+1)".toList
      "    at check ".toList ⟨"http://localhost/bundle.js".toList, ['3'], ['+', '1']⟩ ⟨3, 1⟩
      ⟨0, 10, 2⟩ "src/a.js" := by
    have hthree : Text.IsWord ['3'] 3 :=
      ⟨['3'], Or.inl rfl, by decide, List.forall_mem_singleton.mpr rfl, rfl, by decide⟩
    have hone : Text.IsWord ['+', '1'] 1 :=
      ⟨['1'], Or.inr rfl, by decide, List.forall_mem_singleton.mpr rfl, rfl, by decide⟩
    exact ⟨rfl, by decide, ⟨by decide, hthree⟩, ⟨by decide, hone⟩, by decide, rfl⟩
  obtain ⟨happend, hlines⟩ := remap_by_lines bundleMap
  refine ⟨hcheck, ?_⟩
  rw [happend, (hlines _ hcheck).1 _ _ _ _ _ hrefers, (hlines _ hplain).2]
  · rfl
  · intro before r place found source h
    have hlast := congrArg List.getLast? h.text
    rw [List.getLast?_concat] at hlast
    exact absurd hlast (by decide)

end Assay.Trace
