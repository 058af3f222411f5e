import Assay.Assertion.Mask
import Mathlib.Data.List.Basic
import Mathlib.Data.List.TakeWhile

/-!
# Whole comments and literals

What is masked is described by the text itself: a comment goes up to its first end, a literal up to
its first closing quote that is not escaped. `complete_of_takePiece` says that a masked piece is
such a text, and `takePiece_of_complete` that such a text is taken as one piece.
-/

namespace Assay.Mask

/-! ### Literals -/

/-- Whether what follows a text is escaped: an odd number of backslashes ends the text. -/
def isEscaped (s : List Char) : Bool := (s.reverse.takeWhile (· == '\\')).length % 2 == 1

/-- Characters in front whose own backslashes come in pairs do not matter. -/
theorem isEscaped_append (front : List Char)
    (h : (front.reverse.takeWhile (· == '\\')).length % 2 = 0) (s : List Char) :
    isEscaped (front ++ s) = isEscaped s := by
  have hparity : ((front ++ s).reverse.takeWhile (· == '\\')).length % 2 =
      (s.reverse.takeWhile (· == '\\')).length % 2 := by
    rw [List.reverse_append, List.takeWhile_append]
    split
    next hall => rw [List.length_append, hall, Nat.add_mod, h, Nat.add_zero, Nat.mod_mod]
    next => rfl
  rw [isEscaped, isEscaped, hparity]

theorem isEscaped_cons {c : Char} (h : c ≠ '\\') (s : List Char) :
    isEscaped (c :: s) = isEscaped s :=
  isEscaped_append [c] (by simp [h]) s

theorem isEscaped_pair (c : Char) (s : List Char) : isEscaped ('\\' :: c :: s) = isEscaped s :=
  isEscaped_append ['\\', c] (by by_cases h : c = '\\' <;> simp [h]) s

/-- A character is escaped wherever it stands in a text. -/
def Escaped (c : Char) (body : List Char) : Prop :=
  ∀ before after, body = before ++ c :: after → isEscaped before

theorem escaped_nil (c : Char) : Escaped c [] := by
  intro before after h
  simp at h

theorem escaped_pair {c d : Char} {body : List Char} (hc : c ≠ '\\') :
    Escaped c ('\\' :: d :: body) ↔ Escaped c body := by
  constructor
  · intro h before after hbody
    rw [← isEscaped_pair d]
    exact h ('\\' :: d :: before) after (by rw [hbody]; rfl)
  · rintro h (_ | ⟨a, _ | ⟨b, before⟩⟩) after hbody
    · exact absurd (List.cons.inj hbody).1.symm hc
    · obtain ⟨rfl, -⟩ := List.cons.inj hbody
      rfl
    · simp only [List.cons_append, List.cons.injEq] at hbody
      obtain ⟨rfl, rfl, hbody⟩ := hbody
      rw [isEscaped_pair]
      exact h before after hbody

theorem escaped_cons {c d : Char} {body : List Char} (hd : d ≠ '\\') :
    Escaped c (d :: body) ↔ d ≠ c ∧ Escaped c body := by
  constructor
  · refine fun h => ⟨?_, fun before after hbody => ?_⟩
    · rintro rfl
      cases h [] body rfl
    · rw [← isEscaped_cons hd]
      exact h (d :: before) after (by rw [hbody]; rfl)
  · rintro ⟨hne, h⟩ (_ | ⟨a, before⟩) after hbody
    · exact absurd (List.cons.inj hbody).1 hne
    · simp only [List.cons_append, List.cons.injEq] at hbody
      obtain ⟨rfl, hbody⟩ := hbody
      rw [isEscaped_cons hd]
      exact h before after hbody

/-- What stands between an opening quote and the first closing one: each quote of the kind in it is
escaped, and so is each newline, but in a template. The closing one is not. -/
structure Inside (quote : Char) (body : List Char) : Prop where
  quotes : Escaped quote body
  newlines : quote ≠ '\x60' → Escaped '\n' body
  closed : isEscaped body = false

section

variable {quote c : Char} {body s text rest : List Char}

theorem inside_nil : Inside quote [] := ⟨escaped_nil _, fun _ => escaped_nil _, rfl⟩

theorem inside_pair (hquote : quote ≠ '\\') :
    Inside quote ('\\' :: c :: body) ↔ Inside quote body := by
  have hnewlines : Escaped '\n' ('\\' :: c :: body) ↔ Escaped '\n' body := escaped_pair (by decide)
  constructor
  · rintro ⟨quotes, newlines, closed⟩
    exact ⟨(escaped_pair hquote).mp quotes, fun h => hnewlines.mp (newlines h),
      isEscaped_pair c body ▸ closed⟩
  · rintro ⟨quotes, newlines, closed⟩
    exact ⟨(escaped_pair hquote).mpr quotes, fun h => hnewlines.mpr (newlines h),
      (isEscaped_pair c body).trans closed⟩

theorem inside_cons (hc : c ≠ '\\') : Inside quote (c :: body) ↔
    c ≠ quote ∧ (quote ≠ '\x60' → c ≠ '\n') ∧ Inside quote body := by
  constructor
  · rintro ⟨quotes, newlines, closed⟩
    exact ⟨((escaped_cons hc).mp quotes).1, fun h => ((escaped_cons hc).mp (newlines h)).1,
      ((escaped_cons hc).mp quotes).2, fun h => ((escaped_cons hc).mp (newlines h)).2,
      isEscaped_cons hc body ▸ closed⟩
  · rintro ⟨hquote, hnewline, ⟨quotes, newlines, closed⟩⟩
    exact ⟨(escaped_cons hc).mpr ⟨hquote, quotes⟩,
      fun h => (escaped_cons hc).mpr ⟨hnewline h, newlines h⟩,
      (isEscaped_cons hc body).trans closed⟩

/-- A text is a literal after its opening quote. -/
def Closes (quote : Char) (text : List Char) : Prop :=
  ∃ body, Inside quote body ∧ text = body ++ [quote]

theorem Closes.ne_nil (h : Closes quote text) : text ≠ [] := by
  obtain ⟨body, -, rfl⟩ := h
  simp

theorem closes_pair (hquote : quote ≠ '\\') :
    Closes quote ('\\' :: c :: text) ↔ Closes quote text := by
  constructor
  · rintro ⟨_ | ⟨d, _ | ⟨e, body⟩⟩, hbody, htext⟩
    · exact absurd (List.cons.inj htext).1.symm hquote
    · -- a single backslash would escape the closing quote
      obtain ⟨rfl, -⟩ := List.cons.inj htext
      cases hbody.closed
    · simp only [List.cons_append, List.cons.injEq] at htext
      obtain ⟨rfl, rfl, rfl⟩ := htext
      exact ⟨body, (inside_pair hquote).mp hbody, rfl⟩
  · rintro ⟨body, hbody, rfl⟩
    exact ⟨'\\' :: c :: body, (inside_pair hquote).mpr hbody, rfl⟩

theorem not_closes_backslash (hquote : quote ≠ '\\') : ¬ Closes quote ['\\'] := by
  rintro ⟨_ | ⟨d, body⟩, -, htext⟩
  · exact hquote (List.cons.inj htext).1.symm
  · simp at htext

theorem closes_cons (hc : c ≠ '\\') : Closes quote (c :: text) ↔
    (c = quote ∧ text = []) ∨
      (c ≠ quote ∧ (quote ≠ '\x60' → c ≠ '\n') ∧ Closes quote text) := by
  constructor
  · rintro ⟨_ | ⟨d, body⟩, hbody, htext⟩
    · exact Or.inl (by simpa using htext)
    · simp only [List.cons_append, List.cons.injEq] at htext
      obtain ⟨rfl, rfl⟩ := htext
      obtain ⟨hquote, hnewline, hbody⟩ := (inside_cons hc).mp hbody
      exact Or.inr ⟨hquote, hnewline, body, hbody, rfl⟩
  · rintro (⟨rfl, rfl⟩ | ⟨hquote, hnewline, body, hbody, rfl⟩)
    · exact ⟨[], inside_nil, rfl⟩
    · exact ⟨c :: body, (inside_cons hc).mpr ⟨hquote, hnewline, hbody⟩, rfl⟩

theorem closes_append_pair (hquote : quote ≠ '\\') :
    Closes quote text ∧ '\\' :: c :: s = text ++ rest ↔
      ∃ later, '\\' :: c :: later = text ∧ Closes quote later ∧ s = later ++ rest := by
  constructor
  · rintro ⟨hcloses, hs⟩
    match text, hcloses with
    | [], h => exact absurd rfl h.ne_nil
    | [d], h =>
      obtain ⟨rfl, -⟩ := List.cons.inj hs
      exact absurd h (not_closes_backslash hquote)
    | d :: e :: later, h =>
      simp only [List.cons_append, List.cons.injEq] at hs
      obtain ⟨rfl, rfl, rfl⟩ := hs
      exact ⟨later, rfl, (closes_pair hquote).mp h, rfl⟩
  · rintro ⟨later, rfl, hlater, rfl⟩
    exact ⟨(closes_pair hquote).mpr hlater, rfl⟩

theorem closes_append_cons (hc : c ≠ '\\') :
    Closes quote text ∧ c :: s = text ++ rest ↔
      (c = quote ∧ [c] = text ∧ s = rest) ∨
        (c ≠ quote ∧ (quote ≠ '\x60' → c ≠ '\n') ∧
          ∃ later, c :: later = text ∧ Closes quote later ∧ s = later ++ rest) := by
  constructor
  · rintro ⟨hcloses, hs⟩
    obtain ⟨d, later, rfl⟩ := List.exists_cons_of_ne_nil hcloses.ne_nil
    obtain ⟨rfl, rfl⟩ := List.cons.inj hs
    rcases (closes_cons hc).mp hcloses with ⟨hquote, rfl⟩ | ⟨hquote, hnewline, hlater⟩
    · exact Or.inl ⟨hquote, rfl, rfl⟩
    · exact Or.inr ⟨hquote, hnewline, later, rfl, hlater, rfl⟩
  · rintro (⟨hquote, rfl, rfl⟩ | ⟨hquote, hnewline, later, rfl, hlater, rfl⟩)
    · exact ⟨(closes_cons hc).mpr (Or.inl ⟨hquote, rfl⟩), rfl⟩
    · exact ⟨(closes_cons hc).mpr (Or.inr ⟨hquote, hnewline, hlater⟩), rfl⟩

/-- A quote is closed where the first closing quote stands, and only there. -/
theorem takeQuoted_eq_closed_iff (hquote : quote ≠ '\\') :
    takeQuoted quote s = (true, text, rest) ↔ Closes quote text ∧ s = text ++ rest := by
  fun_induction takeQuoted quote s generalizing text rest with
  | case1 => simpa using fun h htext => absurd htext (Closes.ne_nil h)
  | case2 c r closed taken left htake ih =>
    simp only [closes_append_pair hquote, ← ih, htake, Prod.mk.injEq]
    grind
  | case3 r =>
    simp only [closes_append_cons hquote, Prod.mk.injEq]
    grind
  | case4 c r _ hne hnewline =>
    rw [closes_append_cons (hnewline.1 ▸ by decide)]
    grind
  | case5 c r hpair hne hnewline closed taken left htake ih =>
    by_cases hc : c = '\\'
    · -- a backslash at the end of the text escapes nothing
      obtain rfl : r = [] := List.eq_nil_iff_forall_not_mem.mpr fun d hd => by
        obtain ⟨e, r, rfl⟩ := List.exists_cons_of_ne_nil (List.ne_nil_of_mem hd)
        exact hpair e r hc rfl
      cases htake
      simp only [Prod.mk.injEq, Bool.false_eq_true, false_and, false_iff]
      rintro ⟨hcloses, hs⟩
      obtain ⟨d, later, rfl⟩ := List.exists_cons_of_ne_nil hcloses.ne_nil
      simp only [List.cons_append, List.cons.injEq, List.nil_eq, List.append_eq_nil_iff] at hs
      obtain ⟨rfl, rfl, -⟩ := hs
      exact not_closes_backslash hquote (hc ▸ hcloses)
    · simp only [closes_append_cons hc, ← ih, htake, Prod.mk.injEq]
      grind

end

/-! ### Comments -/

/-- A text is a block comment after its opener: it ends with the first closer. -/
structure ClosesBlock (text : List Char) : Prop where
  closed : ∃ body, text = body ++ ['*', '/']
  first : ∀ before after, text = before ++ '*' :: '/' :: after → after = []

section

variable {c : Char} {s text rest : List Char}

theorem ClosesBlock.ne_nil (h : ClosesBlock text) : text ≠ [] := by
  obtain ⟨body, rfl⟩ := h.closed
  simp

theorem closesBlock_closer : ClosesBlock ['*', '/'] where
  closed := ⟨[], rfl⟩
  first before after h := by
    have hlength := congrArg List.length h
    simp only [List.length_append, List.length_cons, List.length_nil] at hlength
    exact List.eq_nil_of_length_eq_zero (by omega)

theorem closesBlock_cons (hc : c = '*' → text.head? ≠ some '/') :
    ClosesBlock (c :: text) ↔ ClosesBlock text := by
  constructor
  · rintro ⟨⟨body, hbody⟩, first⟩
    refine ⟨?_, fun before after h => first (c :: before) after (by rw [h]; rfl)⟩
    cases body with
    | nil =>
      obtain ⟨rfl, rfl⟩ := List.cons.inj hbody
      exact absurd rfl (hc rfl)
    | cons d body => exact ⟨body, (List.cons.inj hbody).2⟩
  · rintro ⟨⟨body, hbody⟩, first⟩
    refine ⟨⟨c :: body, by rw [hbody]; rfl⟩, fun before after h => ?_⟩
    cases before with
    | nil =>
      obtain ⟨rfl, rfl⟩ := List.cons.inj h
      exact absurd rfl (hc rfl)
    | cons d before => exact first before after (List.cons.inj h).2

theorem closesBlock_append_closer :
    ClosesBlock text ∧ '*' :: '/' :: s = text ++ rest ↔ ['*', '/'] = text ∧ s = rest := by
  constructor
  · rintro ⟨hcloses, hs⟩
    match text, hcloses with
    | [], h => exact absurd rfl h.ne_nil
    | [d], h =>
      obtain ⟨body, hbody⟩ := h.closed
      simpa using congrArg List.length hbody
    | d :: e :: later, h =>
      simp only [List.cons_append, List.cons.injEq] at hs
      obtain ⟨rfl, rfl, rfl⟩ := hs
      obtain rfl := h.first [] later rfl
      exact ⟨rfl, rfl⟩
  · rintro ⟨rfl, rfl⟩
    exact ⟨closesBlock_closer, rfl⟩

theorem closesBlock_append_cons (hc : c = '*' → s.head? ≠ some '/') :
    ClosesBlock text ∧ c :: s = text ++ rest ↔
      ∃ later, c :: later = text ∧ ClosesBlock later ∧ s = later ++ rest := by
  have hhead {later : List Char} (hne : later ≠ []) (hs : s = later ++ rest) :
      c = '*' → later.head? ≠ some '/' := by
    rwa [hs, List.head?_append_of_ne_nil _ hne] at hc
  constructor
  · rintro ⟨hcloses, hs⟩
    obtain ⟨d, later, rfl⟩ := List.exists_cons_of_ne_nil hcloses.ne_nil
    simp only [List.cons_append, List.cons.injEq] at hs
    obtain ⟨rfl, hs⟩ := hs
    by_cases hne : later = []
    · obtain ⟨body, hbody⟩ := hcloses.closed
      simpa [hne] using congrArg List.length hbody
    · exact ⟨later, rfl, (closesBlock_cons (hhead hne hs)).mp hcloses, hs⟩
  · rintro ⟨later, rfl, hlater, hs⟩
    exact ⟨(closesBlock_cons (hhead hlater.ne_nil hs)).mpr hlater, by rw [hs]; rfl⟩

theorem takeBlock?_eq_some_iff :
    takeBlock? s = some (text, rest) ↔ ClosesBlock text ∧ s = text ++ rest := by
  fun_induction takeBlock? s generalizing text rest with
  | case1 => simpa using fun h htext => absurd htext (ClosesBlock.ne_nil h)
  | case2 r => rw [closesBlock_append_closer, Option.some.injEq, Prod.mk.injEq]
  | case3 c r hpair ih =>
    have hc : c = '*' → r.head? ≠ some '/' := by
      rintro rfl hhead
      obtain ⟨later, rfl⟩ := List.head?_eq_some_iff.mp hhead
      exact hpair later rfl rfl
    simp only [closesBlock_append_cons hc, ← ih, Option.map_eq_some_iff, Prod.mk.injEq, Prod.exists]
    grind

end

/-! ### Pieces -/

/-- A whole comment or literal, and what follows it in the script. A line comment goes up to a
newline or to the end of the script. -/
inductive Complete : List Char → List Char → Prop where
  | line {body after : List Char} (inside : '\n' ∉ body) (stop : after.head?.all (· == '\n')) :
      Complete ('/' :: '/' :: body) after
  | block {text after : List Char} (closes : ClosesBlock text) : Complete ('/' :: '*' :: text) after
  | quoted {quote : Char} {text after : List Char} (kind : isQuote quote)
      (closes : Closes quote text) : Complete (quote :: text) after

theorem ne_backslash_of_isQuote {c : Char} (h : isQuote c) : c ≠ '\\' := by
  rintro rfl
  cases h

theorem Complete.ne_nil {text after : List Char} (h : Complete text after) : text ≠ [] := by
  cases h <;> simp

theorem complete_of_takePiece {c : Char} {r text rest : List Char}
    (h : takePiece c r = (⟨true, text⟩, rest)) : Complete text rest := by
  unfold takePiece at h
  split at h
  next hquote =>
    simp only [Prod.mk.injEq, Piece.mk.injEq] at h
    obtain ⟨⟨hclosed, rfl⟩, rfl⟩ := h
    have htaken : takeQuoted c r = (true, (takeQuoted c r).2.1, (takeQuoted c r).2.2) := by
      rw [← hclosed]
    exact .quoted hquote ((takeQuoted_eq_closed_iff (ne_backslash_of_isQuote hquote)).mp htaken).1
  next =>
    split at h
    next hslash =>
      subst hslash
      split at h
      next r =>
        simp only [Prod.mk.injEq, Piece.mk.injEq, true_and] at h
        obtain ⟨rfl, rfl⟩ := h
        refine .line (fun hmem => by simpa using List.mem_takeWhile_imp hmem) ?_
        cases hrest : r.dropWhile (· ≠ '\n') with
        | nil => rfl
        | cons d rest =>
          have hd := List.head?_dropWhile_not (· ≠ '\n') r
          rw [hrest] at hd
          simpa using hd
      next r =>
        split at h
        next text' rest' htake =>
          simp only [Prod.mk.injEq, Piece.mk.injEq, true_and] at h
          obtain ⟨rfl, rfl⟩ := h
          exact .block (takeBlock?_eq_some_iff.mp htake).1
        next => simp at h
      next => simp at h
    next => simp at h

theorem takePiece_of_complete {c : Char} {text rest : List Char} (h : Complete (c :: text) rest) :
    takePiece c (text ++ rest) = (⟨true, c :: text⟩, rest) := by
  cases h with
  | @line body _ inside stop =>
    have hbody : ∀ d ∈ body, d ≠ '\n' := fun d hd => ne_of_mem_of_not_mem hd inside
    have hstop : rest.takeWhile (· ≠ '\n') = [] ∧ rest.dropWhile (· ≠ '\n') = rest := by
      cases rest with
      | nil => exact ⟨rfl, rfl⟩
      | cons d rest => simpa using stop
    simp only [takePiece, List.cons_append]
    rw [List.takeWhile_append_of_pos (by simpa using hbody),
      List.dropWhile_append_of_pos (by simpa using hbody), hstop.1, hstop.2, List.append_nil]
    rfl
  | @block later _ closes =>
    have htaken : takeBlock? (later ++ rest) = some (later, rest) :=
      takeBlock?_eq_some_iff.mpr ⟨closes, rfl⟩
    simp only [takePiece, List.cons_append, htaken]
    rfl
  | quoted kind closes =>
    have htaken : takeQuoted c (text ++ rest) = (true, text, rest) :=
      (takeQuoted_eq_closed_iff (ne_backslash_of_isQuote kind)).mpr ⟨closes, rfl⟩
    unfold takePiece
    rw [if_pos kind, htaken]

end Assay.Mask
