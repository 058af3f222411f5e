import Assay.Json.Record
import Assay.Proofs.Json.Scalar

/-!
# JSON there and back

`read?_compact` says that reading a written value gives it back if all its numbers are integers and
all its strings texts.
-/

namespace Assay.Json

/-- Values in which every number is an integer and every string a text. -/
inductive Exact : Json → Prop where
  | null : Exact .null
  | bool (value : Bool) : Exact (.bool value)
  | int (value : Int) : Exact (.int value)
  | string (value : String) : Exact (.string value)
  | array {items : List Json} (h : ∀ j ∈ items, Exact j) : Exact (.array items)
  | object {fields : List (String × Json)} (h : ∀ f ∈ fields, Exact f.2) : Exact (.object fields)

theorem skipSpace_cons {c : Char} (r : List Char) (h : isSpace c = false) :
    skipSpace (c :: r) = c :: r := List.dropWhile_cons_of_neg (by simp [h])

/-! ### What is written -/

theorem intText_head (value : Int) : ∃ c r, intText value = c :: r ∧ (c = '-' ∨ c.isDigit) := by
  cases value with
  | ofNat n =>
    obtain ⟨c, r, h⟩ := List.exists_cons_of_ne_nil (Nat.toDigits_ne_nil (n := n) (b := 10))
    exact ⟨c, r, h, Or.inr (natText_digits n c (by rw [natText, h]; exact List.mem_cons_self))⟩
  | negSucc n => exact ⟨'-', _, rfl, Or.inl rfl⟩

theorem Exact.head {j : Json} (h : Exact j) :
    ∃ c r, compactChars j = c :: r ∧ isSpace c = false ∧ c ≠ ']' := by
  cases h with
  | null => exact ⟨'n', _, rfl, by decide, by decide⟩
  | bool value =>
    cases value
    · exact ⟨'f', _, rfl, by decide, by decide⟩
    · exact ⟨'t', _, rfl, by decide, by decide⟩
  | int value =>
    obtain ⟨c, r, hr, hc⟩ := intText_head value
    refine ⟨c, r, by rw [compactChars_int, hr], ?_⟩
    rcases hc with rfl | hc
    · decide
    · constructor
      · cases hs : isSpace c
        · rfl
        · simp only [isSpace, Bool.or_eq_true, beq_iff_eq] at hs
          rcases hs with ((rfl | rfl) | rfl) | rfl <;> exact absurd hc (by decide)
      · rintro rfl
        exact absurd hc (by decide)
  | string value => exact ⟨'"', _, rfl, by decide, by decide⟩
  | array => exact ⟨'[', _, rfl, by decide, by decide⟩
  | object => exact ⟨'\x7b', _, rfl, by decide, by decide⟩

/-! ### What is read -/

/-- The value is read back where nothing that could be part of a number comes next. -/
def ReadsBack (j : Json) : Prop :=
  ∀ fuel rest, 2 * (compactChars j).length ≤ fuel → EndsNumber rest →
    value? fuel (compactChars j ++ rest) = some (j, rest)

theorem exists_fuel {n fuel : Nat} (h : 2 * (n + 1) ≤ fuel) : ∃ k, fuel = k + 1 ∧ 2 * n ≤ k :=
  ⟨fuel - 1, by omega, by omega⟩

theorem endsNumber_comma (r : List Char) : EndsNumber (',' :: r) := endsNumber_cons r (by decide)

theorem endsNumber_bracket (r : List Char) : EndsNumber (']' :: r) := endsNumber_cons r (by decide)

theorem endsNumber_brace (r : List Char) : EndsNumber ('\x7d' :: r) := endsNumber_cons r (by decide)

theorem items?_compactItems {items : List Json} (hne : items ≠ []) (h : ∀ j ∈ items, ReadsBack j)
    (fuel : Nat) (rest : List Char) (hfuel : 2 * (compactItems items).length ≤ fuel) :
    items? fuel (compactItems items ++ rest) = some (items, rest) := by
  induction items generalizing fuel with
  | nil => exact absurd rfl hne
  | cons x items ih =>
    have hx := h x List.mem_cons_self
    cases items with
    | nil =>
      rw [compactItems_singleton, List.length_append, List.length_singleton] at hfuel
      obtain ⟨fuel, rfl, hinner⟩ := exists_fuel hfuel
      rw [compactItems_singleton, List.append_assoc, List.singleton_append, items?,
        hx fuel _ hinner (endsNumber_bracket rest)]
      simp [skipSpace_cons rest (show isSpace ']' = false from rfl)]
    | cons y items =>
      rw [compactItems_cons_cons, List.length_append, List.length_cons] at hfuel
      obtain ⟨fuel, rfl⟩ : ∃ k, fuel = k + 1 := ⟨fuel - 1, by omega⟩
      have hrest := ih (List.cons_ne_nil y items) (fun j hj => h j (List.mem_cons_of_mem x hj)) fuel
        (by omega)
      rw [compactItems_cons_cons, List.append_assoc, List.cons_append, items?,
        hx fuel _ (by omega) (endsNumber_comma _)]
      simp [skipSpace_cons _ (show isSpace ',' = false from rfl), hrest]

theorem fields?_compactFields {fields : List (String × Json)} (hne : fields ≠ [])
    (h : ∀ f ∈ fields, ReadsBack f.2) (fuel : Nat) (rest : List Char)
    (hfuel : 2 * (compactFields fields).length ≤ fuel) :
    fields? fuel (compactFields fields ++ rest) = some (fields, rest) := by
  induction fields generalizing fuel with
  | nil => exact absurd rfl hne
  | cons f fields ih =>
    obtain ⟨key, x⟩ := f
    have hx : ReadsBack x := h (key, x) List.mem_cons_self
    have hkey (r : List Char) := stringBody_quote [] key.toList r
    cases fields with
    | nil =>
      simp only [compactFields_singleton, quote, List.length_append, List.length_cons] at hfuel
      obtain ⟨fuel, rfl⟩ : ∃ k, fuel = k + 1 := ⟨fuel - 1, by omega⟩
      have hvalue := hx fuel ('\x7d' :: rest) (by omega) (endsNumber_brace rest)
      simp only [compactFields_singleton, quote, List.append_assoc, List.cons_append,
        List.nil_append, fields?, skipSpace_cons _ (show isSpace '"' = false from rfl), hkey, Option.bind_eq_bind,
        Option.bind_some, List.reverse_nil, joinUnits_toNat,
        skipSpace_cons _ (show isSpace ':' = false from rfl), hvalue,
        skipSpace_cons _ (show isSpace '\x7d' = false from rfl), String.ofList_toList,
        Option.pure_def]
    | cons g fields =>
      simp only [compactFields_cons_cons, quote, List.length_append, List.length_cons] at hfuel
      obtain ⟨fuel, rfl⟩ : ∃ k, fuel = k + 1 := ⟨fuel - 1, by omega⟩
      have hrest := ih (List.cons_ne_nil g fields) (fun j hj => h j (List.mem_cons_of_mem _ hj)) fuel
        (by omega)
      have hvalue := hx fuel (',' :: (compactFields (g :: fields) ++ rest)) (by omega)
        (endsNumber_comma _)
      simp only [compactFields_cons_cons, quote, List.append_assoc, List.cons_append,
        List.nil_append, fields?, skipSpace_cons _ (show isSpace '"' = false from rfl), hkey,
        Option.bind_eq_bind, Option.bind_some, List.reverse_nil, joinUnits_toNat,
        skipSpace_cons _ (show isSpace ':' = false from rfl), hvalue,
        skipSpace_cons _ (show isSpace ',' = false from rfl), hrest, String.ofList_toList,
        Option.pure_def]

/-- A text that does not begin like any other value is read as a number. -/
theorem value?_number {c : Char} (fuel : Nat) (r : List Char) (h : c = '-' ∨ c.isDigit) :
    value? (fuel + 1) (c :: r) = number? (c :: r) := by
  have hne (d : Char) (hd : ¬ (d = '-' ∨ d.isDigit)) : c ≠ d := by
    rintro rfl
    exact hd h
  have hspace : isSpace c = false := by
    simp only [isSpace, Bool.or_eq_false_iff, beq_eq_false_iff_ne]
    exact ⟨⟨⟨hne _ (by decide), hne _ (by decide)⟩, hne _ (by decide)⟩, hne _ (by decide)⟩
  rw [value?, skipSpace_cons r hspace]
  split
  next heq => exact absurd (List.cons.inj heq).1 (hne _ (by decide))
  next heq => exact absurd (List.cons.inj heq).1 (hne _ (by decide))
  next heq => exact absurd (List.cons.inj heq).1 (hne _ (by decide))
  next heq => exact absurd (List.cons.inj heq).1 (hne _ (by decide))
  next heq => exact absurd (List.cons.inj heq).1 (hne _ (by decide))
  next heq => exact absurd (List.cons.inj heq).1 (hne _ (by decide))
  next => rfl

/-! ### Values -/

theorem readsBack_null : ReadsBack .null := by
  intro fuel rest hfuel _
  obtain ⟨fuel, rfl, -⟩ := exists_fuel (show 2 * (3 + 1) ≤ fuel from hfuel)
  rfl

theorem readsBack_bool (value : Bool) : ReadsBack (.bool value) := by
  intro fuel rest hfuel _
  cases value
  · obtain ⟨fuel, rfl, -⟩ := exists_fuel (show 2 * (4 + 1) ≤ fuel from hfuel)
    rfl
  · obtain ⟨fuel, rfl, -⟩ := exists_fuel (show 2 * (3 + 1) ≤ fuel from hfuel)
    rfl

theorem readsBack_int (value : Int) : ReadsBack (.int value) := by
  intro fuel rest hfuel hrest
  obtain ⟨c, r, hr, hc⟩ := intText_head value
  rw [compactChars_int, hr, List.length_cons] at hfuel
  obtain ⟨fuel, rfl, -⟩ := exists_fuel hfuel
  rw [compactChars_int, ← number?_intText value hrest, hr]
  exact value?_number fuel _ hc

theorem readsBack_string (value : String) : ReadsBack (.string value) := by
  intro fuel rest hfuel _
  rw [compactChars_string, quote, List.cons_append, List.length_cons] at hfuel
  obtain ⟨fuel, rfl, -⟩ := exists_fuel hfuel
  simp only [compactChars_string, quote, List.cons_append, List.append_assoc, List.nil_append,
    value?, skipSpace_cons _ (show isSpace '"' = false from rfl), stringBody_quote,
    Option.map_some, List.reverse_nil, joinUnits_toNat, String.ofList_toList]

theorem compactItems_head {x : Json} (h : Exact x) (items : List Json) :
    ∃ c r, compactItems (x :: items) = c :: r ∧ isSpace c = false ∧ c ≠ ']' := by
  obtain ⟨c, r, hr, hc⟩ := h.head
  cases items with
  | nil => exact ⟨c, _, by rw [compactItems_singleton, hr]; rfl, hc⟩
  | cons y items => exact ⟨c, _, by rw [compactItems_cons_cons, hr]; rfl, hc⟩

theorem compactFields_head (f : String × Json) (fields : List (String × Json)) :
    ∃ r, compactFields (f :: fields) = '"' :: r := by
  cases fields with
  | nil => exact ⟨_, rfl⟩
  | cons g fields => exact ⟨_, rfl⟩

theorem readsBack_array {items : List Json} (hexact : ∀ j ∈ items, Exact j)
    (h : ∀ j ∈ items, ReadsBack j) : ReadsBack (.array items) := by
  intro fuel rest hfuel _
  rw [compactChars_array, List.length_cons] at hfuel
  obtain ⟨fuel, rfl, hinner⟩ := exists_fuel hfuel
  cases items with
  | nil => rfl
  | cons x items =>
    have hitems := items?_compactItems (List.cons_ne_nil x items) h fuel rest hinner
    obtain ⟨c, r, hr, hspace, hbracket⟩ := compactItems_head (hexact x List.mem_cons_self) items
    rw [hr, List.cons_append] at hitems
    rw [compactChars_array, List.cons_append, hr, List.cons_append]
    simp [value?, skipSpace_cons _ (show isSpace '[' = false from rfl), skipSpace_cons _ hspace,
      hbracket, hitems]

theorem readsBack_object {fields : List (String × Json)} (h : ∀ f ∈ fields, ReadsBack f.2) :
    ReadsBack (.object fields) := by
  intro fuel rest hfuel _
  rw [compactChars_object, List.length_cons] at hfuel
  obtain ⟨fuel, rfl, hinner⟩ := exists_fuel hfuel
  cases fields with
  | nil => rfl
  | cons f fields =>
    have hfields := fields?_compactFields (List.cons_ne_nil f fields) h fuel rest hinner
    obtain ⟨r, hr⟩ := compactFields_head f fields
    rw [hr, List.cons_append] at hfields
    rw [compactChars_object, List.cons_append, hr, List.cons_append]
    simp [value?, skipSpace_cons _ (show isSpace '\x7b' = false from rfl),
      skipSpace_cons _ (show isSpace '"' = false from rfl), hfields]

theorem Exact.readsBack {j : Json} (h : Exact j) : ReadsBack j := by
  induction h with
  | null => exact readsBack_null
  | bool value => exact readsBack_bool value
  | int value => exact readsBack_int value
  | string value => exact readsBack_string value
  | array hexact ih => exact readsBack_array hexact ih
  | object _ ih => exact readsBack_object ih

theorem read?_compact {j : Json} (h : Exact j) : read? j.compact.toList = some j := by
  have hvalue := h.readsBack (2 * (compactChars j).length + 2) [] (by omega) endsNumber_nil
  rw [List.append_nil] at hvalue
  rw [compact, String.toList_ofList, read?, hvalue]
  rfl

/-! ### Parts of records -/

theorem exact_strings (items : List String) : Exact (strings items) := by
  refine .array fun j hj => ?_
  obtain ⟨s, -, rfl⟩ := List.mem_map.mp hj
  exact .string s

theorem exact_texts (items : List (Option String)) :
    Exact (.array (items.map (ofOption .string))) := by
  refine .array fun j hj => ?_
  obtain ⟨s, -, rfl⟩ := List.mem_map.mp hj
  cases s with
  | none => exact .null
  | some s => exact .string s

theorem list?_map {α : Type} {read : Json → Option α} {write : α → Json}
    (h : ∀ a, read (write a) = some a) (items : List α) :
    list? read (.array (items.map write)) = some items := by
  rw [list?]
  induction items with
  | nil => rfl
  | cons a items ih =>
    rw [List.map_cons, List.mapM_cons, h a, ih]
    rfl

theorem list?_strings (items : List String) : list? text? (strings items) = some items := by
  have htext (s : String) : text? (.string s) = some s := rfl
  exact list?_map htext items

theorem nullable?_ofOption (s : Option String) : nullable? text? (ofOption .string s) = some s := by
  cases s <;> rfl

theorem word?_nat {n : Nat} (h : n < 0x100000000) : word? (.nat n) = some n := by
  rw [nat, word?, if_pos ⟨Int.natCast_nonneg n, by omega⟩]
  rfl

theorem orElse?_text (s : Option String) :
    orElse? (nullable? text?) none (s.map .string) = some s := by
  cases s <;> rfl

end Assay.Json
