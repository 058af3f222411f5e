import Assay.Proofs.Assertion.Replacement
import Assay.Proofs.Json.RoundTrip

/-!
# The text of a literal

`chars_cancel` recovers where each string, number, reference and separator of a literal ends from
the text alone, whatever stands in the strings. `read?_print` says that a literal without references
is JSON for the same data.
-/

namespace Assay

namespace Literal

/-- The code of every reference in the literal has the property. -/
inductive EveryReference (p : String → Prop) : Literal → Prop where
  | string (value : String) : EveryReference p (.string value)
  | number (value : Nat) : EveryReference p (.number value)
  | array {items : List Literal} (h : ∀ l ∈ items, EveryReference p l) :
      EveryReference p (.array items)
  | object {fields : List (String × Literal)} (h : ∀ f ∈ fields, EveryReference p f.2) :
      EveryReference p (.object fields)
  | reference {code : String} (h : p code) : EveryReference p (.reference code)

section

variable {p : String → Prop}

@[simp] theorem everyReference_string (value : String) : EveryReference p (.string value) :=
  .string value

@[simp] theorem everyReference_number (value : Nat) : EveryReference p (.number value) :=
  .number value

@[simp] theorem everyReference_array {items : List Literal} :
    EveryReference p (.array items) ↔ ∀ l ∈ items, EveryReference p l :=
  ⟨fun | .array h => h, .array⟩

@[simp] theorem everyReference_object {fields : List (String × Literal)} :
    EveryReference p (.object fields) ↔ ∀ f ∈ fields, EveryReference p f.2 :=
  ⟨fun | .object h => h, .object⟩

@[simp] theorem everyReference_reference {code : String} :
    EveryReference p (.reference code) ↔ p code :=
  ⟨fun | .reference h => h, .reference⟩

end

theorem EveryReference.mono {p q : String → Prop} (hpq : ∀ code, p code → q code) {l : Literal}
    (h : EveryReference p l) : EveryReference q l := by
  induction h with
  | string value => exact .string value
  | number value => exact .number value
  | array _ ih => exact .array ih
  | object _ ih => exact .object ih
  | reference h => exact .reference (hpq _ h)

/-- The characters that can stand behind an item. -/
def isEnd (c : Char) : Bool := c == ',' || c == ']' || c == '\x7d'

/-- Code that begins with a letter or an underscore, or with any other word character but an ASCII
digit, and holds nothing that can stand behind it. -/
structure Unbroken (code : String) : Prop where
  begins : ∃ c ∈ code.toList.head?, Text.isWordChar c ∧ ¬ c.isDigit
  holds : ∀ c ∈ code.toList, ¬ isEnd c

/-- Nothing or an end of an item comes first. -/
def Ended (t : List Char) : Prop := ∀ c ∈ t.head?, isEnd c

theorem ended_cons {c : Char} (t : List Char) (h : isEnd c) : Ended (c :: t) := by
  intro d hd
  obtain rfl : c = d := by simpa using hd
  exact h

theorem not_isEnd_of_all {s : List Char} (h : s.all (! isEnd ·)) : ∀ c ∈ s, ¬ isEnd c :=
  fun c hc => by simpa using List.all_eq_true.mp h c hc

theorem not_isEnd_of_isDigit {c : Char} (h : c.isDigit) : ¬ isEnd c := by
  intro hend
  simp only [isEnd, Bool.or_eq_true, beq_iff_eq] at hend
  rcases hend with (rfl | rfl) | rfl <;> exact absurd h (by decide)

theorem Ended.endsNumber {t : List Char} (h : Ended t) : Json.EndsNumber t := by
  rintro c r rfl
  have hc := h c rfl
  simp only [isEnd, Bool.or_eq_true, beq_iff_eq] at hc
  rcases hc with (rfl | rfl) | rfl <;> decide

/-! ### The front of a printed literal -/

/-- The kinds of literals that the first character tells apart. -/
inductive Front where
  | string | number | array | object | reference
  deriving DecidableEq

def front (c : Char) : Front :=
  if c = '"' then .string
  else if c = '[' then .array
  else if c = '\x7b' then .object
  else if c.isDigit then .number
  else .reference

def kind : Literal → Front
  | .string _ => .string
  | .number _ => .number
  | .array _ => .array
  | .object _ => .object
  | .reference _ => .reference

theorem front_of_isDigit {c : Char} (h : c.isDigit) : front c = .number := by
  have hne (d : Char) (hd : ¬ d.isDigit) : c ≠ d := by
    rintro rfl
    exact hd h
  simp only [front, if_neg (hne '"' (by decide)), if_neg (hne '[' (by decide)),
    if_neg (hne '\x7b' (by decide)), if_pos h]

theorem front_of_isWordChar {c : Char} (h : Text.isWordChar c) (hdigit : ¬ c.isDigit) :
    front c = .reference := by
  have hne (d : Char) (hd : ¬ Text.isWordChar d) : c ≠ d := by
    rintro rfl
    exact hd h
  simp only [front, if_neg (hne '"' (by decide)), if_neg (hne '[' (by decide)),
    if_neg (hne '\x7b' (by decide)), if_neg hdigit]

/-- The first character of a printed literal tells its kind, and is not an end. -/
theorem chars_front {l : Literal} (h : EveryReference Unbroken l) :
    ∃ c r, chars l = c :: r ∧ front c = l.kind ∧ ¬ isEnd c := by
  cases h with
  | string value => exact ⟨'"', _, by rw [chars]; rfl, rfl, by decide⟩
  | number value =>
    obtain ⟨c, r, hr⟩ := List.exists_cons_of_ne_nil (Nat.toDigits_ne_nil (n := value) (b := 10))
    have hdigit := Json.natText_digits value c (by rw [Json.natText, hr]; exact List.mem_cons_self)
    exact ⟨c, r, by rw [chars, Json.natText, hr], front_of_isDigit hdigit,
      not_isEnd_of_isDigit hdigit⟩
  | array => exact ⟨'[', _, by rw [chars], rfl, by decide⟩
  | object => exact ⟨'\x7b', _, by rw [chars], rfl, by decide⟩
  | reference h =>
    obtain ⟨c, hc, hword, hdigit⟩ := h.begins
    obtain ⟨r, hr⟩ := List.head?_eq_some_iff.mp hc
    exact ⟨c, r, by rw [chars, hr], front_of_isWordChar hword hdigit,
      h.holds c (by rw [hr]; exact List.mem_cons_self)⟩

theorem kind_eq_of_chars_append {l l' : Literal} {t t' : List Char}
    (h : EveryReference Unbroken l) (h' : EveryReference Unbroken l')
    (heq : chars l ++ t = chars l' ++ t') : l.kind = l'.kind := by
  obtain ⟨c, r, hr, hkind, -⟩ := chars_front h
  obtain ⟨c', r', hr', hkind', -⟩ := chars_front h'
  rw [hr, hr', List.cons_append, List.cons_append] at heq
  rw [← hkind, ← hkind', (List.cons.inj heq).1]

/-! ### Strings, numbers and references -/

theorem quote_cancel {s s' t t' : List Char} (h : Json.quote s ++ t = Json.quote s' ++ t') :
    s = s' ∧ t = t' := by
  simp only [Json.quote, List.cons_append, List.append_assoc, List.cons.injEq, true_and,
    List.nil_append] at h
  have hbody := congrArg (Json.stringBody []) h
  rw [Json.stringBody_quote, Json.stringBody_quote] at hbody
  simp only [List.reverse_nil, List.nil_append, Option.some.injEq, Prod.mk.injEq] at hbody
  have hjoin := congrArg Json.joinUnits hbody.1
  rw [Json.joinUnits_toNat, Json.joinUnits_toNat, Option.some.injEq] at hjoin
  exact ⟨hjoin, hbody.2⟩

theorem natText_cancel {n n' : Nat} {t t' : List Char} (ht : Ended t) (ht' : Ended t')
    (h : Json.natText n ++ t = Json.natText n' ++ t') : n = n' ∧ t = t' := by
  have hnumber := congrArg Json.number? h
  rw [Json.number?_natText n ht.endsNumber, Json.number?_natText n' ht'.endsNumber] at hnumber
  simpa only [Option.some.injEq, Prod.mk.injEq, Json.int.injEq, Int.natCast_inj] using hnumber

theorem takeWhile_unbroken {code : String} {t : List Char} (h : Unbroken code) (ht : Ended t) :
    (code.toList ++ t).takeWhile (! isEnd ·) = code.toList := by
  have hcode : ∀ c ∈ code.toList, (! isEnd c) = true := fun c hc => by simpa using h.holds c hc
  rw [List.takeWhile_append_of_pos hcode]
  cases t with
  | nil => simp
  | cons c t => simp [ht c rfl]

theorem reference_cancel {code code' : String} {t t' : List Char} (h : Unbroken code)
    (h' : Unbroken code') (ht : Ended t) (ht' : Ended t')
    (heq : code.toList ++ t = code'.toList ++ t') : code = code' ∧ t = t' := by
  have hcode : code.toList = code'.toList := by
    rw [← takeWhile_unbroken h ht, heq, takeWhile_unbroken h' ht']
  rw [hcode] at heq
  exact ⟨String.toList_inj.mp hcode, List.append_cancel_left heq⟩

/-! ### Items between separators -/

section

variable {α : Type}

/-- Items with a comma between any two of them and a closing character behind the last. -/
def separated (f : α → List Char) (close : Char) : List α → List Char
  | [] => [close]
  | [a] => f a ++ [close]
  | a :: rest => f a ++ ',' :: separated f close rest

theorem separated_cons_cons (f : α → List Char) (close : Char) (a b : α) (rest : List α) :
    separated f close (a :: b :: rest) = f a ++ ',' :: separated f close (b :: rest) := by
  rw [separated]
  simp

/-- Behind an item stands an end: the closing character, or a comma and the other items. -/
theorem separated_cons (f : α → List Char) (close : Char) (a : α) (rest : List α) :
    separated f close (a :: rest) =
      f a ++ if rest.isEmpty then [close] else ',' :: separated f close rest := by
  cases rest with
  | nil => rfl
  | cons b rest => rw [separated_cons_cons]; rfl

/-- The item can be recovered from a text that an end follows. -/
def Recovers (p : α → Prop) (f : α → List Char) (a : α) : Prop :=
  ∀ b t t', p b → Ended t → Ended t' → f a ++ t = f b ++ t' → a = b ∧ t = t'

theorem separated_cancel {p : α → Prop} {f : α → List Char} {close : Char} (hend : isEnd close)
    (hcomma : close ≠ ',') (hfront : ∀ a, p a → ∃ c r, f a = c :: r ∧ ¬ isEnd c)
    {as bs : List α} (ha : ∀ a ∈ as, p a ∧ Recovers p f a) (hb : ∀ b ∈ bs, p b)
    {t t' : List Char} (heq : separated f close as ++ t = separated f close bs ++ t') :
    as = bs ∧ t = t' := by
  -- a list that is not empty does not begin with the closing character
  have hnil {a : α} (rest : List α) (u u' : List Char) (h : p a) :
      close :: u ≠ separated f close (a :: rest) ++ u' := by
    obtain ⟨c, r, hr, hc⟩ := hfront a h
    rw [separated_cons, hr, List.append_assoc, List.cons_append]
    intro heq
    exact hc ((List.cons.inj heq).1 ▸ hend)
  have hended (rest : List α) (u : List Char) :
      Ended ((if rest.isEmpty then [close] else ',' :: separated f close rest) ++ u) := by
    cases rest with
    | nil => exact ended_cons _ hend
    | cons => exact ended_cons _ (by decide)
  induction as generalizing bs with
  | nil =>
    cases bs with
    | nil => exact ⟨rfl, (List.cons.inj heq).2⟩
    | cons b bs => exact absurd heq (hnil bs t t' (hb b List.mem_cons_self))
  | cons a as ih =>
    obtain ⟨hpa, hrecovers⟩ := ha a List.mem_cons_self
    cases bs with
    | nil => exact absurd heq.symm (hnil as t' t hpa)
    | cons b bs =>
      rw [separated_cons, separated_cons, List.append_assoc, List.append_assoc] at heq
      obtain ⟨rfl, hrest⟩ := hrecovers b _ _ (hb b List.mem_cons_self) (hended as t) (hended bs t')
        heq
      have ha' : ∀ c ∈ as, p c ∧ Recovers p f c := fun c hc => ha c (List.mem_cons_of_mem a hc)
      have hb' : ∀ c ∈ bs, p c := fun c hc => hb c (List.mem_cons_of_mem a hc)
      match as, bs, hrest with
      | [], [], hrest => exact ⟨rfl, (List.cons.inj hrest).2⟩
      | [], _ :: _, hrest => exact absurd (List.cons.inj hrest).1 hcomma
      | _ :: _, [], hrest => exact absurd (List.cons.inj hrest).1.symm hcomma
      | _ :: _, _ :: _, hrest =>
        obtain ⟨hlist, ht⟩ := ih ha' hb' (List.cons.inj hrest).2
        exact ⟨by rw [hlist], ht⟩

end

def field (f : String × Literal) : List Char := Json.quote f.1.toList ++ ':' :: chars f.2

theorem itemChars_eq (items : List Literal) : itemChars items = separated chars ']' items := by
  induction items with
  | nil => rw [itemChars, separated]
  | cons l items ih =>
    cases items with
    | nil => rw [itemChars, separated]
    | cons l' items => rw [itemChars_cons_cons, separated_cons_cons, ih]

theorem fieldChars_eq (fields : List (String × Literal)) :
    fieldChars fields = separated field '\x7d' fields := by
  induction fields with
  | nil => rw [fieldChars, separated]
  | cons f fields ih =>
    cases fields with
    | nil => rw [fieldChars, separated, field]
    | cons f' fields => rw [fieldChars_cons_cons, separated_cons_cons, ih, field]

/-! ### Literals -/

theorem field_recovers {f : String × Literal} (h : Recovers (EveryReference Unbroken) chars f.2) :
    Recovers (fun f : String × Literal => EveryReference Unbroken f.2) field f := by
  rintro ⟨key', value'⟩ t t' h' ht ht' heq
  obtain ⟨key, value⟩ := f
  simp only [field, List.append_assoc, List.cons_append] at heq
  obtain ⟨hkey, hvalue⟩ := quote_cancel heq
  obtain ⟨rfl, hrest⟩ := h value' t t' h' ht ht' (List.cons.inj hvalue).2
  exact ⟨by rw [String.toList_inj.mp hkey], hrest⟩

theorem field_front (f : String × Literal) : ∃ c r, field f = c :: r ∧ ¬ isEnd c :=
  ⟨'"', _, rfl, by decide⟩

/-- A literal and what stands behind it can be told from the text, if an end comes next. -/
theorem chars_cancel {l : Literal} (h : EveryReference Unbroken l) :
    Recovers (EveryReference Unbroken) chars l := by
  induction h with
  | string value =>
    intro l' t t' h' ht ht' heq
    have hkind := kind_eq_of_chars_append (.string value) h' heq
    cases h' with
    | string value' =>
      simp only [chars] at heq
      obtain ⟨hvalue, hrest⟩ := quote_cancel heq
      exact ⟨congrArg Literal.string (String.toList_inj.mp hvalue), hrest⟩
    | _ => cases hkind
  | number value =>
    intro l' t t' h' ht ht' heq
    have hkind := kind_eq_of_chars_append (.number value) h' heq
    cases h' with
    | number value' =>
      simp only [chars] at heq
      obtain ⟨hvalue, hrest⟩ := natText_cancel ht ht' heq
      exact ⟨congrArg Literal.number hvalue, hrest⟩
    | _ => cases hkind
  | array h ih =>
    intro l' t t' h' ht ht' heq
    have hkind := kind_eq_of_chars_append (.array h) h' heq
    cases h' with
    | array h' =>
      simp only [chars, itemChars_eq, List.cons_append, List.cons.injEq, true_and] at heq
      have hfront (l : Literal) (h : EveryReference Unbroken l) :
          ∃ c r, chars l = c :: r ∧ ¬ isEnd c := by
        obtain ⟨c, r, hr, -, hend⟩ := chars_front h
        exact ⟨c, r, hr, hend⟩
      obtain ⟨hitems, hrest⟩ := separated_cancel (by decide) (by decide) hfront
        (fun l hl => ⟨h l hl, ih l hl⟩) h' heq
      exact ⟨congrArg Literal.array hitems, hrest⟩
    | _ => cases hkind
  | object h ih =>
    intro l' t t' h' ht ht' heq
    have hkind := kind_eq_of_chars_append (.object h) h' heq
    cases h' with
    | object h' =>
      simp only [chars, fieldChars_eq, List.cons_append, List.cons.injEq, true_and] at heq
      obtain ⟨hfields, hrest⟩ := separated_cancel (by decide) (by decide)
        (fun f _ => field_front f) (fun f hf => ⟨h f hf, field_recovers (ih f hf)⟩) h' heq
      exact ⟨congrArg Literal.object hfields, hrest⟩
    | _ => cases hkind
  | reference hcode =>
    intro l' t t' h' ht ht' heq
    have hkind := kind_eq_of_chars_append (.reference hcode) h' heq
    cases h' with
    | reference hcode' =>
      simp only [chars] at heq
      obtain ⟨hcode, hrest⟩ := reference_cancel hcode hcode' ht ht' heq
      exact ⟨congrArg Literal.reference hcode, hrest⟩
    | _ => cases hkind

theorem eq_of_print_eq {l l' : Literal} (h : EveryReference Unbroken l)
    (h' : EveryReference Unbroken l') (heq : l.print = l'.print) : l = l' := by
  have hchars : chars l ++ [] = chars l' ++ [] := by
    rw [List.append_nil, List.append_nil]
    exact String.ofList_inj.mp heq
  have hnil : Ended [] := fun c hc => absurd hc (by simp)
  exact (chars_cancel h l' [] [] h' hnil hnil hchars).1

/-! ### Literals without references -/

mutual

/-- The data of a literal; a reference is none. -/
def data : Literal → Json
  | .string value => .string value
  | .number value => .nat value
  | .array items => .array (dataItems items)
  | .object fields => .object (dataFields fields)
  | .reference _ => .null

def dataItems : List Literal → List Json
  | [] => []
  | item :: rest => data item :: dataItems rest

def dataFields : List (String × Literal) → List (String × Json)
  | [] => []
  | (key, value) :: rest => (key, data value) :: dataFields rest

end

theorem dataItems_eq (items : List Literal) : dataItems items = items.map data := by
  induction items with
  | nil => rw [dataItems, List.map_nil]
  | cons l items ih => rw [dataItems, ih, List.map_cons]

theorem dataFields_eq (fields : List (String × Literal)) :
    dataFields fields = fields.map fun f => (f.1, data f.2) := by
  induction fields with
  | nil => rw [dataFields, List.map_nil]
  | cons f fields ih => rw [dataFields, ih, List.map_cons]

theorem itemChars_data {items : List Literal}
    (h : ∀ l ∈ items, chars l = Json.compactChars (data l)) :
    itemChars items = Json.compactItems (items.map data) := by
  induction items with
  | nil => rfl
  | cons l items ih =>
    have hl := h l List.mem_cons_self
    cases items with
    | nil => rw [itemChars, List.map_cons, List.map_nil, Json.compactItems_singleton, hl]
    | cons l' items =>
      have hrest := ih fun l hl => h l (List.mem_cons_of_mem _ hl)
      rw [itemChars_cons_cons, hrest, hl]
      simp only [List.map_cons, Json.compactItems_cons_cons]

theorem fieldChars_data {fields : List (String × Literal)}
    (h : ∀ f ∈ fields, chars f.2 = Json.compactChars (data f.2)) :
    fieldChars fields = Json.compactFields (fields.map fun f => (f.1, data f.2)) := by
  induction fields with
  | nil => rfl
  | cons f fields ih =>
    have hf := h f List.mem_cons_self
    cases fields with
    | nil => rw [fieldChars, List.map_cons, List.map_nil, Json.compactFields_singleton, hf]
    | cons f' fields =>
      have hrest := ih fun f hf => h f (List.mem_cons_of_mem _ hf)
      rw [fieldChars_cons_cons, hrest, hf]
      simp only [List.map_cons, Json.compactFields_cons_cons]

theorem chars_data {l : Literal} (h : EveryReference (fun _ => False) l) :
    chars l = Json.compactChars (data l) ∧ Json.Exact (data l) := by
  induction h with
  | string value => exact ⟨by rw [chars, data, Json.compactChars_string], .string value⟩
  | number value => exact ⟨by rw [chars, data, Json.nat, Json.compactChars_int]; rfl, .int value⟩
  | array _ ih =>
    rw [data, dataItems_eq, chars, Json.compactChars_array, itemChars_data fun l hl => (ih l hl).1]
    refine ⟨rfl, .array fun j hj => ?_⟩
    obtain ⟨l, hl, rfl⟩ := List.mem_map.mp hj
    exact (ih l hl).2
  | object _ ih =>
    rw [data, dataFields_eq, chars, Json.compactChars_object, fieldChars_data fun f hf => (ih f hf).1]
    refine ⟨rfl, .object fun j hj => ?_⟩
    obtain ⟨f, hf, rfl⟩ := List.mem_map.mp hj
    exact (ih f hf).2
  | reference h => exact h.elim

theorem read?_print {l : Literal} (h : EveryReference (fun _ => False) l) :
    Json.read? l.print.toList = some l.data := by
  obtain ⟨hchars, hexact⟩ := chars_data h
  rw [print, hchars]
  exact Json.read?_compact hexact

end Literal

end Assay
