import Assay.Proofs.Edit.Origins

/-!
# Maps built by additions

A builder is told piece by piece what a text is made of. `addAll_tiles` says that the pieces of the
map it builds tile the text in the order of the additions, and that bisection finds for every offset
the one piece that it is in.
-/

namespace Assay.OffsetMap

/-- What a builder is told next: a copy of the source from an offset on, or what replaces a span. -/
inductive Addition where
  | source (start : Nat) (text : List Char)
  | transformed (span : Span) (text : List Char)

namespace Addition

def text : Addition → List Char
  | source _ text | transformed _ text => text

/-- The span of the source that an addition stands for. -/
def origin : Addition → Span
  | source start text => ⟨start, start + Text.units text⟩
  | transformed span _ => span

def isCopy : Addition → Bool
  | source .. => true
  | transformed .. => false

/-- The length of the text of additions. -/
def length : List Addition → Nat
  | [] => 0
  | a :: as => Text.units a.text + length as

/-- The piece of an addition whose text begins at an offset. -/
def piece (a : Addition) (start : Nat) : Piece :=
  ⟨⟨start, start + Text.units a.text⟩, a.origin, a.isCopy⟩

/-- The pieces of additions whose text begins at an offset. -/
def pieces (start : Nat) : List Addition → List Piece
  | [] => []
  | a :: as => a.piece start :: pieces (start + Text.units a.text) as

/-- No addition is empty. -/
def Filled (as : List Addition) : Prop := ∀ a ∈ as, a.text ≠ []

@[simp] theorem length_nil : length [] = 0 := rfl

@[simp] theorem length_cons (a : Addition) (as : List Addition) :
    length (a :: as) = Text.units a.text + length as := rfl

theorem size_pieces (start : Nat) (as : List Addition) : (pieces start as).length = as.length := by
  induction as generalizing start with
  | nil => rfl
  | cons a as ih => rw [pieces, List.length_cons, List.length_cons, ih]

theorem pieces_append (start : Nat) (as bs : List Addition) :
    pieces start (as ++ bs) = pieces start as ++ pieces (start + length as) bs := by
  induction as generalizing start with
  | nil => simp [pieces]
  | cons a as ih => rw [List.cons_append, pieces, pieces, ih, length_cons, Nat.add_assoc]; rfl

theorem Filled.tiled {as : List Addition} (h : Filled as) (start : Nat) :
    Tiled start (pieces start as) (start + length as) := by
  induction as generalizing start with
  | nil => exact .nil start
  | cons a as ih =>
    have hpos := Text.units_pos (h a List.mem_cons_self)
    have hrest := ih (fun b hb => h b (List.mem_cons_of_mem a hb)) (start + Text.units a.text)
    rw [Nat.add_assoc, ← length_cons] at hrest
    exact .cons rfl (Nat.lt_add_of_pos_right hpos) hrest

end Addition

/-! ### Adding -/

namespace Builder

def add (b : Builder) : Addition → Builder
  | .source start text => b.addSource start text
  | .transformed span text => b.addTransformed span text

def addAll (b : Builder) (as : List Addition) : Builder := as.foldl add b

/-- An addition puts its piece where the text so far ends. -/
theorem add_eq (b : Builder) {a : Addition} (h : a.text ≠ []) :
    b.add a = ⟨a.piece b.length :: b.pieces, b.length + Text.units a.text⟩ := by
  cases a with
  | source start text =>
    have hpos : 0 < Text.units text := Text.units_pos h
    simp only [add, addSource, if_neg (Nat.ne_of_gt hpos)]
    rfl
  | transformed span text => rfl

/-- A run of additions puts their pieces one after the other where the text so far ends. -/
theorem addAll_eq (b : Builder) {as : List Addition} (h : Addition.Filled as) :
    b.addAll as =
      ⟨(Addition.pieces b.length as).reverse ++ b.pieces, b.length + Addition.length as⟩ := by
  unfold addAll
  induction as generalizing b with
  | nil => rfl
  | cons a as ih =>
    rw [List.foldl_cons, add_eq b (h a List.mem_cons_self),
      ih _ fun c hc => h c (List.mem_cons_of_mem a hc)]
    simp only [Addition.pieces, Addition.length_cons, List.reverse_cons, List.append_assoc,
      List.singleton_append, Nat.add_assoc]

theorem pieces_build_addAll {as : List Addition} (h : Addition.Filled as) :
    ((Builder.empty.addAll as).build).pieces = (Addition.pieces 0 as).toArray := by
  rw [addAll_eq empty h, build]
  simp [empty]

end Builder

/-! ### Tiles -/

namespace Tiled

/-- Of the pieces only one contains an offset. -/
theorem unique {n stop g : Nat} {before after : List Piece} {p : Piece}
    (h : Tiled n (before ++ p :: after) stop) (hp : p.generated.contains g) {j : Nat} {q : Piece}
    (hj : (before ++ p :: after)[j]? = some q) (hq : q.generated.contains g) : j = before.length := by
  obtain ⟨hbefore, -, hafter⟩ := h.split
  rw [Span.contains_iff] at hp hq
  rcases Nat.lt_trichotomy j before.length with hlt | heq | hgt
  · rw [List.getElem?_append_left hlt] at hj
    have := hbefore.mem q (List.mem_of_getElem? hj)
    omega
  · exact heq
  · obtain ⟨i, hi⟩ : ∃ i, j - before.length = i + 1 := ⟨j - before.length - 1, by omega⟩
    rw [List.getElem?_append_right (Nat.le_of_lt hgt), hi, List.getElem?_cons_succ] at hj
    have := hafter.mem q (List.mem_of_getElem? hj)
    omega

theorem pairwise {n stop : Nat} {ps : List Piece} (h : Tiled n ps stop) :
    ps.Pairwise (·.generated.start < ·.generated.start) := by
  induction h with
  | nil => exact .nil
  | cons start nonempty rest ih =>
    refine .cons (fun q hq => ?_) ih
    have := rest.mem q hq
    omega

end Tiled

/-- The pieces of a map are those of additions in their order: they stand one after the other from
the beginning of the text to its end, each with the text of its addition, and putting them in the
order of their starts changes nothing. -/
structure Tiles (m : OffsetMap) (as : List Addition) : Prop where
  size : m.size = as.length
  tiled : Tiled 0 m.pieces.toList (Addition.length as)
  piece : ∀ before a after, as = before ++ a :: after →
    m.pieces[before.length]? = some (a.piece (Addition.length before))
  sorted : (m.pieces.toList.mergeSort fun p q => p.generated.start ≤ q.generated.start) =
    m.pieces.toList

theorem tiles_of_pieces {m : OffsetMap} {as : List Addition} (h : Addition.Filled as)
    (hm : m.pieces = (Addition.pieces 0 as).toArray) : m.Tiles as where
  size := by rw [OffsetMap.size, hm, List.size_toArray, Addition.size_pieces]
  tiled := by simpa [hm] using h.tiled 0
  piece := by
    rintro before a after rfl
    have hsize := Addition.size_pieces 0 before
    rw [hm, List.getElem?_toArray, Addition.pieces_append, Nat.zero_add, ← hsize,
      List.getElem?_append_right (Nat.le_refl _), Nat.sub_self]
    rfl
  sorted := by
    have htiled := h.tiled 0
    rw [hm]
    exact List.mergeSort_of_pairwise (htiled.pairwise.imp fun hlt => by simpa using Nat.le_of_lt hlt)

/-- What a map answers for an offset: what a search from the front finds, the one piece that contains
the offset, and nothing behind the last piece. -/
structure Finds (m : OffsetMap) (stop g : Nat) : Prop where
  search : m.pieceAt? g = m.pieces.toList.find? (·.generated.contains g)
  inside : g < stop → ∃ (i : Nat) (p : Piece), m.pieces[i]? = some p ∧ p.generated.contains g ∧
    m.pieceAt? g = some p ∧
      ∀ (j : Nat) (q : Piece), m.pieces[j]? = some q → q.generated.contains g → j = i
  beyond : stop ≤ g → m.pieceAt? g = none

theorem Tiled.finds {m : OffsetMap} {stop : Nat} (h : Tiled 0 m.pieces.toList stop) (g : Nat) :
    m.Finds stop g where
  search := pieceAt?_eq_find? (Array.toArray_toList).symm h g
  inside hg := by
    obtain ⟨before, p, after, hsplit, hp⟩ := h.exists_split (Nat.zero_le g) hg
    rw [hsplit] at h
    have hpieces : m.pieces = (before ++ p :: after).toArray := by
      rw [← hsplit, Array.toArray_toList]
    refine ⟨before.length, p, by simp [hpieces], hp, ?_, fun j q hj hq => ?_⟩
    · rw [pieceAt?_eq_find? hpieces h, h.find?_eq hp]
    · rw [hpieces, List.getElem?_toArray] at hj
      exact h.unique hp hj hq
  beyond hg := by
    rw [pieceAt?_eq_find? (Array.toArray_toList).symm h, h.find?_eq_none hg]

/-- Additions of which none is empty give a map whose pieces tile their text in the order of the
additions, and for every offset the map finds the one piece that the offset is in. -/
theorem addAll_tiles {as : List Addition} (h : Addition.Filled as) :
    ((Builder.empty.addAll as).build).Tiles as ∧
      ∀ g, ((Builder.empty.addAll as).build).Finds (Addition.length as) g := by
  have htiles := tiles_of_pieces h (Builder.pieces_build_addAll h)
  exact ⟨htiles, htiles.tiled.finds⟩

/-- Copies from places out of order around a replacement, asked at the start of the second piece and
behind the last. -/
theorem addAll_tiles_outOfOrder :
    Addition.Filled [.source 7 "héllo".toList, .transformed ⟨2, 9⟩ "a💡;\n".toList,
        .source 0 "x".toList] ∧
      ∃ m : OffsetMap, m = (Builder.empty.addAll [.source 7 "héllo".toList,
          .transformed ⟨2, 9⟩ "a💡;\n".toList, .source 0 "x".toList]).build ∧
        m.Tiles [.source 7 "héllo".toList, .transformed ⟨2, 9⟩ "a💡;\n".toList,
          .source 0 "x".toList] ∧
        m.pieceAt? 5 = some ⟨⟨5, 10⟩, ⟨2, 9⟩, false⟩ ∧ m.pieceAt? 11 = none := by
  have h : Addition.Filled [.source 7 "héllo".toList, .transformed ⟨2, 9⟩ "a💡;\n".toList,
      .source 0 "x".toList] := by
    simp [Addition.Filled, Addition.text]
  obtain ⟨htiles, hfinds⟩ := addAll_tiles h
  exact ⟨h, _, rfl, htiles, by decide, (hfinds 11).beyond (by decide)⟩

end Assay.OffsetMap
