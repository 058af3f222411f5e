import Assay.Files.Tree
import Assay.Proofs.Text.Encodings
import Mathlib.Data.List.Basic

/-!
# Where paths lead

A path leads to the same place in any two trees in which it leads anywhere, and it goes on leading
there when directories are made and files written. `place?_join_inj` says that different names below
one directory lead to different places.
-/

namespace Assay

namespace Path

/-! ### Segments -/

theorem segments_ne_nil (s : List Char) : segments s ≠ [] := by
  unfold segments
  split
  · exact List.cons_ne_nil _ _
  · split
    · exact List.cons_ne_nil _ _
    · split
      · exact List.cons_ne_nil _ _
      · exact List.cons_ne_nil _ _

theorem segments_append (front rest : List Char) :
    segments (front ++ '/' :: rest) = segments front ++ segments rest := by
  induction front with
  | nil => rfl
  | cons c front ih =>
    rw [List.cons_append, segments, segments, ih]
    split
    · rfl
    · cases h : segments front with
      | nil => exact absurd h (segments_ne_nil front)
      | cons part parts => rfl

theorem segments_of_not_mem {s : List Char} (h : '/' ∉ s) : segments s = [s] := by
  induction s with
  | nil => rfl
  | cons c s ih =>
    obtain ⟨hne, hs⟩ := List.ne_and_not_mem_of_not_mem_cons h
    rw [segments, if_neg (Ne.symm hne), ih hs]

/-- A segment that names a file or a directory. -/
def IsName (name : List Char) : Prop := component? name = some (.name name) ∧ '/' ∉ name

theorem eq_of_component? {s text : List Char} (h : component? s = some (.name text)) : s = text := by
  unfold component? at h
  split at h
  · cases h
  · cases h
  · cases h
  · cases h
    rfl

theorem isName_of_mem_segments {path part text : List Char} (hpart : part ∈ segments path)
    (h : component? part = some (.name text)) : IsName text := by
  obtain rfl := eq_of_component? h
  exact ⟨h, slash_not_mem_segments path part hpart⟩

/-! ### Components -/

theorem components_of_name {path : String} {part : List Char} {parts : List (List Char)}
    (h : segments path.toList = part :: parts) (hpart : IsName part) :
    components path = (part :: parts).filterMap component? := by
  unfold components
  split
  next hroot =>
    rw [hroot] at h
    obtain rfl := (List.cons.inj h).1
    cases hpart.1
  next hhere _ =>
    rw [h] at hhere
    obtain rfl := (List.cons.inj hhere).1
    cases hpart.1
  next => rw [h]

/-- Where the components of a path are names, they are those that its segments stand for. -/
theorem filterMap_component?_of_names {path : String} {names : List (List Char)}
    (h : components path = names.map .name) :
    (segments path.toList).filterMap component? = names.map .name := by
  unfold components at h
  split at h
  · cases names <;> cases h
  · cases names <;> cases h
  · exact h

theorem segments_ofNames {name : String} {names : List String}
    (h : ∀ n ∈ name :: names, '/' ∉ n.toList) :
    segments (ofNames (name :: names)).toList = (name :: names).map String.toList := by
  induction names generalizing name with
  | nil =>
    rw [ofNames, String.intercalate_singleton]
    exact segments_of_not_mem (h name List.mem_cons_self)
  | cons next names ih =>
    obtain ⟨hname, hnames⟩ := List.forall_mem_cons.mp h
    rw [ofNames, String.intercalate_cons_cons, String.toList_append, String.toList_append]
    rw [show "/".toList = ['/'] from rfl, List.append_assoc, List.singleton_append,
      segments_append, segments_of_not_mem hname]
    rw [← ofNames, ih hnames]
    rfl

theorem filterMap_component?_names {names : List (List Char)} (h : ∀ n ∈ names, IsName n) :
    names.filterMap component? = names.map .name := by
  induction names with
  | nil => rfl
  | cons name names ih =>
    obtain ⟨hname, hnames⟩ := List.forall_mem_cons.mp h
    rw [List.filterMap_cons_some hname.1, ih hnames, List.map_cons]

theorem components_ofNames {names : List String} (hne : names ≠ [])
    (h : ∀ n ∈ names, IsName n.toList) :
    components (ofNames names) = (names.map String.toList).map .name := by
  obtain ⟨name, rest, rfl⟩ := List.exists_cons_of_ne_nil hne
  have hsegments := segments_ofNames fun n hn => (h n hn).2
  rw [components_of_name hsegments (h name List.mem_cons_self)]
  exact filterMap_component?_names (List.forall_mem_map.mpr h)

/-- A path without a file name ends with a segment that names nothing. -/
theorem last_of_fileName? {path : String} {front : List (List Char)} {part : List Char}
    (h : fileName? path = none) (hparts : segments path.toList = front ++ [part]) (text : List Char) :
    component? part ≠ some (.name text) := by
  intro hpart
  have hlast (before : List Component) (front : List (List Char)) :
      (before ++ (front ++ [part]).filterMap component?).getLast? = some (.name text) := by
    rw [List.filterMap_append, List.filterMap_cons_some hpart, List.filterMap_nil,
      ← List.append_assoc, List.getLast?_concat]
  have hcomponents : (components path).getLast? = some (.name text) := by
    unfold components
    split
    next =>
      rw [hparts]
      exact hlast [.root] front
    next parts hhere _ =>
      rw [hparts] at hhere
      cases front with
      | nil =>
        obtain rfl := (List.cons.inj hhere).1
        cases hpart
      | cons first front =>
        obtain rfl := (List.cons.inj hhere).2
        exact hlast [.here] front
    next =>
      rw [hparts]
      exact hlast [] front
  rw [fileName?, hcomponents] at h
  cases h

theorem isName_of_mem_components {path : String} {text : List Char}
    (h : .name text ∈ components path) : IsName text := by
  have hparts : .name text ∈ (segments path.toList).filterMap component? := by
    unfold components at h
    split at h
    next => exact List.mem_of_ne_of_mem (by simp) h
    next parts hhere _ =>
      rw [hhere]
      exact List.mem_of_ne_of_mem (by simp) h
    next => exact h
  obtain ⟨part, hpart, hname⟩ := List.mem_filterMap.mp hparts
  exact isName_of_mem_segments hpart hname

theorem components_of_fileName? {path name : String} (h : fileName? path = some name) :
    ∃ text, components name = [.name text] := by
  unfold fileName? at h
  split at h
  next text hlast =>
    obtain rfl := Option.some.inj h
    have hname := isName_of_mem_components (List.mem_of_getLast? hlast)
    have hsegments : segments (String.ofList text).toList = [text] := by
      rw [String.toList_ofList]
      exact segments_of_not_mem hname.2
    refine ⟨text, ?_⟩
    rw [components_of_name hsegments hname, List.filterMap_cons_some hname.1]
    rfl
  next => cases h

end Path

namespace Tree

variable {t t' : Tree} {p q : Place}

/-! ### Places above others -/

theorem isBelow_iff : isBelow p q = true ↔ p <+: q ∧ q ≠ p := by
  simp [isBelow]

theorem isBelow_dropLast (h : p ≠ []) : isBelow p.dropLast p = true := by
  refine isBelow_iff.mpr ⟨List.dropLast_prefix p, ?_⟩
  intro heq
  have hlength := congrArg List.length heq
  have hpos := List.length_pos_iff.mpr h
  rw [List.length_dropLast] at hlength
  omega

theorem isBelow_trans {r : Place} (hp : isBelow p q = true) (hq : isBelow q r = true) :
    isBelow p r = true := by
  obtain ⟨hpq, hne⟩ := isBelow_iff.mp hp
  obtain ⟨hqr, -⟩ := isBelow_iff.mp hq
  refine isBelow_iff.mpr ⟨hpq.trans hqr, ?_⟩
  rintro rfl
  exact hne (hqr.eq_of_length_le hpq.length_le)

theorem eq_or_isBelow_of_concat {name : String} (h : isBelow p (q ++ [name]) = true) :
    p = q ∨ isBelow p q = true := by
  obtain ⟨hfront, hne⟩ := isBelow_iff.mp h
  rcases List.prefix_concat_iff.mp hfront with heq | hfront
  · exact absurd heq.symm hne
  · by_cases heq : p = q
    · exact Or.inl heq
    · exact Or.inr (isBelow_iff.mpr ⟨hfront, Ne.symm heq⟩)

/-! ### Steps -/

theorem step?_eq_some {segment : List Char} (h : t.step? p segment = some q) :
    t.isDirectoryAt p = true ∧
      (Path.component? segment = none ∧ q = p ∨
        Path.component? segment = some .up ∧ p ≠ [] ∧ q = p.dropLast ∨
        ∃ text, Path.component? segment = some (.name text) ∧ q = p ++ [String.ofList text]) := by
  unfold step? at h
  split at h
  next hdirectory =>
    refine ⟨hdirectory, ?_⟩
    split at h
    next hnone => exact Or.inl ⟨hnone, (Option.some.inj h).symm⟩
    next hup =>
      split at h
      · cases h
      next hne => exact Or.inr (Or.inl ⟨hup, by simpa using hne, (Option.some.inj h).symm⟩)
    next text hname => exact Or.inr (Or.inr ⟨text, hname, (Option.some.inj h).symm⟩)
    next => cases h
  next => cases h

/-- What is a directory in the one tree is one in the other. -/
def Keeps (t t' : Tree) : Prop := ∀ p, t.isDirectoryAt p = true → t'.isDirectoryAt p = true

theorem step?_mono (h : t.Keeps t') {segment : List Char} (hstep : t.step? p segment = some q) :
    t'.step? p segment = some q := by
  obtain ⟨hdirectory, -⟩ := step?_eq_some hstep
  unfold step? at hstep ⊢
  rw [if_pos hdirectory] at hstep
  rw [if_pos (h p hdirectory), hstep]

theorem step?_unique {segment : List Char} {q' : Place} (h : t.step? p segment = some q)
    (h' : t'.step? p segment = some q') : q = q' := by
  unfold step? at h h'
  split at h
  · split at h'
    · exact Option.some.inj (h.symm.trans h')
    · cases h'
  · cases h

/-! ### Walks -/

/-- Where segments lead from a place. -/
def walk? (t : Tree) (p : Place) (segments : List (List Char)) : Option Place :=
  segments.foldlM t.step? p

theorem walk?_append (front rest : List (List Char)) :
    t.walk? p (front ++ rest) = (t.walk? p front).bind (t.walk? · rest) :=
  List.foldlM_append

theorem walk?_mono (h : t.Keeps t') {segments : List (List Char)}
    (hwalk : t.walk? p segments = some q) : t'.walk? p segments = some q := by
  induction segments generalizing p with
  | nil => exact hwalk
  | cons segment segments ih =>
    obtain ⟨r, hstep, hrest⟩ := Option.bind_eq_some_iff.mp hwalk
    exact Option.bind_eq_some_iff.mpr ⟨r, step?_mono h hstep, ih hrest⟩

theorem walk?_unique {segments : List (List Char)} {q' : Place} (h : t.walk? p segments = some q)
    (h' : t'.walk? p segments = some q') : q = q' := by
  induction segments generalizing p with
  | nil => exact Option.some.inj (h.symm.trans h')
  | cons segment segments ih =>
    obtain ⟨r, hstep, hrest⟩ := Option.bind_eq_some_iff.mp h
    obtain ⟨r', hstep', hrest'⟩ := Option.bind_eq_some_iff.mp h'
    obtain rfl := step?_unique hstep hstep'
    exact ih hrest hrest'

/-- Names lead below the place that they are taken from. -/
theorem walk?_names {segments names : List (List Char)}
    (hnames : segments.filterMap Path.component? = names.map .name)
    (h : t.walk? p segments = some q) : q = p ++ names.map String.ofList := by
  induction segments generalizing p names with
  | nil =>
    obtain rfl := List.map_eq_nil_iff.mp hnames.symm
    obtain rfl := Option.some.inj h
    simp
  | cons segment segments ih =>
    obtain ⟨r, hstep, hrest⟩ := Option.bind_eq_some_iff.mp h
    rcases (step?_eq_some hstep).2 with ⟨hnone, rfl⟩ | ⟨hup, -, -⟩ | ⟨text, hname, rfl⟩
    · rw [List.filterMap_cons_none hnone] at hnames
      exact ih hnames hrest
    · rw [List.filterMap_cons_some hup] at hnames
      cases names <;> cases hnames
    · rw [List.filterMap_cons_some hname] at hnames
      cases names with
      | nil => cases hnames
      | cons name names =>
        obtain ⟨hfirst, hothers⟩ := List.cons.inj hnames
        obtain rfl := Path.Component.name.inj hfirst
        rw [ih hothers hrest]
        simp

/-- A walk from the top leads through directories, so that all places above its end are some. -/
theorem walk?_above {segments : List (List Char)} (h : t.walk? p segments = some q)
    (hp : ∀ r, isBelow r p = true → t.isDirectoryAt r = true) :
    ∀ r, isBelow r q = true → t.isDirectoryAt r = true := by
  induction segments generalizing p with
  | nil =>
    obtain rfl := Option.some.inj h
    exact hp
  | cons segment segments ih =>
    obtain ⟨r, hstep, hrest⟩ := Option.bind_eq_some_iff.mp h
    apply ih hrest
    obtain ⟨hdirectory, hcases⟩ := step?_eq_some hstep
    rcases hcases with ⟨-, rfl⟩ | ⟨-, hne, rfl⟩ | ⟨text, -, rfl⟩
    · exact hp
    · intro s hs
      exact hp s (isBelow_trans hs (isBelow_dropLast hne))
    · intro s hs
      rcases eq_or_isBelow_of_concat hs with rfl | hs
      · exact hdirectory
      · exact hp s hs

/-! ### Paths -/

theorem place?_eq_some {path : String} (h : t.place? path = some p) :
    t.walk? [] (Path.segments path.toList) = some p := by
  obtain ⟨segments, hsegments, hwalk⟩ := Option.bind_eq_some_iff.mp h
  unfold segments? at hsegments
  split at hsegments
  · cases hsegments
  · obtain rfl := Option.some.inj hsegments
    exact hwalk

theorem place?_mono (h : t.Keeps t') {path : String} (hplace : t.place? path = some p) :
    t'.place? path = some p := by
  obtain ⟨segments, hsegments, hwalk⟩ := Option.bind_eq_some_iff.mp hplace
  exact Option.bind_eq_some_iff.mpr ⟨segments, hsegments, walk?_mono h hwalk⟩

/-- What stands behind a directory in a path is read behind the segments of the directory. -/
theorem exists_segments_join (directory : String) :
    ∃ front, ∀ rest : String,
      Path.segments (Path.join directory rest).toList = front ++ Path.segments rest.toList := by
  by_cases hempty : directory.isEmpty
  · refine ⟨[], fun rest => ?_⟩
    rw [Path.join, hempty, String.isEmpty_iff.mp hempty]
    simp
  by_cases hslash : directory.endsWith "/"
  · have hsuffix := String.Slice.endsWith_string_iff.mp
      (show directory.toSlice.endsWith "/" = true from hslash)
    rw [String.copy_toSlice] at hsuffix
    obtain ⟨front, hfront⟩ := hsuffix
    refine ⟨Path.segments front, fun rest => ?_⟩
    rw [Path.join, hslash, Bool.or_true, if_pos rfl, String.toList_append, ← hfront, List.append_assoc]
    exact Path.segments_append front rest.toList
  · refine ⟨Path.segments directory.toList, fun rest => ?_⟩
    have hplain : (directory.isEmpty || directory.endsWith "/") = false := by simp [hempty, hslash]
    rw [Path.join, hplain]
    simp only [Bool.false_eq_true, if_false, String.toList_append, List.append_assoc]
    exact Path.segments_append directory.toList rest.toList

/-- Below one directory, paths of different names lead to different places, in whatever trees. -/
theorem place?_join_inj {directory first second : String} {names names' : List (List Char)}
    (hfirst : Path.components first = names.map .name)
    (hsecond : Path.components second = names'.map .name)
    (h : t.place? (Path.join directory first) = some p)
    (h' : t'.place? (Path.join directory second) = some p) : Path.same first second = true := by
  obtain ⟨front, hfront⟩ := exists_segments_join directory
  have hwalk := place?_eq_some h
  have hwalk' := place?_eq_some h'
  rw [hfront, walk?_append] at hwalk hwalk'
  obtain ⟨b, hb, hp⟩ := Option.bind_eq_some_iff.mp hwalk
  obtain ⟨b', hb', hp'⟩ := Option.bind_eq_some_iff.mp hwalk'
  obtain rfl := walk?_unique hb hb'
  have hplace := walk?_names (Path.filterMap_component?_of_names hfirst) hp
  have hplace' := walk?_names (Path.filterMap_component?_of_names hsecond) hp'
  have hnames := List.append_cancel_left (hplace.symm.trans hplace')
  have heq : names = names' :=
    (List.map_injective_iff.mpr fun a b hab => String.ofList_injective hab) hnames
  rw [Path.same, hfirst, hsecond, heq]
  exact decide_eq_true rfl

/-- A path below a directory whose last part is no name leads to a directory. -/
theorem isDirectoryAt_of_fileName? {directory path : String} (hname : Path.fileName? path = none)
    (h : t.place? (Path.join directory path) = some p) : t.isDirectoryAt p = true := by
  obtain ⟨front, hfront⟩ := exists_segments_join directory
  obtain hnil | ⟨parts, part, hparts⟩ := List.eq_nil_or_concat' (Path.segments path.toList)
  · exact absurd hnil (Path.segments_ne_nil _)
  have hwalk := place?_eq_some h
  rw [hfront, hparts, ← List.append_assoc, walk?_append] at hwalk
  obtain ⟨q, hq, hlast⟩ := Option.bind_eq_some_iff.mp hwalk
  obtain ⟨r, hstep, hr⟩ := Option.bind_eq_some_iff.mp hlast
  obtain rfl := Option.some.inj hr
  obtain ⟨hdirectory, hcases⟩ := step?_eq_some hstep
  rcases hcases with ⟨-, rfl⟩ | ⟨-, hne, rfl⟩ | ⟨text, htext, -⟩
  · exact hdirectory
  · exact walk?_above hq (by simp [isBelow]) _ (isBelow_dropLast hne)
  · exact absurd htext (Path.last_of_fileName? hname hparts text)

/-! ### Changes -/

theorem Keeps.trans {t'' : Tree} (h : t.Keeps t') (h' : t'.Keeps t'') : t.Keeps t'' :=
  fun p hp => h' p (h p hp)

theorem isDirectoryAt_iff :
    t.isDirectoryAt p = true ↔
      p = [] ∨ p ∈ t.directories ∨ ∃ file ∈ t.files, isBelow p file.1 = true := by
  simp [isDirectoryAt, or_assoc]

theorem keeps_put (t : Tree) (place : Place) (contents : ByteArray) :
    t.Keeps (t.put place contents) := by
  intro p hp
  apply isDirectoryAt_iff.mpr
  rcases isDirectoryAt_iff.mp hp with hnil | hdirectory | ⟨file, hfile, hbelow⟩
  · exact Or.inl hnil
  · exact Or.inr (Or.inl hdirectory)
  · right
    right
    by_cases heq : file.1 = place
    · exact ⟨(place, contents), List.mem_cons_self, heq ▸ hbelow⟩
    · exact ⟨file, List.mem_cons_of_mem _ (List.mem_filter.mpr ⟨hfile, by simpa using heq⟩), hbelow⟩

theorem makeStep?_keeps {segment : List Char} {reached reached' : Tree × Place}
    (h : makeStep? reached segment = some reached') :
    reached'.1.files = reached.1.files ∧ reached.1.Keeps reached'.1 := by
  obtain ⟨t, p⟩ := reached
  obtain ⟨next, -, h⟩ := Option.bind_eq_some_iff.mp h
  split at h
  · obtain rfl := Option.some.inj h
    exact ⟨rfl, fun _ hp => hp⟩
  split at h
  · cases h
  · obtain rfl := Option.some.inj h
    refine ⟨rfl, fun p hp => isDirectoryAt_iff.mpr ?_⟩
    rcases isDirectoryAt_iff.mp hp with hnil | hdirectory | hfile
    · exact Or.inl hnil
    · exact Or.inr (Or.inl (List.mem_cons_of_mem _ hdirectory))
    · exact Or.inr (Or.inr hfile)

theorem makeDirectories?_keeps {path : String} (h : t.makeDirectories? path = some t') :
    t'.files = t.files ∧ t.Keeps t' := by
  have hfold : ∀ (segments : List (List Char)) (reached reached' : Tree × Place),
      segments.foldlM makeStep? reached = some reached' →
        reached'.1.files = reached.1.files ∧ reached.1.Keeps reached'.1 := by
    intro segments
    induction segments with
    | nil =>
      intro reached reached' h
      obtain rfl := Option.some.inj h
      exact ⟨rfl, fun _ hp => hp⟩
    | cons segment segments ih =>
      intro reached reached' h
      obtain ⟨middle, hstep, hrest⟩ := Option.bind_eq_some_iff.mp h
      obtain ⟨hfiles, hkeeps⟩ := makeStep?_keeps hstep
      obtain ⟨hfiles', hkeeps'⟩ := ih middle reached' hrest
      exact ⟨hfiles'.trans hfiles, hkeeps.trans hkeeps'⟩
  unfold makeDirectories? at h
  split at h
  · obtain rfl := Option.some.inj h
    exact ⟨rfl, fun _ hp => hp⟩
  · obtain ⟨segments, -, h⟩ := Option.bind_eq_some_iff.mp h
    obtain ⟨reached, hreached, h⟩ := Option.bind_eq_some_iff.mp h
    obtain rfl := Option.some.inj h
    exact hfold segments (t, []) reached hreached

theorem writeText?_eq_some {path text : String} (h : t.writeText? path text = some t') :
    ∃ p, t.place? path = some p ∧ t.isDirectoryAt p = false ∧ t' = t.put p text.toUTF8 := by
  obtain ⟨p, hp, h⟩ := Option.bind_eq_some_iff.mp h
  split at h
  · cases h
  next hfile => exact ⟨p, hp, by simpa using hfile, (Option.some.inj h).symm⟩

/-! ### Texts -/

theorem text?_of_place? {path : String} (h : t.place? path = some p) :
    t.text? path = (t.contents? p).bind (String.fromUTF8? ·) := by
  rw [text?, h]
  rfl

theorem exists_place? {path text : String} (h : t.text? path = some text) :
    ∃ p, t.place? path = some p := by
  obtain ⟨p, hp, -⟩ := Option.bind_eq_some_iff.mp h
  exact ⟨p, hp⟩

theorem text?_makeDirectories? {path directory : String}
    (h : t.makeDirectories? directory = some t') (hplace : t.place? path = some p) :
    t'.text? path = t.text? path := by
  obtain ⟨hfiles, hkeeps⟩ := makeDirectories?_keeps h
  rw [text?_of_place? hplace, text?_of_place? (place?_mono hkeeps hplace), contents?, contents?,
    hfiles]

theorem text?_put_self {path : String} (h : t.place? path = some p) (text : String) :
    (t.put p text.toUTF8).text? path = some text := by
  rw [text?_of_place? (place?_mono (keeps_put t p _) h), contents_put, if_pos rfl]
  exact Text.fromUTF8?_toUTF8 text

theorem text?_put_of_ne {path : String} (h : t.place? path = some p) (hne : q ≠ p)
    (contents : ByteArray) : (t.put q contents).text? path = t.text? path := by
  rw [text?_of_place? h, text?_of_place? (place?_mono (keeps_put t q contents) h), contents_put,
    if_neg hne]

end Tree

end Assay
