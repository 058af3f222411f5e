import Assay.Proofs.Coverage.Hits
import Assay.Proofs.Coverage.Resolved

/-!
# Reports of several sources

The reports of sources are put together by path: a path keeps the place at which it came first and
holds the report that came last. `reportOfScripts_merges` says so of the report of captured scripts.
-/

namespace Assay.Coverage

/-! ### Values by path -/

namespace ByPath

variable {α : Type} {path : String} {value : α} {r : ByPath α}

theorem keys_put (path : String) (value : α) (r : ByPath α) :
    (put path value r).map (·.1) =
      if path ∈ r.map (·.1) then r.map (·.1) else r.map (·.1) ++ [path] := by
  induction r with
  | nil => rfl
  | cons entry r ih =>
    obtain ⟨p, v⟩ := entry
    unfold put
    by_cases hp : p = path
    · simp [hp]
    · have hp' : path ≠ p := Ne.symm hp
      rw [if_neg hp, List.map_cons, ih]
      by_cases hr : path ∈ r.map (·.1)
      · simp [hr]
      · simp [hr, hp']

/-- A value that is put replaces the one under its path and no other. -/
theorem mem_put (hkeys : (r.map (·.1)).Nodup) {entry : String × α}
    (h : entry ∈ put path value r) : entry = (path, value) ∨ (entry ∈ r ∧ entry.1 ≠ path) := by
  induction r with
  | nil => exact Or.inl (List.mem_singleton.mp h)
  | cons first r ih =>
    obtain ⟨p, v⟩ := first
    obtain ⟨hnot, hkeys⟩ := List.nodup_cons.mp hkeys
    unfold put at h
    by_cases hp : p = path
    · rw [if_pos hp] at h
      refine (List.mem_cons.mp h).imp_right fun h => ⟨List.mem_cons_of_mem _ h, fun heq => hnot ?_⟩
      rw [hp]
      exact List.mem_map.mpr ⟨entry, h, heq⟩
    · rw [if_neg hp] at h
      rcases List.mem_cons.mp h with rfl | h
      · exact Or.inr ⟨List.mem_cons_self, hp⟩
      · exact (ih hkeys h).imp_right fun h => ⟨List.mem_cons_of_mem _ h.1, h.2⟩

/-- Values in the order in which their paths came first, of each path the value that came last. -/
structure Collects (entries : List (String × α)) (r : ByPath α) : Prop where
  keys : r.map (·.1) = (entries.map (·.1)).eraseDups
  nodup : (r.map (·.1)).Nodup
  last : ∀ entry ∈ r, ∃ front back, entries = front ++ entry :: back ∧
    ∀ later ∈ back, later.1 ≠ entry.1

theorem eraseDups_concat (paths : List String) (path : String) :
    (paths ++ [path]).eraseDups =
      if path ∈ paths then paths.eraseDups else paths.eraseDups ++ [path] := by
  rw [List.eraseDups_append, List.cons_removeAll]
  by_cases h : path ∈ paths
  · simp [h, List.removeAll]
  · simp [h, List.removeAll, List.eraseDups_cons]

theorem Collects.put {entries : List (String × α)} (h : Collects entries r) (path : String)
    (value : α) : Collects (entries ++ [(path, value)]) (ByPath.put path value r) := by
  constructor
  case keys =>
    rw [keys_put, List.map_append, List.map_singleton, eraseDups_concat, h.keys]
    simp only [List.mem_eraseDups]
  case nodup =>
    rw [keys_put]
    split
    next => exact h.nodup
    next hnot =>
      refine List.nodup_append.mpr ⟨h.nodup, List.pairwise_singleton _ _,
        fun p hp q hq heq => hnot ?_⟩
      rwa [← List.mem_singleton.mp hq, ← heq]
  case last =>
    intro entry hentry
    rcases mem_put h.nodup hentry with rfl | ⟨hentry, hne⟩
    · exact ⟨entries, [], rfl, by simp⟩
    · obtain ⟨front, back, rfl, hlater⟩ := h.last entry hentry
      refine ⟨front, back ++ [(path, value)], by simp, fun later hmem => ?_⟩
      rcases List.mem_append.mp hmem with hmem | hmem
      · exact hlater later hmem
      · rw [List.mem_singleton.mp hmem]
        exact Ne.symm hne

/-- Values that are put one after the other, by induction from the last one on. -/
theorem collects_foldl (entries : List (String × α)) :
    Collects entries (entries.foldl (fun r entry => ByPath.put entry.1 entry.2 r) []) := by
  induction entries using List.reverseRecOn with
  | nil => exact ⟨rfl, List.nodup_nil, by simp⟩
  | append_singleton entries entry ih =>
    rw [List.foldl_concat]
    exact ih.put entry.1 entry.2

end ByPath

/-! ### The report of records -/

/-- The report of a source, from its text and its ranges. -/
def Record.file (root : Option String) (r : Record) : FileReport :=
  fileReport root ⟨0, r.url, r.text, [r.ranges.map (⟨·, 1⟩)]⟩

theorem Record.path_file (root : Option String) (r : Record) :
    (r.file root).path = reportPath root r.url := rfl

/-- Nothing is hit in a source without ranges. -/
theorem Record.hits_file {r : Record} (h : r.ranges = []) (root : Option String) :
    ∀ s ∈ (r.file root).statements, s.hits = 0 := by
  intro s hs
  obtain ⟨place, -, rfl⟩ := mem_statements.mp hs
  simp [StatementPlace.statement, executedSpans, h]

/-- The numbers of runtime scripts do not matter to their report. -/
theorem report_runtimeScripts (root : Option String) (rs : List Record) :
    report root (runtimeScripts rs) =
      (rs.map fun r => (reportPath root r.url, r.file root)).foldl
        (fun r entry => ByPath.put entry.1 entry.2 r) [] := by
  have hrecords := List.zipIdx_map_fst 0 rs
  rw [report, runtimeScripts, List.foldl_map, List.foldl_map]
  conv_rhs => rw [← hrecords, List.foldl_map]
  rfl

theorem collects_report (root : Option String) (rs : List Record) :
    ByPath.Collects (rs.map fun r => (reportPath root r.url, r.file root))
      (report root (runtimeScripts rs)) := by
  rw [report_runtimeScripts]
  exact ByPath.collects_foldl _

theorem keys_report (root : Option String) (rs : List Record) :
    (report root (runtimeScripts rs)).map (·.1) = (rs.map (reportPath root ·.url)).eraseDups := by
  rw [(collects_report root rs).keys, List.map_map]
  rfl

/-- A record of a path behind which no other record of that path comes. -/
def IsLast (root : Option String) (rs : List Record) (path : String) (r : Record) : Prop :=
  ∃ front back, rs = front ++ r :: back ∧ reportPath root r.url = path ∧
    ∀ later ∈ back, reportPath root later.url ≠ path

theorem IsLast.unique {root : Option String} {rs : List Record} {path : String} {r r' : Record}
    (h : IsLast root rs path r) (h' : IsLast root rs path r') : r = r' := by
  obtain ⟨front, back, rfl, hpath, hlater⟩ := h
  obtain ⟨front', back', hrs, hpath', hlater'⟩ := h'
  rcases List.append_eq_append_iff.mp hrs with ⟨rest, -, hback⟩ | ⟨rest, -, hback⟩
  · cases rest with
    | nil => exact (List.cons.inj hback).1
    | cons first rest =>
      obtain ⟨-, rfl⟩ := List.cons.inj hback
      exact absurd hpath' (hlater r' (by simp))
  · cases rest with
    | nil => exact (List.cons.inj hback).1.symm
    | cons first rest =>
      obtain ⟨-, rfl⟩ := List.cons.inj hback
      exact absurd hpath (hlater' r (by simp))

/-- A report with the file of the last record of each path. -/
structure Merges (root : Option String) (rs : List Record) (report : Report) : Prop where
  path : ∀ entry ∈ report, entry.2.path = entry.1
  last : ∀ entry ∈ report, ∃ r, IsLast root rs entry.1 r ∧ entry.2 = r.file root
  /-- A record without ranges has a file in which nothing is hit, and only the file of a later
  record of its path takes its place. -/
  unhit : ∀ r ∈ rs, r.ranges = [] → reportPath root r.url ∈ report.map (·.1) ∧
    (∀ s ∈ (r.file root).statements, s.hits = 0) ∧
      (IsLast root rs (reportPath root r.url) r → (reportPath root r.url, r.file root) ∈ report)

theorem merges_report (root : Option String) (rs : List Record) :
    Merges root rs (report root (runtimeScripts rs)) := by
  have hlast : ∀ entry ∈ report root (runtimeScripts rs),
      ∃ r, IsLast root rs entry.1 r ∧ entry.2 = r.file root := by
    intro entry hentry
    obtain ⟨front, back, hsplit, hlater⟩ := (collects_report root rs).last entry hentry
    obtain ⟨front, rest, rfl, -, hrest⟩ := List.map_eq_append_iff.mp hsplit
    obtain ⟨r, back, rfl, rfl, rfl⟩ := List.map_eq_cons_iff.mp hrest
    refine ⟨r, ⟨front, back, rfl, rfl, fun later hmem => ?_⟩, rfl⟩
    exact hlater _ (List.mem_map_of_mem hmem)
  refine ⟨fun entry hentry => ?_, hlast, fun r hr hranges => ?_⟩
  · obtain ⟨r, ⟨-, -, -, hpath, -⟩, hfile⟩ := hlast entry hentry
    rw [hfile, r.path_file, hpath]
  · have hkey : reportPath root r.url ∈ (report root (runtimeScripts rs)).map (·.1) := by
      rw [keys_report, List.mem_eraseDups]
      exact List.mem_map_of_mem hr
    refine ⟨hkey, Record.hits_file hranges root, fun hr => ?_⟩
    obtain ⟨entry, hentry, hpath⟩ := List.mem_map.mp hkey
    obtain ⟨r', hr', hfile⟩ := hlast entry hentry
    rw [hpath] at hr'
    -- the entry under the path is of a last record too, and there is one only
    obtain rfl := hr.unique hr'
    rwa [← hfile, ← hpath]

/-! ### The report of captured scripts -/

/-- Only the first of captured scripts counts, and its report fails as resolving it does. Else the
paths of the report are those of the sources that are not left out, in the order of the map and each
where it comes first, and its files are those of the last records of the paths. -/
theorem reportOfScripts_merges (options : Options) :
    reportOfScripts [] options = .ok [] ∧
    ∀ script rest,
      (∀ others, reportOfScripts (script :: others) options =
        reportOfScripts (script :: rest) options) ∧
      (∀ e, reportOfScripts (script :: rest) options = .error e ↔
        resolve script options = .error e) ∧
      ∀ rs, resolve script options = .ok rs →
        ∃ map report, SourceMap.ofInline script.text.toList = .ok map ∧
          reportOfScripts (script :: rest) options = .ok report ∧
          rs.map Record.origin =
            (map.sources.zip map.contents).filter (!options.isExcluded ·.1) ∧
          report.map (·.1) = ((map.sources.filter (!options.isExcluded ·)).map
            (reportPath options.root)).eraseDups ∧
          Merges options.root rs report := by
  refine ⟨rfl, fun script rest => ⟨fun others => rfl, fun e => ?_, fun rs hrs => ?_⟩⟩
  · rw [reportOfScripts]
    cases resolve script options <;> simp [Except.map]
  · cases hmap : SourceMap.ofInline script.text.toList with
    | error cause =>
      rw [resolve_of_ofInline_error hmap] at hrs
      cases hrs
    | ok map =>
      have horigins : rs.map Record.origin =
          (map.sources.zip map.contents).filter (!options.isExcluded ·.1) := by
        rw [resolve_of_ofInline hmap] at hrs
        rw [← Except.ok.inj hrs, map_origin_records, map_fst_recordedSources_eq_filter]
      have hcontents := (SourceMap.wellFormed_of_ofInline hmap).contents
      have hurls : rs.map (·.url) = map.sources.filter (!options.isExcluded ·) :=
        calc rs.map (·.url)
            = (rs.map Record.origin).map (·.1) := by rw [List.map_map]; rfl
          _ = ((map.sources.zip map.contents).map (·.1)).filter (!options.isExcluded ·) := by
              rw [horigins, List.filter_map]
              rfl
          _ = map.sources.filter (!options.isExcluded ·) := by
              rw [List.map_fst_zip (Nat.le_of_eq hcontents.symm)]
      refine ⟨map, report options.root (runtimeScripts rs), rfl, ?_, horigins, ?_,
        merges_report options.root rs⟩
      · rw [reportOfScripts, hrs]
        rfl
      · rw [keys_report, ← hurls, List.map_map]
        rfl

/-- Two sources of one path below a root, of which the second has no range, and one that is left
out. -/
def twinMap : SourceMap :=
  ⟨["a.js", "file:///w/a.js", "lib/b.js"], ["x", "y\n\nz", "b"], [],
    [⟨⟨1, 0⟩, some ⟨0, 1, 0, none⟩⟩, ⟨⟨1, 1⟩, some ⟨0, 1, 1, none⟩⟩]⟩

def twinScript : Script :=
  ⟨"bundle.js", String.ofList ("x\n".toList ++ twinMap.toInline.toList), [⟨0, 1⟩]⟩

/-- The second source has the path of the first one and takes its place, with nothing hit. -/
theorem reportOfScripts_merges_twins :
    ∃ rs, resolve twinScript ⟨none, ["lib/"], some "/w"⟩ = .ok rs ∧
      ∃ report, reportOfScripts [twinScript, wovenScript] ⟨none, ["lib/"], some "/w"⟩ =
        .ok report ∧ report.map (·.1) = ["/w/a.js"] ∧ Merges (some "/w") rs report := by
  have hmap : SourceMap.ofInline twinScript.text.toList = .ok twinMap := by
    have hwell : twinMap.WellFormed := by decide
    have hcarried := @SourceMap.ofInline_toInline twinMap "x\n".toList [] rfl (by decide)
    rw [List.append_nil, hwell.ofJson_toJson_iff.mpr (by decide)] at hcarried
    rw [twinScript, String.toList_ofList, hcarried]
  have hrs := resolve_of_ofInline hmap ⟨none, ["lib/"], some "/w"⟩
  obtain ⟨-, hscripts⟩ := reportOfScripts_merges ⟨none, ["lib/"], some "/w"⟩
  obtain ⟨-, -, hreport⟩ := hscripts twinScript [wovenScript]
  obtain ⟨map, report, hmap', hreport, -, hkeys, hmerges⟩ := hreport _ hrs
  obtain rfl : twinMap = map := Except.ok.inj (hmap.symm.trans hmap')
  exact ⟨_, hrs, report, hreport, hkeys.trans (by decide), hmerges⟩

end Assay.Coverage
