import Cobrust.Pkg.ManifestDocument

/-!
# The round trip of manifests

* `read_document`: the document of a valid manifest is read as the raw form of the manifest.
* `text_of_get`: in a document that is read as a manifest, the strings stand where the canonical text has them.
* `parseStr_canonicalToml`: the canonical text of a manifest is parsed to it if and only if the manifest is plain.
-/

namespace Cobrust.Pkg

open Cobrust.Store
open Cobrust.Toml

variable {Req : Type} {c : Crates Req}

/-! ## The document is read as the manifest -/

theorem read_authors (authors : List String) :
    readArray readString (Entry.strings (authors.map quoteEncoder.written)).value = some authors := by
  rw [Entry.value, List.map_map]
  exact readStrings_array authors

theorem read_package (p : PackageTable) : PackageTable.read (tableValue p.rows) = some p := by
  have hauthors := read_authors p.authors
  obtain ⟨name, version, cobrustVersion, authors, license, description⟩ := p
  rw [tableValue, PackageTable.read, Value.field, Option.bind_eq_bind, Option.bind_some]
  simp only [lookup_value]
  cases authors with
  | nil => cases license <;> cases description <;> rfl
  | cons a as =>
    have hrows : List.lookup "authors" (PackageTable.rows ⟨name, version, cobrustVersion, a :: as, license, description⟩) =
        some (.strings ((a :: as).map quoteEncoder.written)) := rfl
    rw [hrows, Option.map_some, defaultAt, hauthors]
    cases license <;> cases description <;> rfl

theorem read_target (t : TargetTable) : TargetTable.read (tableValue t.rows) = some t :=
  rfl

theorem read_spec (spec : DependencySpec Req) : RawDependency.read (spec.entry c).value = some (spec.raw c) := by
  cases spec <;> rfl

theorem readMap_dependencies {rows : List (String × Dependency Req)} (h : SortedRows rows) :
    RawDependency.readMap (tableValue (rows.map fun row => (row.1, row.2.spec.entry c))) =
      some (rows.map fun row => (row.1, row.2.spec.raw c)) := by
  have hrows : (rows.map fun row => (row.1, (row.2.spec.entry c).value)).mapM RawDependency.readRow =
      some (rows.map fun row => (row.1, row.2.spec.raw c)) := by
    rw [mapM_eq_some, List.forall₂_map_left_iff, List.forall₂_map_right_iff, List.forall₂_same]
    intro row _
    rw [RawDependency.readRow, read_spec]
    rfl
  have hsorted : SortedRows (rows.map fun row => (row.1, row.2.spec.raw c)) := by
    rw [SortedRows, List.map_map]
    exact h
  rw [RawDependency.readMap, tableValue, List.map_map, Value.rows, Option.bind_eq_bind, Option.bind_some]
  change (List.mapM RawDependency.readRow (rows.map fun row => (row.1, (row.2.spec.entry c).value)) >>= _) = _
  rw [hrows, Option.bind_eq_bind, Option.bind_some, sortRows_of_sorted hsorted]
  rfl

variable (c) in
/-- The row that a table of dependencies adds to the document. -/
def dependenciesValue (rows : List (String × Dependency Req)) : Option Value :=
  if rows.isEmpty then none else some (tableValue (rows.map fun row => (row.1, row.2.spec.entry c)))

def testsValue (tests : List TargetTable) : Option Value :=
  if tests.isEmpty then none else some (.array (tests.map fun t => tableValue t.rows))

theorem lookup_dependencies (name key : String) (rows : List (String × Dependency Req)) :
    ((dependencySection c name rows).filterMap Section.row).lookup key =
      if key = name then dependenciesValue c rows else none := by
  rw [dependencySection, dependenciesValue]
  by_cases hempty : rows.isEmpty
  · simp [hempty]
  · rw [if_neg hempty, if_neg hempty]
    exact lookup_row

theorem lookup_target (name key : String) (t : Option TargetTable) :
    ((targetSection name t).filterMap Section.row).lookup key =
      if key = name then t.map (fun t => tableValue t.rows) else none := by
  cases t with
  | none => simp [targetSection]
  | some t => exact lookup_row

theorem lookup_tests (key : String) (tests : List TargetTable) :
    ([Section.tables "test" (tests.map TargetTable.rows)].filterMap Section.row).lookup key =
      if key = "test" then testsValue tests else none := by
  cases tests with
  | nil => simp [testsValue, Section.row]
  | cons t tests =>
    rw [testsValue, List.isEmpty_cons, if_neg Bool.false_ne_true]
    exact lookup_row.trans (by simp [List.map_map, Function.comp_def])

theorem lookup_document (key : String) (m : Manifest Req) :
    (m.document c).value.lookup key =
      ((((((if key = "package" then some (tableValue m.package.rows) else none).or
        (if key = "dependencies" then dependenciesValue c m.dependencies else none)).or
        (if key = "dev-dependencies" then dependenciesValue c m.devDependencies else none)).or
        (if key = "bin" then m.bin.map (fun t => tableValue t.rows) else none)).or
        (if key = "lib" then m.lib.map (fun t => tableValue t.rows) else none)).or
        (if key = "test" then testsValue m.tests else none)) := by
  have hpackage : ([Section.table false "package" m.package.rows].filterMap Section.row).lookup key =
      if key = "package" then some (tableValue m.package.rows) else none := lookup_row
  rw [Document.value, Manifest.document]
  simp only [List.filterMap_append, List.lookup_append, lookup_dependencies, lookup_target, lookup_tests, hpackage]

theorem read_dependenciesValue {rows : List (String × Dependency Req)} (h : SortedRows rows) :
    defaultAt [] RawDependency.readMap (dependenciesValue c rows) =
      some (rows.map fun row => (row.1, row.2.spec.raw c)) := by
  rw [dependenciesValue]
  split_ifs with hempty
  · rw [List.isEmpty_iff.1 hempty]
    rfl
  · exact readMap_dependencies h

theorem read_targetValue (t : Option TargetTable) :
    optionalAt TargetTable.read (t.map fun t => tableValue t.rows) = some t := by
  cases t <;> rfl

theorem read_testsValue (tests : List TargetTable) :
    defaultAt [] (readArray TargetTable.read) (testsValue tests) = some tests := by
  rw [testsValue]
  split_ifs with hempty
  · rw [List.isEmpty_iff.1 hempty]
    rfl
  · rw [defaultAt, readArray, mapM_eq_some, List.forall₂_map_left_iff, List.forall₂_same]
    exact fun t _ => read_target t

/-- The document of a valid manifest is read as the raw form of the manifest. -/
theorem read_document {m : Manifest Req} (h : m.Valid c) : RawManifest.read (m.document c).value = some (m.raw c) := by
  simp only [read_eq_some, lookup_document]
  refine ⟨?_, ?_, ?_, ?_, ?_, ?_, ?_⟩
  · simp [optionalAt, read_package, Manifest.raw]
  · simp [Manifest.raw]
  · simpa [Manifest.raw] using read_dependenciesValue h.sorted
  · simpa [Manifest.raw] using read_dependenciesValue h.devSorted
  · simpa [Manifest.raw] using read_targetValue m.bin
  · simpa [Manifest.raw] using read_targetValue m.lib
  · simpa [Manifest.raw] using read_testsValue m.tests

/-! ## Strings that are read from a document stand where they were written -/

variable {v : Value} {q : List Step} {w : Written} {s : String}

theorem target_text {t : TargetTable} (hread : TargetTable.read v = some t) {row : String × Entry}
    (hrow : row ∈ t.rows) (hslot : row.2.Slot [.key row.1] q w) (hget : v.get q = some (.string s)) : s = w.text := by
  obtain ⟨field, hfield, hread⟩ := Option.bind_eq_some_iff.1 hread
  obtain ⟨name, hname, hread⟩ := Option.bind_eq_some_iff.1 hread
  obtain ⟨path, hpath, hread⟩ := Option.bind_eq_some_iff.1 hread
  cases hread
  rcases List.mem_cons.1 hrow with rfl | hrow
  · obtain ⟨rfl, rfl⟩ := hslot
    exact required_text hfield hname hget
  · rw [List.mem_singleton] at hrow
    subst hrow
    obtain ⟨rfl, rfl⟩ := hslot
    exact required_text hfield hpath hget

theorem package_text {p : PackageTable} (hread : PackageTable.read v = some p) {row : String × Entry}
    (hrow : row ∈ p.rows) (hslot : row.2.Slot [.key row.1] q w) (hget : v.get q = some (.string s)) : s = w.text := by
  obtain ⟨field, hfield, hread⟩ := Option.bind_eq_some_iff.1 hread
  obtain ⟨name, hname, hread⟩ := Option.bind_eq_some_iff.1 hread
  obtain ⟨version, hversion, hread⟩ := Option.bind_eq_some_iff.1 hread
  obtain ⟨cobrustVersion, hcobrust, hread⟩ := Option.bind_eq_some_iff.1 hread
  obtain ⟨authors, hauthors, hread⟩ := Option.bind_eq_some_iff.1 hread
  obtain ⟨license, hlicense, hread⟩ := Option.bind_eq_some_iff.1 hread
  obtain ⟨description, hdescription, hread⟩ := Option.bind_eq_some_iff.1 hread
  cases hread
  rw [PackageTable.rows, List.mem_append, List.mem_append, List.mem_append] at hrow
  rcases hrow with ((hrow | hrow) | hrow) | hrow
  · simp only [List.mem_cons, List.not_mem_nil, or_false] at hrow
    rcases hrow with rfl | rfl | rfl
    · obtain ⟨rfl, rfl⟩ := hslot
      exact required_text hfield hname hget
    · obtain ⟨rfl, rfl⟩ := hslot
      exact required_text hfield hversion hget
    · obtain ⟨rfl, rfl⟩ := hslot
      exact required_text hfield hcobrust hget
  · -- an author is an item of the array
    have hrow : row = ("authors", .strings (authors.map quoteEncoder.written)) := by
      split_ifs at hrow
      · exact absurd hrow List.not_mem_nil
      · exact List.mem_singleton.1 hrow
    subst hrow
    obtain ⟨i, hi, rfl⟩ := hslot
    obtain ⟨v', hv', hitem⟩ := field_of_get hfield hget
    rw [hv'] at hauthors
    have hauthor := readStrings_item hauthors hitem
    rw [List.getElem?_map, hauthor] at hi
    cases hi
    rfl
  · obtain ⟨text, htext, rfl⟩ := List.mem_map.1 hrow
    obtain ⟨rfl, rfl⟩ := hslot
    have hsome := optional_text hfield hlicense hget
    rw [Option.mem_toList, hsome] at htext
    cases htext
    rfl
  · obtain ⟨text, htext, rfl⟩ := List.mem_map.1 hrow
    obtain ⟨rfl, rfl⟩ := hslot
    have hsome := optional_text hfield hdescription hget
    rw [Option.mem_toList, hsome] at htext
    cases htext
    rfl

/-- The fields of a raw table that its lowered form shows. -/
def DependencySpec.Shows (path git rev registry : Option String) : DependencySpec Req → Prop
  | .version _ => False
  | .path p => path = some p
  | .git url r => git = some url ∧ rev = some r
  | .registry _ r => registry.getD "default" = r

theorem shows_of_lowerSpec {name : String} {version path git rev registry : Option String}
    {spec : DependencySpec Req} (h : lowerSpec c name (.table version path git rev registry) = .ok spec) :
    spec.Shows path git rev registry := by
  rw [lowerSpec.eq_def] at h
  dsimp only at h
  split at h
  · cases h
  · split_ifs at h
    cases h
    rfl
  · split at h
    · cases h
      exact ⟨rfl, rfl⟩
    · cases h
  · obtain ⟨req, -, h⟩ := Control.except_bind_ok.1 h
    cases h
    rfl

/-- A string of a table that is read as a dependency is what the variant of the dependency holds. -/
theorem table_text {raw : RawDependency} {key : String} (hread : RawDependency.read v = some raw)
    (hget : v.get [.key key] = some (.string s)) :
    ∃ version path git rev registry, raw = .table version path git rev registry ∧
      (key = "path" → path = some s) ∧ (key = "git" → git = some s) ∧ (key = "rev" → rev = some s) ∧
      (key = "registry" → registry = some s) := by
  obtain ⟨rows, v', rfl, hlookup, hnil⟩ := get_key hget
  cases get_nil.1 hnil
  obtain ⟨version, -, hread⟩ := Option.bind_eq_some_iff.1 hread
  obtain ⟨path, hpath, hread⟩ := Option.bind_eq_some_iff.1 hread
  obtain ⟨git, hgit, hread⟩ := Option.bind_eq_some_iff.1 hread
  obtain ⟨rev, hrev, hread⟩ := Option.bind_eq_some_iff.1 hread
  obtain ⟨registry, hregistry, hread⟩ := Option.bind_eq_some_iff.1 hread
  cases hread
  have hfield {field : Option String} (h : optionalAt readString (rows.lookup key) = some field) : field = some s := by
    rw [hlookup] at h
    cases h
    rfl
  refine ⟨version, path, git, rev, registry, rfl, ?_, ?_, ?_, ?_⟩
  · rintro rfl
    exact hfield hpath
  · rintro rfl
    exact hfield hgit
  · rintro rfl
    exact hfield hrev
  · rintro rfl
    exact hfield hregistry

theorem spec_text {raw : RawDependency} {name : String} {spec : DependencySpec Req}
    (hplain : ∀ req, spec.req? = some req → IsPlain (c.displayReq req)) (hread : RawDependency.read v = some raw)
    (hlower : lowerSpec c name raw = .ok spec) (hslot : (spec.entry c).Slot [] q w)
    (hget : v.get q = some (.string s)) : w.Decodes ∨ s = w.text := by
  cases spec with
  | version req =>
    obtain ⟨-, rfl⟩ := hslot
    exact .inl (decodes_plain.2 (hplain req rfl))
  | path p =>
    obtain ⟨row, hrow, rfl, rfl⟩ := hslot
    cases List.mem_singleton.1 hrow
    obtain ⟨version, path, git, rev, registry, rfl, hpath, -⟩ := table_text hread hget
    have hshows : path = some p := shows_of_lowerSpec hlower
    rw [hpath rfl, Option.some.injEq] at hshows
    exact .inr hshows
  | git url r =>
    obtain ⟨row, hrow, rfl, rfl⟩ := hslot
    obtain ⟨version, path, git, rev, registry, rfl, -, hgit, hrev, -⟩ := table_text hread hget
    obtain ⟨hurl, hr⟩ : git = some url ∧ rev = some r := shows_of_lowerSpec hlower
    simp only [List.mem_cons, List.not_mem_nil, or_false] at hrow
    rcases hrow with rfl | rfl
    · rw [hgit rfl, Option.some.injEq] at hurl
      exact .inr hurl
    · rw [hrev rfl, Option.some.injEq] at hr
      exact .inr hr
  | registry req r =>
    obtain ⟨row, hrow, rfl, rfl⟩ := hslot
    simp only [List.mem_cons, List.not_mem_nil, or_false] at hrow
    rcases hrow with rfl | rfl
    · exact .inl (decodes_plain.2 (hplain req rfl))
    · obtain ⟨version, path, git, rev, registry, rfl, -, -, -, hregistry⟩ := table_text hread hget
      have hr : registry.getD "default" = r := shows_of_lowerSpec hlower
      rw [hregistry rfl, Option.getD_some] at hr
      exact .inr hr

/-- What stands under a key of a map of dependencies is what the row of the map is read from. -/
theorem lookup_readMap {rows : List (String × RawDependency)} {key : String} {x : Value}
    (hread : RawDependency.readMap v = some rows) (hget : v.get (.key key :: q) = some x) :
    ∃ v' raw, v'.get q = some x ∧ RawDependency.read v' = some raw ∧ rows.lookup key = some raw := by
  obtain ⟨values, v', rfl, hlookup, hx⟩ := get_key hget
  obtain ⟨deps, hdeps, hread⟩ := Option.bind_eq_some_iff.1 hread
  cases hread
  refine ⟨v', ?_⟩
  rw [lookup_sortRows]
  have hforall := mapM_eq_some.1 hdeps
  clear hdeps hget hread
  induction hforall with
  | nil => cases hlookup
  | @cons value dep values deps hrow _ ih =>
    obtain ⟨raw, hraw, hdep⟩ := Option.map_eq_some_iff.1 hrow
    subst hdep
    rw [List.lookup_cons] at hlookup ⊢
    cases hkey : key == value.1 with
    | true =>
      rw [hkey] at hlookup
      cases hlookup
      exact ⟨raw, hx, hraw, rfl⟩
    | false =>
      rw [hkey] at hlookup
      exact ih hlookup

theorem dependencies_text {raw : List (String × RawDependency)} {rows : List (String × Dependency Req)}
    (hplain : ∀ row ∈ rows, ∀ req, row.2.spec.req? = some req → IsPlain (c.displayReq req))
    (hread : RawDependency.readMap v = some raw) (hlower : lowerDependencies c raw = .ok rows)
    {row : String × Dependency Req} (hrow : row ∈ rows) (hslot : (row.2.spec.entry c).Slot [.key row.1] q w)
    (hget : v.get q = some (.string s)) : w.Decodes ∨ s = w.text := by
  obtain ⟨q, rfl, hentry⟩ := slot_cons hslot
  obtain ⟨v', dep, hget, hdep, hlookup⟩ := lookup_readMap hread hget
  obtain ⟨dep', hmem, hlower⟩ := raw_of_lowered hlower hrow
  rw [lookup_of_mem (sorted_of_readMap hread) hmem, Option.some.injEq] at hlookup
  subst hlookup
  exact spec_text (hplain row hrow) hdep (lowerDependency_ok.1 hlower).2.1 hentry hget

theorem mem_dependencySection {name : String} {rows : List (String × Dependency Req)} {p : List Step}
    {sec : Section} (hsec : sec ∈ dependencySection c name rows) (hslot : sec.Slot p w) :
    ∃ q, p = .key name :: q ∧ ∃ row ∈ rows, (row.2.spec.entry c).Slot [.key row.1] q w := by
  rw [dependencySection] at hsec
  split_ifs at hsec
  · exact absurd hsec List.not_mem_nil
  · rw [List.mem_singleton] at hsec
    subst hsec
    obtain ⟨entry, hentry, hslot⟩ := hslot
    obtain ⟨row, hrow, rfl⟩ := List.mem_map.1 hentry
    obtain ⟨q, rfl, hrest⟩ := slot_cons hslot
    exact ⟨q, rfl, row, hrow, hrest⟩

theorem mem_targetSection {name : String} {target : Option TargetTable} {p : List Step} {sec : Section}
    (hsec : sec ∈ targetSection name target) (hslot : sec.Slot p w) :
    ∃ q t, target = some t ∧ p = .key name :: q ∧ ∃ row ∈ t.rows, row.2.Slot [.key row.1] q w := by
  obtain ⟨t, ht, rfl⟩ := List.mem_map.1 hsec
  obtain ⟨row, hrow, hslot⟩ := hslot
  obtain ⟨q, rfl, hrest⟩ := slot_cons hslot
  exact ⟨q, t, Option.mem_toList.1 ht, rfl, row, hrow, hrest⟩

/-- In a document that is read as a manifest, the strings are what the manifest has where the canonical text has
them, or were plain anyhow. -/
theorem text_of_get {root : Root} {raw : RawManifest} {m : Manifest Req} {p : List Step} (hlaws : c.Laws)
    (hread : RawManifest.read root = some raw) (hlower : raw.lower c = .ok m) (h : m.Valid c)
    (hmem : .string p w ∈ (m.document c).pieces) (hget : (Value.table root).get p = some (.string s)) :
    w.Decodes ∨ s = w.text := by
  obtain ⟨hpackage, -, hdeps, hdev, hbin, hlib, htest⟩ := read_eq_some.1 hread
  obtain ⟨hpackage', -, -, -, hdeps', hdev', -, hbin', hlib', htest'⟩ := lower_ok.1 hlower
  have hplain {rows : List (String × Dependency Req)} (hrows : ∀ row ∈ rows, ValidRow c row) :
      ∀ row ∈ rows, ∀ req, row.2.spec.req? = some req → IsPlain (c.displayReq req) := by
    intro row hrow req hsome
    obtain ⟨s, hs⟩ := (hrows row hrow).2.2 req hsome
    exact hlaws.req_plain s req hs
  have htarget {q : List Step} {v : Option Value} {v' : Value} {t : TargetTable} {row : String × Entry}
      (hread : optionalAt TargetTable.read v = some (some t)) (hv : v = some v') (hrow : row ∈ t.rows)
      (hslot : row.2.Slot [.key row.1] q w) (hget : v'.get q = some (.string s)) : s = w.text := by
    subst hv
    obtain ⟨t', hread, ht⟩ := Option.map_eq_some_iff.1 hread
    cases ht
    exact target_text hread hrow hslot hget
  obtain ⟨sec, hsec, hslot⟩ := mem_pieces.1 hmem
  rw [Manifest.document] at hsec
  simp only [List.mem_append, List.mem_singleton] at hsec
  rcases hsec with ((((rfl | hsec) | hsec) | hsec) | hsec) | rfl
  · obtain ⟨row, hrow, hslot⟩ := hslot
    obtain ⟨q, rfl, hrest⟩ := slot_cons hslot
    obtain ⟨v, hv, hget⟩ := get_root hget
    rw [hv, hpackage'] at hpackage
    obtain ⟨p, hread, hp⟩ := Option.map_eq_some_iff.1 hpackage
    cases hp
    exact .inr (package_text hread hrow hrest hget)
  · obtain ⟨q, rfl, row, hrow, hslot⟩ := mem_dependencySection hsec hslot
    obtain ⟨v, hv, hget⟩ := get_root hget
    rw [hv] at hdeps
    exact dependencies_text (hplain h.dependencies) hdeps hdeps' hrow hslot hget
  · obtain ⟨q, rfl, row, hrow, hslot⟩ := mem_dependencySection hsec hslot
    obtain ⟨v, hv, hget⟩ := get_root hget
    rw [hv] at hdev
    exact dependencies_text (hplain h.devDependencies) hdev hdev' hrow hslot hget
  · obtain ⟨q, t, ht, rfl, row, hrow, hslot⟩ := mem_targetSection hsec hslot
    obtain ⟨v, hv, hget⟩ := get_root hget
    rw [hbin', ht] at hbin
    exact .inr (htarget hbin hv hrow hslot hget)
  · obtain ⟨q, t, ht, rfl, row, hrow, hslot⟩ := mem_targetSection hsec hslot
    obtain ⟨v, hv, hget⟩ := get_root hget
    rw [hlib', ht] at hlib
    exact .inr (htarget hlib hv hrow hslot hget)
  · -- a test is an item of the array
    obtain ⟨i, rows, hi, row, hrow, hslot⟩ := hslot
    obtain ⟨p, rfl, hitemSlot⟩ := slot_cons hslot
    obtain ⟨q, rfl, hrest⟩ := slot_cons hitemSlot
    obtain ⟨v, hv, hget⟩ := get_root hget
    obtain ⟨items, v', rfl, hitem, hget⟩ := get_index hget
    rw [hv, htest'] at htest
    rw [List.getElem?_map, Option.map_eq_some_iff] at hi
    obtain ⟨t, ht, rfl⟩ := hi
    rw [getElem?_of_mapM htest hitem] at ht
    exact .inr (target_text ht hrow hrest hget)

theorem honest_spec (spec : DependencySpec Req) : (spec.entry c).All Written.Honest := by
  cases spec <;> simp [DependencySpec.entry, Entry.All, honest_plain]

theorem honest_target (t : TargetTable) : ∀ row ∈ t.rows, row.2.All Written.Honest := by
  simp [TargetTable.rows, Entry.All, honest_plain]

/-- The canonical text writes each string in a way that is read back only if it is right. -/
theorem honest_document (m : Manifest Req) : ∀ p w, .string p w ∈ (m.document c).pieces → w.Honest := by
  have hpackage : (Section.table false "package" m.package.rows).All Written.Honest := by
    rw [Section.All, PackageTable.rows]
    simp only [List.forall_mem_append, List.forall_mem_map]
    refine ⟨⟨⟨?_, ?_⟩, fun text _ => honest_plain text⟩, fun text _ => honest_written _ text⟩
    · simp [Entry.All, honest_plain]
    · split_ifs
      · exact fun _ h => absurd h List.not_mem_nil
      · simp [Entry.All, honest_written]
  have hdeps (name : String) (rows : List (String × Dependency Req)) :
      ∀ sec ∈ dependencySection c name rows, sec.All Written.Honest := by
    rw [dependencySection]
    split_ifs
    · exact fun _ h => absurd h List.not_mem_nil
    · exact List.forall_mem_singleton.2 (List.forall_mem_map.2 fun row _ => honest_spec row.2.spec)
  have htarget (name : String) (t : Option TargetTable) : ∀ sec ∈ targetSection name t, sec.All Written.Honest :=
    List.forall_mem_map.2 fun t _ => honest_target t
  refine all_iff.2 ?_
  rw [Manifest.document]
  simp only [List.forall_mem_append, List.forall_mem_singleton]
  exact ⟨⟨⟨⟨⟨hpackage, hdeps _ _⟩, hdeps _ _⟩, htarget _ _⟩, htarget _ _⟩,
    List.forall_mem_map.2 fun t _ => honest_target t⟩

/-! ## The round trip -/

theorem parseStr_error {m : Manifest Req} {e : String} (h : c.parseToml (m.document c).chars = .error e) :
    Manifest.parseStr c (m.canonicalToml c) = .error (.manifest (.tomlParse e)) := by
  rw [Manifest.parseStr, canonicalToml_toList, h]

/-- The canonical text of a manifest is parsed to it if and only if no text of the manifest needs an escape that
it is not written with. -/
theorem roundTrip_iff (hlaws : c.Laws) {m : Manifest Req} (h : m.Valid c) (hfollows : Follows c.parseToml (m.document c)) :
    Manifest.parseStr c (m.canonicalToml c) = .ok m ↔ m.Plain := by
  have hwf := wellFormed_document c h
  rw [← decodes_document c hlaws h, parseStr_ok, canonicalToml_toList]
  constructor
  · rintro ⟨root, raw, hroot, hread, hlower⟩
    refine decodes_of_parse hfollows hwf hroot fun p w tail s hmem hguard hstring hget => ?_
    rcases text_of_get hlaws hread hlower h hmem hget with hdecodes | rfl
    · exact hdecodes
    · exact honest_document m p w hmem tail hguard hstring
  · exact fun hdecodes => ⟨_, m.raw c, hfollows.accepts hwf hdecodes, read_document h, lower_raw hlaws h⟩

/-- The round trip of a manifest that was parsed; plain ones are known by their canonical text, and by its hash. -/
theorem parseStr_canonicalToml (hlaws : c.Laws) {contents : String} {m : Manifest Req}
    (hparse : Manifest.parseStr c contents = .ok m) (hfollows : Follows c.parseToml (m.document c)) :
    (Manifest.parseStr c (m.canonicalToml c) = .ok m ↔ m.Plain) ∧
      ∀ contents' m', Manifest.parseStr c contents' = .ok m' → Follows c.parseToml (m'.document c) →
        m.Plain → m'.Plain → (m.canonicalToml c = m'.canonicalToml c → m = m') ∧
          ∀ blake3Hex : String → String, blake3Hex.Injective →
            m.manifestHash c blake3Hex = m'.manifestHash c blake3Hex → m = m' := by
  refine ⟨roundTrip_iff hlaws (valid_of_parseStr hparse) hfollows, ?_⟩
  intro contents' m' hparse' hfollows' hplain hplain'
  have hback := (roundTrip_iff hlaws (valid_of_parseStr hparse) hfollows).2 hplain
  have hback' := (roundTrip_iff hlaws (valid_of_parseStr hparse') hfollows').2 hplain'
  have hinj (heq : m.canonicalToml c = m'.canonicalToml c) : m = m' := by
    rw [heq, hback', Except.ok.injEq] at hback
    exact hback.symm
  refine ⟨hinj, fun blake3Hex hblake3 hhash => hinj (hblake3 ?_)⟩
  simpa [Manifest.manifestHash] using hhash

namespace Sample

/-- The crates, as far as the samples need them: the parser knows some texts of one document. -/
def crates (texts : List String) (root : Root) : Crates String where
  parseToml := fun t => if t ∈ texts.map String.toList then .ok root else .error "invalid basic string"
  shapeError := fun _ => "missing field"
  isVersion := fun s => s == "0.1.0"
  parseReq := fun s => if s = "1.2" ∨ s = "^1.2" then .ok "^1.2" else .error "unexpected character"
  displayReq := id

theorem laws (texts : List String) (root : Root) : (crates texts root).Laws where
  version_plain := by
    intro s hs
    rw [beq_iff_eq.1 hs]
    decide
  req_plain := by
    intro s req hs
    simp only [crates] at hs
    split_ifs at hs
    cases hs
    exact (by decide : IsPlain "^1.2")
  parse_display := by
    intro s req hs
    simp only [crates] at hs
    split_ifs at hs
    cases hs
    rfl

def manifest (license : String) : Manifest String where
  package := ⟨"app", "0.1.0", "0.1.0", ["A \"B\" C"], some license, none⟩
  dependencies := [("nest", ⟨"nest", .git "https://example.org/nest" "v1"⟩)]
  devDependencies := [("serde", ⟨"serde", .version "^1.2"⟩)]
  bin := some ⟨"app", "src/main.cb"⟩
  lib := none
  tests := [⟨"smoke", "tests/smoke.cb"⟩]

/-- A text of the manifest, with the license escaped by hand. -/
def text (license : String) : String :=
  "[package]\nname = \"app\"\nversion = \"0.1.0\"\ncobrust-version = \"0.1.0\"\nauthors = ['A \"B\" C']\n" ++
    "license = \"" ++ license ++ "\"\n\n[dependencies]\n" ++
    "nest = \x7b git = \"https://example.org/nest\", rev = \"v1\" \x7d\n\n[dev-dependencies]\nserde = \"1.2\"\n\n" ++
    "[bin]\nname = \"app\"\npath = \"src/main.cb\"\n\n[[test]]\nname = \"smoke\"\npath = \"tests/smoke.cb\"\n"

def document (license : String) : Document :=
  (manifest license).document (crates [] [])

theorem valid (texts : List String) (root : Root) (license : String) : (manifest license).Valid (crates texts root) where
  name := (by decide : validateName "app" = .ok ())
  version := rfl
  cobrustVersion := rfl
  sorted := List.pairwise_singleton _ _
  dependencies := List.forall_mem_singleton.2 ⟨rfl, by decide, fun _ h => by cases h⟩
  devSorted := List.pairwise_singleton _ _
  devDependencies := List.forall_mem_singleton.2 ⟨rfl, by decide, fun req h => by
    cases h
    exact ⟨"1.2", rfl⟩⟩
  targets := rfl

theorem parseStr_text {texts : List String} {contents license : String} (h : contents ∈ texts) :
    Manifest.parseStr (crates texts (document license).value) contents = .ok (manifest license) := by
  refine parseStr_ok.2 ⟨_, _, if_pos (List.mem_map_of_mem h), read_document (valid [] [] license), ?_⟩
  exact lower_raw (laws texts _) (valid texts _ license)

theorem plain : (manifest "MIT").Plain where
  authors := by decide
  license := by decide
  description := by decide
  dependencies := by decide
  devDependencies := by decide
  bin := by decide
  lib := by decide
  tests := by decide

/-- The canonical text of the manifest. -/
def canonical (license : String) : String :=
  (manifest license).canonicalToml (crates [] [])

theorem parse_known {texts : List String} {t : List Char} (root : Root) (h : t ∈ texts.map String.toList) :
    (crates texts root).parseToml t = .ok root :=
  if_pos h

theorem parse_unknown {texts : List String} {t : List Char} (root : Root) (h : t ∉ texts.map String.toList) :
    (crates texts root).parseToml t = .error "invalid basic string" :=
  if_neg h

theorem follows_plain {texts : List String} (h : canonical "MIT" ∈ texts) :
    Follows (crates texts (document "MIT").value).parseToml (document "MIT") := by
  refine follows_of_decodes ((decodes_document _ (laws [] []) (valid [] [] "MIT")).2 plain) (parse_known _ ?_)
  have hmem := List.mem_map_of_mem (f := String.toList) h
  rwa [canonical, canonicalToml_toList] at hmem

/-- A license on two lines is written as it is, and the text is not one of TOML. -/
theorem not_decodes : ¬ (document "MIT\nBSD-2-Clause").Decodes := by
  intro h
  have hplain := (decodes_document _ (laws [] []) (valid [] [] "MIT\nBSD-2-Clause")).1 h
  have hnot : ¬ IsPlain "MIT\nBSD-2-Clause" := by decide
  exact hnot (hplain.license _ rfl)

theorem quote_mem_text (license : String) : '\'' ∈ (text license).toList := by
  unfold text
  iterate 5 rw [String.toList_append]; apply List.mem_append_left
  rw [Text.toList_literal rfl]
  decide

theorem quote_not_mem_chars : '\'' ∉ (document "MIT\nBSD-2-Clause").chars := by
  decide +kernel

theorem canonical_ne : (document "MIT\nBSD-2-Clause").chars ≠ (text "MIT\\nBSD-2-Clause").toList :=
  fun h => quote_not_mem_chars (h ▸ quote_mem_text _)

end Sample

open Sample in
theorem parseStr_canonicalToml_mit :
    Manifest.parseStr (crates [text "MIT", canonical "MIT"] (document "MIT").value) (canonical "MIT") =
      .ok (manifest "MIT") :=
  (parseStr_canonicalToml (laws _ _) (parseStr_text (show text "MIT" ∈ [text "MIT", canonical "MIT"] from List.mem_cons_self))
    (follows_plain (List.mem_cons_of_mem _ List.mem_cons_self))).1.2 plain

open Sample in
/-- A parser that keeps to TOML does not take the canonical text of a manifest whose license has a line end. -/
theorem parseStr_canonicalToml_lineEnd :
    ∃ c : Crates String, c.Laws ∧ Manifest.parseStr c (text "MIT\\nBSD-2-Clause") = .ok (manifest "MIT\nBSD-2-Clause") ∧
      Follows c.parseToml ((manifest "MIT\nBSD-2-Clause").document c) ∧
      Manifest.parseStr c ((manifest "MIT\nBSD-2-Clause").canonicalToml c) ≠ .ok (manifest "MIT\nBSD-2-Clause") := by
  have hnot : (document "MIT\nBSD-2-Clause").chars ∉ [text "MIT\\nBSD-2-Clause"].map String.toList := by
    rw [List.map_singleton, List.mem_singleton]
    exact canonical_ne
  have herror := parse_unknown (document "MIT\nBSD-2-Clause").value hnot
  refine ⟨crates [text "MIT\\nBSD-2-Clause"] (document "MIT\nBSD-2-Clause").value, laws _ _,
    parseStr_text List.mem_cons_self, follows_of_error not_decodes herror, ?_⟩
  intro hok
  cases (parseStr_error herror).symm.trans hok

end Cobrust.Pkg
