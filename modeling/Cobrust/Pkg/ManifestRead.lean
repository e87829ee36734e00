import Cobrust.Pkg.ManifestText
import Cobrust.Toml.Slots

/-!
# Manifests that are read

What `parse_str` returns: `valid_of_parseStr`; and that validation returns a valid manifest from its raw form:
`lower_raw`.
-/

namespace Cobrust.Pkg

open Cobrust.Control (except_bind_ok)
open Cobrust.Store
open Cobrust.Toml

variable {Req : Type} {c : Crates Req}

/-- What is used of the semver crate: versions and requirements are written in plain characters, and a
requirement is displayed as a text that is parsed to it. -/
structure Crates.Laws (c : Crates Req) : Prop where
  version_plain : ∀ s, c.isVersion s = true → IsPlain s
  req_plain : ∀ s req, c.parseReq s = .ok req → IsPlain (c.displayReq req)
  parse_display : ∀ s req, c.parseReq s = .ok req → c.parseReq (c.displayReq req) = .ok req

def DependencySpec.req? : DependencySpec Req → Option Req
  | .version req => some req
  | .registry req _ => some req
  | _ => none

/-- The requirement of a dependency, if it has one, was read. -/
def DependencySpec.Valid (c : Crates Req) (spec : DependencySpec Req) : Prop :=
  ∀ req, spec.req? = some req → ∃ s, c.parseReq s = .ok req

def ValidRow (c : Crates Req) (row : String × Dependency Req) : Prop :=
  row.2.name = row.1 ∧ validateName row.1 = .ok () ∧ row.2.spec.Valid c

structure Manifest.Valid (c : Crates Req) (m : Manifest Req) : Prop where
  name : validateName m.package.name = .ok ()
  version : c.isVersion m.package.version = true
  cobrustVersion : c.isVersion m.package.cobrustVersion = true
  sorted : SortedRows m.dependencies
  dependencies : ∀ row ∈ m.dependencies, ValidRow c row
  devSorted : SortedRows m.devDependencies
  devDependencies : ∀ row ∈ m.devDependencies, ValidRow c row
  targets : checkTargets m.bin m.lib = .ok ()

/-! ## Validation -/

theorem bare_of_validateName {name : String} (h : validateName name = .ok ()) : isBareKey name = true := by
  rw [validateName] at h
  split_ifs at h
  split at h
  · cases h
  · next first chars hlist =>
    split_ifs at h with hfirst hchars
    have halpha : first.isAlphanum = true := by simpa [Char.isAlphanum] using .inl (by simpa using hfirst)
    rw [isBareKey, hlist, Bool.and_eq_true, List.all_cons, halpha, Bool.true_or, Bool.true_or, Bool.true_and]
    exact ⟨by simp, hchars⟩

theorem validateVersion_ok {name version : String} :
    validateVersion c name version = .ok () ↔ c.isVersion version = true := by
  rw [validateVersion]
  split_ifs with h <;> simp [h]

theorem lowerReq_ok {name s : String} {req : Req} : lowerReq c name s = .ok req ↔ c.parseReq s = .ok req := by
  rw [lowerReq]
  cases c.parseReq s <;> simp

theorem valid_of_lowerSpec {name : String} {raw : RawDependency} {spec : DependencySpec Req}
    (h : lowerSpec c name raw = .ok spec) : spec.Valid c := by
  have hreq {s : String} {f : Req → DependencySpec Req} (hf : ∀ req, (f req).req? = some req)
      (h : (lowerReq c name s >>= fun req => .ok (f req)) = .ok spec) : spec.Valid c := by
    obtain ⟨req, hparse, h⟩ := except_bind_ok.1 h
    cases h
    intro req' hreq'
    rw [hf, Option.some.injEq] at hreq'
    exact ⟨s, hreq' ▸ lowerReq_ok.1 hparse⟩
  cases raw with
  | bare s => exact hreq (fun _ => rfl) h
  | table version path git rev registry =>
    rw [lowerSpec.eq_def] at h
    dsimp only at h
    split at h
    · cases h
    · split_ifs at h
      cases h
      rintro req ⟨⟩
    · split at h
      · cases h
        rintro req ⟨⟩
      · cases h
    · exact hreq (f := fun req => .registry req (registry.getD "default")) (fun _ => rfl) h

theorem lowerDependency_ok {name : String} {raw : RawDependency} {dep : Dependency Req} :
    lowerDependency c name raw = .ok dep ↔
      validateName name = .ok () ∧ lowerSpec c name raw = .ok dep.spec ∧ dep.name = name := by
  rw [lowerDependency, except_bind_ok]
  constructor
  · rintro ⟨_, hname, h⟩
    obtain ⟨spec, hspec, h⟩ := except_bind_ok.1 h
    cases h
    exact ⟨hname, hspec, rfl⟩
  · rintro ⟨hname, hspec, rfl⟩
    exact ⟨(), hname, except_bind_ok.2 ⟨dep.spec, hspec, rfl⟩⟩

theorem lowerDependencies_ok {rows : List (String × RawDependency)} {deps : List (String × Dependency Req)} :
    lowerDependencies c rows = .ok deps ↔
      List.Forall₂ (fun row dep => dep.1 = row.1 ∧ lowerDependency c row.1 row.2 = .ok dep.2) rows deps := by
  induction rows generalizing deps with
  | nil => cases deps <;> simp [lowerDependencies]
  | cons row rows ih =>
    rw [lowerDependencies, except_bind_ok]
    constructor
    · rintro ⟨dep, hdep, h⟩
      obtain ⟨deps', hdeps, h⟩ := except_bind_ok.1 h
      cases h
      exact .cons ⟨rfl, hdep⟩ (ih.1 hdeps)
    · intro h
      cases h with
      | @cons _ dep _ deps hrow hrows =>
        refine ⟨dep.2, hrow.2, except_bind_ok.2 ⟨deps, ih.2 hrows, ?_⟩⟩
        rw [← hrow.1]
        rfl

theorem sorted_of_lowerDependencies {rows : List (String × RawDependency)} {deps : List (String × Dependency Req)}
    (h : lowerDependencies c rows = .ok deps) (hrows : SortedRows rows) : SortedRows deps := by
  have hkeys : deps.map Prod.fst = rows.map Prod.fst := by
    have hforall := lowerDependencies_ok.1 h
    clear h hrows
    induction hforall with
    | nil => rfl
    | cons hrow _ ih => rw [List.map_cons, List.map_cons, hrow.1, ih]
  rwa [SortedRows, hkeys]

/-- A row of the lowered map comes from the raw row with its key. -/
theorem raw_of_lowered {rows : List (String × RawDependency)} {deps : List (String × Dependency Req)}
    {row : String × Dependency Req} (h : lowerDependencies c rows = .ok deps) (hrow : row ∈ deps) :
    ∃ raw, (row.1, raw) ∈ rows ∧ lowerDependency c row.1 raw = .ok row.2 := by
  have hforall := lowerDependencies_ok.1 h
  clear h
  induction hforall with
  | nil => exact absurd hrow List.not_mem_nil
  | @cons r _ _ _ hr _ ih =>
    rcases List.mem_cons.1 hrow with rfl | hrow
    · rw [hr.1]
      exact ⟨r.2, List.mem_cons_self, hr.2⟩
    · obtain ⟨raw, hmem, hlower⟩ := ih hrow
      exact ⟨raw, List.mem_cons_of_mem _ hmem, hlower⟩

theorem validRow_of_lowered {rows : List (String × RawDependency)} {deps : List (String × Dependency Req)}
    (h : lowerDependencies c rows = .ok deps) : ∀ row ∈ deps, ValidRow c row := by
  intro row hrow
  obtain ⟨raw, -, hlower⟩ := raw_of_lowered h hrow
  obtain ⟨hname, hspec, hkey⟩ := lowerDependency_ok.1 hlower
  exact ⟨hkey, hname, valid_of_lowerSpec hspec⟩

/-- What a manifest and the raw one that it comes from have in common. -/
theorem lower_ok {raw : RawManifest} {m : Manifest Req} :
    raw.lower c = .ok m ↔ raw.package = some m.package ∧ validateName m.package.name = .ok () ∧
      c.isVersion m.package.version = true ∧ c.isVersion m.package.cobrustVersion = true ∧
      lowerDependencies c raw.dependencies = .ok m.dependencies ∧
      lowerDependencies c raw.devDependencies = .ok m.devDependencies ∧
      checkTargets m.bin m.lib = .ok () ∧ raw.bin = m.bin ∧ raw.lib = m.lib ∧ raw.test = m.tests := by
  rw [RawManifest.lower]
  cases hpackage : raw.package with
  | none => simp
  | some package =>
    simp only [except_bind_ok]
    constructor
    · rintro ⟨_, hname, _, hversion, _, hcobrust, deps, hdeps, dev, hdev, _, htargets, h⟩
      cases h
      exact ⟨rfl, hname, validateVersion_ok.1 hversion, validateVersion_ok.1 hcobrust, hdeps, hdev, htargets, rfl,
        rfl, rfl⟩
    · rintro ⟨hsome, hname, hversion, hcobrust, hdeps, hdev, htargets, hbin, hlib, htest⟩
      cases hsome
      rw [← hbin, ← hlib] at htargets
      refine ⟨(), hname, (), validateVersion_ok.2 hversion, (), validateVersion_ok.2 hcobrust, _, hdeps, _, hdev, (),
        htargets, ?_⟩
      rw [hbin, hlib, htest]
      rfl

theorem sorted_of_readMap {v : Value} {rows : List (String × RawDependency)}
    (h : RawDependency.readMap v = some rows) : SortedRows rows := by
  obtain ⟨_, -, h⟩ := Option.bind_eq_some_iff.1 h
  obtain ⟨_, -, h⟩ := Option.bind_eq_some_iff.1 h
  cases h
  exact sortedRows_sortRows _

theorem sorted_of_readField {v : Option Value} {rows : List (String × RawDependency)}
    (h : defaultAt [] RawDependency.readMap v = some rows) : SortedRows rows := by
  cases v with
  | none =>
    cases h
    exact List.Pairwise.nil
  | some v => exact sorted_of_readMap h

/-- The fields of a raw manifest are read one by one. -/
theorem read_eq_some {root : Root} {raw : RawManifest} :
    RawManifest.read root = some raw ↔
      optionalAt PackageTable.read (root.lookup "package") = some raw.package ∧
      root.lookup "router" = raw.router ∧
      defaultAt [] RawDependency.readMap (root.lookup "dependencies") = some raw.dependencies ∧
      defaultAt [] RawDependency.readMap (root.lookup "dev-dependencies") = some raw.devDependencies ∧
      optionalAt TargetTable.read (root.lookup "bin") = some raw.bin ∧
      optionalAt TargetTable.read (root.lookup "lib") = some raw.lib ∧
      defaultAt [] (readArray TargetTable.read) (root.lookup "test") = some raw.test := by
  simp only [RawManifest.read, Option.bind_eq_bind, Option.bind_eq_some_iff]
  constructor
  · rintro ⟨package, hpackage, deps, hdeps, dev, hdev, bin, hbin, lib, hlib, test, htest, h⟩
    cases h
    exact ⟨hpackage, rfl, hdeps, hdev, hbin, hlib, htest⟩
  · rintro ⟨hpackage, hrouter, hdeps, hdev, hbin, hlib, htest⟩
    refine ⟨_, hpackage, _, hdeps, _, hdev, _, hbin, _, hlib, _, htest, ?_⟩
    rw [hrouter]
    rfl

/-- A manifest that is returned was read from the document and validated. -/
theorem parseStr_ok {contents : String} {m : Manifest Req} :
    Manifest.parseStr c contents = .ok m ↔
      ∃ root raw, c.parseToml contents.toList = .ok root ∧ RawManifest.read root = some raw ∧ raw.lower c = .ok m := by
  rw [Manifest.parseStr]
  cases hparse : c.parseToml contents.toList with
  | error e => simp
  | ok root =>
    cases hread : RawManifest.read root with
    | none => simp [hread]
    | some raw => simp [hread]

theorem valid_of_parseStr {contents : String} {m : Manifest Req} (h : Manifest.parseStr c contents = .ok m) :
    m.Valid c := by
  obtain ⟨root, raw, -, hread, hlower⟩ := parseStr_ok.1 h
  obtain ⟨-, -, hdeps, hdev, -⟩ := read_eq_some.1 hread
  obtain ⟨-, hname, hversion, hcobrust, hdeps', hdev', htargets, -⟩ := lower_ok.1 hlower
  exact {
    name := hname
    version := hversion
    cobrustVersion := hcobrust
    sorted := sorted_of_lowerDependencies hdeps' (sorted_of_readField hdeps)
    dependencies := validRow_of_lowered hdeps'
    devSorted := sorted_of_lowerDependencies hdev' (sorted_of_readField hdev)
    devDependencies := validRow_of_lowered hdev'
    targets := htargets }

variable (c) in
def DependencySpec.raw : DependencySpec Req → RawDependency
  | .version req => .bare (c.displayReq req)
  | .path p => .table none (some p) none none none
  | .git url rev => .table none none (some url) (some rev) none
  | .registry req r => .table (some (c.displayReq req)) none none none (some r)

variable (c) in
def Manifest.raw (m : Manifest Req) : RawManifest where
  package := some m.package
  router := none
  dependencies := m.dependencies.map fun row => (row.1, row.2.spec.raw c)
  devDependencies := m.devDependencies.map fun row => (row.1, row.2.spec.raw c)
  bin := m.bin
  lib := m.lib
  test := m.tests

theorem lowerSpec_raw (hlaws : c.Laws) {name : String} {spec : DependencySpec Req} (h : spec.Valid c) :
    lowerSpec c name (spec.raw c) = .ok spec := by
  have hparse {req : Req} (hreq : spec.req? = some req) : lowerReq c name (c.displayReq req) = .ok req := by
    obtain ⟨s, hs⟩ := h req hreq
    exact lowerReq_ok.2 (hlaws.parse_display s req hs)
  cases spec with
  | version req => exact except_bind_ok.2 ⟨req, hparse rfl, rfl⟩
  | path p => rfl
  | git url rev => rfl
  | registry req r => exact except_bind_ok.2 ⟨req, hparse rfl, rfl⟩

theorem lowerDependencies_raw (hlaws : c.Laws) {rows : List (String × Dependency Req)}
    (h : ∀ row ∈ rows, ValidRow c row) :
    lowerDependencies c (rows.map fun row => (row.1, row.2.spec.raw c)) = .ok rows := by
  rw [lowerDependencies_ok, List.forall₂_map_left_iff, List.forall₂_same]
  intro row hrow
  obtain ⟨hkey, hname, hspec⟩ := h row hrow
  exact ⟨rfl, lowerDependency_ok.2 ⟨hname, lowerSpec_raw hlaws hspec, hkey⟩⟩

/-- Validation returns a valid manifest from its raw form. -/
theorem lower_raw (hlaws : c.Laws) {m : Manifest Req} (h : m.Valid c) : (m.raw c).lower c = .ok m :=
  lower_ok.2 ⟨rfl, h.name, h.version, h.cobrustVersion, lowerDependencies_raw hlaws h.dependencies,
    lowerDependencies_raw hlaws h.devDependencies, h.targets, rfl, rfl, rfl⟩

end Cobrust.Pkg
