import Cobrust.Graph.Cycle
import Cobrust.Pkg.Requirements

/-!
# Cycles among the dependencies

What the resolver says of a universe in which every fetch succeeds.

* `resolve_cycle_exact`: where the packages of a name list the same dependencies, a resolution fails exactly when a
  cycle of names can be reached, and otherwise has the reachable names.
* `resolve_cycle_path`: the path of the error starts at the root and so need not be closed; a cycle that runs through
  the second source of a name is not seen.
-/

namespace Cobrust.Pkg

open Store (Table)
open Cobrust.Graph (System VisitOrder)
open Cobrust.Graph.System (Lasso given)
open Relation (ReflTransGen TransGen)

namespace World

variable {Version Req : Type} (u : World Version Req) (manifest : Manifest Req) (workspaceRoot : String)

/-- The root manifest, or a package that is reached under the one name, lists the other name. -/
def DependsOn (n m : String) : Prop :=
  (n = manifest.package.name ∧ m ∈ manifest.dependencies.map Prod.fst) ∨
    ∃ e node children, u.system.Reach (entries manifest workspaceRoot) e ∧ e.name = n ∧
      u.fetchNode e = .ok (node, children) ∧ m ∈ children.map DepEntry.name

/-- A cycle of names can be reached from the root. -/
def Cyclic : Prop :=
  ∃ n, ReflTransGen (u.DependsOn manifest workspaceRoot) manifest.package.name n ∧
    TransGen (u.DependsOn manifest workspaceRoot) n n

/-- Whatever can be reached is fetched, and its manifest is read. -/
def Fetches : Prop :=
  ∀ e, u.system.Reach (entries manifest workspaceRoot) e → ∃ node children, u.fetchNode e = .ok (node, children)

/-- The packages that are reached under one name list the same names. -/
def OneManifest : Prop :=
  ∀ a b node children node' children', u.system.Reach (entries manifest workspaceRoot) a →
    u.system.Reach (entries manifest workspaceRoot) b → a.name = b.name → u.fetchNode a = .ok (node, children) →
      u.fetchNode b = .ok (node', children') → children.map DepEntry.name = children'.map DepEntry.name

variable {u manifest workspaceRoot} {e : DepEntry Req} {n m : String} {succ : String → List String}

/-! ## Names as nodes -/

theorem DependsOn.exists_entry (h : u.DependsOn manifest workspaceRoot n m) :
    ∃ e, u.system.Reach (entries manifest workspaceRoot) e ∧ e.name = m := by
  rcases h with ⟨-, hm⟩ | ⟨e, node, children, hreach, -, hfetch, hm⟩
  · obtain ⟨row, hrow, rfl⟩ := List.mem_map.1 hm
    exact ⟨_, .root (List.mem_map_of_mem hrow), rfl⟩
  · obtain ⟨c, hc, rfl⟩ := List.mem_map.1 hm
    exact ⟨c, hreach.child hfetch hc, rfl⟩

theorem mem_of_dependsOn (h : TransGen (u.DependsOn manifest workspaceRoot) n m) :
    m ∈ u.names ++ manifest.dependencies.map Prod.fst := by
  obtain ⟨_, -, hlast⟩ := Relation.TransGen.tail'_iff.1 h
  obtain ⟨e, hreach, rfl⟩ := hlast.exists_entry
  exact name_mem hreach

/-- The graph of names that the walk goes over: below the root the manifest, below the others any package. -/
structure Names (u : World Version Req) (manifest : Manifest Req) (workspaceRoot : String)
    (succ : String → List String) : Prop where
  root : (entries manifest workspaceRoot).map DepEntry.name = succ manifest.package.name
  follows : u.system.Follows (entries manifest workspaceRoot) manifest.package.name succ
  dependsOn : ∀ n m, m ∈ succ n → u.DependsOn manifest workspaceRoot n m

theorem map_entries (manifest : Manifest Req) (workspaceRoot : String) :
    (entries manifest workspaceRoot).map DepEntry.name = manifest.dependencies.map Prod.fst := by
  simp [entries]

open Classical in
theorem exists_names (hfetch : u.Fetches manifest workspaceRoot) (hone : u.OneManifest manifest workspaceRoot) :
    ∃ succ, Names u manifest workspaceRoot succ := by
  let below (n : String) (ms : List String) : Prop :=
    ∃ e node children, u.system.Reach (entries manifest workspaceRoot) e ∧ e.name = n ∧
      u.fetchNode e = .ok (node, children) ∧ children.map DepEntry.name = ms
  let succ (n : String) : List String :=
    if n = manifest.package.name then manifest.dependencies.map Prod.fst
    else if h : ∃ ms, below n ms then h.choose else []
  have hroot : succ manifest.package.name = manifest.dependencies.map Prod.fst := if_pos rfl
  refine ⟨succ, (map_entries manifest workspaceRoot).trans hroot.symm, ?_, ?_⟩
  · intro e hreach hne
    obtain ⟨node, children, hexpand⟩ := hfetch e hreach
    have hbelow : ∃ ms, below e.name ms := ⟨_, e, node, children, hreach, rfl, hexpand, rfl⟩
    obtain ⟨e', node', children', hreach', hname, hexpand', hms⟩ := hbelow.choose_spec
    have hsucc : succ e.name = hbelow.choose := (if_neg hne).trans (dif_pos hbelow)
    refine ⟨node, children, hexpand, ?_⟩
    exact (hone e e' node children node' children' hreach hreach' hname.symm hexpand hexpand').trans
      (hms.trans hsucc.symm)
  · intro n m hm
    by_cases hn : n = manifest.package.name
    · rw [hn, hroot] at hm
      exact .inl ⟨hn, hm⟩
    · simp only [succ, if_neg hn] at hm
      split at hm
      · next h =>
        obtain ⟨e, node, children, hreach, hname, hexpand, hms⟩ := h.choose_spec
        exact .inr ⟨e, node, children, hreach, hname, hexpand, hms ▸ hm⟩
      · cases hm

namespace Names

variable (h : Names u manifest workspaceRoot succ)
include h

theorem step (hdep : u.DependsOn manifest workspaceRoot n m) (hne : n ≠ manifest.package.name) : m ∈ succ n := by
  rcases hdep with ⟨rfl, -⟩ | ⟨e, node, children, hreach, rfl, hexpand, hm⟩
  · exact absurd rfl hne
  · obtain ⟨value, children', hexpand', hkeys⟩ := h.follows e hreach hne
    cases hexpand.symm.trans hexpand'
    exact hkeys ▸ hm

/-- Without a cycle through the root, every name that is reached is reached in the graph. -/
theorem reach (hroot : ¬ TransGen (fun a b => b ∈ succ a) manifest.package.name manifest.package.name)
    (hreach : u.system.Reach (entries manifest workspaceRoot) e) :
    TransGen (fun a b => b ∈ succ a) manifest.package.name e.name := by
  induction hreach with
  | root he => exact .single (h.root ▸ List.mem_map_of_mem he)
  | @child e c value children hreach hexpand hc ih =>
    have hne : e.name ≠ manifest.package.name := fun heq => hroot (heq ▸ ih)
    exact ih.tail (h.step (.inr ⟨e, value, children, hreach, rfl, hexpand, List.mem_map_of_mem hc⟩) hne)

/-- Without a cycle through the root, the graph has all dependencies. -/
theorem edge (hroot : ¬ TransGen (fun a b => b ∈ succ a) manifest.package.name manifest.package.name)
    (hdep : u.DependsOn manifest workspaceRoot n m) : m ∈ succ n := by
  by_cases hne : n = manifest.package.name
  · rcases hdep with ⟨-, hm⟩ | ⟨e, node, children, hreach, rfl, -, -⟩
    · rw [hne, ← h.root, map_entries]
      exact hm
    · have hback := h.reach hroot hreach
      rw [hne] at hback
      exact absurd hback hroot
  · exact h.step hdep hne

theorem cyclic_iff : u.Cyclic manifest workspaceRoot ↔
    ∃ n, ReflTransGen (fun a b => b ∈ succ a) manifest.package.name n ∧ TransGen (fun a b => b ∈ succ a) n n := by
  constructor
  · rintro ⟨n, hn, hcycle⟩
    by_cases hroot : TransGen (fun a b => b ∈ succ a) manifest.package.name manifest.package.name
    · exact ⟨_, .refl, hroot⟩
    · exact ⟨n, ReflTransGen.mono (fun _ _ => h.edge hroot) _ _ hn, TransGen.mono (fun _ _ => h.edge hroot) _ _ hcycle⟩
  · rintro ⟨n, hn, hcycle⟩
    exact ⟨n, ReflTransGen.mono h.dependsOn _ _ hn, TransGen.mono h.dependsOn _ _ hcycle⟩

end Names

theorem resolve_eq {version : Version} (hversion : u.parseVersion manifest.package.version = some version) :
    u.resolve manifest workspaceRoot =
      (u.system.walkAll given (u.fuel manifest) [manifest.package.name] (entries manifest workspaceRoot)
        Table.empty).map fun graph => ⟨rootPackage manifest version workspaceRoot, packages graph⟩ := by
  have hwalk : u.walkDep given (u.fuel manifest) [manifest.package.name] =
      u.system.walk given (u.fuel manifest) [manifest.package.name] :=
    funext fun g => funext fun e => walkDep_eq _ _ g e
  have hresolve : u.resolve manifest workspaceRoot = u.resolveIn given manifest workspaceRoot := rfl
  rw [hresolve, resolveIn]
  simp only [hversion, hwalk]
  rfl

theorem isSome_packages {graph : Table String (DepNode Version)} (name : String) :
    (packages graph name).isSome = (graph name).isSome := by
  unfold packages select
  cases graph name <;> rfl

/-- Where the packages of a name list the same dependencies, a resolution that can fetch everything fails exactly
when a cycle of names can be reached, and shows how; otherwise it has the reachable names. -/
theorem resolve_cycle_exact (hversion : (u.parseVersion manifest.package.version).isSome = true)
    (hfetch : u.Fetches manifest workspaceRoot) (hone : u.OneManifest manifest workspaceRoot) :
    (u.Cyclic manifest workspaceRoot →
      ∃ path, u.resolve manifest workspaceRoot = .error (some (.resolution (.cycle path))) ∧
        Lasso (u.DependsOn manifest workspaceRoot) manifest.package.name path) ∧
    (¬ u.Cyclic manifest workspaceRoot →
      ∃ r, u.resolve manifest workspaceRoot = .ok r ∧ ∀ name, (r.packages name).isSome = true ↔
        TransGen (u.DependsOn manifest workspaceRoot) manifest.package.name name) := by
  obtain ⟨version, hversion⟩ := Option.isSome_iff_exists.1 hversion
  obtain ⟨succ, h⟩ := exists_names hfetch hone
  have hwalk := System.walkAll_nodes h.follows h.root (u.fuel manifest)
  have hpool : ∀ b, TransGen (fun a b => b ∈ succ a) manifest.package.name b →
      b ∈ u.names ++ manifest.dependencies.map Prod.fst := fun b hb => mem_of_dependsOn (TransGen.mono h.dependsOn _ _ hb)
  obtain ⟨hlasso, hrows⟩ := System.search_exact hpool (Nat.lt_succ_self _)
  rw [resolve_eq hversion, h.cyclic_iff]
  constructor
  · intro hcyclic
    obtain ⟨path, hsearch, hpath⟩ := hlasso hcyclic
    have herror := hwalk.trans hsearch
    refine ⟨path, ?_, hpath.start, hpath.steps.imp fun _ _ => h.dependsOn _ _, hpath.ends⟩
    revert herror
    cases u.system.walkAll given (u.fuel manifest) [manifest.package.name] (entries manifest workspaceRoot)
      Table.empty with
    | ok graph => exact fun herror => by cases herror
    | error err =>
      intro herror
      cases herror
      rfl
  · intro hnone
    obtain ⟨table, hsearch, htable⟩ := hrows hnone
    have hok := hwalk.trans hsearch
    have hroot : ¬ TransGen (fun a b => b ∈ succ a) manifest.package.name manifest.package.name :=
      fun hback => hnone ⟨_, .refl, hback⟩
    revert hok
    cases u.system.walkAll given (u.fuel manifest) [manifest.package.name] (entries manifest workspaceRoot)
      Table.empty with
    | error err => exact fun hok => by cases hok
    | ok graph =>
      intro hok
      cases hok
      refine ⟨_, rfl, fun name => ?_⟩
      rw [isSome_packages, ← System.isSome_keysOf, htable name]
      exact ⟨TransGen.mono h.dependsOn _ _, TransGen.mono (fun _ _ => h.edge hroot) _ _⟩

/-! ## A dependency on itself, and one through a second source -/

/-- A package whose dependencies are directories. -/
def pathPackage (name : String) (dependencies : List (String × String)) : Manifest Nat :=
  packageOf name (dependencies.map fun row => (row.1, .path row.2))

/-- Every directory is fetched; a package is known by where it is cached. -/
def pathWorld (cached : String → String) (names : List String) (dependencies : String → List (String × String))
    (hnames : ∀ path, ∀ row ∈ dependencies path, row.1 ∈ names) : World Nat Nat where
  fetchDirectory path := .ok ⟨cached path, "blake3:" ++ cached path, none⟩
  clone url rev := .ok ⟨"/cache/git", "blake3:" ++ url ++ rev, none⟩
  readCachedManifest path := .ok (pathPackage path (dependencies path))
  parseVersion _ := some 1
  admits req version := req == version
  displayReq _ := "1"
  names := names
  mem_names path manifest h row hrow := by
    cases h
    simp only [pathPackage, packageOf, List.map_map, List.mem_map] at hrow
    obtain ⟨given, hgiven, rfl⟩ := hrow
    exact hnames path given hgiven

section PathWorld

variable {cached : String → String} {names : List String} {dependencies : String → List (String × String)}
  {hnames : ∀ path, ∀ row ∈ dependencies path, row.1 ∈ names}

theorem mem_entries_pathPackage {name root : String} {rows : List (String × String)} {e : DepEntry Nat}
    (he : e ∈ entries (pathPackage name rows) root) : ∃ path, e.spec = .path path := by
  simp only [entries, pathPackage, packageOf, List.map_map, List.mem_map] at he
  obtain ⟨row, -, rfl⟩ := he
  exact ⟨row.2, rfl⟩

theorem fetchNode_pathWorld {e : DepEntry Nat} {path : String} (hspec : e.spec = .path path) :
    ∃ node, (pathWorld cached names dependencies hnames).fetchNode e =
      .ok (node, entries (pathPackage (cached (joinPath e.workspaceRoot path))
        (dependencies (cached (joinPath e.workspaceRoot path)))) (cached (joinPath e.workspaceRoot path))) := by
  unfold fetchNode
  rw [hspec]
  exact ⟨_, rfl⟩

theorem path_of_reach {name root : String} {rows : List (String × String)} {e : DepEntry Nat}
    (h : (pathWorld cached names dependencies hnames).system.Reach (entries (pathPackage name rows) root) e) :
    ∃ path, e.spec = .path path := by
  cases h with
  | root he => exact mem_entries_pathPackage he
  | child _ hexpand hc =>
    obtain ⟨m, -, -, -, -, hread, rfl⟩ := fetchNode_ok hexpand
    cases hread
    exact mem_entries_pathPackage hc

theorem fetches_pathWorld (name root : String) (rows : List (String × String)) :
    (pathWorld cached names dependencies hnames).Fetches (pathPackage name rows) root := by
  intro e h
  obtain ⟨path, hspec⟩ := path_of_reach h
  obtain ⟨node, hnode⟩ := fetchNode_pathWorld hspec
  exact ⟨node, _, hnode⟩

end PathWorld

/-- The package `dep_a` depends on its own directory. -/
def selfish : World Nat Nat :=
  pathWorld (fun _ => "/cache/a") ["dep_a"] (fun _ => [("dep_a", ".")]) (by simp)

def selfishMain : Manifest Nat :=
  pathPackage "main" [("dep_a", "dep_a")]

theorem selfish_oneManifest : selfish.OneManifest selfishMain "/ws" := by
  intro a b node children node' children' _ _ _ hfetch hfetch'
  obtain ⟨m, -, -, -, -, hread, rfl⟩ := fetchNode_ok hfetch
  obtain ⟨m', -, -, -, -, hread', rfl⟩ := fetchNode_ok hfetch'
  cases hread
  cases hread'
  rfl

theorem selfish_cyclic : selfish.Cyclic selfishMain "/ws" := by
  have hmain : selfish.DependsOn selfishMain "/ws" "main" "dep_a" := .inl ⟨rfl, List.mem_singleton_self _⟩
  have hself : selfish.DependsOn selfishMain "/ws" "dep_a" "dep_a" :=
    .inr ⟨⟨"dep_a", .path "dep_a", "/ws"⟩, _, _, .root (List.mem_singleton_self _), rfl, rfl,
      List.mem_singleton_self _⟩
  exact ⟨"dep_a", .single hmain, .single hself⟩

/-- The cycle of the package is found behind the root. -/
theorem resolve_cycle_exact_selfish :
    ∃ path, selfish.resolve selfishMain "/ws" = .error (some (.resolution (.cycle path))) ∧
      Lasso (selfish.DependsOn selfishMain "/ws") "main" path :=
  (resolve_cycle_exact rfl (fetches_pathWorld _ _ _) selfish_oneManifest).1 selfish_cyclic

/-- The package `c` has a directory `b` of its own, which depends on `c`; the root's `b` depends on nothing. -/
def twoSources : World Nat Nat :=
  pathWorld (fun path => if path = "/ws/b" then "/cache/b" else if path = "/cache/c/b" then "/cache/b2" else "/cache/c")
    ["b", "c"]
    (fun path => if path = "/cache/b" then [] else if path = "/cache/b2" then [("c", "c")] else [("b", "b")])
    (by intro path row hrow; split at hrow <;> [skip; split at hrow] <;> simp_all)

def twoSourcesApp : Manifest Nat :=
  pathPackage "app" [("b", "b"), ("c", "c")]

theorem twoSources_cyclic : twoSources.Cyclic twoSourcesApp "/ws" := by
  have hreach : twoSources.system.Reach (entries twoSourcesApp "/ws") ⟨"c", .path "c", "/ws"⟩ :=
    .root (List.mem_cons_of_mem _ (List.mem_singleton_self _))
  have hreach' : twoSources.system.Reach (entries twoSourcesApp "/ws") ⟨"b", .path "b", "/cache/c"⟩ :=
    hreach.child rfl (List.mem_singleton_self _)
  have hroot : twoSources.DependsOn twoSourcesApp "/ws" "app" "c" := .inl ⟨rfl, by decide⟩
  have hcb : twoSources.DependsOn twoSourcesApp "/ws" "c" "b" :=
    .inr ⟨_, _, _, hreach, rfl, rfl, List.mem_singleton_self _⟩
  have hbc : twoSources.DependsOn twoSourcesApp "/ws" "b" "c" :=
    .inr ⟨_, _, _, hreach', rfl, rfl, List.mem_singleton_self _⟩
  exact ⟨"c", .single hroot, .tail (.single hcb) hbc⟩

/-- The path of an error need not be closed; and a cycle through the second source of a name is not found. -/
theorem resolve_cycle_path :
    (selfish.Fetches selfishMain "/ws" ∧ selfish.Cyclic selfishMain "/ws" ∧
      selfish.resolve selfishMain "/ws" = .error (some (.resolution (.cycle ["main", "dep_a", "dep_a"]))) ∧
      ["main", "dep_a", "dep_a"].head? ≠ ["main", "dep_a", "dep_a"].getLast?) ∧
    (twoSources.Fetches twoSourcesApp "/ws" ∧ twoSources.Cyclic twoSourcesApp "/ws" ∧
      ∃ r, twoSources.resolve twoSourcesApp "/ws" = .ok r) :=
  ⟨⟨fetches_pathWorld _ _ _, selfish_cyclic, rfl, by decide⟩, fetches_pathWorld _ _ _, twoSources_cyclic, _, rfl⟩

end World

end Cobrust.Pkg
