import Cobrust.Control.Outcome
import Cobrust.Pkg.Resolver

/-!
# What a resolution owes its manifests

The resolver keeps the first source it meets for a name.

* `resolve_meets_iff`: a resolution meets every dependency entry, in whatever order entries are visited, exactly
  when the entries of one name that are reachable name one source.
* `resolve_first_wins`: two packages that ask for different revisions of a third both get the first one's.
-/

namespace Cobrust.Pkg

open Store (Table)
open Cobrust.Graph (System VisitOrder)
open Control (except_bind_ok)

variable {Version Req : Type}

/-- The package is fetched from the source that the entry names, or has a version that it admits. -/
def DepEntry.Meets (u : World Version Req) (e : DepEntry Req) (p : ResolvedPackage Version) : Prop :=
  match e.spec with
  | .version req => u.admits req p.version = true
  | .registry req _ => u.admits req p.version = true
  | _ => p.place = e.place

/-- Every entry of the root and of every resolved package is met by the package of its name. -/
structure Resolution.Meets (u : World Version Req) (manifest : Manifest Req) (workspaceRoot : String)
    (r : Resolution Version) : Prop where
  root : ∀ e ∈ World.entries manifest workspaceRoot, ∃ p, r.packages e.name = some p ∧ e.Meets u p
  packages : ∀ name p m, r.packages name = some p → u.readCachedManifest p.localPath = .ok m →
    ∀ e ∈ World.entries m p.localPath, ∃ q, r.packages e.name = some q ∧ e.Meets u q

namespace World

variable (u : World Version Req)

/-- The walk as one over a system of entries. -/
def system : System String (DepEntry Req) (DepNode Version) PkgError where
  key := DepEntry.name
  expand := u.fetchNode
  cycle path := .resolution (.cycle path)

/-- The entries name the same directory or revision, in the same words. -/
def SameSource (a b : DepEntry Req) : Prop :=
  ∃ place, a.place = some place ∧ b.place = some place ∧
    u.sourceUrl (a.spec.sourceFromSpec a.name) = u.sourceUrl (b.spec.sourceFromSpec b.name)

/-- The entries of one name that can be reached from the manifest name one source. -/
def OneSource (manifest : Manifest Req) (workspaceRoot : String) : Prop :=
  ∀ a b, u.system.Reach (entries manifest workspaceRoot) a → u.system.Reach (entries manifest workspaceRoot) b →
    a.name = b.name → u.SameSource a b

variable {u} {manifest : Manifest Req} {workspaceRoot : String} {order : VisitOrder String (DepEntry Req)}
  {e : DepEntry Req} {node : DepNode Version} {children : List (DepEntry Req)} {r : Resolution Version}

theorem walkDep_eq (fuel : Nat) (onPath : List String) (graph : Table String (DepNode Version))
    (e : DepEntry Req) : u.walkDep order fuel onPath graph e = u.system.walk order fuel onPath graph e := by
  induction fuel generalizing onPath graph e with
  | zero => rfl
  | succ fuel ih =>
    have hstep : u.walkDep order fuel (onPath ++ [e.name]) = u.system.walk order fuel (onPath ++ [e.name]) :=
      funext fun g => funext fun c => ih _ g c
    have hkey : u.system.key e = e.name := rfl
    have hexpand : u.system.expand e = u.fetchNode e := rfl
    rw [walkDep, System.walk, hstep, hkey, hexpand]
    cases u.fetchNode e <;> rfl

theorem fetchNode_ok (h : u.fetchNode e = .ok (node, children)) :
    ∃ m, node.name = e.name ∧ node.place = e.place ∧ node.sourceUrl = u.sourceUrl (e.spec.sourceFromSpec e.name) ∧
      e.place ≠ none ∧ u.readCachedManifest node.localPath = .ok m ∧ children = entries m node.localPath := by
  unfold fetchNode at h
  obtain ⟨out, hfetch, h⟩ := except_bind_ok.1 h
  obtain ⟨m, hread, h⟩ := except_bind_ok.1 h
  split at h
  · cases h
  · next version hversion =>
    cases h
    refine ⟨m, rfl, rfl, rfl, ?_, hread, rfl⟩
    intro hplace
    unfold DepEntry.place Source.place at hplace
    unfold fetch at hfetch
    split at hplace
    · cases hplace
    · cases hplace
    · next name req hsource =>
      rw [hsource] at hfetch
      cases hfetch

theorem fetch_of_place {a b : DepEntry Req} {place : Place} (ha : a.place = some place) (hb : b.place = some place) :
    u.fetch (a.spec.sourceFromSpec a.name) a.workspaceRoot =
      u.fetch (b.spec.sourceFromSpec b.name) b.workspaceRoot := by
  unfold DepEntry.place Source.place at ha hb
  unfold fetch
  split at ha <;> split at hb <;> cases ha <;> simp_all

theorem fetchNode_of_sameSource {a b : DepEntry Req} (hname : a.name = b.name) (h : u.SameSource a b) :
    u.fetchNode a = u.fetchNode b := by
  obtain ⟨place, ha, hb, hurl⟩ := h
  have hfetch := fetch_of_place (u := u) ha hb
  rw [hname] at hfetch hurl
  unfold fetchNode
  simp only [hfetch, hurl, hname, ha, hb]

/-- A resolution is a walk, and a version of the root. -/
theorem resolveIn_ok : u.resolveIn order manifest workspaceRoot = .ok r ↔
    ∃ version graph, u.parseVersion manifest.package.version = some version ∧
      u.system.walkAll order (u.fuel manifest) [manifest.package.name] (entries manifest workspaceRoot)
        Table.empty = .ok graph ∧
      r = ⟨rootPackage manifest version workspaceRoot, packages graph⟩ := by
  have hwalk : u.walkDep order (u.fuel manifest) [manifest.package.name] =
      u.system.walk order (u.fuel manifest) [manifest.package.name] :=
    funext fun g => funext fun e => walkDep_eq _ _ g e
  unfold resolveIn
  cases hversion : u.parseVersion manifest.package.version with
  | none =>
    constructor
    · intro h
      cases h
    · rintro ⟨version, graph, h, -⟩
      cases h
  | some version =>
    simp only [hwalk]
    constructor
    · intro h
      obtain ⟨graph, hgraph, h⟩ := except_bind_ok.1 h
      cases h
      exact ⟨version, graph, rfl, hgraph, rfl⟩
    · rintro ⟨version', graph, heq, hgraph, rfl⟩
      cases heq
      exact except_bind_ok.2 ⟨graph, hgraph, rfl⟩

theorem packages_eq_some {graph : Table String (DepNode Version)} {name : String} {p : ResolvedPackage Version} :
    packages graph name = some p ↔ ∃ node, graph name = some node ∧ p = resolvedPackage name node.version node := by
  unfold packages select
  cases graph name with
  | none => simp
  | some node => simp [eq_comm]

theorem name_mem {e : DepEntry Req} (h : u.system.Reach (entries manifest workspaceRoot) e) :
    e.name ∈ u.names ++ manifest.dependencies.map Prod.fst := by
  cases h with
  | root h =>
    obtain ⟨row, hrow, rfl⟩ := List.mem_map.1 h
    exact List.mem_append_right _ (List.mem_map_of_mem hrow)
  | child _ hexpand hc =>
    obtain ⟨m, -, -, -, -, hread, rfl⟩ := fetchNode_ok hexpand
    obtain ⟨row, hrow, rfl⟩ := List.mem_map.1 hc
    exact List.mem_append_left _ (u.mem_names _ m hread row hrow)

theorem determined_of_oneSource (h : u.OneSource manifest workspaceRoot) :
    u.system.Determined (entries manifest workspaceRoot) :=
  fun a b ha hb hname => fetchNode_of_sameSource hname (h a b ha hb hname)

/-- Where entries of one name name one source, every reachable entry is met. -/
theorem meets_of_oneSource {graph : Table String (DepNode Version)} {fuel : Nat} {onPath : List String}
    (h : u.OneSource manifest workspaceRoot) (horder : order.Reorders)
    (hwalk : u.system.walkAll order fuel onPath (entries manifest workspaceRoot) Table.empty = .ok graph)
    (hreach : u.system.Reach (entries manifest workspaceRoot) e) :
    ∃ p, packages graph e.name = some p ∧ e.Meets u p := by
  have hdet := determined_of_oneSource h
  obtain ⟨e₀, he₀, hbelow⟩ := hreach.split
  obtain ⟨_, hunfolds⟩ := ((System.walkAll_unfolds horder hdet hwalk e₀ he₀).1).descend hbelow
  obtain ⟨node, children, hexpand⟩ := hunfolds.expand_ok
  have hrow := (System.walkAll_rows horder hdet hwalk e.name node).2 ⟨e, children, hreach, rfl, hexpand⟩
  obtain ⟨m, hname, hplace, -, hsome, -⟩ := fetchNode_ok hexpand
  refine ⟨_, packages_eq_some.2 ⟨node, hrow, rfl⟩, ?_⟩
  unfold DepEntry.Meets
  split
  · next req hspec => simp [DepEntry.place, hspec, DependencySpec.sourceFromSpec, Source.place] at hsome
  · next req registry hspec => simp [DepEntry.place, hspec, DependencySpec.sourceFromSpec, Source.place] at hsome
  · exact hplace

/-- A resolution meets every entry and is that of every order, exactly when the reachable entries of one name
name one source. -/
theorem resolve_meets_iff (h : u.resolve manifest workspaceRoot = .ok r) :
    (r.Meets u manifest workspaceRoot ∧
      ∀ order : VisitOrder String (DepEntry Req), order.Reorders → u.resolveIn order manifest workspaceRoot = .ok r) ↔
      u.OneSource manifest workspaceRoot := by
  obtain ⟨version, graph, hversion, hwalk, rfl⟩ := resolveIn_ok.1 h
  let given : VisitOrder String (DepEntry Req) := fun _ rows => rows
  have horder : given.Reorders := fun _ _ => .refl _
  constructor
  · rintro ⟨-, horders⟩ a b ha hb hname
    -- the node of the name is the one that each of the two entries gives
    have hnode : ∀ e, u.system.Reach (entries manifest workspaceRoot) e →
        ∃ node children, u.fetchNode e = .ok (node, children) ∧
          packages graph e.name = some (resolvedPackage e.name node.version node) := by
      intro e he
      classical
      obtain ⟨order, hreorders, hrow⟩ := System.exists_order_row he [manifest.package.name] (u.fuel manifest)
      obtain ⟨_, graph', -, hwalk', hr⟩ := resolveIn_ok.1 (horders order hreorders)
      obtain ⟨node, children, hexpand, hnode⟩ := hrow graph' hwalk'
      refine ⟨node, children, hexpand, ?_⟩
      have hpackages : packages graph = packages graph' := congrArg Resolution.packages hr
      rw [hpackages]
      exact packages_eq_some.2 ⟨node, hnode, rfl⟩
    obtain ⟨node, children, hexpand, hpackage⟩ := hnode a ha
    obtain ⟨node', children', hexpand', hpackage'⟩ := hnode b hb
    rw [hname, hpackage', Option.some.injEq] at hpackage
    obtain ⟨-, -, hplace, hurl, hsome, -⟩ := fetchNode_ok hexpand
    obtain ⟨-, -, hplace', hurl', -⟩ := fetchNode_ok hexpand'
    obtain ⟨place, hplace₀⟩ := Option.ne_none_iff_exists'.1 hsome
    have hsame : node'.place = node.place := congrArg ResolvedPackage.place hpackage
    have hsameUrl : node'.sourceUrl = node.sourceUrl := congrArg ResolvedPackage.sourceUrl hpackage
    exact ⟨place, hplace₀, by rw [← hplace', hsame, hplace, hplace₀], by rw [← hurl, ← hurl', hsameUrl]⟩
  · intro hone
    have hdet := determined_of_oneSource hone
    refine ⟨⟨fun e he => meets_of_oneSource hone horder hwalk (.root he), ?_⟩, fun order hreorders => ?_⟩
    · intro name p m hp hread e he
      obtain ⟨node, hnode, rfl⟩ := packages_eq_some.1 hp
      obtain ⟨e₀, children, hreach, -, hexpand⟩ := (System.walkAll_rows horder hdet hwalk name node).1 hnode
      obtain ⟨m', -, -, -, -, hread', rfl⟩ := fetchNode_ok hexpand
      have hm : m' = m := Except.ok.inj (hread'.symm.trans hread)
      subst hm
      exact meets_of_oneSource hone horder hwalk (hreach.child hexpand he)
    · refine resolveIn_ok.2 ⟨version, graph, hversion, ?_, rfl⟩
      exact System.walkAll_order horder hreorders hdet (fun e he => name_mem he) (Nat.lt_succ_self _) hwalk

def packageOf (name : String) (dependencies : List (String × DependencySpec Nat)) : Manifest Nat where
  package := ⟨name, "1", "1", [], none, none⟩
  dependencies := dependencies.map fun row => (row.1, ⟨row.1, row.2⟩)
  devDependencies := []
  bin := none
  lib := some ⟨name, "src/lib.cb"⟩
  tests := []

/-- The packages `a` and `b` depend on `x`, at the revisions `r1` and `rev`. -/
def diamond (rev : String) : World Nat Nat where
  fetchDirectory path := .ok (if path = "/ws/a" then ⟨"/cache/a", "blake3:a", none⟩ else ⟨"/cache/b", "blake3:b", none⟩)
  clone url rev := .ok ⟨"/cache/x", "blake3:" ++ url ++ rev, none⟩
  readCachedManifest path := .ok
    (if path = "/cache/a" then packageOf "a" [("x", .git "url" "r1")]
      else if path = "/cache/b" then packageOf "b" [("x", .git "url" rev)]
      else packageOf "x" [])
  parseVersion _ := some 1
  admits req version := req == version
  displayReq _ := "1"
  names := ["x"]
  mem_names path manifest h row hrow := by
    cases h
    split at hrow
    · simp_all [packageOf]
    · split at hrow <;> simp_all [packageOf]

def app : Manifest Nat :=
  packageOf "app" [("a", .path "a"), ("b", .path "b")]

/-- A resolution in which `b` gets the revision that `a` asks for. -/
theorem resolve_first_wins :
    ∃ r, (diamond "r2").resolve app "/ws" = .ok r ∧ ¬ r.Meets (diamond "r2") app "/ws" := by
  refine ⟨_, rfl, fun h => ?_⟩
  have hb := h.packages "b" _ _ rfl rfl ⟨"x", .git "url" "r2", "/cache/b"⟩ (List.mem_singleton_self _)
  obtain ⟨q, hq, hmeets⟩ := hb
  cases hq
  have hplace : some (Place.repository "url" "r1") = some (.repository "url" "r2") := hmeets
  simp at hplace

theorem diamond_reach {rev : String} {e : DepEntry Nat} (h : (diamond rev).system.Reach (entries app "/ws") e) :
    e ∈ [⟨"a", .path "a", "/ws"⟩, ⟨"b", .path "b", "/ws"⟩, ⟨"x", .git "url" "r1", "/cache/a"⟩,
      ⟨"x", .git "url" rev, "/cache/b"⟩] := by
  induction h with
  | root h => exact List.mem_append_left [⟨"x", .git "url" "r1", "/cache/a"⟩, ⟨"x", .git "url" rev, "/cache/b"⟩] h
  | child _ hexpand hc ih =>
    obtain ⟨m, -, -, -, -, hread, rfl⟩ := fetchNode_ok hexpand
    cases hread
    obtain ⟨row, hrow, rfl⟩ := List.mem_map.1 hc
    split at hrow
    · next hpath => simp_all [packageOf]
    · split at hrow <;> simp_all [packageOf]

/-- With one revision, all entries are met. -/
theorem resolve_meets_iff_diamond :
    ∃ r, (diamond "r1").resolve app "/ws" = .ok r ∧ r.Meets (diamond "r1") app "/ws" := by
  refine ⟨_, rfl, ?_⟩
  have hone : (diamond "r1").OneSource app "/ws" := by
    intro a b ha hb hname
    have ha' := diamond_reach ha
    have hb' := diamond_reach hb
    simp only [List.mem_cons, List.not_mem_nil, or_false] at ha' hb'
    rcases ha' with rfl | rfl | rfl | rfl <;> rcases hb' with rfl | rfl | rfl | rfl <;>
      first
        | exact ⟨_, rfl, rfl, rfl⟩
        | simp at hname
  have hok : (diamond "r1").resolve app "/ws" = .ok _ := rfl
  exact ((resolve_meets_iff hok).2 hone).1

end World

end Cobrust.Pkg
