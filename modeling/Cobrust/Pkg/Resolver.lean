import Cobrust.Graph.DepthFirst
import Cobrust.Pkg.Manifest
import Mathlib.Data.List.Sort
import Mathlib.Order.Lattice

/-!
# The resolver

`resolve` and `walk_dep` of `cobrust-pkg/src/resolver.rs`, with the sources of `sources.rs`. What a fetch finds
and what the semver crate computes are fields of a `World`. The recursion is bounded by the names of the
world; `order` is the order in which the dependencies of a package are visited, the one of the map in the code.
-/

namespace Cobrust.Pkg

open Store (Table)
open Cobrust.Graph (System VisitOrder)

/-! ## Sources -/

inductive Source (Req : Type) where
  | path (path : String)
  | git (url rev : String)
  | registry (name : String) (version : Req)

structure SourceFetchOutput where
  localPath : String
  blake3Hex : String
  provenanceHash : Option String
  deriving DecidableEq, Repr

/-- Where a package comes from, with the path of a directory resolved. -/
inductive Place where
  | directory (path : String)
  | repository (url rev : String)
  deriving DecidableEq, Repr

/-- The packages that there are, and how versions are read and compared. -/
structure World (Version Req : Type) where
  /-- `fetch_path`, once the path is resolved. -/
  fetchDirectory : String → Except PkgError SourceFetchOutput
  /-- `fetch_git`, for texts that are no flags. -/
  clone : String → String → Except PkgError SourceFetchOutput
  readCachedManifest : String → Except PkgError (Manifest Req)
  parseVersion : String → Option Version
  /-- `VersionReq::matches` -/
  admits : Req → Version → Bool
  displayReq : Req → String
  /-- The names that the manifests of the world mention. -/
  names : List String
  mem_names : ∀ path manifest, readCachedManifest path = .ok manifest →
    ∀ row ∈ manifest.dependencies, row.1 ∈ names

/-- `Path::is_absolute` -/
def isAbsolute (path : String) : Bool :=
  path.toList.head? == some '/'

/-- `Path::join` -/
def joinPath (base path : String) : String :=
  if isAbsolute path then path
  else if base.toList.getLast?.any fun c => c != '/' then base ++ "/" ++ path
  else base ++ path

/-- A row of a `[dependencies]` table, with the directory that its paths are relative to. -/
structure DepEntry (Req : Type) where
  name : String
  spec : DependencySpec Req
  workspaceRoot : String

def DependencySpec.sourceFromSpec {Req : Type} (name : String) : DependencySpec Req → Source Req
  | .path raw => .path raw
  | .git url rev => .git url rev
  | .version req => .registry name req
  | .registry req _ => .registry name req

def Source.place {Req : Type} (workspaceRoot : String) : Source Req → Option Place
  | .path raw => some (.directory (joinPath workspaceRoot raw))
  | .git url rev => some (.repository url rev)
  | .registry _ _ => none

def DepEntry.place {Req : Type} (e : DepEntry Req) : Option Place :=
  (e.spec.sourceFromSpec e.name).place e.workspaceRoot

structure DepNode (Version : Type) where
  name : String
  version : Version
  sourceUrl : String
  hash : String
  provenanceHash : Option String
  localPath : String
  directDeps : List String
  /-- The source with its path resolved; the code keeps the source as it was written. -/
  place : Option Place
  deriving DecidableEq, Repr

structure ResolvedPackage (Version : Type) where
  name : String
  version : Version
  sourceUrl : String
  hash : String
  provenanceHash : Option String
  dependencyNames : List String
  localPath : String
  /-- As in the node. -/
  place : Option Place
  deriving DecidableEq, Repr

structure Resolution (Version : Type) where
  root : ResolvedPackage Version
  packages : Table String (ResolvedPackage Version)

def sortNames (names : List String) : List String :=
  names.insertionSort (· ≤ ·)

namespace World

variable {Version Req : Type} (u : World Version Req)

def sourceUrl : Source Req → String
  | .path raw => "path+file://" ++ raw
  | .git url rev => "git+" ++ url ++ "#" ++ rev
  | .registry name version => "registry+default?" ++ name ++ "@" ++ u.displayReq version

/-- Values that `git` would take for flags. -/
def startsWithDash (text : String) : Bool :=
  text.toList.head? == some '-'

def fetch (source : Source Req) (workspaceRoot : String) : Except PkgError SourceFetchOutput :=
  match source with
  | .path raw => u.fetchDirectory (joinPath workspaceRoot raw)
  | .git url rev =>
    if startsWithDash rev then .error (.source (.adversarialRef rev))
    else if startsWithDash url then .error (.source (.adversarialRef url))
    else u.clone url rev
  | .registry name _ => .error (.registry (.offline name))

/-! ## The walk -/

/-- The rows of a manifest that lies in a directory. -/
def entries (manifest : Manifest Req) (workspaceRoot : String) : List (DepEntry Req) :=
  manifest.dependencies.map fun row => ⟨row.1, row.2.spec, workspaceRoot⟩

/-- What `walk_dep` fetches and reads for a name that is not in the graph. -/
def fetchNode (e : DepEntry Req) : Except PkgError (DepNode Version × List (DepEntry Req)) := do
  let source := e.spec.sourceFromSpec e.name
  let fetch ← u.fetch source e.workspaceRoot
  let cachedManifest ← u.readCachedManifest fetch.localPath
  match u.parseVersion cachedManifest.package.version with
  | none => .error (.resolution (.missingPackage e.name))
  | some version =>
    let node :=
      { name := e.name
        version := version
        sourceUrl := u.sourceUrl source
        hash := fetch.blake3Hex
        provenanceHash := fetch.provenanceHash
        localPath := fetch.localPath
        directDeps := sortNames (cachedManifest.dependencies.map Prod.fst)
        place := e.place }
    return (node, entries cachedManifest fetch.localPath)

/-- One dependency. The entries behind it share the graph; the path ends with its name. -/
def walkDep (order : VisitOrder String (DepEntry Req)) :
    Nat → List String → Table String (DepNode Version) → DepEntry Req →
      Except (Option PkgError) (Table String (DepNode Version))
  | 0, _, _, _ => .error none
  | fuel + 1, onPath, graph, e =>
    if e.name ∈ onPath then .error (some (.resolution (.cycle (onPath ++ [e.name]))))
    else if (graph e.name).isSome then .ok graph
    else
      match u.fetchNode e with
      | .error err => .error (some err)
      | .ok (node, children) =>
        (order (onPath ++ [e.name]) children).foldlM (walkDep order fuel (onPath ++ [e.name]))
          (graph.insert e.name node)

/-- `MaxCompatibleStrategy::select`. Every node has a version. -/
def select (graph : Table String (DepNode Version)) : Table String Version :=
  fun name => (graph name).map DepNode.version

def resolvedPackage (name : String) (version : Version) (node : DepNode Version) : ResolvedPackage Version where
  name := name
  version := version
  sourceUrl := node.sourceUrl
  hash := node.hash
  provenanceHash := node.provenanceHash
  dependencyNames := node.directDeps
  localPath := node.localPath
  place := node.place

/-- The packages of the chosen versions. -/
def packages (graph : Table String (DepNode Version)) : Table String (ResolvedPackage Version) :=
  fun name => (select graph name).bind fun version => (graph name).map (resolvedPackage name version)

def rootPackage (manifest : Manifest Req) (version : Version) (workspaceRoot : String) :
    ResolvedPackage Version where
  name := manifest.package.name
  version := version
  sourceUrl := "path+file://" ++ workspaceRoot
  hash := "blake3:root"
  provenanceHash := none
  dependencyNames := sortNames (manifest.dependencies.map Prod.fst)
  localPath := workspaceRoot
  place := some (.directory workspaceRoot)

/-- One more than there are names. -/
def fuel (manifest : Manifest Req) : Nat :=
  (u.names ++ manifest.dependencies.map Prod.fst).length + 1

/-- `resolve`, with the dependencies visited in some order. -/
def resolveIn (order : VisitOrder String (DepEntry Req)) (manifest : Manifest Req) (workspaceRoot : String) :
    Except (Option PkgError) (Resolution Version) :=
  match u.parseVersion manifest.package.version with
  | none => .error (some (.resolution (.missingPackage manifest.package.name)))
  | some version => do
    let onPath := [manifest.package.name]
    let graph ← (order onPath (entries manifest workspaceRoot)).foldlM
      (u.walkDep order (u.fuel manifest) onPath) Table.empty
    return ⟨rootPackage manifest version workspaceRoot, packages graph⟩

def resolve (manifest : Manifest Req) (workspaceRoot : String) : Except (Option PkgError) (Resolution Version) :=
  u.resolveIn (fun _ rows => rows) manifest workspaceRoot

end World

end Cobrust.Pkg
