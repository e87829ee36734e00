/-!
# Manifests

The errors of `cobrust-pkg/src/error.rs`, and the data of `cobrust-pkg/src/manifest.rs`. A version requirement is what
the semver crate parses it to.
-/

namespace Cobrust.Pkg

inductive ManifestError where
  | tomlParse (message : String)
  | missingField (field : String)
  | invalidName (name : String)
  | invalidVersion (name version : String)
  | invalidDependency (name reason : String)
  | noTarget
  | conflictingPaths (path : String)
  | isRouterConfig
  | unknownRootKeys (keys : List String)
  deriving DecidableEq, Repr

inductive LockfileError where
  | tomlParse (message : String)
  | tomlSerialize (message : String)
  | incompatibleVersion («have» want : UInt32)
  | manifestHashMismatch (recorded computed : String)
  deriving DecidableEq, Repr

inductive ResolutionError where
  | conflict (package : String) (reqs : List String)
  | cycle (path : List String)
  | missingPackage (name : String)
  | ambiguousSource (name : String)
  deriving DecidableEq, Repr

inductive RegistryError where
  | notWritable (root : String)
  | offline (name : String)
  | hashMismatch (expected actual : String)
  | entryNotFound (hash : String)
  deriving DecidableEq, Repr

inductive SourceError where
  | pathMissing (path : String)
  | pathNotDirectory (path : String)
  | git (message : String)
  | registry (message : String)
  | invalid (message : String)
  | adversarialRef (text : String)
  deriving DecidableEq, Repr

inductive TarballError where
  | pathEscape (path : String)
  | symlinkEntry (path : String)
  | readEntries (message : String)
  | badEntryPath (message : String)
  deriving DecidableEq, Repr

inductive PkgError where
  | manifest (e : ManifestError)
  | lockfile (e : LockfileError)
  | resolution (e : ResolutionError)
  | registry (e : RegistryError)
  | source (e : SourceError)
  | tarball (e : TarballError)
  | io (message : String)
  deriving DecidableEq, Repr

end Cobrust.Pkg

namespace Cobrust.Pkg

structure PackageTable where
  name : String
  version : String
  cobrustVersion : String
  authors : List String
  license : Option String
  description : Option String
  deriving DecidableEq, Repr

inductive DependencySpec (Req : Type) where
  | version (req : Req)
  | path (path : String)
  | git (url rev : String)
  | registry (req : Req) (registry : String)
  deriving DecidableEq, Repr

structure Dependency (Req : Type) where
  name : String
  spec : DependencySpec Req
  deriving DecidableEq, Repr

/-- A `[bin]`, `[lib]` or `[[test]]` table. -/
structure TargetTable where
  name : String
  path : String
  deriving DecidableEq, Repr

structure Manifest (Req : Type) where
  package : PackageTable
  /-- The rows of the map, by key. -/
  dependencies : List (String × Dependency Req)
  devDependencies : List (String × Dependency Req)
  bin : Option TargetTable
  lib : Option TargetTable
  tests : List TargetTable
  deriving DecidableEq, Repr

end Cobrust.Pkg
