import Cobrust.Pkg.ManifestText
import Cobrust.Pkg.Resolver
import Mathlib.Algebra.Group.Int.Defs
import Mathlib.Data.Prod.Lex

/-!
# Lockfiles

`cobrust-pkg/src/lockfile.rs`: lockfiles of resolutions, their canonical text and how they are read.

* `fromResolution_of_samePackages`: a lockfile does not depend on the order in which the packages and the
  dependencies of a resolution were supplied.
-/

namespace Cobrust.Pkg

open Cobrust.Store (sortRows sortRows_map sortRows_perm)
open Cobrust.Toml (Value Root readString readArray optionalAt defaultAt requiredAt)

structure LockfileMetadata where
  manifestHash : String
  lockfileVersion : UInt32
  deriving DecidableEq, Repr

structure LockfilePackage where
  name : String
  version : String
  source : String
  hash : String
  provenanceHash : Option String
  dependencies : List String
  deriving DecidableEq, Repr

structure Lockfile where
  metadata : LockfileMetadata
  packages : List LockfilePackage
  deriving DecidableEq, Repr

/-- `LOCKFILE_VERSION` -/
def currentVersion : UInt32 :=
  1

def sortTexts (texts : List String) : List String :=
  texts.insertionSort (· ≤ ·)

/-- What packages are compared by. -/
def LockfilePackage.key (p : LockfilePackage) : String ×ₗ String :=
  toLex (p.name, p.version)

def sortPackages (packages : List LockfilePackage) : List LockfilePackage :=
  packages.insertionSort fun a b => a.key ≤ b.key

variable {Version Req : Type}

def lockPkgFromResolved (displayVersion : Version → String) (p : ResolvedPackage Version) : LockfilePackage where
  name := p.name
  version := displayVersion p.version
  source := p.sourceUrl
  hash := p.hash
  provenanceHash := p.provenanceHash
  dependencies := sortTexts p.dependencyNames

/-- `packages` are the rows of the map of the resolution, by key. -/
def Lockfile.fromResolution (c : Crates Req) (blake3Hex : String → String) (displayVersion : Version → String)
    (manifest : Manifest Req) (root : ResolvedPackage Version) (packages : List (String × ResolvedPackage Version)) :
    Lockfile where
  metadata := ⟨manifest.manifestHash c blake3Hex, currentVersion⟩
  packages := sortPackages
    (lockPkgFromResolved displayVersion root :: packages.map fun row => lockPkgFromResolved displayVersion row.2)

/-- The version under a name in the map that is collected from the packages: the last one. -/
def resolvedVersion (packages : List LockfilePackage) (name : String) : Option String :=
  (packages.map fun p => (p.name, p.version)).reverse.lookup name

def rewriteDepStrings (lock : Lockfile) : Lockfile where
  metadata := lock.metadata
  packages := lock.packages.map fun p =>
    { p with dependencies := sortTexts (p.dependencies.map fun dep =>
        match resolvedVersion lock.packages dep with
        | some v => dep ++ " " ++ v
        | none => dep) }

/-- The four digits of `{:04x}`. -/
def hex4 (n : Nat) : List Char :=
  [n / 4096 % 16, n / 256 % 16, n / 16 % 16, n % 16].map Nat.digitChar

def escapeChar (c : Char) : List Char :=
  match c with
  | '\\' => ['\\', '\\']
  | '"' => ['\\', '"']
  | '\n' => ['\\', 'n']
  | '\r' => ['\\', 'r']
  | '\t' => ['\\', 't']
  | c => if c.toNat < 0x20 then '\\' :: 'u' :: hex4 c.toNat else [c]

def escapeStr (s : String) : String :=
  String.ofList (s.toList.flatMap escapeChar)

def LockfilePackage.text (p : LockfilePackage) : String :=
  "\n[[package]]\n" ++ quotedRow "name" (escapeStr p.name) ++ quotedRow "version" (escapeStr p.version) ++
    quotedRow "source" (escapeStr p.source) ++ quotedRow "hash" (escapeStr p.hash) ++
    p.provenanceHash.elim "" (fun h => quotedRow "provenance_hash" (escapeStr h)) ++
    "dependencies = [" ++ commaSeparated ((sortTexts p.dependencies).map fun d => "\"" ++ escapeStr d ++ "\"") ++ "]\n"

def Lockfile.toCanonicalToml (lock : Lockfile) : String :=
  "# cobrust.lock — auto-generated by `cobrust build`. Do not edit.\n" ++ "# Determinism contract: ADR-0026 §C.\n\n" ++
    "[metadata]\n" ++ quotedRow "manifest_hash" lock.metadata.manifestHash ++
    "lockfile_version = " ++ toString lock.metadata.lockfileVersion.toNat ++ "\n" ++
    String.join (lock.packages.map LockfilePackage.text)

def readU32 : Value → Option UInt32
  | .integer n => if 0 ≤ n ∧ n < 2 ^ 32 then some (UInt32.ofNat n.toNat) else none
  | _ => none

def LockfileMetadata.read (v : Value) : Option LockfileMetadata := do
  let field ← v.field ["manifest_hash", "lockfile_version"]
  let manifestHash ← requiredAt readString (field "manifest_hash")
  let lockfileVersion ← requiredAt readU32 (field "lockfile_version")
  return { manifestHash, lockfileVersion }

def LockfilePackage.read (v : Value) : Option LockfilePackage := do
  let field ← v.field ["name", "version", "source", "hash", "provenance_hash", "dependencies"]
  let name ← requiredAt readString (field "name")
  let version ← requiredAt readString (field "version")
  let source ← requiredAt readString (field "source")
  let hash ← requiredAt readString (field "hash")
  let provenanceHash ← optionalAt readString (field "provenance_hash")
  let dependencies ← defaultAt [] (readArray readString) (field "dependencies")
  return { name, version, source, hash, provenanceHash, dependencies }

structure RawLockfile where
  metadata : LockfileMetadata
  package : Option (List LockfilePackage)

def RawLockfile.read (root : Root) : Option RawLockfile := do
  let metadata ← requiredAt LockfileMetadata.read (root.lookup "metadata")
  let package ← optionalAt (readArray LockfilePackage.read) (root.lookup "package")
  return { metadata, package }

def Lockfile.parseStr (c : Crates Req) (contents : String) : Except PkgError Lockfile :=
  match c.parseToml contents.toList with
  | .error e => .error (.lockfile (.tomlParse e))
  | .ok root =>
    match RawLockfile.read root with
    | none => .error (.lockfile (.tomlParse (c.shapeError root)))
    | some raw =>
      if raw.metadata.lockfileVersion = currentVersion then .ok ⟨raw.metadata, sortPackages (raw.package.getD [])⟩
      else .error (.lockfile (.incompatibleVersion raw.metadata.lockfileVersion currentVersion))

def Lockfile.verifyManifestHash (c : Crates Req) (blake3Hex : String → String) (lock : Lockfile)
    (manifest : Manifest Req) : Except PkgError Unit :=
  if manifest.manifestHash c blake3Hex = lock.metadata.manifestHash then .ok ()
  else .error (.lockfile (.manifestHashMismatch lock.metadata.manifestHash (manifest.manifestHash c blake3Hex)))

/-- The same package, with its dependencies in any order. -/
def SamePackage (p q : ResolvedPackage Version) : Prop :=
  p.dependencyNames.Perm q.dependencyNames ∧ q = { p with dependencyNames := q.dependencyNames }

/-- The same packages in any order. -/
def SamePackages (rows rows' : List (String × ResolvedPackage Version)) : Prop :=
  ∃ mid, rows.Perm mid ∧ List.Forall₂ (fun r r' => r.1 = r'.1 ∧ SamePackage r.2 r'.2) mid rows'

variable {c : Crates Req} {blake3Hex : String → String} {displayVersion : Version → String} {manifest : Manifest Req}
  {root root' p q : ResolvedPackage Version} {rows rows' : List (String × ResolvedPackage Version)}

theorem sortTexts_perm {texts texts' : List String} (h : texts.Perm texts') : sortTexts texts = sortTexts texts' := by
  have hperm := ((List.perm_insertionSort (· ≤ ·) texts).trans h).trans (List.perm_insertionSort (· ≤ ·) texts').symm
  exact hperm.eq_of_pairwise' (List.pairwise_insertionSort _ _) (List.pairwise_insertionSort _ _)

theorem lockPkgFromResolved_of_same (h : SamePackage p q) :
    lockPkgFromResolved displayVersion p = lockPkgFromResolved displayVersion q := by
  rw [h.2, lockPkgFromResolved, lockPkgFromResolved, sortTexts_perm h.1]

/-- The lockfile of a resolution is the same for every order in which its packages, and their dependencies, were
supplied. -/
theorem fromResolution_of_samePackages (hroot : SamePackage root root') (hnodup : (rows.map Prod.fst).Nodup)
    (hrows : SamePackages rows rows') :
    Lockfile.fromResolution c blake3Hex displayVersion manifest root (sortRows rows) =
      Lockfile.fromResolution c blake3Hex displayVersion manifest root' (sortRows rows') := by
  obtain ⟨mid, hperm, hforall⟩ := hrows
  have hlocked : (rows.map fun row => (row.1, lockPkgFromResolved displayVersion row.2)).Perm
      (rows'.map fun row => (row.1, lockPkgFromResolved displayVersion row.2)) := by
    have hmid : (mid.map fun row => (row.1, lockPkgFromResolved displayVersion row.2)) =
        rows'.map fun row => (row.1, lockPkgFromResolved displayVersion row.2) := by
      clear hperm
      induction hforall with
      | nil => rfl
      | cons hrow _ ih => rw [List.map_cons, List.map_cons, ih, hrow.1, lockPkgFromResolved_of_same hrow.2]
    exact hmid ▸ hperm.map _
  have hkeys : ((rows.map fun row => (row.1, lockPkgFromResolved displayVersion row.2)).map Prod.fst).Nodup := by
    rw [List.map_map]
    exact hnodup
  have hsorted := sortRows_perm hlocked hkeys
  rw [sortRows_map, sortRows_map] at hsorted
  have hpackages := congrArg (List.map Prod.snd) hsorted
  rw [List.map_map, List.map_map] at hpackages
  rw [Lockfile.fromResolution, Lockfile.fromResolution, lockPkgFromResolved_of_same hroot]
  exact congrArg (fun packages => Lockfile.mk _ (sortPackages (_ :: packages))) hpackages

end Cobrust.Pkg
