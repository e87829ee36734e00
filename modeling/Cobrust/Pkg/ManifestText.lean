import Cobrust.Control.Outcome
import Cobrust.Pkg.Manifest
import Cobrust.Store.Rows
import Cobrust.Toml.Fields
import Mathlib.Data.String.Basic

/-!
# Reading and writing manifests

`Manifest::parse_str` and `Manifest::canonical_toml` of `cobrust-pkg/src/manifest.rs`. What the toml and semver
crates compute are fields of `Crates`; what `serde` makes of the parsed document is `RawManifest.read`.
-/

namespace Cobrust.Pkg

open Cobrust.Toml (Value Root readString readArray optionalAt defaultAt requiredAt)
open Cobrust.Store (sortRows)

structure Crates (Req : Type) where
  /-- `toml::from_str`, as far as the document; the errors are texts. -/
  parseToml : List Char → Except String Root
  /-- The text of the error for a document that is no manifest or no lockfile. -/
  shapeError : Root → String
  /-- `Version::parse` succeeds. -/
  isVersion : String → Bool
  /-- `VersionReq::parse` -/
  parseReq : String → Except String Req
  displayReq : Req → String

/-! ## Raw manifests -/

inductive RawDependency where
  | bare (s : String)
  | table (version path git rev registry : Option String)
  deriving DecidableEq, Repr

structure RawManifest where
  package : Option PackageTable
  router : Option Value
  /-- The rows of the map, by key. -/
  dependencies : List (String × RawDependency)
  devDependencies : List (String × RawDependency)
  bin : Option TargetTable
  lib : Option TargetTable
  test : List TargetTable

def PackageTable.read (v : Value) : Option PackageTable := do
  let field ← v.field ["name", "version", "cobrust-version", "authors", "license", "description"]
  let name ← requiredAt readString (field "name")
  let version ← requiredAt readString (field "version")
  let cobrustVersion ← requiredAt readString (field "cobrust-version")
  let authors ← defaultAt [] (readArray readString) (field "authors")
  let license ← optionalAt readString (field "license")
  let description ← optionalAt readString (field "description")
  return { name, version, cobrustVersion, authors, license, description }

def TargetTable.read (v : Value) : Option TargetTable := do
  let field ← v.field ["name", "path"]
  let name ← requiredAt readString (field "name")
  let path ← requiredAt readString (field "path")
  return { name, path }

/-- The first variant that fits; the second one is read from tables only. -/
def RawDependency.read : Value → Option RawDependency
  | .string s => some (.bare s)
  | v => do
    let rows ← v.rows
    let version ← optionalAt readString (rows.lookup "version")
    let path ← optionalAt readString (rows.lookup "path")
    let git ← optionalAt readString (rows.lookup "git")
    let rev ← optionalAt readString (rows.lookup "rev")
    let registry ← optionalAt readString (rows.lookup "registry")
    return .table version path git rev registry

def RawDependency.readRow (row : String × Value) : Option (String × RawDependency) :=
  (RawDependency.read row.2).map fun dep => (row.1, dep)

def RawDependency.readMap (v : Value) : Option (List (String × RawDependency)) := do
  let rows ← v.rows
  let deps ← rows.mapM RawDependency.readRow
  return sortRows deps

def RawManifest.read (root : Root) : Option RawManifest := do
  let package ← optionalAt PackageTable.read (root.lookup "package")
  let dependencies ← defaultAt [] RawDependency.readMap (root.lookup "dependencies")
  let devDependencies ← defaultAt [] RawDependency.readMap (root.lookup "dev-dependencies")
  let bin ← optionalAt TargetTable.read (root.lookup "bin")
  let lib ← optionalAt TargetTable.read (root.lookup "lib")
  let test ← defaultAt [] (readArray TargetTable.read) (root.lookup "test")
  return { package, router := root.lookup "router", dependencies, devDependencies, bin, lib, test }

/-! ## Validation -/

def validateName (name : String) : Except PkgError Unit :=
  if name.isEmpty || name.utf8ByteSize > 64 then .error (.manifest (.invalidName name))
  else
    match name.toList with
    | [] => .error (.manifest (.invalidName name))
    | first :: chars =>
      if !first.isAlpha then .error (.manifest (.invalidName name))
      else if chars.all fun c => c.isAlphanum || c == '_' || c == '-' then .ok ()
      else .error (.manifest (.invalidName name))

variable {Req : Type} (c : Crates Req)

def validateVersion (name version : String) : Except PkgError Unit :=
  if c.isVersion version then .ok () else .error (.manifest (.invalidVersion name version))

def lowerReq (name s : String) : Except PkgError Req :=
  match c.parseReq s with
  | .ok req => .ok req
  | .error e => .error (.manifest (.invalidDependency name ("invalid semver req `" ++ s ++ "`: " ++ e)))

/-- The match of `lower_dependency`. -/
def lowerSpec (name : String) : RawDependency → Except PkgError (DependencySpec Req)
  | .bare s => do
    let req ← lowerReq c name s
    return .version req
  | .table version path git rev registry =>
    match path, git, version with
    | none, none, none => .error (.manifest (.invalidDependency name "must declare one of: path, git, version"))
    | some path, git, version =>
      if version.isSome || git.isSome || registry.isSome then
        .error (.manifest (.invalidDependency name "path source cannot be combined with version/git/registry"))
      else .ok (.path path)
    | none, some url, _ =>
      match rev with
      | some rev => .ok (.git url rev)
      | none => .error (.manifest (.invalidDependency name "git source requires `rev = \"...\"`"))
    | none, none, some version => do
      let req ← lowerReq c name version
      return .registry req (registry.getD "default")

def lowerDependency (name : String) (raw : RawDependency) : Except PkgError (Dependency Req) := do
  validateName name
  let spec ← lowerSpec c name raw
  return { name, spec }

/-- The rows come in the order of their keys, and so they go into the new map. -/
def lowerDependencies : List (String × RawDependency) → Except PkgError (List (String × Dependency Req))
  | [] => .ok []
  | (k, v) :: rows => do
    let dep ← lowerDependency c k v
    let deps ← lowerDependencies rows
    return (k, dep) :: deps

def checkTargets : Option TargetTable → Option TargetTable → Except PkgError Unit
  | none, none => .error (.manifest .noTarget)
  | some b, some l => if b.path = l.path then .error (.manifest (.conflictingPaths b.path)) else .ok ()
  | _, _ => .ok ()

def RawManifest.lower (raw : RawManifest) : Except PkgError (Manifest Req) :=
  match raw.package with
  | none => .error (.manifest (if raw.router.isSome then .isRouterConfig else .missingField "package"))
  | some package => do
    validateName package.name
    validateVersion c package.name package.version
    validateVersion c package.name package.cobrustVersion
    let dependencies ← lowerDependencies c raw.dependencies
    let devDependencies ← lowerDependencies c raw.devDependencies
    checkTargets raw.bin raw.lib
    return { package, dependencies, devDependencies, bin := raw.bin, lib := raw.lib, tests := raw.test }

def Manifest.parseStr (contents : String) : Except PkgError (Manifest Req) :=
  match c.parseToml contents.toList with
  | .error e => .error (.manifest (.tomlParse e))
  | .ok root =>
    match RawManifest.read root with
    | none => .error (.manifest (.tomlParse (c.shapeError root)))
    | some raw => raw.lower c

/-! ## The canonical text -/

/-- `str::replace`, for one character. -/
def replaceChar (s : String) (c : Char) (r : String) : String :=
  String.ofList (s.toList.flatMap fun d => if d = c then r.toList else [d])

/-- `name = "text"` -/
def quotedRow (key text : String) : String :=
  key ++ " = \"" ++ text ++ "\"\n"

def escapeQuotes (s : String) : String :=
  replaceChar (replaceChar s '\\' "\\\\") '"' "\\\""

/-- The loop that puts a comma before every item but the first. -/
def commaSeparated : List String → String
  | [] => ""
  | [item] => item
  | item :: item' :: items => item ++ ", " ++ commaSeparated (item' :: items)

def authorsRow (authors : List String) : String :=
  if authors.isEmpty then ""
  else "authors = [" ++ commaSeparated (authors.map fun a => "\"" ++ escapeQuotes a ++ "\"") ++ "]\n"

def DependencySpec.toCanonical : DependencySpec Req → String
  | .version req => "\"" ++ c.displayReq req ++ "\""
  | .path p => "\x7b path = \"" ++ p ++ "\" \x7d"
  | .git url rev => "\x7b git = \"" ++ url ++ "\", rev = \"" ++ rev ++ "\" \x7d"
  | .registry req r => "\x7b version = \"" ++ c.displayReq req ++ "\", registry = \"" ++ r ++ "\" \x7d"

def dependencyRow (row : String × Dependency Req) : String :=
  row.1 ++ " = " ++ row.2.spec.toCanonical c ++ "\n"

def dependenciesText (header : String) (rows : List (String × Dependency Req)) : String :=
  if rows.isEmpty then "" else "\n" ++ header ++ "\n" ++ String.join (rows.map (dependencyRow c))

def TargetTable.text (header : String) (t : TargetTable) : String :=
  "\n" ++ header ++ "\n" ++ quotedRow "name" t.name ++ quotedRow "path" t.path

def Manifest.canonicalToml (m : Manifest Req) : String :=
  "[package]\n" ++ quotedRow "name" m.package.name ++ quotedRow "version" m.package.version ++
    quotedRow "cobrust-version" m.package.cobrustVersion ++ authorsRow m.package.authors ++
    m.package.license.elim "" (quotedRow "license") ++
    m.package.description.elim "" (fun d => quotedRow "description" (escapeQuotes d)) ++
    dependenciesText c "[dependencies]" m.dependencies ++
    dependenciesText c "[dev-dependencies]" m.devDependencies ++
    m.bin.elim "" (TargetTable.text "[bin]") ++ m.lib.elim "" (TargetTable.text "[lib]") ++
    String.join (m.tests.map (TargetTable.text "[[test]]"))

/-- The hash of the canonical text; `blake3Hex` is the hash that the blake3 crate displays. -/
def Manifest.manifestHash (blake3Hex : String → String) (m : Manifest Req) : String :=
  "blake3:" ++ blake3Hex (m.canonicalToml c)

end Cobrust.Pkg
