import Cobrust.Pkg.Manifest
import Cobrust.Store.Table

/-!
# The content-addressed cache

`insert_tarball` of `cobrust-pkg/src/registry.rs` and `extract` of `tarball.rs`, as steps on the file system
that the calls of any number of processes take in any order. `blake3/<hex>` and `blake3/.staging-<hex>` are
two tables of trees. What `tar` reads from the bytes of an archive is a list of entries or read errors.
-/

namespace Cobrust.Pkg

open Store (Table)

/-! ## Archives -/

/-- A component of a path, as `std::path::Component`. -/
inductive Component where
  | rootDir
  | curDir
  | parentDir
  | normal (name : String)
  deriving DecidableEq, Repr

abbrev EntryPath := List Component

namespace EntryPath

def isAbsolute (path : EntryPath) : Bool :=
  path.head? == some .rootDir

/-- The text of a path. -/
def display : EntryPath → String
  | [] => ""
  | .rootDir :: rest => "/" ++ display rest
  | [c] => name c
  | c :: rest => name c ++ "/" ++ display rest
where
  name : Component → String
    | .rootDir => "/"
    | .curDir => "."
    | .parentDir => ".."
    | .normal s => s

end EntryPath

inductive TarKind where
  | dir
  | file (bytes : List UInt8)
  | symlink
  | hardLink
  deriving DecidableEq, Repr

structure TarEntry where
  path : EntryPath
  kind : TarKind
  deriving DecidableEq, Repr

/-- What reading the bytes of a tarball gives, entry by entry. -/
abbrev Archive := List (Except String TarEntry)

def validateEntryPath (path : EntryPath) : Except TarballError Unit :=
  if path.isAbsolute then .error (.pathEscape path.display)
  else if path.contains .parentDir then .error (.pathEscape path.display)
  else .ok ()

def validateEntry (entry : TarEntry) : Except TarballError Unit :=
  match entry.kind with
  | .symlink => .error (.symlinkEntry entry.path.display)
  | .hardLink => .error (.symlinkEntry entry.path.display)
  | _ => validateEntryPath entry.path

/-- The first pass of `extract`: the entries, if all of them can be read and none escapes. -/
def validate : Archive → Except TarballError (List TarEntry)
  | [] => .ok []
  | .error message :: _ => .error (.readEntries message)
  | .ok entry :: rest => do
    validateEntry entry
    return entry :: (← validate rest)

/-- The entries that can be read. -/
def Archive.entries (archive : Archive) : List TarEntry :=
  archive.filterMap Except.toOption

theorem entries_of_validate {archive : Archive} {entries : List TarEntry}
    (h : validate archive = .ok entries) : archive.entries = entries := by
  induction archive generalizing entries with
  | nil =>
    cases h
    rfl
  | cons e rest ih =>
    cases e with
    | error message => cases h
    | ok entry =>
      rw [validate] at h
      cases hentry : validateEntry entry with
      | error e =>
        rw [hentry] at h
        cases h
      | ok u =>
        rw [hentry] at h
        cases hrest : validate rest with
        | error e =>
          rw [hrest] at h
          cases h
        | ok more =>
          rw [hrest] at h
          cases h
          rw [← ih hrest]
          rfl

/-- The files and directories of a tree; the row in front is the latest one. -/
abbrev Tree := List (EntryPath × TarKind)

def Tree.find (tree : Tree) (path : EntryPath) : Option TarKind :=
  List.lookup path tree

def Tree.put (tree : Tree) (path : EntryPath) (kind : TarKind) : Tree :=
  (path, kind) :: tree

structure RegistryEntry where
  blake3Hex : String
  localPath : String
  deriving DecidableEq, Repr

/-- Where a call of `insert_tarball` is. -/
inductive Phase where
  /-- Before `dest.is_dir()`. -/
  | looking
  /-- Before `remove_dir_all(staging)`. -/
  | clearing
  /-- Before `create_dir_all(staging)` and the first pass over the archive. -/
  | staging
  /-- Between the two passes and the rename, with the entries that are still to be created. -/
  | unpacking (rest : List TarEntry)
  | returned (result : Except PkgError RegistryEntry)
  | stopped

structure Call where
  hex : String
  phase : Phase

structure Disk where
  /-- `blake3/<hex>` -/
  dest : Table String Tree
  /-- `blake3/.staging-<hex>` -/
  staging : Table String Tree
  calls : Table Nat Call

/-! ## Steps -/

inductive Action where
  /-- A new call, for the tarball with this hash. -/
  | insert (c : Nat) (hex : String)
  | look (c : Nat)
  /-- The test itself fails, which counts as a missing directory. -/
  | lookFails (c : Nat)
  /-- What a removal that fails leaves behind; nothing, if it does not fail. -/
  | clear (c : Nat) (left : Option (List EntryPath))
  | mkdir (c : Nat)
  | unpack (c : Nat) (entry : TarEntry)
  | rename (c : Nat)
  /-- An error of the file system, possibly with a file of which only the first bytes are written. -/
  | fail (c : Nat) (torn : Option (TarEntry × Nat)) (message : String)
  /-- The process goes away. -/
  | stop (c : Nat) (torn : Option (TarEntry × Nat))

namespace Disk

def destPath (root hex : String) : String :=
  root ++ "/blake3/" ++ hex

def stagingPath (root hex : String) : String :=
  root ++ "/blake3/.staging-" ++ hex

/-- The message of a failed rename, without the text of the operating system. -/
def renameMessage (root hex : String) : String :=
  "atomic rename " ++ stagingPath root hex ++ " → " ++ destPath root hex

def entry (root hex : String) : RegistryEntry :=
  ⟨"blake3:" ++ hex, destPath root hex⟩

def setCall (s : Disk) (c : Nat) (hex : String) (phase : Phase) : Disk :=
  { s with calls := s.calls.insert c ⟨hex, phase⟩ }

/-- A row of the staging directory. `tar` makes the directories above it that are missing. -/
def write (s : Disk) (hex : String) (path : EntryPath) (kind : TarKind) : Disk :=
  { s with staging := s.staging.insert hex (((s.staging hex).getD []).put path kind) }

/-- A write that is cut short. -/
def tear (s : Disk) (hex : String) : Option (TarEntry × Nat) → Disk
  | some (⟨path, .file bytes⟩, n) => s.write hex path (.file (bytes.take n))
  | _ => s

/-- What a removal leaves of a tree. -/
def cleared (tree : Option Tree) (left : Option (List EntryPath)) : Option Tree :=
  match tree, left with
  | some tree, some paths => some (tree.filter fun row => paths.contains row.1)
  | _, _ => none

/-- `rename` moves a directory to where there is none, or an empty one. -/
def moves (s : Disk) (hex : String) : Option Tree :=
  match s.staging hex, s.dest hex with
  | some tree, none => some tree
  | some tree, some [] => some tree
  | _, _ => none

/-- A torn file is one that the call had still to create. -/
def mayTear (phase : Phase) : Option (TarEntry × Nat) → Bool
  | none => true
  | some (entry, _) =>
    match phase with
    | .unpacking rest => rest.contains entry
    | _ => false

variable (root : String) (archives : String → Archive)

def step (s : Disk) : Action → Option Disk
  | .insert c hex =>
    match s.calls c with
    | none => some (s.setCall c hex .looking)
    | some _ => none
  | .look c =>
    match s.calls c with
    | some ⟨hex, .looking⟩ =>
      match s.dest hex with
      | some _ => some (s.setCall c hex (.returned (.ok (entry root hex))))
      | none => some (s.setCall c hex .clearing)
    | _ => none
  | .lookFails c =>
    match s.calls c with
    | some ⟨hex, .looking⟩ => some (s.setCall c hex .clearing)
    | _ => none
  | .clear c left =>
    match s.calls c with
    | some ⟨hex, .clearing⟩ =>
      some ({ s with staging := Function.update s.staging hex (cleared (s.staging hex) left) }.setCall
        c hex .staging)
    | _ => none
  | .mkdir c =>
    match s.calls c with
    | some ⟨hex, .staging⟩ =>
      let made := { s with staging := s.staging.insert hex ((s.staging hex).getD []) }
      match validate (archives hex) with
      | .ok entries => some (made.setCall c hex (.unpacking entries))
      | .error e => some (made.setCall c hex (.returned (.error (.tarball e))))
    | _ => none
  | .unpack c entry =>
    match s.calls c with
    | some ⟨hex, .unpacking rest⟩ =>
      if rest.contains entry then
        some ((s.write hex entry.path entry.kind).setCall c hex (.unpacking (rest.erase entry)))
      else none
    | _ => none
  | .rename c =>
    match s.calls c with
    | some ⟨hex, .unpacking []⟩ =>
      match s.moves hex with
      | some tree =>
        some ({ s with
          dest := s.dest.insert hex tree
          staging := Function.update s.staging hex none }.setCall c hex (.returned (.ok (entry root hex))))
      | none => some (s.setCall c hex (.returned (.error (.io (renameMessage root hex)))))
    | _ => none
  | .fail c torn message =>
    match s.calls c with
    | some ⟨hex, .staging⟩ =>
      if torn.isNone then some (s.setCall c hex (.returned (.error (.io message)))) else none
    | some ⟨hex, .unpacking rest⟩ =>
      if mayTear (.unpacking rest) torn then
        some ((s.tear hex torn).setCall c hex (.returned (.error (.io message))))
      else none
    | _ => none
  | .stop c torn =>
    match s.calls c with
    | some ⟨_, .returned _⟩ => none
    | some ⟨hex, phase⟩ =>
      if mayTear phase torn then some ((s.tear hex torn).setCall c hex .stopped) else none
    | none => none

/-- The state after a sequence of steps. -/
def run (s : Disk) (actions : List Action) : Option Disk :=
  actions.foldlM (step root archives) s

end Disk

end Cobrust.Pkg
