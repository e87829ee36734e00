import Cobrust.Store.Table
import Mathlib.Data.List.Basic

/-!
# Providers and the completion cache

The completion types of `cobrust-llm-router/src/provider.rs`, and the cache of `cobrust-llm-router/src/cache.rs` on disk.
-/

/-!
## Providers

The numbers of type `f32` are a parameter.
-/

namespace Cobrust.Router

inductive Role where
  | System
  | User
  | Assistant
  deriving DecidableEq, Repr

structure Message where
  role : Role
  content : String
  deriving DecidableEq, Repr

structure SamplingParams (F32 : Type) where
  max_tokens : Option (BitVec 32)
  temperature : Option F32
  top_p : Option F32
  stop : List String
  deriving DecidableEq, Repr

structure CompletionRequest (F32 : Type) where
  model : String
  messages : List Message
  params : SamplingParams F32
  deriving DecidableEq, Repr

structure TokenUsage where
  prompt_tokens : BitVec 32
  completion_tokens : BitVec 32
  deriving DecidableEq, Repr

structure CompletionResponse where
  text : String
  model : String
  usage : TokenUsage
  deriving DecidableEq, Repr

end Cobrust.Router

/-!
## The completion cache on disk

`Cache::get` and `Cache::put`, as steps on the file system that the calls of any number of processes take in any order.
`<hex>.json` and `<hex>.tmp` are two tables that name files; a file keeps its bytes when a name is moved to another one.
The directories above them are there.
-/

namespace Cobrust.Router

open Store (Table)

abbrev Bytes := List UInt8

/-- A file, whatever its name. -/
abbrev Inode := Nat

inductive IoErrorKind where
  | NotFound
  | Other
  deriving DecidableEq, Repr

structure CacheEntry (F : Type) where
  request : CompletionRequest F
  response : CompletionResponse
  deriving DecidableEq, Repr

inductive PutPhase where
  | creating
  /-- The temporary file is open, and this many bytes are written. -/
  | writing (file : Inode) (written : Nat)
  | setting_permissions
  | moving
  | returned (result : Except IoErrorKind Unit)
  /-- The process went away. -/
  | stopped

structure Put (F : Type) where
  key : String
  entry : CacheEntry F
  phase : PutPhase

inductive GetPhase where
  | opening
  | reading (file : Inode) (bytes : Bytes)
  /-- What was read, or nothing on a miss; the bytes are decoded next. -/
  | returned (found : Option Bytes)
  | stopped

structure Get where
  key : String
  phase : GetPhase

/-- The files and the calls. -/
structure Disk (F : Type) where
  tmp : Table String Inode
  json : Table String Inode
  files : Table Inode Bytes
  puts : Table Nat (Put F)
  gets : Table Nat Get

variable {F : Type}

namespace Disk

def empty : Disk F :=
  ⟨Table.empty, Table.empty, Table.empty, Table.empty, Table.empty⟩

def setPut (s : Disk F) (c : Nat) (p : Put F) (phase : PutPhase) : Disk F :=
  { s with puts := s.puts.insert c { p with phase } }

def setGet (s : Disk F) (g : Nat) (key : String) (phase : GetPhase) : Disk F :=
  { s with gets := s.gets.insert g ⟨key, phase⟩ }

end Disk

/-- The bytes of a file after a write at an offset; a gap is filled with zeros. -/
def overwrite (content : Bytes) (offset : Nat) (piece : Bytes) : Bytes :=
  content.take offset ++ List.replicate (offset - content.length) 0 ++ piece ++ content.drop (offset + piece.length)

inductive Action (F : Type) where
  | put (c : Nat) (key : String) (entry : CacheEntry F)
  /-- Open the temporary file and truncate it; the file that it is if there is none. -/
  | create (c : Nat) (new : Inode)
  | write (c n : Nat)
  | close (c : Nat)
  | set_permissions (c : Nat)
  | rename (c : Nat)
  /-- An error of the file system. -/
  | fail (c : Nat)
  | stop (c : Nat)
  | get (g : Nat) (key : String)
  | open_json (g : Nat)
  | read (g n : Nat)
  | finish (g : Nat)
  | get_stop (g : Nat)

def PutPhase.Live : PutPhase → Prop
  | .returned _ => False
  | .stopped => False
  | _ => True

/-- A step of a call; `toVec` is `serde_json::to_vec`. -/
inductive Step (toVec : CacheEntry F → Bytes) : Disk F → Action F → Disk F → Prop
  | put {s : Disk F} (c : Nat) (key : String) (entry : CacheEntry F) (hc : s.puts c = none) :
      Step toVec s (.put c key entry) (s.setPut c ⟨key, entry, .creating⟩ .creating)
  | create {s : Disk F} (c : Nat) (p : Put F) (new : Inode) (hc : s.puts c = some p) (hphase : p.phase = .creating)
      (hnew : s.files new = none) :
      Step toVec s (.create c new) ({ s with
        tmp := s.tmp.insert p.key ((s.tmp p.key).getD new)
        files := s.files.insert ((s.tmp p.key).getD new) [] }.setPut c p (.writing ((s.tmp p.key).getD new) 0))
  | write {s : Disk F} (c n : Nat) (p : Put F) (file : Inode) (k : Nat) (hc : s.puts c = some p)
      (hphase : p.phase = .writing file k) (hn : k + n ≤ (toVec p.entry).length) :
      Step toVec s (.write c n) ({ s with
        files := s.files.insert file (overwrite ((s.files file).getD []) k (((toVec p.entry).drop k).take n)) }.setPut c p
          (.writing file (k + n)))
  | close {s : Disk F} (c : Nat) (p : Put F) (file : Inode) (hc : s.puts c = some p)
      (hphase : p.phase = .writing file (toVec p.entry).length) :
      Step toVec s (.close c) (s.setPut c p .setting_permissions)
  | set_permissions {s : Disk F} (c : Nat) (p : Put F) (hc : s.puts c = some p) (hphase : p.phase = .setting_permissions) :
      Step toVec s (.set_permissions c) (s.setPut c p
        (if (s.tmp p.key).isSome then .moving else .returned (.error .NotFound)))
  | rename {s : Disk F} (c : Nat) (p : Put F) (file : Inode) (hc : s.puts c = some p) (hphase : p.phase = .moving)
      (htmp : s.tmp p.key = some file) :
      Step toVec s (.rename c) ({ s with
        json := s.json.insert p.key file
        tmp := Function.update s.tmp p.key none }.setPut c p (.returned (.ok ())))
  | rename_missing {s : Disk F} (c : Nat) (p : Put F) (hc : s.puts c = some p) (hphase : p.phase = .moving)
      (htmp : s.tmp p.key = none) :
      Step toVec s (.rename c) (s.setPut c p (.returned (.error .NotFound)))
  | fail {s : Disk F} (c : Nat) (p : Put F) (hc : s.puts c = some p) (hphase : p.phase.Live) :
      Step toVec s (.fail c) (s.setPut c p (.returned (.error .Other)))
  | stop {s : Disk F} (c : Nat) (p : Put F) (hc : s.puts c = some p) (hphase : p.phase.Live) :
      Step toVec s (.stop c) (s.setPut c p .stopped)
  | get {s : Disk F} (g : Nat) (key : String) (hg : s.gets g = none) :
      Step toVec s (.get g key) (s.setGet g key .opening)
  | open_json {s : Disk F} (g : Nat) (key : String) (hg : s.gets g = some ⟨key, .opening⟩) :
      Step toVec s (.open_json g) (s.setGet g key
        (match s.json key with
        | none => .returned none
        | some file => .reading file []))
  | read {s : Disk F} (g n : Nat) (key : String) (file : Inode) (bytes content : Bytes)
      (hg : s.gets g = some ⟨key, .reading file bytes⟩) (hfile : s.files file = some content) :
      Step toVec s (.read g n) (s.setGet g key (.reading file (bytes ++ (content.drop bytes.length).take n)))
  | finish {s : Disk F} (g : Nat) (key : String) (file : Inode) (bytes content : Bytes)
      (hg : s.gets g = some ⟨key, .reading file bytes⟩) (hfile : s.files file = some content)
      (hend : content.length ≤ bytes.length) :
      Step toVec s (.finish g) (s.setGet g key (.returned (some bytes)))
  | get_stop {s : Disk F} (g : Nat) (key : String) (phase : GetPhase) (hg : s.gets g = some ⟨key, phase⟩) :
      Step toVec s (.get_stop g) (s.setGet g key .stopped)

/-- The states that steps with a property lead to, from an empty cache. -/
inductive Run (toVec : CacheEntry F → Bytes) (P : Disk F → Action F → Prop) : Disk F → Prop
  | empty : Run toVec P Disk.empty
  | step {s s' : Disk F} {a : Action F} (h : Run toVec P s) (hstep : Step toVec s a s') (ha : P s a) : Run toVec P s'

/-- Some steps. -/
inductive Steps (toVec : CacheEntry F → Bytes) : Disk F → Disk F → Prop
  | refl (s : Disk F) : Steps toVec s s
  | step {s s' s'' : Disk F} {a : Action F} (hstep : Step toVec s a s') (h : Steps toVec s' s'') : Steps toVec s s''

end Cobrust.Router
