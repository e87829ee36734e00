import Cobrust.Lsp.Document
import Cobrust.Types.CheckCtxHistory

/-!
# Handlers and debounce tasks

`did_open`, `did_change` and `did_close` of `cobrust-lsp/src/lib.rs`, with the task that `did_change` spawns and the
tokens of `debounce.rs`. A handler or a task takes one lock after the other, and any others may run in between. Documents
are the ids that `file_id_for` gives their URIs.
-/

namespace Cobrust.Lsp

open Function (update)

/-- `DocState` without the line map, which is made of the source. `edit` is not part of the code: the number of changes
of the store before this one. -/
structure DocState where
  source : Text
  version : Int
  edit : Nat

inductive Notification where
  | didOpen (source : Text) (version : Int)
  | didChange (version : Int) (changes : List ContentChange)
  | didClose

/-- What a handler or a debounce task does next. -/
inductive Stage (Diag : Type) where
  /-- `did_open` compiles, -/
  | opening (source : Text) (version : Int)
  /-- stores the document -/
  | opened (source : Text) (version : Int) (diagnostics : List Diag)
  /-- and publishes. -/
  | announcing (doc : DocState) (diagnostics : List Diag)
  /-- `did_change` splices the text -/
  | changing (version : Int) (changes : List ContentChange)
  /-- and schedules a run. -/
  | scheduling (doc : DocState)
  /-- `did_close` removes the document -/
  | closing
  /-- and drops its rows. -/
  | dropping (edit : Nat)
  /-- The task wakes up and checks its version, -/
  | sleeping (doc : DocState)
  /-- compiles -/
  | woken (doc : DocState)
  /-- and publishes. -/
  | publishing (doc : DocState) (diagnostics : List Diag)

structure Thread (Diag : Type) where
  uri : FileKey
  stage : Stage Diag

/-- What a client sees, and the ends of the `did_close` handlers with the edit that removed the document. -/
inductive Event (Diag : Type) where
  | published (uri : FileKey) (doc : DocState) (diagnostics : List Diag) (byTask : Bool)
  | closed (uri : FileKey) (edit : Nat)

structure Server (Diag : Type) where
  docs : FileKey → Option DocState
  /-- A panic under the lock of the documents. -/
  poisoned : Bool
  rows : RowsCtx
  /-- `latest_version` of each document. -/
  tokens : FileKey → Option Int
  threads : Nat → Option (Thread Diag)
  received : Nat
  edits : Nat
  /-- The last event first. -/
  log : List (Event Diag)

inductive Act where
  | receive (uri : FileKey) (notification : Notification)
  | advance (k : Nat)

namespace Server

variable {Diag : Type} (pipeline : FileKey → Text → List Diag × Option TypedModule)

def initial : Server Diag :=
  ⟨fun _ => none, false, .new, fun _ => none, fun _ => none, 0, 0, []⟩

def setThread (st : Server Diag) (k : Nat) (t : Option (Thread Diag)) : Server Diag :=
  { st with threads := update st.threads k t }

/-- An entry of the store changes. -/
def store (st : Server Diag) (uri : FileKey) (doc : Option DocState) : Server Diag :=
  { st with docs := update st.docs uri doc, edits := st.edits + 1 }

/-- `compile_diagnostics_with_session`; `pipeline` is what it runs on the text. -/
def compile (st : Server Diag) (uri : FileKey) (source : Text) : Server Diag :=
  { st with rows :=
      match (pipeline uri source).2 with
      | none => st.rows.invalidate uri
      | some typed => (st.rows.invalidate uri).mergeModule typed uri }

/-- The text that a change is applied to. -/
def source (st : Server Diag) (uri : FileKey) : Text :=
  ((st.docs uri).map DocState.source).getD []

def start : Notification → Stage Diag
  | .didOpen source version => .opening source version
  | .didChange version changes => .changing version changes
  | .didClose => .closing

/-- The next step of a handler or a task, up to its next lock. -/
def advance (st : Server Diag) (k : Nat) (uri : FileKey) : Stage Diag → Server Diag
  | .opening source version =>
    (st.compile pipeline uri source).setThread k (some ⟨uri, .opened source version (pipeline uri source).1⟩)
  | .opened source version diagnostics =>
    if st.poisoned then st.setThread k none
    else
      let doc := ⟨source, version, st.edits⟩
      (st.store uri (some doc)).setThread k (some ⟨uri, .announcing doc diagnostics⟩)
  | .announcing doc diagnostics =>
    { st with log := .published uri doc diagnostics false :: st.log }.setThread k none
  | .changing version changes =>
    if st.poisoned then st.setThread k none
    else
      match applyContentChanges (st.source uri) changes with
      | .error _ => { st with poisoned := true }.setThread k none
      | .ok source =>
        let doc := ⟨source, version, st.edits⟩
        (st.store uri (some doc)).setThread k (some ⟨uri, .scheduling doc⟩)
  | .scheduling doc =>
    { st with tokens := update st.tokens uri (some doc.version) }.setThread k (some ⟨uri, .sleeping doc⟩)
  | .closing =>
    if st.poisoned then st.setThread k none
    else (st.store uri none).setThread k (some ⟨uri, .dropping st.edits⟩)
  | .dropping edit =>
    { st with rows := st.rows.invalidate uri, log := .closed uri edit :: st.log }.setThread k none
  | .sleeping doc =>
    if st.tokens uri = some doc.version then st.setThread k (some ⟨uri, .woken doc⟩) else st.setThread k none
  | .woken doc =>
    (st.compile pipeline uri doc.source).setThread k (some ⟨uri, .publishing doc (pipeline uri doc.source).1⟩)
  | .publishing doc diagnostics =>
    { st with log := .published uri doc diagnostics true :: st.log }.setThread k none

def step (st : Server Diag) : Act → Server Diag
  | .receive uri notification =>
    { st with received := st.received + 1 }.setThread st.received (some ⟨uri, start notification⟩)
  | .advance k =>
    match st.threads k with
    | none => st
    | some t => st.advance pipeline k t.uri t.stage

def run (acts : List Act) : Server Diag :=
  acts.foldl (step pipeline) initial

end Server

namespace Stage

variable {Diag : Type}

/-- The version that is going to be published without a further check. -/
def announces : Stage Diag → Option DocState
  | announcing doc _ => some doc
  | woken doc => some doc
  | publishing doc _ => some doc
  | _ => none

/-- The stages of the handlers. -/
def isHandler : Stage Diag → Bool
  | sleeping _ => false
  | woken _ => false
  | publishing _ _ => false
  | _ => true

end Stage

/-- What was published last for a document, and the version that it was computed from. -/
def lastPublished {Diag : Type} (uri : FileKey) : List (Event Diag) → Option (DocState × List Diag)
  | [] => none
  | .published other doc diagnostics _ :: log =>
    if other = uri then some (doc, diagnostics) else lastPublished uri log
  | .closed _ _ :: log => lastPublished uri log

namespace Server

variable {Diag : Type} (pipeline : FileKey → Text → List Diag × Option TypedModule)

/-- Published diagnostics are not stale. -/
structure Fresh (st : Server Diag) : Prop where
  /-- When nothing is in flight, what was published last for a document is for its latest version. -/
  latest : (∀ k, st.threads k = none) → ∀ uri doc, st.docs uri = some doc →
    lastPublished uri st.log = some (doc, (pipeline uri doc.source).1)
  /-- Behind the end of a `did_close`, no task publishes a version that was stored before it. -/
  closed : st.log.Pairwise fun late early => ∀ uri doc diagnostics edit,
    late = .published uri doc diagnostics true → early = .closed uri edit → edit < doc.edit
  /-- A document that is not stored has no rows, unless a handler works on it. -/
  rows : ∀ uri, st.docs uri = none →
    (∀ k t, st.threads k = some t → t.uri = uri → t.stage.isHandler = false) → ¬ st.rows.Has uri

/-- Nothing is about to be published for a document. -/
def Quiet (st : Server Diag) (uri : FileKey) : Prop :=
  ∀ k t, st.threads k = some t → t.uri = uri → t.stage.announces = none

/-- The steps that keep diagnostics fresh.
- The entry of a document changes while nothing is about to be published for it, and changes apply to its text.
- A run is scheduled, and a version is found to be the latest, while the store has it.
- The rows of a file that are dropped are those of its items, unless it is opened again. -/
def Allows (st : Server Diag) : Act → Prop
  | .receive _ _ => True
  | .advance k => ∀ t, st.threads k = some t →
    match t.stage with
    | .opened .. => st.Quiet t.uri
    | .changing _ changes => st.Quiet t.uri ∧ ∃ source, applyContentChanges (st.source t.uri) changes = .ok source
    | .closing => st.Quiet t.uri
    | .scheduling doc => st.docs t.uri = some doc
    | .sleeping doc => st.tokens t.uri = some doc.version → st.docs t.uri = some doc
    | .dropping _ => st.docs t.uri = none → st.rows.ItemsOnly t.uri
    | _ => True

end Server

end Cobrust.Lsp
