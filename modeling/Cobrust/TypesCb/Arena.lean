import Cobrust.Parity.Key
import Cobrust.Types.Term

/-!
# The arena mirror of the type tree

`cobrust-types-cb/src/lib.rs`: a type is three append-only vectors and a handle. A lookup of a handle that dangles
panics (`none`), and so does the insertion of a type that has no mirror; a traversal takes fuel for its depth.
-/

namespace Cobrust.TypesCb

/-- Handle of an entry. A negative handle is never looked up with success. -/
abbrev TyId := Nat

abbrev FnTyId := Nat

abbrev RecordId := Nat

/-- Arena-form mirror of `Ty`; ids of other families are stored as `i64`. -/
inductive TyEntry where
  | bool
  | int
  | float
  | imag
  | str
  | bytes
  | none
  | never
  | tuple (items : List TyId)
  | list (inner : TyId)
  | set (inner : TyId)
  | dict (k v : TyId)
  | record (id : RecordId)
  | fn (id : FnTyId)
  | adt (id : Int) (args : List TyId)
  | alias (id : Int) (args : List TyId)
  | generic (id : Int)
  | var (id : Int)
  | ref (inner : TyId)
  deriving DecidableEq, Repr

structure FnTyEntry where
  positional : List TyId
  named : List (String × TyId)
  varPositional : Option TyId
  varKeyword : Option TyId
  returnTy : TyId
  deriving DecidableEq, Repr

structure RecordEntry where
  fields : List (String × TyId)
  deriving DecidableEq, Repr

structure TyArena where
  entries : List TyEntry := []
  fnEntries : List FnTyEntry := []
  recordEntries : List RecordEntry := []
  deriving DecidableEq, Repr

/-- What may panic or run out of fuel, over an arena that grows. -/
abbrev Build := StateT TyArena Option

def insert (entry : TyEntry) : Build TyId := fun arena =>
  some (arena.entries.length, { arena with entries := arena.entries ++ [entry] })

def insertFn (entry : FnTyEntry) : Build FnTyId := fun arena =>
  some (arena.fnEntries.length, { arena with fnEntries := arena.fnEntries ++ [entry] })

def insertRecord (entry : RecordEntry) : Build RecordId := fun arena =>
  some (arena.recordEntries.length, { arena with recordEntries := arena.recordEntries ++ [entry] })

namespace TyArena

def lookup (arena : TyArena) (id : TyId) : Option TyEntry :=
  arena.entries[id]?

def lookupFn (arena : TyArena) (id : FnTyId) : Option FnTyEntry :=
  arena.fnEntries[id]?

def lookupRecord (arena : TyArena) (id : RecordId) : Option RecordEntry :=
  arena.recordEntries[id]?

end TyArena

mutual

def insertRustIntoArena : Ty → Build TyId
  | .bool => insert .bool
  | .int => insert .int
  | .float => insert .float
  | .imag => insert .imag
  | .str => insert .str
  | .bytes => insert .bytes
  | .none => insert .none
  | .never => insert .never
  | .tuple items => do
    let ids ← insertRustList items
    insert (.tuple ids)
  | .list inner => do
    let id ← insertRustIntoArena inner
    insert (.list id)
  | .set inner => do
    let id ← insertRustIntoArena inner
    insert (.set id)
  | .dict k v => do
    let kId ← insertRustIntoArena k
    let vId ← insertRustIntoArena v
    insert (.dict kId vId)
  | .record fields => do
    let fields ← insertRustFields fields
    let recId ← insertRecord ⟨fields⟩
    insert (.record recId)
  | .fn positional named varPositional varKeyword returnTy => do
    let positional ← insertRustList positional
    let named ← insertRustFields named
    let varPositional ← insertRustOption varPositional
    let varKeyword ← insertRustOption varKeyword
    let returnTy ← insertRustIntoArena returnTy
    let fnId ← insertFn ⟨positional, named, varPositional, varKeyword, returnTy⟩
    insert (.fn fnId)
  | .adt adtId args => do
    let argIds ← insertRustList args
    insert (.adt adtId argIds)
  | .alias aliasId args => do
    let argIds ← insertRustList args
    insert (.alias aliasId argIds)
  | .generic g => insert (.generic g)
  | .var v => insert (.var v)
  | .ref inner => do
    let id ← insertRustIntoArena inner
    insert (.ref id)
  -- not mirrored: the source panics
  | .intN _ => fun _ => none
  | .array _ _ => fun _ => none

def insertRustList : List Ty → Build (List TyId)
  | [] => pure []
  | t :: rest => do
    let id ← insertRustIntoArena t
    let ids ← insertRustList rest
    pure (id :: ids)

def insertRustFields : List (String × Ty) → Build (List (String × TyId))
  | [] => pure []
  | (name, t) :: rest => do
    let id ← insertRustIntoArena t
    let ids ← insertRustFields rest
    pure ((name, id) :: ids)

def insertRustOption : Option Ty → Build (Option TyId)
  | .none => pure .none
  | .some t => do
    let id ← insertRustIntoArena t
    pure (some id)

end

def tyCbArenaFromRust (rust : Ty) : Option (TyId × TyArena) :=
  (insertRustIntoArena rust).run {}

/-! ## Copies and substitution -/

/-- One function for all named children. -/
def mapFields (f : TyId → Build TyId) (fields : List (String × TyId)) : Build (List (String × TyId)) :=
  fields.mapM fun (name, child) => do
    let id ← f child
    pure (name, id)

def mapOption (f : TyId → Build TyId) : Option TyId → Build (Option TyId)
  | .none => pure .none
  | .some child => do
    let id ← f child
    pure (some id)

/-- The arms that the copying traversals share: the children are mapped in order, and records and functions get an entry
of their own. The traversals differ in the arena that `record` and `fn` handles are looked up in. -/
def rebuild (lookupRecord : RecordId → Build RecordEntry) (lookupFn : FnTyId → Build FnTyEntry)
    (f : TyId → Build TyId) : TyEntry → Build TyEntry
  | .tuple items => do
    let mapped ← items.mapM f
    pure (.tuple mapped)
  | .list inner => do
    let mapped ← f inner
    pure (.list mapped)
  | .set inner => do
    let mapped ← f inner
    pure (.set mapped)
  | .dict k v => do
    let mk ← f k
    let mv ← f v
    pure (.dict mk mv)
  | .record rid => do
    let recEntry ← lookupRecord rid
    let fields ← mapFields f recEntry.fields
    let newRid ← insertRecord ⟨fields⟩
    pure (.record newRid)
  | .fn fid => do
    let fnEntry ← lookupFn fid
    let positional ← fnEntry.positional.mapM f
    let named ← mapFields f fnEntry.named
    let varPositional ← mapOption f fnEntry.varPositional
    let varKeyword ← mapOption f fnEntry.varKeyword
    let returnTy ← f fnEntry.returnTy
    let newFid ← insertFn ⟨positional, named, varPositional, varKeyword, returnTy⟩
    pure (.fn newFid)
  | .adt adtId args => do
    let mapped ← args.mapM f
    pure (.adt adtId mapped)
  | .alias aliasId args => do
    let mapped ← args.mapM f
    pure (.alias aliasId mapped)
  | .ref inner => do
    let mapped ← f inner
    pure (.ref mapped)
  | entry => pure entry

/-- A lookup in the arena that is being built. -/
def here {α : Type} (look : TyArena → Option α) : Build α := fun arena =>
  (look arena).map (·, arena)

/-- A lookup in another arena. -/
def there {α : Type} (found : Option α) : Build α := fun arena =>
  found.map (·, arena)

def cloneIntoArena : Nat → TyArena → TyId → Build TyId
  | 0, _, _ => fun _ => none
  | fuel + 1, srcArena, srcId => do
    let srcEntry ← there (srcArena.lookup srcId)
    let newEntry ← rebuild (fun rid => there (srcArena.lookupRecord rid)) (fun fid => there (srcArena.lookupFn fid))
      (cloneIntoArena fuel srcArena) srcEntry
    insert newEntry

def cloneWithinArena : Nat → TyId → Build TyId
  | 0, _ => fun _ => none
  | fuel + 1, srcId => do
    let entry ← here (·.lookup srcId)
    let newEntry ← rebuild (fun rid => here (·.lookupRecord rid)) (fun fid => here (·.lookupFn fid))
      (cloneWithinArena fuel) entry
    insert newEntry

def substVar : Nat → TyId → Int → TyId → Build TyId
  | 0, _, _, _ => fun _ => none
  | fuel + 1, srcId, varId, replacementId => do
    let entry ← here (·.lookup srcId)
    match entry with
    | .var v => if v = varId then cloneWithinArena fuel replacementId else pure srcId
    | .bool | .int | .float | .imag | .str | .bytes | .none | .never | .generic _ => pure srcId
    | entry => do
      let newEntry ← rebuild (fun rid => here (·.lookupRecord rid)) (fun fid => here (·.lookupFn fid))
        (fun child => substVar fuel child varId replacementId) entry
      insert newEntry

/-- Collect from children, one after the other. -/
def collectAll (f : TyId → List Int → Option (List Int)) (children : List TyId) (out : List Int) :
    Option (List Int) :=
  children.foldlM (fun out child => f child out) out

def collectVars : Nat → TyArena → TyId → List Int → Option (List Int)
  | 0, _, _, _ => none
  | fuel + 1, arena, id, out => do
    match ← arena.lookup id with
    | .var v => some (if v ∈ out then out else out ++ [v])
    | .tuple items => collectAll (collectVars fuel arena) items out
    | .list inner | .set inner | .ref inner => collectVars fuel arena inner out
    | .dict k v => do
      let out ← collectVars fuel arena k out
      collectVars fuel arena v out
    | .record rid => do
      let recEntry ← arena.lookupRecord rid
      collectAll (collectVars fuel arena) (recEntry.fields.map Prod.snd) out
    | .fn fid => do
      let fnEntry ← arena.lookupFn fid
      let out ← collectAll (collectVars fuel arena) fnEntry.positional out
      let out ← collectAll (collectVars fuel arena) (fnEntry.named.map Prod.snd) out
      let out ← collectAll (collectVars fuel arena) fnEntry.varPositional.toList out
      let out ← collectAll (collectVars fuel arena) fnEntry.varKeyword.toList out
      collectVars fuel arena fnEntry.returnTy out
    | .adt _ args | .alias _ args => collectAll (collectVars fuel arena) args out
    | _ => some out

def freeVars (fuel : Nat) (arena : TyArena) (id : TyId) : Option (List Int) :=
  collectVars fuel arena id []

/-- `as u32` of a stored id. -/
def asU32 (id : Int) : Nat :=
  (id % 2 ^ 32).toNat

open Parity CanonicalKey in
/-- Named children: the name is the tag. -/
def canonicalizeFields (f : TyId → StateT Parity.TyArena Option CanonicalKey) (fields : List (String × TyId)) :
    StateT Parity.TyArena Option (List CanonicalKey) :=
  fields.mapM fun (name, child) => do
    let c ← f child
    pure (node name [c])

open Parity CanonicalKey in
/-- A variadic parameter. -/
def canonicalizeOption (f : TyId → StateT Parity.TyArena Option CanonicalKey) (name : String) :
    Option TyId → StateT Parity.TyArena Option (List CanonicalKey)
  | .none => pure []
  | .some child => do
    let c ← f child
    pure [node name [c]]

open Parity CanonicalKey in
/-- The arm of a function, once its entry is found. -/
def canonicalizeFnEntry (f : TyId → StateT Parity.TyArena Option CanonicalKey) (fnEntry : FnTyEntry) :
    StateT Parity.TyArena Option CanonicalKey := do
  let positional ← fnEntry.positional.mapM f
  let named ← canonicalizeFields f fnEntry.named
  let varPositional ← canonicalizeOption f "*args" fnEntry.varPositional
  let varKeyword ← canonicalizeOption f "**kwargs" fnEntry.varKeyword
  let returnTy ← f fnEntry.returnTy
  pure (node "Fn" (positional ++ named ++ varPositional ++ varKeyword ++ [node "->" [returnTy]]))

/-- An action of the parity arena, which never fails. -/
def total {α : Type} (m : StateM Parity.TyArena α) : StateT Parity.TyArena Option α := fun parity =>
  some (m parity)

open Parity CanonicalKey in
def canonicalizeArenaRoot : Nat → TyArena → TyId → StateT Parity.TyArena Option CanonicalKey
  | 0, _, _ => fun _ => none
  | fuel + 1, arena, root => do
    match ← (arena.lookup root : Option TyEntry) with
    | .bool => pure (leaf "Bool")
    | .int => pure (leaf "Int")
    | .float => pure (leaf "Float")
    | .imag => pure (leaf "Imag")
    | .str => pure (leaf "Str")
    | .bytes => pure (leaf "Bytes")
    | .none => pure (leaf "None")
    | .never => pure (leaf "Never")
    | .tuple items => do
      let children ← items.mapM (canonicalizeArenaRoot fuel arena)
      pure (node "Tuple" children)
    | .list inner => do
      let c ← canonicalizeArenaRoot fuel arena inner
      pure (node "List" [c])
    | .set inner => do
      let c ← canonicalizeArenaRoot fuel arena inner
      pure (node "Set" [c])
    | .dict k v => do
      let kc ← canonicalizeArenaRoot fuel arena k
      let vc ← canonicalizeArenaRoot fuel arena v
      pure (node "Dict" [kc, vc])
    | .record rid => do
      let _recId ← total TyArena.freshRecordId
      let recEntry ← (arena.lookupRecord rid : Option RecordEntry)
      let children ← canonicalizeFields (canonicalizeArenaRoot fuel arena) recEntry.fields
      pure (node "Record" children)
    | .fn fid => do
      let _fnId ← total TyArena.freshFnTyId
      let fnEntry ← (arena.lookupFn fid : Option FnTyEntry)
      canonicalizeFnEntry (canonicalizeArenaRoot fuel arena) fnEntry
    | .adt adtId args => do
      let canon ← total (TyArena.adtId (asU32 adtId))
      let children ← args.mapM (canonicalizeArenaRoot fuel arena)
      pure (node ("Adt#" ++ toString canon) children)
    | .alias aliasId args => do
      let canon ← total (TyArena.aliasId (asU32 aliasId))
      let children ← args.mapM (canonicalizeArenaRoot fuel arena)
      pure (node ("Alias#" ++ toString canon) children)
    | .generic g => do
      let canon ← total (TyArena.genericVar (asU32 g))
      pure (leaf ("Generic#" ++ toString canon))
    | .var v => do
      let canon ← total (TyArena.varId (asU32 v))
      pure (leaf ("Var#" ++ toString canon))
    | .ref inner => do
      let c ← canonicalizeArenaRoot fuel arena inner
      pure (node "Ref" [c])

end Cobrust.TypesCb

namespace Cobrust.Ty

/-- `Ty::subst_var`. -/
def substVar (t : Ty) (v : Nat) (replacement : Ty) : Ty :=
  t.bind fun id => if id = v then replacement else .var id

end Cobrust.Ty
