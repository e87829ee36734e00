import Cobrust.Text.CompactJson
import Cobrust.Types.Ty

/-!
# Canonical keys of types

The parity harness of `cobrust-types-parity/src/lib.rs`: a type is flattened into a tree of string tags, with its ids
numbered by first encounter, and two types pass the check when their trees are equal.
-/

namespace Cobrust.Parity

/-- The canonical form of a type: a tag and the keys of the children. -/
inductive CanonicalKey where
  | node (kind : String) (children : List CanonicalKey)
  deriving Repr

namespace CanonicalKey

def leaf (kind : String) : CanonicalKey :=
  node kind []

mutual

def decEq : (a b : CanonicalKey) → Decidable (a = b)
  | node kind children, node kind' children' =>
    if hkind : kind = kind' then
      match decEqList children children' with
      | isTrue hchildren => isTrue (by rw [hkind, hchildren])
      | isFalse hchildren => isFalse fun h => hchildren (node.inj h).2
    else isFalse fun h => hkind (node.inj h).1

def decEqList : (as bs : List CanonicalKey) → Decidable (as = bs)
  | [], [] => isTrue rfl
  | [], _ :: _ => isFalse nofun
  | _ :: _, [] => isFalse nofun
  | a :: as, b :: bs =>
    match decEq a b, decEqList as bs with
    | isTrue ha, isTrue has => isTrue (by rw [ha, has])
    | isFalse ha, _ => isFalse fun h => ha (List.cons.inj h).1
    | _, isFalse has => isFalse fun h => has (List.cons.inj h).2

end

instance : DecidableEq CanonicalKey := decEq

mutual

/-- The serialised form, a struct with two fields. -/
def json : CanonicalKey → Text.JsonTree Empty
  | node kind children => .object [("kind".toList, .string kind.toList), ("children".toList, .array (jsonList children))]

def jsonList : List CanonicalKey → List (Text.JsonTree Empty)
  | [] => []
  | key :: rest => key.json :: jsonList rest

end

/-- The keys have no numbers. -/
def text (key : CanonicalKey) : Text :=
  key.json.text ⟨nofun, nofun, nofun, nofun⟩

end CanonicalKey

/-- The id families that are renamed. -/
inductive Namespace where
  | adt
  | alias
  | var
  | generic
  deriving DecidableEq, Repr

/-- A renaming map, from raw ids to canonical ids. -/
abbrev CanonMap :=
  List (Nat × Nat)

/-- The canonical id of a raw id; a new one gets the number of ids there are. -/
def CanonMap.orInsert (canon : CanonMap) (raw : Nat) : Nat × CanonMap :=
  match canon.lookup raw with
  | some id => (id, canon)
  | none => (canon.length, canon ++ [(raw, canon.length)])

/-- The renaming maps and the counters of one canonicalisation. -/
structure TyArena where
  adtCanon : CanonMap := []
  aliasCanon : CanonMap := []
  varCanon : CanonMap := []
  genericCanon : CanonMap := []
  fnTyCounter : Nat := 0
  recordCounter : Nat := 0
  deriving Repr

namespace TyArena

def canon (arena : TyArena) : Namespace → CanonMap
  | .adt => arena.adtCanon
  | .alias => arena.aliasCanon
  | .var => arena.varCanon
  | .generic => arena.genericCanon

def setCanon (arena : TyArena) (canon : CanonMap) : Namespace → TyArena
  | .adt => { arena with adtCanon := canon }
  | .alias => { arena with aliasCanon := canon }
  | .var => { arena with varCanon := canon }
  | .generic => { arena with genericCanon := canon }

/-- The canonical id of a raw id of one family. -/
def canonId (ns : Namespace) (raw : Nat) : StateM TyArena Nat := fun arena =>
  let (id, canon) := (arena.canon ns).orInsert raw
  (id, arena.setCanon canon ns)

def adtId (raw : AdtId) : StateM TyArena Nat :=
  canonId .adt raw

def aliasId (raw : Nat) : StateM TyArena Nat :=
  canonId .alias raw

def varId (raw : Nat) : StateM TyArena Nat :=
  canonId .var raw

def genericVar (raw : Nat) : StateM TyArena Nat :=
  canonId .generic raw

def freshFnTyId : StateM TyArena Nat := fun arena =>
  (arena.fnTyCounter, { arena with fnTyCounter := arena.fnTyCounter + 1 })

def freshRecordId : StateM TyArena Nat := fun arena =>
  (arena.recordCounter, { arena with recordCounter := arena.recordCounter + 1 })

end TyArena

open CanonicalKey TyArena

mutual

def canonicalize : Ty → StateM TyArena CanonicalKey
  | .bool => pure (leaf "Bool")
  | .int => pure (leaf "Int")
  | .float => pure (leaf "Float")
  | .imag => pure (leaf "Imag")
  | .str => pure (leaf "Str")
  | .bytes => pure (leaf "Bytes")
  | .none => pure (leaf "None")
  | .never => pure (leaf "Never")
  | .tuple items => do
    let children ← canonicalizeList items
    pure (node "Tuple" children)
  | .list inner => do
    let c ← canonicalize inner
    pure (node "List" [c])
  | .set inner => do
    let c ← canonicalize inner
    pure (node "Set" [c])
  | .dict k v => do
    let kc ← canonicalize k
    let vc ← canonicalize v
    pure (node "Dict" [kc, vc])
  | .record fields => do
    let _recId ← freshRecordId
    let children ← canonicalizeFields fields
    pure (node "Record" children)
  | .fn positional named varPositional varKeyword returnTy => do
    let _fnId ← freshFnTyId
    let positional ← canonicalizeList positional
    let named ← canonicalizeFields named
    let varPositional ← canonicalizeOption "*args" varPositional
    let varKeyword ← canonicalizeOption "**kwargs" varKeyword
    let returnTy ← canonicalize returnTy
    pure (node "Fn" (positional ++ named ++ varPositional ++ varKeyword ++ [node "->" [returnTy]]))
  | .adt id args => do
    let canon ← adtId id
    let children ← canonicalizeList args
    pure (node ("Adt#" ++ toString canon) children)
  | .alias id args => do
    let canon ← aliasId id
    let children ← canonicalizeList args
    pure (node ("Alias#" ++ toString canon) children)
  | .generic g => do
    let canon ← genericVar g
    pure (leaf ("Generic#" ++ toString canon))
  | .var v => do
    let canon ← varId v
    pure (leaf ("Var#" ++ toString canon))
  | .ref inner => do
    let c ← canonicalize inner
    pure (node "Ref" [c])
  | .intN w => pure (leaf ("IntN#" ++ toString w))
  | .array elem n => do
    let c ← canonicalize elem
    pure (node ("Array#" ++ toString n) [c])

def canonicalizeList : List Ty → StateM TyArena (List CanonicalKey)
  | [] => pure []
  | t :: rest => do
    let c ← canonicalize t
    let cs ← canonicalizeList rest
    pure (c :: cs)

/-- Named children: the name is the tag. -/
def canonicalizeFields : List (String × Ty) → StateM TyArena (List CanonicalKey)
  | [] => pure []
  | (name, t) :: rest => do
    let c ← canonicalize t
    let cs ← canonicalizeFields rest
    pure (node name [c] :: cs)

/-- A variadic parameter. -/
def canonicalizeOption (name : String) : Option Ty → StateM TyArena (List CanonicalKey)
  | .none => pure []
  | .some t => do
    let c ← canonicalize t
    pure [node name [c]]

end

/-- What the harness can canonicalise. -/
class Canonicalize (α : Type) where
  canonicalize : α → StateM TyArena CanonicalKey

instance : Canonicalize Ty := ⟨canonicalize⟩

/-- The key from a fresh arena. -/
def keyOf {α : Type} [Canonicalize α] (value : α) : CanonicalKey :=
  ((Canonicalize.canonicalize value).run {}).1

inductive ParityError where
  | canonicalPayloadMismatch (rustKey cbKey : Text)
  deriving DecidableEq

def parityCheck {R C : Type} [Canonicalize R] [Canonicalize C] (rust : R) (cb : C) : Except ParityError Unit :=
  if keyOf rust = keyOf cb then .ok () else .error (.canonicalPayloadMismatch (keyOf rust).text (keyOf cb).text)

end Cobrust.Parity
