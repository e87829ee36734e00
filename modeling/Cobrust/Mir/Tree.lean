import Cobrust.Types.Ty
import Mathlib.Data.List.Chain

/-!
# The MIR tree and its errors

The data types of `cobrust-mir/src/tree.rs`: a body is a control-flow graph whose blocks hold
statements and end in one terminator. A block id and a local id are numbers, as in the source, and a
well-formed body (`Body.WellFormed`) keeps its blocks ordered by id with every edge inside the block
vector.
-/

namespace Cobrust.Mir

/-- Identifier of a basic block in a body; block 0 is the entry. -/
abbrev BlockId := Nat

/-- Identifier of a local in a body. -/
abbrev LocalId := Nat

inductive BorrowKind where
  | shared
  | mutable
  deriving DecidableEq, Repr

inductive BinOp where
  | add | sub | mul | div | floorDiv | mod | pow | matMul | shl | shr | bitAnd | bitOr | bitXor
  | eq | notEq | lt | ltEq | gt | gtEq | and | or | in | notIn
  deriving DecidableEq, Repr

inductive UnOp where
  | plus | neg | bitNot | not
  deriving DecidableEq, Repr

inductive CastKind where
  | intToFloat | floatToInt | boolToInt | intToBool | strToBytes | bytesToStr
  deriving DecidableEq, Repr

inductive AggregateKind where
  | tuple | list | set | dict | record
  | adt (id variant : Nat)
  | formatString
  deriving DecidableEq, Repr

inductive NullaryOp where
  | sizeOf | alignOf
  deriving DecidableEq, Repr

inductive SwitchValue where
  | bool (b : Bool)
  | int (n : Int)
  | adt (discriminant : Nat)
  deriving DecidableEq, Repr

inductive AssertKind where
  | divisionByZero | overflow | boundsCheck | unreachable
  deriving DecidableEq, Repr

/-- Inline literals. Floats are kept as bit patterns. -/
inductive Constant where
  | bool (b : Bool)
  | int (n : Int)
  | float (bits : UInt64)
  | imag (bits : UInt64)
  | str (s : String)
  | bytes (b : List UInt8)
  | none
  | fnRef (id : Nat)
  deriving DecidableEq, Repr

mutual

/-- An access path into the memory rooted at a local. -/
inductive Place where
  | mk (localId : LocalId) (projections : List Projection)

inductive Projection where
  | field (i : Nat)
  | index (op : Operand)
  | deref
  | discriminant

inductive Operand where
  | copy (p : Place)
  | move (p : Place)
  | constant (c : Constant)

end

deriving instance Repr for Place, Projection, Operand

namespace Place

/-- The root local of a place. -/
def localId : Place → LocalId
  | mk l _ => l

def projections : Place → List Projection
  | mk _ ps => ps

/-- A bare local with no projections. -/
def ofLocal (l : LocalId) : Place := mk l []

/-- Append a projection. -/
def withProjection (p : Place) (proj : Projection) : Place :=
  mk p.localId (p.projections ++ [proj])

@[simp] theorem localId_mk (l : LocalId) (ps : List Projection) : (mk l ps).localId = l := rfl

@[simp] theorem projections_mk (l : LocalId) (ps : List Projection) :
    (mk l ps).projections = ps := rfl

@[simp] theorem localId_ofLocal (l : LocalId) : (ofLocal l).localId = l := rfl

@[simp] theorem projections_ofLocal (l : LocalId) : (ofLocal l).projections = [] := rfl

@[simp] theorem localId_withProjection (p : Place) (proj : Projection) :
    (p.withProjection proj).localId = p.localId := rfl

end Place

inductive Rvalue where
  | use (op : Operand)
  | binaryOp (op : BinOp) (a b : Operand)
  | unaryOp (op : UnOp) (a : Operand)
  | aggregate (kind : AggregateKind) (items : List Operand)
  | cast (kind : CastKind) (op : Operand) (ty : Ty)
  | ref (kind : BorrowKind) (place : Place)
  | discriminant (place : Place)
  | len (place : Place)
  | nullaryOp (op : NullaryOp)
  deriving Repr

inductive StatementKind where
  | assign (place : Place) (rvalue : Rvalue)
  | storageLive (id : LocalId)
  | storageDead (id : LocalId)
  | nop
  deriving Repr

structure Statement where
  kind : StatementKind
  span : Span
  deriving Repr

inductive Terminator where
  | goto (target : BlockId)
  | switchInt (operand : Operand) (cases : List (SwitchValue × BlockId)) (otherwise : BlockId)
  | ret
  | call (func : Operand) (args : List Operand) (destination : Place) (target : BlockId)
      (unwind : Option BlockId)
  | drop (place : Place) (target : BlockId)
  | unreachable
  | assert (cond : Operand) (expected : Bool) (msg : AssertKind) (target : BlockId)
  deriving Repr

structure BasicBlock where
  id : BlockId
  statements : List Statement
  terminator : Terminator
  span : Span
  deriving Repr

structure LocalDecl where
  id : LocalId
  name : String
  ty : Ty
  mutable : Bool
  span : Span
  validatedBodyOf : Option AdtId
  deriving Repr

/-- The control-flow graph of one function. -/
structure Body where
  defId : DefId
  name : String
  locals : List LocalDecl
  blocks : List BasicBlock
  returnLocal : LocalId
  paramCount : Nat
  span : Span
  deriving Repr

/-- The targets of a terminator, in the order in which the source lists them. -/
def Terminator.successors : Terminator → List BlockId
  | goto t => [t]
  | drop _ t => [t]
  | switchInt _ cases otherwise => cases.map Prod.snd ++ [otherwise]
  | call _ _ _ target unwind => target :: unwind.toList
  | assert _ _ _ target => [target]
  | ret => []
  | unreachable => []

namespace Body

/-- The successors of a block; none for a block that does not exist. -/
def successors (body : Body) (b : BlockId) : List BlockId :=
  match body.blocks[b]? with
  | some block => block.terminator.successors
  | none => []

theorem successors_eq {body : Body} {b : BlockId} {block : BasicBlock}
    (h : body.blocks[b]? = some block) : body.successors b = block.terminator.successors := by
  simp [successors, h]

theorem exists_block_of_mem_successors {body : Body} {b c : BlockId} (h : c ∈ body.successors b) :
    ∃ block, body.blocks[b]? = some block ∧ c ∈ block.terminator.successors := by
  unfold successors at h
  cases hb : body.blocks[b]? with
  | none => simp [hb] at h
  | some block => exact ⟨block, rfl, by simpa [hb] using h⟩

/-- Every terminator target lies in the block vector. -/
def TargetsInRange (body : Body) : Prop :=
  ∀ b c, c ∈ body.successors b → c < body.blocks.length

theorem targetsInRange_iff {body : Body} : body.TargetsInRange ↔
    ∀ b ∈ List.range body.blocks.length, ∀ c ∈ body.successors b, c < body.blocks.length := by
  constructor
  · exact fun h b _ c hc => h b c hc
  · intro h b c hc
    obtain ⟨block, hb, -⟩ := exists_block_of_mem_successors hc
    exact h b (List.mem_range.2 (List.getElem?_eq_some_iff.1 hb).1) c hc

instance (body : Body) : Decidable body.TargetsInRange :=
  decidable_of_iff _ targetsInRange_iff.symm

/-- What the documentation of `Body` promises of its blocks: they are ordered by id, and the edges
stay inside the vector. -/
structure WellFormed (body : Body) : Prop where
  ids : ∀ (b : BlockId) (block : BasicBlock), body.blocks[b]? = some block → block.id = b
  targets : body.TargetsInRange

theorem wellFormed_iff {body : Body} : body.WellFormed ↔
    body.blocks.map BasicBlock.id = List.range body.blocks.length ∧ body.TargetsInRange := by
  constructor
  · rintro ⟨hids, htargets⟩
    refine ⟨List.ext_getElem (by simp) fun b h₁ h₂ => ?_, htargets⟩
    have hb : b < body.blocks.length := by simpa using h₁
    simpa using hids b body.blocks[b] (List.getElem?_eq_getElem hb)
  · rintro ⟨hids, htargets⟩
    refine ⟨fun b block hb => ?_, htargets⟩
    obtain ⟨hlt, rfl⟩ := List.getElem?_eq_some_iff.1 hb
    have hmap : (body.blocks.map BasicBlock.id)[b]? = (List.range body.blocks.length)[b]? := by
      rw [hids]
    simpa [hlt] using hmap

instance (body : Body) : Decidable body.WellFormed :=
  decidable_of_iff _ wellFormed_iff.symm

/-- A finite control-flow path from block 0. -/
def IsPath (body : Body) (path : List BlockId) : Prop :=
  path.head? = some 0 ∧ path.IsChain (fun b c => c ∈ body.successors b) ∧
    ∀ b ∈ path, b < body.blocks.length

/-- A block that some path from block 0 enters. -/
inductive Reachable (body : Body) : BlockId → Prop
  | entry (h : 0 < body.blocks.length) : Reachable body 0
  | step {b c : BlockId} (h : Reachable body b) (hc : c ∈ body.successors b)
      (hlt : c < body.blocks.length) : Reachable body c

theorem isPath_concat {body : Body} {path : List BlockId} {b c : BlockId} (h : body.IsPath path)
    (hlast : path.getLast? = some b) (hc : c ∈ body.successors b) (hlt : c < body.blocks.length) :
    body.IsPath (path ++ [c]) := by
  obtain ⟨hhead, hchain, hrange⟩ := h
  have hne : path ≠ [] := by
    intro e
    simp [e] at hhead
  refine ⟨by rwa [List.head?_append_of_ne_nil _ hne], ?_, ?_⟩
  · refine List.isChain_append.2 ⟨hchain, List.isChain_singleton _, ?_⟩
    intro x hx y hy
    obtain rfl : b = x := by simpa [hlast] using hx
    obtain rfl : c = y := by simpa using hy
    exact hc
  · intro d hd
    rcases List.mem_append.1 hd with hd | hd
    · exact hrange d hd
    · rw [List.mem_singleton.1 hd]
      exact hlt

theorem Reachable.exists_path {body : Body} {b : BlockId} (h : body.Reachable b) :
    ∃ path, body.IsPath path ∧ path.getLast? = some b := by
  induction h with
  | entry h => exact ⟨[0], ⟨rfl, List.isChain_singleton _, by simpa using h⟩, rfl⟩
  | step _ hc hlt ih =>
    obtain ⟨path, hpath, hlast⟩ := ih
    exact ⟨path ++ [_], isPath_concat hpath hlast hc hlt, by simp⟩

theorem IsPath.reachable {body : Body} {path : List BlockId} (h : body.IsPath path) :
    ∀ b ∈ path, body.Reachable b := by
  induction path using List.reverseRecOn with
  | nil => simp
  | append_singleton path c ih =>
    obtain ⟨hhead, hchain, hrange⟩ := h
    have hlt := hrange c (by simp)
    rcases List.eq_nil_or_concat path with rfl | ⟨path', b, hpath⟩
    · intro b hb
      obtain rfl : b = c := by simpa using hb
      obtain rfl : b = 0 := by simpa using hhead
      exact .entry hlt
    · rw [List.concat_eq_append] at hpath
      have hne : path ≠ [] := by simp [hpath]
      obtain ⟨hinit, -, hlink⟩ := List.isChain_append.1 hchain
      rw [List.head?_append_of_ne_nil _ hne] at hhead
      have hreach := ih ⟨hhead, hinit, fun d hd => hrange d (List.mem_append_left _ hd)⟩
      intro d hd
      rcases List.mem_append.1 hd with hd | hd
      · exact hreach d hd
      · rw [List.mem_singleton.1 hd]
        exact .step (hreach b (by simp [hpath])) (hlink b (by simp [hpath]) c (by simp)) hlt

end Body

end Cobrust.Mir

/-!
## Errors

`MirError` of `cobrust-mir/src/error.rs`, with the suggestion texts that its construction sites fill
in.
-/

namespace Cobrust.Mir

structure PlaceDebug where
  localId : Nat
  projectionChain : String
  deriving DecidableEq, Repr

inductive MirError where
  | useAfterMove (localId : Nat) (span : Span) (suggestion : Option String)
  | useAfterDrop (localId : Nat) (span : Span) (suggestion : Option String)
  | conflictingMutBorrow (localId : Nat) (span : Span) (suggestion : Option String)
  | sharedMutOverlap (localId : Nat) (span : Span) (suggestion : Option String)
  | escapingBorrow (localId : Nat) (span : Span) (suggestion : Option String)
  | dropMissing (localId : Nat) (span : Span) (suggestion : Option String)
  | doubleDrop (localId : Nat) (span : Span) (suggestion : Option String)
  | fieldOutOfBounds (place : PlaceDebug) (span : Span) (suggestion : Option String)
  | unresolvedDefId (defId : Nat) (span : Span) (suggestion : Option String)
  | nonExhaustiveSwitch (span : Span) (suggestion : Option String)
  | internal (msg : String)
  deriving DecidableEq, Repr

namespace MirError

/-- B1: read of a local already moved. -/
def readMoved (l : LocalId) (span : Span) : MirError :=
  .useAfterMove l span
    (some "change to `&s` to borrow without consuming (ADR-0052a explicit shared borrow)")

/-- B4: read of a local already dropped. -/
def readDropped (l : LocalId) (span : Span) : MirError :=
  .useAfterDrop l span
    (some "the value was already dropped; reorder code so the read precedes the drop")

/-- B2: second mutable borrow while a first is live. -/
def secondMutBorrow (l : LocalId) (span : Span) : MirError :=
  .conflictingMutBorrow l span (some
    "only one mutable borrow can be active at a time; release the first borrow first")

/-- B3: a mutable borrow while a shared one is live. -/
def mutOverShared (l : LocalId) (span : Span) : MirError :=
  .sharedMutOverlap l span
    (some "cannot borrow mutably while a shared borrow is active; release shared first")

/-- B3: a shared borrow while a mutable one is live; the source reuses the text of `mutOverShared`. -/
def sharedOverMut (l : LocalId) (span : Span) : MirError := mutOverShared l span

/-- The same local dropped twice on a path. -/
def droppedTwice (l : LocalId) (span : Span) : MirError :=
  .doubleDrop l span (some "a value can only be dropped once; check your control flow")

end MirError

end Cobrust.Mir
