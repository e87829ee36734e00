import Cobrust.Mir.Tree
import Cobrust.Mir.Lower.Context

/-!
# The body builder

`BodyBuilder` of `cobrust-mir/src/lower.rs`: a body under construction, with a cursor on the block that
is being filled. A block starts with the placeholder terminator `Unreachable` and is closed by
`terminate`. Lowering runs in `LowerM`, which threads the builder and stops at the first error; the
`expect` calls of the source are the failure `panic`.
-/

namespace Cobrust.Mir

structure BodyBuilder where
  defId : DefId
  name : String
  span : Span
  locals : List LocalDecl
  blocks : List BasicBlock
  /-- The map from definitions to locals, newest entry first, one entry for each key. -/
  defToLocal : List (DefId × LocalId)
  curBlock : Option BlockId
  /-- The continue and the exit target of each enclosing loop, innermost first. -/
  loopStack : List (BlockId × BlockId)
  returnLocal : LocalId
  paramCount : Nat
  deriving Repr

inductive Failure where
  | error (e : MirError)
  | panic (msg : String)
  deriving DecidableEq, Repr

abbrev LowerM := StateT BodyBuilder (Except Failure)

namespace LowerM

def fail {α : Type} (e : MirError) : LowerM α :=
  throw (.error e)

end LowerM

/-- `get` on the map from definitions to locals. -/
def BodyBuilder.localOf (b : BodyBuilder) (id : DefId) : Option LocalId :=
  (b.defToLocal.find? fun entry => entry.1 = id).map Prod.snd

/-- Append a block with the placeholder terminator and make it current. -/
def BodyBuilder.startBlock (b : BodyBuilder) : BodyBuilder :=
  let block : BasicBlock := ⟨b.blocks.length, [], .unreachable, b.span⟩
  { b with blocks := b.blocks ++ [block], curBlock := some b.blocks.length }

def BodyBuilder.moveTo (b : BodyBuilder) (id : BlockId) : BodyBuilder :=
  { b with curBlock := some id }

/-- Append a statement to block `id`. -/
def BodyBuilder.pushStmt (b : BodyBuilder) (id : BlockId) (stmt : Statement) : BodyBuilder :=
  { b with blocks := b.blocks.modify id fun block =>
      { block with statements := block.statements ++ [stmt] } }

/-- Close the current block; without a current block nothing happens. -/
def BodyBuilder.close (b : BodyBuilder) (term : Terminator) : BodyBuilder :=
  match b.curBlock with
  | some id =>
    { b with
      blocks := b.blocks.modify id fun block => { block with terminator := term }
      curBlock := none }
  | none => b

def declareLocal (name : String) (ty : Ty) (span : Span) (mutable : Bool) : LowerM LocalId :=
  fun b =>
    let id : LocalId := b.locals.length
    let decl : LocalDecl := ⟨id, name, ty, mutable, span, none⟩
    .ok (id, { b with locals := b.locals ++ [decl] })

def declareLocalForDef (defId : DefId) (name : String) (ty : Ty) (span : Span) (mutable : Bool) :
    LowerM LocalId := do
  let id ← declareLocal name ty span mutable
  modify fun b =>
    { b with defToLocal := (defId, id) :: b.defToLocal.filter fun entry => entry.1 ≠ defId }
  return id

def startNewBlock : LowerM BlockId :=
  fun b => .ok (b.blocks.length, b.startBlock)

def setCurBlock (id : BlockId) : LowerM Unit :=
  fun b => .ok ((), b.moveTo id)

def currentBlockId : LowerM BlockId :=
  fun b =>
    match b.curBlock with
    | some id => .ok (id, b)
    | none => .error (.panic "no current block")

/-- Append a statement to the current block. -/
def emitStmt (kind : StatementKind) (span : Span) : LowerM Unit :=
  fun b =>
    match b.curBlock with
    | some id => .ok ((), b.pushStmt id ⟨kind, span⟩)
    | none => .error (.panic "no current block")

def emitAssign (place : Place) (rvalue : Rvalue) (span : Span) : LowerM Unit :=
  emitStmt (.assign place rvalue) span

def terminate (term : Terminator) : LowerM Unit :=
  fun b => .ok ((), b.close term)

def terminated : LowerM Bool :=
  fun b => .ok (b.curBlock.isNone, b)

def ensureOpenBlock : LowerM BlockId :=
  fun b =>
    match b.curBlock with
    | some id => .ok (id, b)
    | none => startNewBlock b

/-- The sequence by which the source leaves the current block through `term` and goes on in a block of
its own: allocate the block, go back, terminate, move there. -/
def continueAfter (term : BlockId → Terminator) : LowerM Unit := do
  let cur ← currentBlockId
  let next ← startNewBlock
  setCurBlock cur
  terminate (term next)
  setCurBlock next

/-- Call `func` and go on in a new block. -/
def callInto (func : Operand) (args : List Operand) (destination : Place) : LowerM Unit :=
  continueAfter fun next => .call func args destination next none

/-- Call a runtime symbol and go on in a new block. -/
def callSymbol (symbol : String) (args : List Operand) (dest : LocalId) : LowerM Unit :=
  callInto (.constant (.str symbol)) args (.ofLocal dest)

/-- `Goto(target)`, unless the block was closed already. -/
def gotoIfOpen (target : BlockId) : LowerM Unit := do
  if !(← terminated) then terminate (.goto target)

/-- `SwitchInt` on a condition: `true` goes to `thenBlock`. -/
def switchTrue (operand : Operand) (thenBlock otherwise : BlockId) : Terminator :=
  .switchInt operand [(.bool true, thenBlock)] otherwise

namespace BodyBuilder

/-- `BodyBuilder::new`: the return local and the entry block. -/
def new (defId : DefId) (name : String) (span : Span) : BodyBuilder where
  defId := defId
  name := name
  span := span
  locals := [⟨0, "_return", .none, true, span, none⟩]
  blocks := [⟨0, [], .unreachable, span⟩]
  defToLocal := []
  curBlock := some 0
  loopStack := []
  returnLocal := 0
  paramCount := 0

def finish (b : BodyBuilder) : Body where
  defId := b.defId
  name := b.name
  locals := b.locals
  blocks := b.blocks
  returnLocal := b.returnLocal
  paramCount := b.paramCount
  span := b.span

end BodyBuilder

/-- The local of a resolved name; a name without one gets a local on the spot. -/
def lookupLocalForResolved (ctx : LowerCtx) (rn : Hir.ResolvedName) (span : Span) :
    LowerM LocalId := do
  match (← get).localOf rn.defId with
  | some id => return id
  | none => declareLocalForDef rn.defId rn.name (ctx.lookupTy rn.defId) span false

/-- The declared type of the root of an operand's place, for the operand forms below. -/
def BodyBuilder.declTy (b : BodyBuilder) (p : Place) : Option Ty :=
  b.locals[p.localId]?.map LocalDecl.ty

/-- The `upgrade_move_to_copy_for_*` functions: a move out of a local whose declared type satisfies
`borrows` becomes a copy. -/
def upgradeMoveToCopyWhen (borrows : Ty → Bool) (b : BodyBuilder) : Operand → Operand
  | .move p => if (b.declTy p).any borrows then .copy p else .move p
  | other => other

def upgradeMoveToCopyForStr : BodyBuilder → Operand → Operand :=
  upgradeMoveToCopyWhen Ty.isStr

def upgradeMoveToCopyForBytes : BodyBuilder → Operand → Operand :=
  upgradeMoveToCopyWhen Ty.isBytes

def upgradeMoveToCopyForEcoValue : BodyBuilder → Operand → Operand :=
  upgradeMoveToCopyWhen fun ty => ty.isStr || ty.isBytes ||
    match ty with
    | .adt id _ => isEcosystemHandle id
    | _ => false

/-- The handle stays with its owner: every move becomes a copy. -/
def upgradeMoveToCopyHandle : Operand → Operand
  | .move p => .copy p
  | other => other

/-- A returned copy of a drop-eligible local becomes a move. -/
def upgradeReturnToMove (b : BodyBuilder) : Operand → Operand
  | .copy p =>
    match b.declTy p with
    | some .bool | some .int | some .float | some .imag | some .none | some .never | none => .copy p
    | some _ => .move p
  | other => other

end Cobrust.Mir
