import Cobrust.Mir.Points
import Mathlib.Data.Finset.Union
import Mathlib.Data.List.Nodup

/-!
# The drop schedule

`compute_drop_schedule` of `cobrust-mir/src/drop.rs`. The order in which a hash set of locals is
iterated is a parameter (`HashOrder`). Block ids are natural numbers, so the narrowing of
`body.blocks.len()` to `u32` is not modelled.
-/

namespace Cobrust.Mir

/-- The order in which `HashSet<LocalId>` hands out its elements. -/
structure HashOrder where
  toList : Finset LocalId → List LocalId
  nodup : ∀ s, (toList s).Nodup
  mem : ∀ s l, l ∈ toList s ↔ l ∈ s

def isCopy : Ty → Bool
  | .bool | .int | .float | .imag | .none | .never | .intN _ => true
  | _ => false

def collectMoveInOperand (op : Operand) (into : Finset LocalId) : Finset LocalId :=
  match op with
  | .move p => insert p.localId into
  | _ => into

def collectMovesInRvalue (rv : Rvalue) (into : Finset LocalId) : Finset LocalId :=
  match rv with
  | .use op | .cast _ op _ | .unaryOp _ op => collectMoveInOperand op into
  | .binaryOp _ a b => collectMoveInOperand b (collectMoveInOperand a into)
  | .aggregate _ items => items.foldl (fun into op => collectMoveInOperand op into) into
  | .ref _ _ | .discriminant _ | .len _ | .nullaryOp _ => into

def collectMovesInStatement (moved : Finset LocalId) (stmt : Statement) : Finset LocalId :=
  match stmt.kind with
  | .assign _ rvalue => collectMovesInRvalue rvalue moved
  | _ => moved

/-- The moves of one block: the rvalues of its statements and the arguments of its call. -/
def movedInBlock (block : BasicBlock) : Finset LocalId :=
  let moved := block.statements.foldl collectMovesInStatement ∅
  match block.terminator with
  | .call _ args _ _ _ => args.foldl (fun moved a => collectMoveInOperand a moved) moved
  | _ => moved

def movedOutPerBlock (body : Body) : BlockId → Finset LocalId :=
  body.blocks.foldl (fun table block => Function.update table block.id (movedInBlock block))
    fun _ => ∅

def globallyMoved (body : Body) : Finset LocalId :=
  (body.blocks.map BasicBlock.id).toFinset.biUnion (movedOutPerBlock body)

/-- Locals that are neither parameters nor the return slot, and whose type is not `Copy`. -/
def dropEligible (body : Body) : Finset LocalId :=
  let paramCutoff := body.paramCount + 1
  (body.locals.filter fun ld => !isCopy ld.ty && !decide (ld.id < paramCutoff)).map
    LocalDecl.id |>.toFinset

def returnBlocks (body : Body) : List BlockId :=
  body.blocks.filterMap fun b =>
    match b.terminator with
    | .ret => some b.id
    | _ => none

def toDrop (order : HashOrder) (body : Body) : List LocalId :=
  (order.toList (dropEligible body)).filter fun l => !decide (l ∈ globallyMoved body)

/-- Append a block that drops `l` and goes on to `tail`. -/
def pushDrop (l : LocalId) : Body × BlockId → Body × BlockId
  | (body, tail) =>
    let newId := body.blocks.length
    ({ body with
        blocks := body.blocks ++ [⟨newId, [], .drop (.ofLocal l) tail, body.span⟩] }, newId)

/-- Build a chain of drop blocks that ends at `finalTarget`, and return its head. The blocks are
made from the last local of the list to the first. -/
def buildDropChain (body : Body) (locals : List LocalId) (finalTarget : BlockId) :
    Body × BlockId :=
  if locals.isEmpty then (body, finalTarget) else locals.foldr pushDrop (body, finalTarget)

def rewireTerminator (term : Terminator) (source dest : BlockId) : Terminator :=
  let reroute (b : BlockId) : BlockId := if b = source then dest else b
  match term with
  | .goto b => .goto (reroute b)
  | .switchInt operand cases otherwise =>
    .switchInt operand (cases.map fun c => (c.1, reroute c.2)) (reroute otherwise)
  | .call func args destination target unwind =>
    .call func args destination (reroute target) (unwind.map reroute)
  -- the edges of drop chains keep their target
  | .drop place target => .drop place target
  | .assert cond expected msg target => .assert cond expected msg (reroute target)
  | .ret => .ret
  | .unreachable => .unreachable

def rewirePredecessors (body : Body) (source dest : BlockId) : Body :=
  if source = dest then body
  else { body with
    blocks := body.blocks.map fun block =>
      if block.id = source then block
      else { block with terminator := rewireTerminator block.terminator source dest } }

/-- Give one return block its drop chain. -/
def insertChain (locals : List LocalId) (body : Body) (retId : BlockId) : Body :=
  if locals.isEmpty then body
  else
    let (body, chainHead) := buildDropChain body locals retId
    rewirePredecessors body retId chainHead

/-- The body after the insertion loop. -/
def insertDrops (order : HashOrder) (body : Body) : Body :=
  (returnBlocks body).foldl (insertChain (toDrop order body)) body

structure VerifyLoop where
  entryDropped : BlockId → Option (Finset LocalId)
  work : List BlockId

def VerifyLoop.propagate (state : Finset LocalId) (st : VerifyLoop) (target : BlockId) :
    VerifyLoop :=
  let newlySeen := (st.entryDropped target).isNone
  let entry := (st.entryDropped target).getD ∅
  let grew := !decide (state ⊆ entry)
  let table := Function.update st.entryDropped target (some (entry ∪ state))
  if grew || newlySeen then
    if target ∈ st.work then ⟨table, st.work⟩ else ⟨table, target :: st.work⟩
  else ⟨table, st.work⟩

/-- The loop of `verify_drops`. `none` stands for a call that has not returned: the fuel ran out, or
the source panics because it indexes a block that does not exist. -/
def verifyLoop (body : Body) : Nat → VerifyLoop → Option (Except MirError Unit)
  | 0, _ => none
  | fuel + 1, st =>
    match st.work with
    | [] => some (.ok ())
    | bid :: work =>
      match body.blocks[bid]? with
      | none => none
      | some block =>
        let dropped := (st.entryDropped bid).getD ∅
        let st : VerifyLoop := { st with work }
        match block.terminator with
        | .drop place target =>
          if place.localId ∈ dropped then some (.error (.droppedTwice place.localId block.span))
          else verifyLoop body fuel (st.propagate (insert place.localId dropped) target)
        | term => verifyLoop body fuel (term.successors.foldl (VerifyLoop.propagate dropped) st)

def verifyDrops (body : Body) (fuel : Nat) : Option (Except MirError Unit) :=
  if body.blocks.isEmpty then some (.ok ())
  else verifyLoop body fuel ⟨fun b => if b = 0 then some ∅ else none, [0]⟩

/-- `compute_drop_schedule`: the mutated body and the verdict of the verification. -/
def computeDropSchedule (order : HashOrder) (body : Body) (fuel : Nat) :
    Option (Body × Except MirError Unit) :=
  if body.blocks.isEmpty then some (body, .ok ())
  else
    let body := insertDrops order body
    (verifyDrops body fuel).map fun r => (body, r)

end Cobrust.Mir
