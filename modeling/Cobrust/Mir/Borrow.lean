import Cobrust.Mir.Tree
import Mathlib.Data.Finset.Basic
import Mathlib.Data.Finset.Lattice.Basic

/-!
# The borrow checker

`borrow_check` of `cobrust-mir/src/borrow.rs`. The moved and dropped sets are finite sets, the
per-block entry tables are functions that answer the empty set for a block without an entry, and the
work vector is a list whose head is its last element.
-/

namespace Cobrust.Mir

structure BlockState where
  /-- Locals already moved on entry to this point. -/
  moved : Finset LocalId
  /-- Locals already dropped. -/
  dropped : Finset LocalId
  /-- In-flight borrow stacks, per local. -/
  borrows : LocalId → List BorrowKind

/-! ## Checks on one operand, rvalue, statement, terminator -/

def checkOperandRead (op : Operand) (state : BlockState) (span : Span) : Except MirError Unit :=
  match op with
  | .constant _ => .ok ()
  | .copy p | .move p =>
    if p.localId ∈ state.moved then .error (.readMoved p.localId span)
    else if p.localId ∈ state.dropped then .error (.readDropped p.localId span)
    else .ok ()

def checkOperandReads (span : Span) (state : BlockState) : List Operand → Except MirError Unit
  | [] => .ok ()
  | op :: ops => do
    checkOperandRead op state span
    checkOperandReads span state ops

def checkRvalueReads (rvalue : Rvalue) (state : BlockState) (span : Span) : Except MirError Unit :=
  match rvalue with
  | .use op => checkOperandRead op state span
  | .binaryOp _ a b => do
    checkOperandRead a state span
    checkOperandRead b state span
  | .unaryOp _ a => checkOperandRead a state span
  | .aggregate _ items => checkOperandReads span state items
  | .cast _ op _ => checkOperandRead op state span
  | .ref _ _ | .discriminant _ | .len _ | .nullaryOp _ => .ok ()

def pushBorrow (state : BlockState) (place : Place) (kind : BorrowKind) (span : Span) :
    Except MirError BlockState :=
  let stack := state.borrows place.localId
  let hasMut := BorrowKind.mutable ∈ stack
  let hasShared := BorrowKind.shared ∈ stack
  let pushed : BlockState :=
    { state with borrows := Function.update state.borrows place.localId (stack ++ [kind]) }
  match kind with
  | .mutable =>
    if hasMut then .error (.secondMutBorrow place.localId span)
    else if hasShared then .error (.mutOverShared place.localId span)
    else .ok pushed
  | .shared =>
    if hasMut then .error (.sharedOverMut place.localId span)
    else .ok pushed

/-- The effect of an assignment on the moved set: the destination is cleared, and the source of a
plain move is recorded. -/
def markAssigned (place : Place) (rvalue : Rvalue) (span : Span) (state : BlockState) :
    Except MirError BlockState :=
  let moved := state.moved.erase place.localId
  match rvalue with
  | .use (.move p) =>
    if p.localId ∈ moved then .error (.readMoved p.localId span)
    else .ok { state with moved := insert p.localId moved }
  | _ => .ok { state with moved }

def checkStatement (stmt : Statement) (state : BlockState) : Except MirError BlockState :=
  match stmt.kind with
  | .assign place rvalue => do
    checkRvalueReads rvalue state stmt.span
    let state ← markAssigned place rvalue stmt.span state
    match rvalue with
    | .ref kind target => pushBorrow state target kind stmt.span
    | _ => .ok state
  | .storageLive _ | .storageDead _ | .nop => .ok state

def checkCallArgs : List Operand → BlockState → Except MirError BlockState
  | [], state => .ok state
  | a :: args, state => do
    checkOperandRead a state .synthetic
    match a with
    | .move p => checkCallArgs args { state with moved := insert p.localId state.moved }
    | _ => checkCallArgs args state

/-- Check a terminator. Its targets are `Terminator.successors`, whatever the state is. -/
def checkTerminator (term : Terminator) (state : BlockState) : Except MirError BlockState :=
  match term with
  | .goto _ => .ok state
  | .switchInt operand _ _ => do
    checkOperandRead operand state .synthetic
    .ok state
  | .call func args destination _ _ => do
    checkOperandRead func state .synthetic
    let state ← checkCallArgs args state
    .ok { state with moved := state.moved.erase destination.localId }
  | .drop place _ => .ok { state with dropped := insert place.localId state.dropped }
  | .ret | .unreachable => .ok state
  | .assert cond _ _ _ => do
    checkOperandRead cond state .synthetic
    .ok state

def checkStatements : List Statement → BlockState → Except MirError BlockState
  | [], state => .ok state
  | stmt :: stmts, state => do
    let state ← checkStatement stmt state
    checkStatements stmts state

/-- The moved and dropped sets that flow between blocks. -/
abbrev Facts := Finset LocalId × Finset LocalId

/-- Walk one block from its entry facts, with empty borrow stacks. -/
def checkBlock (block : BasicBlock) (facts : Facts) : Except MirError Facts := do
  let state ← checkStatements block.statements ⟨facts.1, facts.2, fun _ => []⟩
  let state ← checkTerminator block.terminator state
  .ok (state.moved, state.dropped)

/-- Walk the blocks of a path in order, carrying the moved and dropped sets. -/
def checkPath (body : Body) : List BlockId → Facts → Except MirError Facts
  | [], facts => .ok facts
  | b :: path, facts =>
    match body.blocks[b]? with
    | some block => do
      let facts ← checkBlock block facts
      checkPath body path facts
    | none => .ok facts

/-- Join new facts into the entry set of a block; the flag tells whether the set grew. -/
def growSet (table : BlockId → Finset LocalId) (block : BlockId) (new : Finset LocalId) :
    (BlockId → Finset LocalId) × Bool :=
  (Function.update table block (table block ∪ new), !decide (new ⊆ table block))

structure BorrowLoop where
  entryMoved : BlockId → Finset LocalId
  entryDropped : BlockId → Finset LocalId
  visited : Finset BlockId
  work : List BlockId

/-- Propagate the facts at the end of a block to one successor. -/
def propagateFacts (facts : Facts) (st : BorrowLoop) (s : BlockId) : BorrowLoop :=
  let (entryMoved, grewMoved) := growSet st.entryMoved s facts.1
  let (entryDropped, grewDropped) := growSet st.entryDropped s facts.2
  let needsVisit := !decide (s ∈ st.visited)
  let st := { st with entryMoved, entryDropped }
  if grewMoved || grewDropped || needsVisit then
    if s ∈ st.work then st else { st with work := s :: st.work }
  else st

/-- The main loop. `none` stands for a call that has not returned: the fuel ran out, or the source
panics because it indexes a block that does not exist. -/
def borrowLoop (body : Body) : Nat → BorrowLoop → Option (Except MirError Unit)
  | 0, _ => none
  | fuel + 1, st =>
    match st.work with
    | [] => some (.ok ())
    | bid :: work =>
      match body.blocks[bid]? with
      | none => none
      | some block =>
        match checkBlock block (st.entryMoved bid, st.entryDropped bid) with
        | .error e => some (.error e)
        | .ok facts =>
          let st := { st with visited := insert bid st.visited, work }
          borrowLoop body fuel (block.terminator.successors.foldl (propagateFacts facts) st)

def borrowLoopStart : BorrowLoop where
  entryMoved := fun _ => ∅
  entryDropped := fun _ => ∅
  visited := ∅
  work := [0]

/-- `borrow_check`, run with the given fuel. -/
def borrowCheck (body : Body) (fuel : Nat) : Option (Except MirError Unit) :=
  if body.blocks.isEmpty then some (.ok ()) else borrowLoop body fuel borrowLoopStart

end Cobrust.Mir
