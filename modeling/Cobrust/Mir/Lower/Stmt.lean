import Cobrust.Mir.Lower.Expr

/-!
# Lowering of statements

`lower_stmt` of `cobrust-mir/src/lower.rs` and the statement forms behind it. As with expressions, a
form that contains blocks takes each block as the action that lowers it.
-/

namespace Cobrust.Mir

open Hir (Expr Stmt Block LoopKind Pattern)

/-- An arm of an `if`. -/
structure IfArm where
  cond : Sub
  body : LowerM Unit

/-- An arm of a `match`. -/
structure SubMatchArm where
  pattern : Pattern
  guard : Option Sub
  body : LowerM Unit

structure SubHandler where
  binding : Option (DefId × String)
  body : LowerM Unit

/-- The action of an optional part. -/
def lowerOptional : Option (LowerM Unit) → LowerM Unit
  | some action => action
  | none => return ()

def pushLoop (continueTarget exit : BlockId) : LowerM Unit :=
  fun b => .ok ((), { b with loopStack := (continueTarget, exit) :: b.loopStack })

def popLoop : LowerM Unit :=
  fun b => .ok ((), { b with loopStack := b.loopStack.tail })

/-- `lower_block`, on the actions of the statements: after a statement that closed its block, lowering
goes on in a fresh block. -/
def lowerBlockWith : List (LowerM Unit) → LowerM Unit
  | [] => return ()
  | stmt :: rest => do
    stmt
    if ← terminated then
      let _ ← startNewBlock
    lowerBlockWith rest

section

variable (ctx : LowerCtx)

/-- Bind a name to a field of `scrut`; patterns other than a name bind nothing. -/
def bindField (scrut : LocalId) (mutable : Bool) (idx : Nat) : Pattern → LowerM Unit
  | .mk (.binding name id) span => do
    let local' ← declareLocalForDef id name (ctx.lookupTy id) span mutable
    emitAssign (.ofLocal local') (.use (.copy (.mk scrut [.field idx]))) span
  | _ => return ()

/-- Bind the names among `items` to the fields of `scrut` from `idx` on. -/
def bindFields (scrut : LocalId) (mutable : Bool) : Nat → List Pattern → LowerM Unit
  | _, [] => return ()
  | idx, sub :: rest => do
    bindField ctx scrut mutable idx sub
    bindFields scrut mutable (idx + 1) rest

/-- Declare the names among the value patterns of a mapping; nothing is assigned to them. -/
def declareEntries : List (Expr × Pattern) → LowerM Unit
  | [] => return ()
  | (_, .mk (.binding name id) span) :: rest => do
    let _ ← declareLocalForDef id name (ctx.lookupTy id) span false
    declareEntries rest
  | _ :: rest => declareEntries rest

mutual

def bindPatternToLocal (scrut : LocalId) : Pattern → LowerM Unit
  | .mk (.binding name id) span => do
    let local' ← declareLocalForDef id name (ctx.lookupTy id) span false
    emitAssign (.ofLocal local') (.use (.copy (.ofLocal scrut))) span
  | .mk (.sequence items _) _ => bindFields ctx scrut false 0 items
  | .mk (.«class» _ positional keyword) _ => do
    bindFields ctx scrut false 0 positional
    bindFields ctx scrut false positional.length (keyword.map Prod.snd)
  | .mk (.or branches) _ => bindBranches scrut branches
  | .mk (.mapping entries _) _ => declareEntries ctx entries
  | .mk .wildcard _ => return ()
  | .mk (.literal _) _ => return ()

def bindBranches (scrut : LocalId) : List Pattern → LowerM Unit
  | [] => return ()
  | p :: rest => do
    bindPatternToLocal scrut p
    bindBranches scrut rest

end

/-- `pattern_matches_op`: every pattern tests as the constant `true`. -/
def patternMatchesOp (_pattern : Pattern) (_scrut : LocalId) : Operand :=
  .constant (.bool true)

def lowerLet (body : Hir.LetBody) : LowerM Unit := do
  let _ ← ensureOpenBlock
  let valueOp ← lowerExpr ctx body.value
  match body.pattern with
  | .mk (.binding name id) _ =>
    let local' ← declareLocalForDef id name (ctx.lookupTy id) body.span true
    emitStmt (.storageLive local') body.span
    emitAssign (.ofLocal local') (.use valueOp) body.span
  | .mk (.sequence items _) _ =>
    let temp ← declareLocal "_letseq" .none body.span true
    emitAssign (.ofLocal temp) (.use valueOp) body.span
    bindFields ctx temp true 0 items
  | _ => return ()

/-- `lower_lvalue`; every attribute is field 0. -/
def lowerLvalue : Expr → LowerM Place
  | .mk (.name rn) span => do
    let id ← lookupLocalForResolved ctx rn span
    return .ofLocal id
  | .mk (.attr base _) _ => do
    let basePlace ← lowerLvalue base
    return basePlace.withProjection (.field 0)
  | .mk (.index base index) _ => do
    let basePlace ← lowerLvalue base
    let idxOp ← lowerIndex (subIndex ctx index)
    return basePlace.withProjection (.index idxOp)
  | _ => LowerM.fail (.internal "non-lvalue assignment target")

def dictSetSymbol (k v : Ty) : String :=
  match k.isStr, v.isStr with
  | true, true => "__cobrust_dict_set_str_str"
  | true, false => "__cobrust_dict_set_str_i64"
  | false, true => "__cobrust_dict_set_i64_str"
  | false, false => "__cobrust_dict_set_i64_i64"

/-- `base[index] = value` through a runtime function. -/
def lowerSetItem (destName symbol : String) (upgrade : Operand → Operand) (base : Expr)
    (index : Hir.IndexKind) (value : Expr) (span : Span) : LowerM Unit := do
  let baseOp ← lowerExpr ctx base
  let idxOp ← lowerIndex (subIndex ctx index)
  let valOp ← lowerExpr ctx value
  let scratch ← declareLocal destName .none span false
  callSymbol symbol [upgrade baseOp, idxOp, valOp] scratch

def lowerPlaceAssign (target value : Expr) (span : Span) : LowerM Unit := do
  let valueOp ← lowerExpr ctx value
  let place ← lowerLvalue ctx target
  emitAssign place (.use valueOp) span

def lowerAssign (target value : Expr) (span : Span) : LowerM Unit := do
  let _ ← ensureOpenBlock
  match target with
  | .mk (.index base index) _ =>
    match ctx.synthExprTy base with
    | .adt id _ =>
      if id = coilBufferAdt then
        lowerSetItem ctx "_coilset" coilBufferSetitemSymbol upgradeMoveToCopyHandle base index value span
      else lowerPlaceAssign ctx target value span
    | .dict k v => lowerSetItem ctx "_dsetret" (dictSetSymbol k v) (fun op => op) base index value span
    | _ => lowerPlaceAssign ctx target value span
  | _ => lowerPlaceAssign ctx target value span

def lowerReturn (value : Option Expr) (span : Span) : LowerM Unit := do
  let _ ← ensureOpenBlock
  let op ←
    match value with
    | some e => lowerExpr ctx e
    | none => pure (.constant .none)
  let b ← get
  emitAssign (.ofLocal b.returnLocal) (.use (upgradeReturnToMove b op)) span
  terminate .ret

def lowerBreak : LowerM Unit := do
  match (← get).loopStack with
  | (_, exit) :: _ =>
    let _ ← ensureOpenBlock
    terminate (.goto exit)
  | [] => LowerM.fail (.internal "break outside loop")

def lowerContinue : LowerM Unit := do
  match (← get).loopStack with
  | (continueTarget, _) :: _ =>
    let _ ← ensureOpenBlock
    terminate (.goto continueTarget)
  | [] => LowerM.fail (.internal "continue outside loop")

def lowerRaise (exc : Option Expr) : LowerM Unit := do
  let _ ← ensureOpenBlock
  match exc with
  | some e => let _ ← lowerExpr ctx e
  | none => pure ()
  terminate .unreachable

/-- The arms of an `if`, tested from block `cur` on; the block reached when all of them fail. -/
def lowerIfArms (merge : BlockId) : List IfArm → BlockId → LowerM BlockId
  | [], cur => return cur
  | arm :: rest, cur => do
    setCurBlock cur
    let (condOp, condEnd) ← lowerCondition arm.cond
    let bodyBlock ← startNewBlock
    arm.body
    gotoIfOpen merge
    let nextBlock ← startNewBlock
    setCurBlock condEnd
    terminate (switchTrue condOp bodyBlock nextBlock)
    lowerIfArms merge rest nextBlock

/-- The else block, or the jump in its place. -/
def lowerIfElse (merge : BlockId) : Option (LowerM Unit) → LowerM Unit
  | some block => do
    block
    gotoIfOpen merge
  | none => terminate (.goto merge)

def lowerIf (arms : List IfArm) (elseBlock : Option (LowerM Unit)) : LowerM Unit := do
  let caller ← currentBlockId
  let merge ← startNewBlock
  setCurBlock caller
  let cur ← currentBlockId
  let cur ← lowerIfArms merge arms cur
  setCurBlock cur
  lowerIfElse merge elseBlock
  setCurBlock merge

/-! ## Loops -/

/-- The code behind a loop: the else block is lowered into the exit block. -/
def lowerLoopElse (exit : BlockId) (elseBlock : Option (LowerM Unit)) : LowerM Unit := do
  setCurBlock exit
  lowerOptional elseBlock

def lowerWhile (cond : Sub) (body : LowerM Unit) (elseBlock : Option (LowerM Unit)) :
    LowerM Unit := do
  let _ ← ensureOpenBlock
  let pre ← currentBlockId
  let header ← startNewBlock
  setCurBlock pre
  terminate (.goto header)
  setCurBlock header
  let (condOp, condEnd) ← lowerCondition cond
  let bodyBlock ← startNewBlock
  let exitBlock ← startNewBlock
  setCurBlock condEnd
  terminate (switchTrue condOp bodyBlock exitBlock)
  pushLoop header exitBlock
  setCurBlock bodyBlock
  body
  gotoIfOpen header
  popLoop
  lowerLoopElse exitBlock elseBlock

/-- The iterated value: a string that is a name is borrowed. -/
def lowerIterValue (iterIsStr : Bool) (iter : Sub) : LowerM Operand :=
  match iterIsStr, iter.expr with
  | true, .mk (.name rn) span => do
    let id ← lookupLocalForResolved ctx rn span
    return .copy (.ofLocal id)
  | _, _ => iter.lower

/-- What stands before the header of a `for`: the iterated value, its length and the index. -/
def lowerForInit (iterIsStr : Bool) (iter : Sub) (span : Span) :
    LowerM (LocalId × LocalId × LocalId) := do
  let iterVal ← lowerIterValue ctx iterIsStr iter
  let iterLocal ← declareLocal "_iter" .none span true
  emitAssign (.ofLocal iterLocal) (.use iterVal) span
  let lenLocal ← declareLocal "_iter_len" .int span true
  callSymbol (if iterIsStr then "__cobrust_str_char_count" else "__cobrust_list_len")
    [.copy (.ofLocal iterLocal)] lenLocal
  let idxLocal ← declareLocal "_iter_idx" .int span true
  emitAssign (.ofLocal idxLocal) (.use (.constant (.int 0))) span
  return (iterLocal, lenLocal, idxLocal)

/-- The read of the current element into the local `var`. A string element of a list is cloned. -/
def lowerForRead (iterIsStr : Bool) (iterLocal idxLocal var : LocalId) (span : Span) :
    LowerM Unit := do
  let b ← get
  let varTy := (b.locals[var]?.map LocalDecl.ty).getD .none
  let args : List Operand := [.copy (.ofLocal iterLocal), .copy (.ofLocal idxLocal)]
  if iterIsStr then callSymbol "__cobrust_str_char_at" args var
  else if varTy.isStr then
    let raw ← declareLocal "_iter_raw" .int span false
    callSymbol "__cobrust_list_get" args raw
    callSymbol "__cobrust_str_clone" [.copy (.ofLocal raw)] var
  else callSymbol "__cobrust_list_get" args var

/-- The test of the header, into a fresh local. -/
def lowerForTest (lenLocal idxLocal : LocalId) (span : Span) : LowerM LocalId := do
  let condLocal ← declareLocal "_iter_cond" .bool span true
  emitAssign (.ofLocal condLocal)
    (.binaryOp .lt (.copy (.ofLocal idxLocal)) (.copy (.ofLocal lenLocal))) span
  return condLocal

/-- The increment of the index. -/
def lowerForStep (idxLocal : LocalId) (span : Span) : LowerM Unit :=
  emitAssign (.ofLocal idxLocal)
    (.binaryOp .add (.copy (.ofLocal idxLocal)) (.constant (.int 1))) span

def lowerFor (bindingDefIds : List DefId) (pattern : Pattern) (iter : Sub) (body : LowerM Unit)
    (elseBlock : Option (LowerM Unit)) (span : Span) : LowerM Unit := do
  let _ ← ensureOpenBlock
  let iterIsStr := (ctx.synthExprTy iter.expr).isStr
  let (iterLocal, lenLocal, idxLocal) ← lowerForInit ctx iterIsStr iter span
  let varLocal ← declareTarget ctx "_iter_bind_" pattern bindingDefIds span
  let pre ← currentBlockId
  let header ← startNewBlock
  setCurBlock pre
  terminate (.goto header)
  setCurBlock header
  let condLocal ← lowerForTest lenLocal idxLocal span
  let bodyBlock ← startNewBlock
  let exitBlock ← startNewBlock
  setCurBlock header
  terminate (switchTrue (.copy (.ofLocal condLocal)) bodyBlock exitBlock)
  let latchBlock ← startNewBlock
  setCurBlock latchBlock
  lowerForStep idxLocal span
  terminate (.goto header)
  pushLoop latchBlock exitBlock
  setCurBlock bodyBlock
  lowerOptional (varLocal.map fun var => lowerForRead iterIsStr iterLocal idxLocal var span)
  body
  gotoIfOpen latchBlock
  popLoop
  lowerLoopElse exitBlock elseBlock

/-- The guard of an arm: where it fails, the switch at the end of `bodyBlock` leaves for `otherwise`. -/
def lowerGuard (bodyBlock otherwise : BlockId) : Option Sub → LowerM Unit
  | none => return ()
  | some guard => do
    let guardOp ← guard.lower
    let passBlock ← startNewBlock
    setCurBlock bodyBlock
    terminate (switchTrue guardOp passBlock otherwise)
    setCurBlock passBlock

/-- The block in which the next arm is tested, unless this arm is the last. -/
def openNextArm (isLast : Bool) : LowerM (Option BlockId) := do
  if isLast then return none
  let next ← startNewBlock
  return some next

/-- What stands before the body of an arm: the bindings, the test in block `armEval` and the guard. The
block in which the next arm is tested, where there is one. -/
def lowerMatchTest (scrut : LocalId) (merge : BlockId) (arm : SubMatchArm) (isLast : Bool)
    (armEval : BlockId) : LowerM (Option BlockId) := do
  setCurBlock armEval
  bindPatternToLocal ctx scrut arm.pattern
  let bodyBlock ← startNewBlock
  let nextArm ← openNextArm isLast
  let otherwise := nextArm.getD merge
  setCurBlock armEval
  terminate (switchTrue (patternMatchesOp arm.pattern scrut) bodyBlock otherwise)
  setCurBlock bodyBlock
  lowerGuard bodyBlock otherwise arm.guard
  return nextArm

def lowerMatchArm (scrut : LocalId) (merge : BlockId) (arm : SubMatchArm) (isLast : Bool)
    (armEval : BlockId) : LowerM BlockId := do
  let nextArm ← lowerMatchTest ctx scrut merge arm isLast armEval
  arm.body
  gotoIfOpen merge
  return nextArm.getD armEval

def lowerMatchArms (scrut : LocalId) (merge : BlockId) : List SubMatchArm → BlockId → LowerM Unit
  | [], _ => return ()
  | arm :: rest, armEval => do
    let next ← lowerMatchArm ctx scrut merge arm rest.isEmpty armEval
    lowerMatchArms scrut merge rest next

/-- The scrutinee in a local of its own. -/
def lowerScrutinee (scrutinee : Sub) (span : Span) : LowerM LocalId := do
  let _ ← ensureOpenBlock
  let scrutOp ← scrutinee.lower
  let scrutLocal ← declareLocal "_match" .none span false
  emitAssign (.ofLocal scrutLocal) (.use scrutOp) span
  return scrutLocal

/-- `lower_match`. The jump into the first arm is written to the block before the one that
`start_new_block` has just left current. -/
def lowerMatch (scrutinee : Sub) (arms : List SubMatchArm) (span : Span) : LowerM Unit := do
  let scrutLocal ← lowerScrutinee scrutinee span
  let merge ← startNewBlock
  let armEval ← startNewBlock
  let preEval ← currentBlockId
  setCurBlock (preEval - 1)
  terminate (.goto armEval)
  lowerMatchArms ctx scrutLocal merge arms armEval
  setCurBlock merge

def lowerWith (item : Hir.WithItem) (body : LowerM Unit) (span : Span) : LowerM Unit := do
  let _ ← ensureOpenBlock
  let ctxOp ← lowerExpr ctx item.context
  match item.binding with
  | some (id, _) =>
    let local' ← declareLocalForDef id ("_with" ++ toString id) (ctx.lookupTy id) span true
    emitAssign (.ofLocal local') (.use ctxOp) span
  | none => pure ()
  body

def lowerHandlers (span : Span) : List SubHandler → LowerM Unit
  | [] => return ()
  | h :: rest => do
    match h.binding with
    | some (id, name) =>
      let _ ← declareLocalForDef id name (ctx.lookupTy id) span false
    | none => pure ()
    h.body
    lowerHandlers span rest

/-- `try`: body, handlers, else and finally one after the other. -/
def lowerTry (body : LowerM Unit) (handlers : List SubHandler)
    (elseBlock finallyBlock : Option (LowerM Unit)) (span : Span) : LowerM Unit := do
  body
  lowerHandlers ctx span handlers
  lowerOptional elseBlock
  lowerOptional finallyBlock

/-! ## The knot -/

/-- A subexpression with the lowering that `lowerExpr` gives it. -/
def subOf (e : Expr) : Sub :=
  ⟨e, lowerExpr ctx e⟩

mutual

/-- `lower_stmt`. -/
def lowerStmt : Stmt → LowerM Unit
  | .mk .pass span => do
    let _ ← ensureOpenBlock
    emitStmt .nop span
  | .mk (.expr e) _ => do
    let _ ← ensureOpenBlock
    let _ ← lowerExpr ctx e
  | .mk (.«let» body) _ => lowerLet ctx body
  | .mk (.assign target value) span => lowerAssign ctx target value span
  | .mk (.«if» arms elseBlock) _ => lowerIf (lowerArms arms) (lowerElse elseBlock)
  | .mk (.loop (.«while» cond body elseBlock _)) _ =>
    lowerWhile (subOf ctx cond) (lowerBlock body) (lowerElse elseBlock)
  | .mk (.loop (.«for» ids pattern iter body elseBlock _)) span =>
    lowerFor ctx ids pattern (subOf ctx iter) (lowerBlock body) (lowerElse elseBlock) span
  | .mk (.«match» scrutinee arms) span =>
    lowerMatch ctx (subOf ctx scrutinee) (lowerMatchBodies arms) span
  | .mk (.«with» item body) span => lowerWith ctx item (lowerBlock body) span
  | .mk (.«try» body handlers elseBlock finallyBlock) span =>
    lowerTry ctx (lowerBlock body) (lowerHandlerBodies handlers) (lowerElse elseBlock)
      (lowerElse finallyBlock) span
  | .mk (.«return» value) span => lowerReturn ctx value span
  | .mk .«break» _ => lowerBreak
  | .mk .«continue» _ => lowerContinue
  | .mk (.raise exc _) _ => lowerRaise ctx exc
  | .mk (.item _) _ => return ()

/-- `lower_block`. -/
def lowerBlock : Block → LowerM Unit
  | .mk stmts _ => lowerBlockWith (lowerStmts stmts)

def lowerStmts : List Stmt → List (LowerM Unit)
  | [] => []
  | s :: rest => lowerStmt s :: lowerStmts rest

def lowerArm : Expr × Block → IfArm
  | (cond, body) => ⟨subOf ctx cond, lowerBlock body⟩

def lowerArms : List (Expr × Block) → List IfArm
  | [] => []
  | arm :: rest => lowerArm arm :: lowerArms rest

def lowerElse : Option Block → Option (LowerM Unit)
  | none => none
  | some block => some (lowerBlock block)

def lowerMatchBody : Hir.MatchArm → SubMatchArm
  | .mk pattern _ guard body _ => ⟨pattern, guard.map (subOf ctx), lowerBlock body⟩

def lowerMatchBodies : List Hir.MatchArm → List SubMatchArm
  | [] => []
  | arm :: rest => lowerMatchBody arm :: lowerMatchBodies rest

def lowerHandlerBody : Hir.ExceptHandler → SubHandler
  | .mk _ binding body _ => ⟨binding, lowerBlock body⟩

def lowerHandlerBodies : List Hir.ExceptHandler → List SubHandler
  | [] => []
  | h :: rest => lowerHandlerBody h :: lowerHandlerBodies rest

end

end

end Cobrust.Mir
