import Cobrust.Mir.Borrow
import Cobrust.Mir.Drop
import Cobrust.Mir.Lower.Stmt

/-!
# Lowering of a module

`lower` of `cobrust-mir/src/lower.rs`: one body for the statements of the module and one for each function, then the
borrow check, the drop schedule and the borrow check again. Every call of `compute_drop_schedule` has a hash order of
its own. Bodies that the checks mutate are returned; a check that has not returned makes the whole call `none`.
-/

namespace Cobrust.Mir

open Hir (Item FnBody Params)

mutual

/-- `collect_fn_names`: the functions of the items with those of classes and decorated items, in order. -/
def collectFnNames : List Item → List (String × DefId)
  | [] => []
  | item :: rest => itemFnNames item ++ collectFnNames rest

def itemFnNames : Item → List (String × DefId)
  | .mk (.fn (.mk id name _ _ _)) _ => [(name, id)]
  | .mk (.«class» _ _ members _) _ => collectFnNames members
  | .mk (.decorated _ inner) _ => itemFnNames inner
  | .mk (.typeAlias _ _ _ _) _ | .mk (.«import» _ _ _ _) _ | .mk (.«let» _) _ | .mk (.exprStmt _) _ => []

end

/-- `LowerCtx::new`: of several functions of one name the first counts. -/
def LowerCtx.ofItems (ctx : LowerCtx) (items : List Item) : LowerCtx :=
  { ctx with fnNameToDefId := fun name => (collectFnNames items).lookup name }

section

variable (ctx : LowerCtx)

/-! ## Bodies -/

/-- The parameters in the order in which they get their locals. -/
def inOrder (params : Params) : List Hir.Param :=
  params.positional ++ params.keywordOnly ++ params.varPositional.toList ++ params.varKeyword.toList

def declareParams : List Hir.Param → LowerM Unit
  | [] => return ()
  | p :: rest => do
    let _ ← declareLocalForDef p.defId p.name (ctx.lookupTy p.defId) p.span false
    declareParams rest

def setParamCount : LowerM Unit :=
  modify fun b => { b with paramCount := b.defToLocal.length }

/-- Mark the body parameter of a registered handler. -/
def markHandler (defId : DefId) (params : Params) : LowerM Unit :=
  modify fun b =>
    match ctx.validatedHandlers defId with
    | none => b
    | some (idx, adt) =>
      match params.positional[idx]?.bind fun param => b.localOf param.defId with
      | none => b
      | some l => { b with locals := b.locals.modify l fun decl => { decl with validatedBodyOf := some adt } }

/-- Without an explicit `return`, the body returns `None`. -/
def returnNone (span : Span) : LowerM Unit := do
  if !(← terminated) then
    let b ← get
    emitAssign (.ofLocal b.returnLocal) (.use (.constant .none)) span
    terminate .ret

/-- The body that `build` leaves behind. -/
def buildBody (defId : DefId) (name : String) (span : Span) (build : LowerM Unit) : Except Failure Body :=
  (build (.new defId name span)).map fun r => r.2.finish

def lowerFn : FnBody → Except Failure Body
  | .mk defId name params body span =>
    buildBody defId name span do
      declareParams ctx (inOrder params)
      setParamCount
      markHandler ctx defId params
      lowerBlock ctx body
      returnNone span

/-- The statements of the module; what is not a statement is skipped. -/
def lowerInitItems : List Item → LowerM Unit
  | [] => return ()
  | .mk (.«let» body) _ :: rest => do
    lowerLet ctx body
    lowerInitItems rest
  | .mk (.exprStmt e) _ :: rest => do
    let _ ← lowerExpr ctx e
    lowerInitItems rest
  | _ :: rest => lowerInitItems rest

def lowerInit (module : Hir.Module) : Except Failure Body :=
  buildBody 4294967295 "<init>" module.span do
    lowerInitItems ctx module.items
    terminate .ret

mutual

/-- `lower_items_into`: the bodies of the functions, in order. -/
def lowerItems : List Item → Except Failure (List Body)
  | [] => .ok []
  | item :: rest => do
    let bodies ← lowerItem item
    let more ← lowerItems rest
    return bodies ++ more

def lowerItem : Item → Except Failure (List Body)
  | .mk (.fn f) _ => do
    let body ← lowerFn ctx f
    return [body]
  | .mk (.«class» _ _ members _) _ => lowerItems members
  | .mk (.decorated _ inner) _ => lowerItem inner
  | .mk (.typeAlias _ _ _ _) _ | .mk (.«import» _ _ _ _) _ | .mk (.«let» _) _ | .mk (.exprStmt _) _ => .ok []

end

/-- The bodies of a module before the checks. -/
def lowerBodies (module : Hir.Module) : Except Failure (List Body) := do
  let init ← lowerInit ctx module
  let bodies ← lowerItems ctx module.items
  return init :: bodies

/-- The borrow check of every body, up to the first error. -/
def borrowCheckAll (fuel : Nat) : List Body → Option (Except MirError Unit)
  | [] => some (.ok ())
  | body :: rest =>
    match borrowCheck body fuel with
    | some (.ok ()) => borrowCheckAll fuel rest
    | r => r

/-- The drop schedule of every body, up to the first error; body number `i` of the module meets hash order `i`. -/
def scheduleAll (orders : Nat → HashOrder) (fuel : Nat) : Nat → List Body → Option (Except MirError (List Body))
  | _, [] => some (.ok [])
  | i, body :: rest =>
    match computeDropSchedule (orders i) body fuel with
    | some (body, .ok ()) => (scheduleAll orders fuel (i + 1) rest).map fun r => r.map (body :: ·)
    | some (_, .error e) => some (.error e)
    | none => none

/-- Go on after a phase, or stop with its error. -/
def andThen {α β : Type} (phase : Option (Except MirError α)) (next : α → Option (Except Failure β)) :
    Option (Except Failure β) :=
  match phase with
  | none => none
  | some (.error e) => some (.error (.error e))
  | some (.ok a) => next a

def lower (orders : Nat → HashOrder) (module : Hir.Module) (fuel : Nat) : Option (Except Failure (List Body)) :=
  match lowerBodies (ctx.ofItems module.items) module with
  | .error e => some (.error e)
  | .ok bodies =>
    andThen (borrowCheckAll fuel bodies) fun _ =>
    andThen (scheduleAll orders fuel 0 bodies) fun bodies =>
    andThen (borrowCheckAll fuel bodies) fun _ => some (.ok bodies)

end

end Cobrust.Mir
