import Cobrust.Mir.Lower.Read

/-!
# Lowering of calls

`lower_call`, `lower_rewritten_method_call` and `try_lower_ecosystem_call` of
`cobrust-mir/src/lower.rs`.
-/

namespace Cobrust.Mir

open Hir (Expr CallArg)

/-- `collect_positional_args`. -/
def collectPositionalArgs (args : List SubArg) : List Sub :=
  args.filterMap SubArg.positional?

/-- `[CallArg::Positional(arg)] = args`. -/
def singlePositional : List SubArg → Option Sub
  | [a] => a.positional?
  | _ => none

/-- The name that is called, where the callee is a name. -/
def calleeName : Expr → Option String
  | .mk (.name rn) _ => some rn.name
  | _ => none

def fileIoBorrows : List String :=
  ["read_file", "read_file_lines", "write_file", "append_file", "stdout_write", "stderr_write"]

/-- The rewritten methods that borrow their receiver. -/
def strBorrowTargets : List String :=
  ["str_len", "split", "replace", "trim", "lstrip", "rstrip", "count", "find", "contains",
    "starts_with", "ends_with", "lower", "upper", "bytes_from_str", "bytes_decode", "bytes_hex"]

section

variable (ctx : LowerCtx)

/-- `lower_eco_arg`. -/
def lowerEcoArg (arg : Sub) : EcoParam → LowerM Operand
  | .value _ => do
    let op ← arg.lower
    return upgradeMoveToCopyForEcoValue (← get) op
  | .callback _ =>
    match arg.expr with
    | .mk (.name rn) _ =>
      if rn.kind = .fn then return .constant (.fnRef rn.defId)
      else LowerM.fail (.internal callbackText)
    | _ => LowerM.fail (.internal callbackText)
where
  callbackText : String :=
    "ecosystem callback slot expects a top-level `fn` NAME at MIR (ADR-0073 §2 D2 — the " ++
      "typechecker should have rejected this)"

/-- The arguments that have a parameter slot. -/
def lowerEcoArgs : List Sub → List EcoParam → LowerM (List Operand)
  | arg :: args, param :: params => do
    let op ← lowerEcoArg arg param
    let ops ← lowerEcoArgs args params
    return op :: ops
  | _, _ => return []

def lowerEcoFn (runtimeSymbol : String) (sig : EcoSig) (args : List SubArg) (span : Span) :
    LowerM (Option Operand) := do
  let argOps ← lowerEcoArgs (collectPositionalArgs args) sig.params
  let op ← emitEcosystemCall runtimeSymbol sig.ret argOps span
  return some op

/-- `coil.array` picks its symbol by the element type of the argument. -/
def moduleFnSymbol (module name : String) (sig : EcoSig) (args : List SubArg) : String :=
  if module = "coil" ∧ name = "array" then
    match (collectPositionalArgs args).head?.map fun a => ctx.synthExprTy a.expr with
    | some (.list .int) => "__cobrust_coil_array_int"
    | _ => "__cobrust_coil_array_float"
  else sig.runtimeSymbol

/-- `validated_body_schema_for_handler`. -/
def validatedBodySchemaForHandler (posArgs : List Sub) : String :=
  match posArgs[2]?.map Sub.expr with
  | some (.mk (.name rn) _) =>
    match ctx.lookupTy rn.defId with
    | .fn (_ :: .adt bodyAdt _ :: _) _ _ _ _ =>
      if (ctx.adtFields bodyAdt).isSome then ctx.validatedBodySchema bodyAdt else ""
    | _ => ""
  | _ => ""

/-- A method of an ecosystem handle: the receiver stays with its owner. -/
def lowerHandleMethod (sig : EcoSig) (base : Sub) (args : List SubArg) (span : Span) :
    LowerM (Option Operand) := do
  let recvOp ← base.lower
  let argOps ← lowerEcoArgs (collectPositionalArgs args) sig.params
  let schemaOps : List Operand :=
    if sig.runtimeSymbol = "__cobrust_pit_app_route_validated" then
      [.constant (.str (validatedBodySchemaForHandler ctx (collectPositionalArgs args)))]
    else []
  let op ← emitEcosystemCall sig.runtimeSymbol sig.ret
    (upgradeMoveToCopyHandle recvOp :: (argOps ++ schemaOps)) span
  return some op

/-- `try_lower_ecosystem_call`, on a callee `base.name`. -/
def tryLowerEcosystemCall (base : Sub) (name : String) (args : List SubArg) (span : Span) :
    LowerM (Option Operand) :=
  match subnamespaceOf base.expr with
  | some (module, subns) =>
    match ctx.eco.lookupSubnamespaceFn module subns name with
    | some sig => lowerEcoFn sig.runtimeSymbol sig args span
    | none => return none
  | none =>
    match ecosystemModuleOf base.expr with
    | some module =>
      match ctx.eco.lookupModuleFn module name with
      | some sig => lowerEcoFn (moduleFnSymbol ctx module name sig args) sig args span
      | none => return none
    | none =>
      match ctx.synthExprTy base.expr with
      | .adt id tyArgs =>
        if isEcosystemHandle id then
          match ctx.eco.lookupHandleMethod (.adt id tyArgs) name with
          | some sig => lowerHandleMethod ctx sig base args span
          | none => return none
        else return none
      | _ => return none

def lowerArgs : List SubArg → LowerM (List Operand)
  | [] => return []
  | a :: rest => do
    let op ← a.lower
    let ops ← lowerArgs rest
    return op :: ops

/-- The type of the result of a rewritten method: `list.pop` returns an element of its list. -/
def rewrittenReturnTy (rewrittenName : String) (preludeDefId : DefId) (base : Expr) : Ty :=
  let returnTy := (ctx.fnReturnTy preludeDefId).getD .none
  if rewrittenName = "list_pop" then
    match (ctx.synthExprTy base).peelRef with
    | .list elem => elem
    | _ => returnTy
  else returnTy

def lowerRewrittenMethodCall (base : Sub) (args : List SubArg) (preludeDefId : DefId)
    (rewrittenName : String) (span : Span) : LowerM Operand := do
  let op ← base.lower
  let b ← get
  let baseOp :=
    if strBorrowTargets.contains rewrittenName then
      upgradeMoveToCopyForBytes b (upgradeMoveToCopyForStr b op)
    else op
  let argOps ← lowerArgs args
  let dest ← declareLocal "_callret" (rewrittenReturnTy ctx rewrittenName preludeDefId base.expr)
    span true
  callInto (.constant (.fnRef preludeDefId)) (baseOp :: argOps) (.ofLocal dest)
  return .move (.ofLocal dest)

/-! ## Calls of functions -/

/-- The callee has the type of a list prelude function. -/
def calleeIsListFn (callee : Expr) : Bool :=
  match callee with
  | .mk (.name rn) _ => (ctx.lookupTy rn.defId).isListFn
  | _ => false

def calleeIsListReducer (callee : Expr) : Bool :=
  (match calleeName callee with
    | some name => ["min", "max", "sum"].contains name
    | none => false) && calleeIsListFn ctx callee

def isMinMax (callee : Expr) : Bool :=
  calleeName callee = some "min" || calleeName callee = some "max"

/-- The type of an argument, seen through one borrow. -/
def argTy (e : Expr) : Ty :=
  (ctx.synthExprTy e).peelRef

def anyFloatArg (args : List SubArg) : Bool :=
  args.any fun a => (a.positional?.map fun s => (argTy ctx s.expr).isFloat).getD false

/-- The declared return type of the callee. -/
def declaredReturnTy (callee : Expr) : Ty :=
  match callee with
  | .mk (.name rn) _ => (ctx.fnReturnTy rn.defId).getD .none
  | _ => .none

/-- `abs` of an `int` is an `int`. -/
def absReturnTy (callee : Expr) (args : List SubArg) (returnTy : Ty) : Ty :=
  if calleeName callee = some "abs" then
    match singlePositional args with
    | some arg => if (argTy ctx arg.expr).isInt then .int else returnTy
    | none => returnTy
  else returnTy

def reducerReturnTy (callee : Expr) (args : List SubArg) (returnTy : Ty) : Ty :=
  if calleeIsListReducer ctx callee then
    match singlePositional args with
    | some arg =>
      match argTy ctx arg.expr with
      | .list .float => .float
      | _ => .int
    | none =>
      if isMinMax callee && 2 ≤ args.length then if anyFloatArg ctx args then .float else .int
      else returnTy
  else returnTy

def sortedReturnTy (callee : Expr) (args : List SubArg) (returnTy : Ty) : Ty :=
  if calleeName callee = some "sorted" && calleeIsListFn ctx callee then
    match (singlePositional args).map fun arg => argTy ctx arg.expr with
    | some (.list elem) => .list elem
    | _ => returnTy
  else returnTy

def calleeReturnTy (callee : Expr) (args : List SubArg) : Ty :=
  sortedReturnTy ctx callee args
    (reducerReturnTy ctx callee args (absReturnTy ctx callee args (declaredReturnTy ctx callee)))

/-- The operand that is called: a name of function type is a reference to the function. -/
def lowerCallee (callee : Sub) : LowerM Operand :=
  match callee.expr with
  | .mk (.name rn) _ =>
    match ctx.lookupTy rn.defId with
    | .fn _ _ _ _ _ => return .constant (.fnRef rn.defId)
    | _ => callee.lower
  | _ => callee.lower

/-- The borrow that a callee takes of its arguments: file functions borrow strings, `len` borrows
bytes. -/
def upgradeCallArg (callee : Expr) (b : BodyBuilder) (op : Operand) : Operand :=
  if (calleeName callee).any fileIoBorrows.contains then upgradeMoveToCopyForStr b op
  else if calleeName callee = some "len" then upgradeMoveToCopyForBytes b op
  else op

def lowerCallArgs (callee : Expr) : List SubArg → LowerM (List Operand)
  | [] => return []
  | a :: rest => do
    let op ← a.lower
    let b ← get
    let ops ← lowerCallArgs callee rest
    return upgradeCallArg callee b op :: ops

/-- The elements of the list that `min` or `max` reduces, with integers cast where some element is a
float. -/
def lowerMinMaxElems (elemIsFloat : Bool) (span : Span) :
    List (SubArg × Operand) → LowerM (List Operand)
  | [] => return []
  | (a, op) :: rest => do
    let argIsInt := (a.positional?.map fun s => (argTy ctx s.expr).isInt).getD false
    if elemIsFloat && argIsInt then
      let cdest ← declareLocal "_minmax_f" .float span false
      emitAssign (.ofLocal cdest) (.cast .intToFloat op .float) span
      let ops ← lowerMinMaxElems elemIsFloat span rest
      return .copy (.ofLocal cdest) :: ops
    else
      let ops ← lowerMinMaxElems elemIsFloat span rest
      return op :: ops

/-- Two or more arguments of `min` or `max` become one list. -/
def lowerMinMaxList (args : List SubArg) (argOps : List Operand) (span : Span) :
    LowerM (List Operand) := do
  let elemIsFloat := anyFloatArg ctx args
  let elemOps ← lowerMinMaxElems ctx elemIsFloat span (args.zip argOps)
  let op ← lowerAggregate "_minmax_list" (.list (if elemIsFloat then .float else .int)) .list elemOps
    span
  return [op]

/-- The arguments as the callee gets them: `min`/`max` reduce one list, and `range(n)` starts at 0. -/
def packCallArgs (callee : Expr) (args : List SubArg) (argOps : List Operand) (span : Span) :
    LowerM (List Operand) := do
  let argOps ←
    if calleeIsListReducer ctx callee && isMinMax callee && 2 ≤ argOps.length then
      lowerMinMaxList ctx args argOps span
    else pure argOps
  if calleeName callee = some "range" && argOps.length = 1 then
    return .constant (.int 0) :: argOps
  else return argOps

def lowerFnCall (callee : Sub) (args : List SubArg) (span : Span) : LowerM Operand := do
  let calleeOp ← lowerCallee ctx callee
  let argOps ← lowerCallArgs callee.expr args
  let argOps ← packCallArgs ctx callee.expr args argOps span
  let dest ← declareLocal "_callret" (calleeReturnTy ctx callee.expr args) span true
  callInto calleeOp argOps (.ofLocal dest)
  return .move (.ofLocal dest)

/-- The prelude function that a method call on a built-in type is rewritten to. -/
def rewrittenMethod (base : Expr) (name : String) : Option (String × DefId) := do
  let rewritten ← methodFormRewriteName (ctx.synthExprTy base) name
  let preludeDefId ← ctx.lookupFnDefId rewritten
  return (rewritten, preludeDefId)

/-- `lower_call`. `base` is the base of the callee where the callee is an attribute. -/
def lowerCall (callee : Sub) (base : Option (Sub × String)) (args : List SubArg) (span : Span) :
    LowerM Operand :=
  match base with
  | none => lowerFnCall ctx callee args span
  | some (base, name) => do
    match ← tryLowerEcosystemCall ctx base name args span with
    | some op => return op
    | none =>
      match rewrittenMethod ctx base.expr name with
      | some (rewrittenName, preludeDefId) =>
        lowerRewrittenMethodCall ctx base args preludeDefId rewrittenName span
      | none => lowerFnCall ctx callee args span

end

end Cobrust.Mir
