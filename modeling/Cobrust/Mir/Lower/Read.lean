import Cobrust.Mir.Lower.Builder

/-!
# Lowering of names, displays, attributes and indexing

The branches of `lower_expr` of `cobrust-mir/src/lower.rs`. A function that lowers the parts of an
expression takes each part as a `Sub`: the expression and the action that lowers it. `lowerExpr` ties
the knot by structural recursion, so that a part is lowered where the source does so and nowhere else.
-/

namespace Cobrust.Mir

open Hir (Expr CallArg Lit)

/-- A subexpression with its lowering. -/
structure Sub where
  expr : Expr
  lower : LowerM Operand

/-- A call argument with the lowering of its expression. -/
structure SubArg where
  arg : CallArg
  lower : LowerM Operand

namespace SubArg

/-- The argument as a positional one. -/
def positional? (a : SubArg) : Option Sub :=
  match a.arg with
  | .positional e => some ⟨e, a.lower⟩
  | _ => none

end SubArg

inductive SubIndex where
  | expr (e : Sub)
  | slice (start stop step : Option Sub)
  | tuple

inductive SubPart where
  | lit (s : String)
  | hole (e : Sub) (spec : Option String)

inductive SubEntry where
  | pair (key value : Sub)
  | spread (e : Sub)

structure SubClause where
  bindingDefIds : List DefId
  target : Hir.Pattern
  iter : Sub
  guards : List Sub

/-- The operands of a list of subexpressions, in order. -/
def lowerAll : List Sub → LowerM (List Operand)
  | [] => return []
  | s :: rest => do
    let op ← s.lower
    let ops ← lowerAll rest
    return op :: ops

/-- `lower_index`: a slice or a tuple of indices becomes the constant 0. -/
def lowerIndex : SubIndex → LowerM Operand
  | .expr e => e.lower
  | .slice _ _ _ => return .constant (.int 0)
  | .tuple => return .constant (.int 0)

/-- `lower_condition`: the operand, and the block in which its evaluation ends. -/
def lowerCondition (e : Sub) : LowerM (Operand × BlockId) := do
  let op ← e.lower
  let condEnd ← currentBlockId
  return (op, condEnd)

/-- Declare a temporary and fill it with an aggregate. -/
def lowerAggregate (name : String) (ty : Ty) (kind : AggregateKind) (ops : List Operand) (span : Span) :
    LowerM Operand := do
  let temp ← declareLocal name ty span false
  emitAssign (.ofLocal temp) (.aggregate kind ops) span
  return .move (.ofLocal temp)

/-- `emit_ecosystem_call`. -/
def emitEcosystemCall (runtimeSymbol : String) (retTy : Ty) (args : List Operand) (span : Span) :
    LowerM Operand := do
  let dest ← declareLocal "_ecoret" retTy span true
  callSymbol runtimeSymbol args dest
  return .move (.ofLocal dest)

/-- The operands of an f-string: each hole is followed by its format specification. -/
def lowerFormatParts : List SubPart → LowerM (List Operand)
  | [] => return []
  | .lit s :: rest => do
    let ops ← lowerFormatParts rest
    return .constant (.str s) :: ops
  | .hole e spec :: rest => do
    let op ← e.lower
    let specOps : List Operand :=
      match spec with
      | some s => if s = "" then [] else [.constant (.str ("FMTSPEC:" ++ s))]
      | none => []
    let ops ← lowerFormatParts rest
    return op :: (specOps ++ ops)

def lowerDictEntries : List SubEntry → LowerM (List Operand)
  | [] => return []
  | .pair k v :: rest => do
    let kOp ← k.lower
    let vOp ← v.lower
    let ops ← lowerDictEntries rest
    return kOp :: vOp :: ops
  | .spread e :: rest => do
    let op ← e.lower
    let ops ← lowerDictEntries rest
    return op :: ops

section

variable (ctx : LowerCtx)

/-- The types of the first pair of a dict display. -/
def dictEntryTys : List SubEntry → Ty × Ty
  | [] => (.none, .none)
  | .pair k v :: _ => (ctx.synthExprTy k.expr, ctx.synthExprTy v.expr)
  | .spread _ :: rest => dictEntryTys rest

def lowerName (rn : Hir.ResolvedName) (span : Span) : LowerM Operand := do
  let id ← lookupLocalForResolved ctx rn span
  return if isCopyType (ctx.lookupTy rn.defId) then .copy (.ofLocal id) else .move (.ofLocal id)

/-- `if let Some(slot) = locals.get_mut(..) { slot.validated_body_of = Some(adt) }`. -/
def markValidatedBody (op : Operand) (adt : AdtId) : LowerM Unit :=
  match op with
  | .move p | .copy p =>
    modify fun b => { b with
      locals := b.locals.modify p.localId fun decl => { decl with validatedBodyOf := some adt } }
  | .constant _ => return ()

/-- The type of a field of a validated body and the accessor that reads it. -/
def validatedField (adt : AdtId) (name : String) : Option (Ty × EcoSig) := do
  let fields ← ctx.adtFields adt
  let fieldTy ← fields.lookup name
  let accessor ← ctx.eco.lookupValidatedBodyAccessor fieldTy
  return (fieldTy, accessor)

/-- `resolve_validated_body_base`: the operand and the class of an expression that denotes a validated
body or one nested in it. -/
def resolveValidatedBodyBase : Expr → LowerM (Option (Operand × AdtId))
  | .mk (.name rn) span => do
    let b ← get
    match (b.localOf rn.defId).bind fun id => (b.locals[id]?).bind LocalDecl.validatedBodyOf with
    | none => return none
    | some bodyAdt =>
      let op ← lowerName ctx rn span
      return some (op, bodyAdt)
  | .mk (.attr innerBase field) span => do
    match ← resolveValidatedBodyBase innerBase with
    | none => return none
    | some (outerOp, outerAdt) =>
      match validatedField ctx outerAdt field with
      | some (.adt nestedAdt _, accessor) =>
        let nestedOp ← emitEcosystemCall accessor.runtimeSymbol accessor.ret
          [upgradeMoveToCopyHandle outerOp, .constant (.str field)] span
        markValidatedBody nestedOp nestedAdt
        return some (nestedOp, nestedAdt)
      | _ => return none
  | _ => return none

/-- The attribute read that knows no better: field 0 of a temporary. -/
def lowerPlainAttr (base : Sub) (span : Span) : LowerM Operand := do
  let baseOp ← base.lower
  let temp ← declareLocal "_base" .none span false
  emitAssign (.ofLocal temp) (.use baseOp) span
  return .copy (.mk temp [.field 0])

/-- The attribute read once it is known not to be a validated field. -/
def lowerOtherAttr (base : Sub) (name : String) (span : Span) : LowerM Operand :=
  match ctx.moduleConst base.expr name with
  | some bits => return .constant (.float bits)
  | none => lowerPlainAttr base span

def lowerAttr (base : Sub) (name : String) (span : Span) : LowerM Operand := do
  match ctx.eco.lookupHandleAttr (ctx.synthExprTy base.expr) name with
  | some sig =>
    let op ← base.lower
    emitEcosystemCall sig.runtimeSymbol sig.ret [upgradeMoveToCopyHandle op] span
  | none =>
    match ← resolveValidatedBodyBase ctx base.expr with
    | none => lowerOtherAttr ctx base name span
    | some (baseOp, bodyAdt) =>
      match validatedField ctx bodyAdt name with
      | none => lowerOtherAttr ctx base name span
      | some (fieldTy, accessor) =>
        let op ← emitEcosystemCall accessor.runtimeSymbol accessor.ret
          [upgradeMoveToCopyHandle baseOp, .constant (.str name)] span
        match fieldTy with
        | .adt nestedAdt _ => markValidatedBody op nestedAdt
        | _ => pure ()
        return op

/-! ## Indexing -/

def dictGetSymbol (k v : Ty) : String :=
  match k.isStr, v.isStr with
  | true, true => "__cobrust_dict_get_str_str"
  | true, false => "__cobrust_dict_get_str_i64"
  | false, true => "__cobrust_dict_get_i64_str"
  | false, false => "__cobrust_dict_get_i64_i64"

def lowerDictIndex (k v : Ty) (base : Sub) (index : SubIndex) (span : Span) : LowerM Operand := do
  let baseOp ← base.lower
  let keyOp ← lowerIndex index
  let dest ← declareLocal "_didxget" v span false
  callSymbol (dictGetSymbol k v) [baseOp, keyOp] dest
  return if v.isStr then .move (.ofLocal dest) else .copy (.ofLocal dest)

/-- A slice with both bounds and no step; any other shape is rejected. -/
def lowerSlice (tyName subject destName : String) (destTy : Ty) (symbol : String) (base : Sub)
    (start stop step : Option Sub) (span : Span) : LowerM Operand :=
  match step, start, stop with
  | none, some lo, some hi => do
    let baseOp ← base.lower
    let loOp ← lo.lower
    let hiOp ← hi.lower
    let dest ← declareLocal destName destTy span true
    callSymbol symbol [upgradeMoveToCopyHandle baseOp, loOp, hiOp] dest
    return .move (.ofLocal dest)
  | _, _, _ => LowerM.fail (.internal ("unsupported `" ++ tyName ++
      "` slice shape reached MIR lowering at " ++ span.debug ++ " (only `" ++ subject ++
      "[lo:hi]` with both non-negative bounds + default step is supported; this must be rejected " ++
      "by TypeError::UnsupportedSliceShape upstream)"))

/-- The read of one element through a runtime function that borrows the container. -/
def lowerElementRead (destName : String) (destTy : Ty) (mutable : Bool) (symbol : String) (base : Sub)
    (index : SubIndex) (span : Span) : LowerM LocalId := do
  let baseOp ← base.lower
  let idxOp ← lowerIndex index
  let dest ← declareLocal destName destTy span mutable
  callSymbol symbol [upgradeMoveToCopyHandle baseOp, idxOp] dest
  return dest

/-- An element of a list. A string element is cloned, any other is handed out as it is. -/
def lowerListElement (elem : Ty) (base : Sub) (index : SubIndex) (span : Span) : LowerM Operand := do
  let baseOp ← base.lower
  let idxOp ← lowerIndex index
  if elem.isStr then
    let raw ← declareLocal "_idxraw" .int span false
    callSymbol "__cobrust_list_get" [baseOp, idxOp] raw
    let clone ← declareLocal "_idxget" elem span false
    callSymbol "__cobrust_str_clone" [.copy (.ofLocal raw)] clone
    return .move (.ofLocal clone)
  else
    let dest ← declareLocal "_idxget" elem span false
    callSymbol "__cobrust_list_get" [baseOp, idxOp] dest
    return .copy (.ofLocal dest)

def lowerListIndex (elem : Ty) (base : Sub) (index : SubIndex) (span : Span) : LowerM Operand :=
  match index with
  | .slice start stop step =>
    lowerSlice "list" "xs" "_listslice" (.list elem) "__cobrust_list_slice" base start stop step span
  | index => lowerListElement elem base index span

def lowerBytesIndex (base : Sub) (index : SubIndex) (span : Span) : LowerM Operand :=
  match index with
  | .slice start stop step =>
    lowerSlice "bytes" "b" "_bytesslice" .bytes "__cobrust_bytes_slice" base start stop step span
  | index => do
    let dest ← lowerElementRead "_bytesidx" .int false "__cobrust_bytes_get" base index span
    return .copy (.ofLocal dest)

def lowerStrIndex (base : Sub) (index : SubIndex) (span : Span) : LowerM Operand :=
  match index with
  | .slice start stop step =>
    lowerSlice "str" "s" "_strslice" .str "__cobrust_str_slice" base start stop step span
  | index => do
    let dest ← lowerElementRead "_stridx" .str true "__cobrust_str_char_at" base index span
    return .move (.ofLocal dest)

/-- The index read that knows no better: an index projection on a temporary. -/
def lowerPlainIndex (base : Sub) (index : SubIndex) (span : Span) : LowerM Operand := do
  let baseOp ← base.lower
  let baseLocal ← declareLocal "_idxbase" .none span false
  emitAssign (.ofLocal baseLocal) (.use baseOp) span
  let idxOp ← lowerIndex index
  return .copy (.mk baseLocal [.index idxOp])

/-- A `coil` buffer. A slice with a step or without a bound falls through to the plain read. -/
def lowerCoilIndex (base : Sub) (index : SubIndex) (span : Span) : LowerM Operand :=
  match index with
  | .slice (some lo) (some hi) none => do
    let baseOp ← base.lower
    let loOp ← lo.lower
    let hiOp ← hi.lower
    let dest ← declareLocal "_coilslice" coilBufferTy span true
    callSymbol coilBufferSliceSymbol [upgradeMoveToCopyHandle baseOp, loOp, hiOp] dest
    return .move (.ofLocal dest)
  | .slice _ _ _ => lowerPlainIndex base index span
  | index => do
    let dest ← lowerElementRead "_coilidx" .float false coilBufferGetitemSymbol base index span
    return .copy (.ofLocal dest)

/-- The offset that a constant index selects in a tuple of the given arity. -/
def tupleOffset (arity : Nat) (e : Expr) : Option Nat :=
  (literalIntValueMir e).bind fun lit =>
    let normalized := if lit < 0 then lit + arity else lit
    if 0 ≤ normalized ∧ normalized < arity then some normalized.toNat else none

def lowerTupleIndex (elems : List Ty) (base : Sub) (index : SubIndex) (span : Span) :
    LowerM Operand :=
  match index with
  | .expr e =>
    match tupleOffset elems.length e.expr with
    | some off => do
      let baseOp ← base.lower
      let tup ← declareLocal "_tupidxbase" (.tuple elems) span false
      emitAssign (.ofLocal tup) (.use (upgradeMoveToCopyHandle baseOp)) span
      let dest ← declareLocal "_tupidx" (elems.getD off .none) span false
      emitAssign (.ofLocal dest) (.use (.copy (.mk tup [.field off]))) span
      return .copy (.ofLocal dest)
    | none => LowerM.fail (.internal ("tuple index must be a constant int in range at " ++
        span.debug ++
        " (this must be rejected by TypeError::NotIndexable upstream — F83 / ADR-0106)"))
  | index => lowerPlainIndex base index span

def lowerIndexExpr (base : Sub) (index : SubIndex) (span : Span) : LowerM Operand :=
  match ctx.synthExprTy base.expr with
  | .dict k v => lowerDictIndex k v base index span
  | .list elem => lowerListIndex elem base index span
  | .bytes => lowerBytesIndex base index span
  | .str => lowerStrIndex base index span
  | .adt id _ =>
    if id = coilBufferAdt then lowerCoilIndex base index span else lowerPlainIndex base index span
  | .tuple elems => lowerTupleIndex elems base index span
  | _ => lowerPlainIndex base index span

end

end Cobrust.Mir
