import Cobrust.Mir.Lower.Read

/-!
# Lowering of operators

`lower_bin`, `lower_un`, `lower_borrow_inner` and `lower_short_circuit_bool` of
`cobrust-mir/src/lower.rs`.
-/

namespace Cobrust.Mir

open Hir (Expr)

/-- The result of a comparison that a runtime function leaves in `raw`, as a `bool` local. -/
def compareWithZero (name : String) (op : BinOp) (raw : LocalId) (span : Span) : LowerM Operand := do
  let boolDest ← declareLocal name .bool span false
  emitAssign (.ofLocal boolDest) (.binaryOp op (.copy (.ofLocal raw)) (.constant (.int 0))) span
  return .copy (.ofLocal boolDest)

/-- `k in d` and `k not in d`: the key is lowered first and passed second. -/
def lowerDictContains (keyTy : Ty) (negated : Bool) (lhs rhs : Sub) (span : Span) :
    LowerM Operand := do
  let keyOp ← lhs.lower
  let dictOp ← rhs.lower
  let raw ← declareLocal "_dctn" .int span false
  callSymbol (if keyTy.isStr then "__cobrust_dict_contains_str" else "__cobrust_dict_contains_i64")
    [dictOp, keyOp] raw
  compareWithZero "_dctnb" (if negated then .eq else .notEq) raw span

/-- An `int` operand becomes a `float` in a temporary of its own. -/
def castToFloatWhen (isInt : Bool) (name : String) (op : Operand) (span : Span) : LowerM Operand :=
  if isInt then do
    let dest ← declareLocal name .float span false
    emitAssign (.ofLocal dest) (.cast .intToFloat op .float) span
    return .copy (.ofLocal dest)
  else return op

/-- A `coil` buffer against a scalar; `scalarTy` is the type of the scalar. -/
def lowerBufferScalar (symbol : String) (scalarTy : Ty) (buffer scalar : Sub) (span : Span) :
    LowerM Operand := do
  let bufOp ← buffer.lower
  let scalarOp ← scalar.lower
  let kOp ← castToFloatWhen scalarTy.isInt "_coilk" scalarOp span
  emitEcosystemCall symbol coilBufferTy [upgradeMoveToCopyHandle bufOp, kOp] span

/-- Both operands by handle, to a runtime function that leaves its result in a new local. -/
def lowerHandlePair (destName : String) (destTy : Ty) (symbol : String) (lhs rhs : Sub) (span : Span) :
    LowerM LocalId := do
  let lhsOp ← lhs.lower
  let rhsOp ← rhs.lower
  let dest ← declareLocal destName destTy span false
  callSymbol symbol [upgradeMoveToCopyHandle lhsOp, upgradeMoveToCopyHandle rhsOp] dest
  return dest

/-- A string repeated: the operands are lowered from left to right, the string is passed first. -/
def lowerStrRepeat (lhsIsStr : Bool) (lhs rhs : Sub) (span : Span) : LowerM Operand := do
  let lhsOp ← lhs.lower
  let rhsOp ← rhs.lower
  let args : List Operand :=
    if lhsIsStr then [upgradeMoveToCopyHandle lhsOp, rhsOp]
    else [upgradeMoveToCopyHandle rhsOp, lhsOp]
  let dest ← declareLocal "_strrep" .str span false
  callSymbol "__cobrust_str_repeat" args dest
  return .move (.ofLocal dest)

/-- `**`: the float power where either side is a float, the integer power otherwise. -/
def lowerPow (lhsTy rhsTy : Ty) (lhs rhs : Sub) (span : Span) : LowerM Operand := do
  if lhsTy.isFloat || rhsTy.isFloat then
    let lhsOp ← lhs.lower
    let baseOp ← castToFloatWhen lhsTy.isIntLike "_powbf" lhsOp span
    let rhsOp ← rhs.lower
    let expOp ← castToFloatWhen rhsTy.isIntLike "_powef" rhsOp span
    emitEcosystemCall "__cobrust_math_pow" .float [baseOp, expOp] span
  else
    let lhsOp ← lhs.lower
    let rhsOp ← rhs.lower
    emitEcosystemCall "__cobrust_ipow" .int [lhsOp, rhsOp] span

/-- The check that the divisor of an integer division is not zero. -/
def emitDivAssert (rhsOp : Operand) (span : Span) : LowerM Unit := do
  let condLocal ← declareLocal "_divcond" .bool span false
  emitAssign (.ofLocal condLocal) (.binaryOp .notEq rhsOp (.constant (.int 0))) span
  continueAfter fun next => .assert (.copy (.ofLocal condLocal)) true .divisionByZero next

/-- An operator without a lowering of its own. -/
def lowerPlainBin (op : Hir.BinOp) (lhsTy rhsTy : Ty) (lhs rhs : Sub) (span : Span) :
    LowerM Operand := do
  let lhsOp ← lhs.lower
  let rhsOp ← rhs.lower
  if (op = .div || op = .floorDiv || op = .mod) && !hirExprIsFloat lhs.expr then
    emitDivAssert rhsOp span
  let temp ← declareLocal "_bin" (synthBinResultTy op lhsTy rhsTy) span false
  emitAssign (.ofLocal temp) (.binaryOp (binToMir op) lhsOp rhsOp) span
  return .copy (.ofLocal temp)

/-- `lower_short_circuit_bool`: the right side is evaluated in a block of its own, entered on `true`
for `and` and on `false` for `or`. -/
def lowerShortCircuitBool (isAnd : Bool) (lhs rhs : Sub) (span : Span) : LowerM Operand := do
  let result ← declareLocal "_sc_bool" .bool span true
  let lhsOp ← lhs.lower
  emitAssign (.ofLocal result) (.use lhsOp) span
  let condBlock ← currentBlockId
  let evalRhsBlock ← startNewBlock
  let mergeBlock ← startNewBlock
  setCurBlock condBlock
  terminate (.switchInt (.copy (.ofLocal result)) [(.bool isAnd, evalRhsBlock)] mergeBlock)
  setCurBlock evalRhsBlock
  let rhsOp ← rhs.lower
  emitAssign (.ofLocal result) (.use rhsOp) span
  gotoIfOpen mergeBlock
  setCurBlock mergeBlock
  return .copy (.ofLocal result)

section

variable (ctx : LowerCtx)

/-- `lower_bin`. The tests are those of the source, in its order. -/
def lowerBin (op : Hir.BinOp) (lhs rhs : Sub) (span : Span) : LowerM Operand :=
  let lhsTy := ctx.synthExprTy lhs.expr
  let rhsTy := ctx.synthExprTy rhs.expr
  let isBuffer (ty : Ty) : Bool := ty.peelRef.isCoilBuffer
  let isScalar (ty : Ty) : Bool := ty.peelRef.isScalar
  if op = .and || op = .or then lowerShortCircuitBool (op = .and) lhs rhs span
  else
    match op, rhsTy with
    | .in, .dict k _ => lowerDictContains k false lhs rhs span
    | .notIn, .dict k _ => lowerDictContains k true lhs rhs span
    | _, _ =>
      match if isBuffer lhsTy && isScalar rhsTy then lookupBufferScalarBinop op else none with
      | some symbol => lowerBufferScalar symbol rhsTy.peelRef lhs rhs span
      | none =>
        match if isScalar lhsTy && isBuffer rhsTy then lookupBufferLeftScalarBinop op else none with
        | some symbol => lowerBufferScalar symbol lhsTy.peelRef rhs lhs span
        | none =>
          match ctx.eco.lookupBufferBinop lhsTy op with
          | some sig => do
            let lhsOp ← lhs.lower
            let rhsOp ← rhs.lower
            emitEcosystemCall sig.runtimeSymbol sig.ret
              [upgradeMoveToCopyHandle lhsOp, upgradeMoveToCopyHandle rhsOp] span
          | none =>
            if op = .add && lhsTy.isBytes then do
              let dest ← lowerHandlePair "_bytescat" .bytes "__cobrust_bytes_concat" lhs rhs span
              return .move (.ofLocal dest)
            else if op = .mul && (lhsTy.isStr != rhsTy.isStr) then
              lowerStrRepeat lhsTy.isStr lhs rhs span
            else if op = .add && lhsTy.isStr then do
              let dest ← lowerHandlePair "_strcat" .str "__cobrust_str_concat" lhs rhs span
              return .move (.ofLocal dest)
            else if (op = .eq || op = .notEq) && lhsTy.isStr then do
              let raw ← lowerHandlePair "_streq" .int "__cobrust_str_eq" lhs rhs span
              compareWithZero "_streqb" (if op = .notEq then .eq else .notEq) raw span
            else if (op = .lt || op = .ltEq || op = .gt || op = .gtEq) && lhsTy.isStr then do
              let raw ← lowerHandlePair "_strcmp" .int "__cobrust_str_cmp" lhs rhs span
              compareWithZero "_strcmpb" (binToMir op) raw span
            else if op = .pow then lowerPow lhsTy.peelRef rhsTy.peelRef lhs rhs span
            else lowerPlainBin op lhsTy rhsTy lhs rhs span

/-- `lower_un`. -/
def lowerUn (op : Hir.UnaryOp) (operand : Sub) (span : Span) : LowerM Operand := do
  let opVal ← operand.lower
  let tempTy : Ty :=
    match op with
    | .neg | .plus => ctx.synthExprTy operand.expr
    | .bitNot => .int
    | .not => .bool
  let temp ← declareLocal "_un" tempTy span false
  emitAssign (.ofLocal temp) (.unaryOp (unToMir op) opVal) span
  return .copy (.ofLocal temp)

/-- `lower_borrow_inner`: a borrowed name is read by copy whatever its type. -/
def lowerBorrowInner (inner : Sub) : LowerM Operand :=
  match inner.expr with
  | .mk (.name rn) span => do
    let id ← lookupLocalForResolved ctx rn span
    return .copy (.ofLocal id)
  | _ => inner.lower

end

end Cobrust.Mir
