import Cobrust.Mir.Lower.Call
import Cobrust.Mir.Lower.Operator

/-!
# Lowering of expressions

`lower_expr` of `cobrust-mir/src/lower.rs`, with the two forms that build control flow around their
parts: the conditional expression and the comprehension.
-/

namespace Cobrust.Mir

open Hir (Expr ExprKind CallArg IndexKind FormatPart DictEntry CompElem CompClause CompKind)

section

variable (ctx : LowerCtx)

/-- `then if cond else otherwise`: both branches assign the result and join. -/
def lowerIfExpr (cond thenBranch elseBranch : Sub) (span : Span) : LowerM Operand := do
  let result ← declareLocal "_tern" (ctx.synthExprTy thenBranch.expr) span false
  let (condOp, condEnd) ← lowerCondition cond
  let thenBlock ← startNewBlock
  let thenOp ← thenBranch.lower
  emitAssign (.ofLocal result) (.use thenOp) span
  let thenExit ← currentBlockId
  let elseBlock ← startNewBlock
  let elseOp ← elseBranch.lower
  emitAssign (.ofLocal result) (.use elseOp) span
  let elseExit ← currentBlockId
  let joinBlock ← startNewBlock
  setCurBlock thenExit
  gotoIfOpen joinBlock
  setCurBlock elseExit
  gotoIfOpen joinBlock
  setCurBlock condEnd
  terminate (switchTrue condOp thenBlock elseBlock)
  setCurBlock joinBlock
  return .copy (.ofLocal result)

def lowerCast (e : Sub) (target : Hir.TypeExpr) (span : Span) : LowerM Operand := do
  let op ← e.lower
  let castTo (kind : CastKind) (ty : Ty) : LowerM Operand := do
    let dest ← declareLocal "_cast" ty span false
    emitAssign (.ofLocal dest) (.cast kind op ty) span
    return .copy (.ofLocal dest)
  let name := castTargetName target
  if name = "f64" || name = "float" then castTo .intToFloat .float
  else if name = "i64" || name = "int" then castTo .floatToInt .int
  else return op

/-- `await`: a call of the function reference `u32::MAX`. -/
def lowerAwait (inner : Sub) (span : Span) : LowerM Operand := do
  let op ← inner.lower
  let dest ← declareLocal "_await" .none span false
  callInto (.constant (.fnRef 4294967295)) [op] (.ofLocal dest)
  return .move (.ofLocal dest)

def declareBindings (namePrefix : String) (span : Span) : List DefId → LowerM Unit
  | [] => return ()
  | id :: rest => do
    let _ ← declareLocalForDef id (namePrefix ++ toString id) (ctx.lookupTy id) span true
    declareBindings namePrefix span rest

/-- The local of a loop variable; other patterns only get their names declared. -/
def declareTarget (namePrefix : String) (target : Hir.Pattern) (bindingDefIds : List DefId)
    (span : Span) : LowerM (Option LocalId) :=
  match target with
  | .mk (.binding name id) _ => do
    let local' ← declareLocalForDef id name (ctx.lookupTy id) span true
    return some local'
  | _ => do
    declareBindings ctx namePrefix span bindingDefIds
    return none

/-- The guards of a clause: a guard that fails goes back to `header`. -/
def lowerGuards (header : BlockId) : List Sub → LowerM Unit
  | [] => return ()
  | guard :: rest => do
    let op ← guard.lower
    continueAfter fun afterGuard => switchTrue op afterGuard header
    lowerGuards header rest

/-- `lower_comp_body`; of a dict comprehension only the key is appended. -/
def lowerCompBody (lowerElem : LowerM Operand) (kind : CompKind) (acc : LocalId) (span : Span) :
    LowerM Unit := do
  let elemOp ← lowerElem
  let helper :=
    match kind with
    | .set => "__cobrust_set_insert"
    | _ => "__cobrust_list_append"
  let dest ← declareLocal "_comp_appended" .none span false
  callSymbol helper [.copy (.ofLocal acc), elemOp] dest

/-- The element that the iterator has returned goes to the loop variable. -/
def storeElement (varLocal : Option LocalId) (optLocal : LocalId) (span : Span) : LowerM Unit :=
  match varLocal with
  | some v => emitAssign (.ofLocal v) (.use (.copy (.ofLocal optLocal))) span
  | none => return ()

/-- `lower_comp_clauses`: one loop for each clause, each inside the body of the one before. -/
def lowerCompClauses (lowerElem : LowerM Operand) (kind : CompKind) (acc : LocalId) (span : Span) :
    List SubClause → LowerM Unit
  | [] => lowerCompBody lowerElem kind acc span
  | first :: rest => do
    let iterVal ← first.iter.lower
    let iterLocal ← declareLocal "_comp_iter" .none span true
    emitAssign (.ofLocal iterLocal) (.use iterVal) span
    let handle ← declareLocal "_comp_iter_handle" .none span true
    callSymbol "__cobrust_iter_init" [.copy (.ofLocal iterLocal)] handle
    let varLocal ← declareTarget ctx "_comp_iter_bind_" first.target first.bindingDefIds span
    let pre ← currentBlockId
    let header ← startNewBlock
    let optLocal ← declareLocal "_comp_iter_opt" .none span true
    setCurBlock pre
    terminate (.goto header)
    setCurBlock header
    callSymbol "__cobrust_iter_next" [.copy (.ofLocal handle)] optLocal
    let afterNext ← currentBlockId
    storeElement varLocal optLocal span
    let bodyBlock ← startNewBlock
    let exitBlock ← startNewBlock
    setCurBlock afterNext
    terminate (.switchInt (.copy (.ofLocal optLocal)) [(.bool false, exitBlock)] bodyBlock)
    setCurBlock bodyBlock
    lowerGuards header first.guards
    lowerCompClauses lowerElem kind acc span rest
    gotoIfOpen header
    setCurBlock exitBlock

def lowerComprehension (kind : CompKind) (lowerElem : LowerM Operand) (clauses : List SubClause)
    (span : Span) : LowerM Operand := do
  let _ ← ensureOpenBlock
  let acc ← declareLocal "_comp_acc" (.list .none) span true
  callSymbol "__cobrust_list_new" [.constant (.int 8), .constant (.int 0)] acc
  lowerCompClauses ctx lowerElem kind acc span clauses
  return .move (.ofLocal acc)

/-! ## The knot -/

mutual

/-- `lower_expr`. -/
def lowerExpr : Expr → LowerM Operand
  | .mk (.lit l) _ => return .constant (litToConstant ctx.parseF64 l)
  | .mk (.format parts) span => do
    let ops ← lowerFormatParts (subParts parts)
    lowerAggregate "_fstr" .str .formatString ops span
  | .mk (.name rn) span => lowerName ctx rn span
  | .mk (.tuple items) span => do
    let ops ← lowerAll (subs items)
    lowerAggregate "_tuple" (.tuple (ctx.synthTys items)) .tuple ops span
  | .mk (.list items) span => do
    let ops ← lowerAll (subs items)
    lowerAggregate "_list" (.list (ctx.synthFirstTy items)) .list ops span
  | .mk (.set items) span => do
    let ops ← lowerAll (subs items)
    lowerAggregate "_set" (.set .none) .set ops span
  | .mk (.dict entries) span => do
    let subEntries := subEntries entries
    let (k, v) := dictEntryTys ctx subEntries
    let ops ← lowerDictEntries subEntries
    lowerAggregate "_dict" (.dict k v) .dict ops span
  | .mk (.comp kind element clauses _) span =>
    lowerComprehension ctx kind (lowerCompElem element) (subClauses clauses) span
  | .mk (.lambda _ _ _) _ => return .constant (.fnRef 0)
  | .mk (.call callee args) span =>
    lowerCall ctx ⟨callee, lowerExpr callee⟩ (subBase callee) (subArgs args) span
  | .mk (.attr base name) span => lowerAttr ctx ⟨base, lowerExpr base⟩ name span
  | .mk (.index base index) span =>
    lowerIndexExpr ctx ⟨base, lowerExpr base⟩ (subIndex index) span
  | .mk (.bin op lhs rhs) span => lowerBin ctx op ⟨lhs, lowerExpr lhs⟩ ⟨rhs, lowerExpr rhs⟩ span
  | .mk (.un op operand) span => lowerUn ctx op ⟨operand, lowerExpr operand⟩ span
  | .mk (.borrow inner) _ => lowerBorrowInner ctx ⟨inner, lowerExpr inner⟩
  | .mk (.await inner) span => lowerAwait ⟨inner, lowerExpr inner⟩ span
  | .mk (.yield inner) _ => do
    match subOption inner with
    | some s => let _ ← s.lower
    | none => pure ()
    return .constant .none
  | .mk (.yieldFrom inner) _ => do
    let _ ← lowerExpr inner
    return .constant .none
  | .mk (.cast e target) span => lowerCast ⟨e, lowerExpr e⟩ target span
  | .mk (.ifExpr cond thenBranch elseBranch) span =>
    lowerIfExpr ctx ⟨cond, lowerExpr cond⟩ ⟨thenBranch, lowerExpr thenBranch⟩
      ⟨elseBranch, lowerExpr elseBranch⟩ span

def subs : List Expr → List Sub
  | [] => []
  | e :: rest => ⟨e, lowerExpr e⟩ :: subs rest

def subOption : Option Expr → Option Sub
  | none => none
  | some e => some ⟨e, lowerExpr e⟩

/-- The base and the name of a callee that is an attribute. -/
def subBase : Expr → Option (Sub × String)
  | .mk (.attr base name) _ => some (⟨base, lowerExpr base⟩, name)
  | _ => none

def subArg : CallArg → SubArg
  | .positional e => ⟨.positional e, lowerExpr e⟩
  | .keyword name e => ⟨.keyword name e, lowerExpr e⟩
  | .starArgs e => ⟨.starArgs e, lowerExpr e⟩
  | .starStarKwargs e => ⟨.starStarKwargs e, lowerExpr e⟩

def subArgs : List CallArg → List SubArg
  | [] => []
  | a :: rest => subArg a :: subArgs rest

def subIndex : IndexKind → SubIndex
  | .expr e => .expr ⟨e, lowerExpr e⟩
  | .slice start stop step => .slice (subOption start) (subOption stop) (subOption step)
  | .tuple _ => .tuple

def subPart : FormatPart → SubPart
  | .lit s => .lit s
  | .hole e _ spec => .hole ⟨e, lowerExpr e⟩ spec

def subParts : List FormatPart → List SubPart
  | [] => []
  | p :: rest => subPart p :: subParts rest

def subEntry : DictEntry → SubEntry
  | .pair k v => .pair ⟨k, lowerExpr k⟩ ⟨v, lowerExpr v⟩
  | .spread e => .spread ⟨e, lowerExpr e⟩

def subEntries : List DictEntry → List SubEntry
  | [] => []
  | e :: rest => subEntry e :: subEntries rest

def subClause : CompClause → SubClause
  | .mk ids target iter guards => ⟨ids, target, ⟨iter, lowerExpr iter⟩, subs guards⟩

def subClauses : List CompClause → List SubClause
  | [] => []
  | c :: rest => subClause c :: subClauses rest

def lowerCompElem : CompElem → LowerM Operand
  | .single e => lowerExpr e
  | .keyValue k _ => lowerExpr k

end

end

end Cobrust.Mir
