import Cobrust.Types.Annotations

/-!
# Statements

`check_fn`, `check_block`, `check_stmt` and what they call for patterns and matches, of `cobrust-types/src/check.rs`. The
checks of expressions and of nested items are given.
-/

namespace Cobrust

open Hir Checker

/-- What encloses a statement: the return types of the functions, innermost first, and the number of loops. -/
structure Flow where
  returnStack : List Ty
  loopDepth : Nat

def Flow.inLoop (flow : Flow) : Flow :=
  { flow with loopDepth := flow.loopDepth + 1 }

/-- A function resets the number of loops. -/
def Flow.inFn (flow : Flow) (returnTy : Ty) : Flow :=
  ⟨returnTy :: flow.returnStack, 0⟩

structure Checks where
  synthExpr : Flow → Expr → Checker Ty
  /-- `prebind_item` and `check_item` of a nested item. -/
  item : Flow → Item → Checker Unit

inductive BlockOutcome where
  | falls
  | diverges
  deriving DecidableEq, Repr

def BlockOutcome.join (items : List BlockOutcome) : BlockOutcome :=
  if items.all (· = .diverges) then .diverges else .falls

def litType : Lit → Ty
  | .bool _ => .bool
  | .none => .none
  | .int _ => .int
  | .float _ => .float
  | .imag _ => .imag
  | .str _ => .str
  | .bytes _ => .bytes

def litToString : Lit → String
  | .bool true => "True"
  | .bool false => "False"
  | .none => "None"
  | .int s => s
  | .float s => s
  | .imag s => s
  | .str s => s
  | .bytes b => "[" ++ ", ".intercalate (b.map toString) ++ "]"

def isLiteralLikeInt (e : Expr) : Bool :=
  match e.kind with
  | .lit (.int _) => true
  | .un .neg (.mk (.lit (.int _)) _) => true
  | _ => false

def isMutableContainer : Ty → Bool
  | .list _ => true
  | .set _ => true
  | .dict _ _ => true
  | _ => false

mutual

/-- `==` on types. -/
def sameTy : Ty → Ty → Bool
  | .bool, .bool | .int, .int | .float, .float | .imag, .imag | .str, .str | .bytes, .bytes | .none, .none
  | .never, .never => true
  | .tuple a, .tuple b => sameTys a b
  | .list a, .list b | .set a, .set b | .ref a, .ref b => sameTy a b
  | .dict k v, .dict k' v' => sameTy k k' && sameTy v v'
  | .record a, .record b => sameFields a b
  | .fn p n vp vk r, .fn p' n' vp' vk' r' =>
    sameTys p p' && sameFields n n' && sameOption vp vp' && sameOption vk vk' && sameTy r r'
  | .adt i a, .adt j b | .alias i a, .alias j b => i = j && sameTys a b
  | .generic i, .generic j | .var i, .var j | .intN i, .intN j => i = j
  | .array a n, .array b m => n = m && sameTy a b
  | _, _ => false

def sameTys : List Ty → List Ty → Bool
  | [], [] => true
  | a :: as, b :: bs => sameTy a b && sameTys as bs
  | _, _ => false

def sameFields : List (String × Ty) → List (String × Ty) → Bool
  | [], [] => true
  | (n, a) :: as, (m, b) :: bs => n = m && sameTy a b && sameFields as bs
  | _, _ => false

def sameOption : Option Ty → Option Ty → Bool
  | .none, .none => true
  | .some a, .some b => sameTy a b
  | _, _ => false

end

def notIterableHint : Option String :=
  some "use a list / dict / range / str — primitives cannot iterate"

/-- `iter_element_for`. -/
def iterElementFor (t : Ty) (span : Span) (allowStr : Bool) : Checker Ty := do
  match ← apply t with
  | .str => if allowStr then return .str else fail (.notIterable .str span notIterableHint)
  | .list t => return t
  | .set t => return t
  | .dict k _ => return k
  | .tuple [] => fail (.notIterable (.tuple []) span notIterableHint)
  | .tuple (head :: rest) =>
    if rest.all (sameTy · head) then return head else fail (.notIterable (.tuple (head :: rest)) span notIterableHint)
  | .var _ => do
    let v ← freshVar
    unifyTys t (.list v) span
    return v
  | other => fail (.notIterable other span notIterableHint)

/-! ## Matches -/

/-- What the arms cover: one has a wildcard or a binding, and the texts of the literals. -/
structure Coverage where
  hasWildcard : Bool
  coveredLits : List String

def Coverage.none : Coverage :=
  ⟨false, []⟩

/-- The coverage behind an arm; an arm with a guard adds nothing. -/
def Coverage.add (cov : Coverage) (pattern : Pattern) (guard : Option Expr) : Coverage :=
  match pattern.kind with
  | .wildcard => if guard.isNone then { cov with hasWildcard := true } else cov
  | .binding _ _ => if guard.isNone then { cov with hasWildcard := true } else cov
  | .literal l => if guard.isNone then { cov with coveredLits := cov.coveredLits ++ [litToString l] } else cov
  | _ => cov

def isExhaustive (ty : Ty) (cov : Coverage) : Checker Bool := do
  if cov.hasWildcard then
    return true
  match ← apply ty with
  | .bool => return "True" ∈ cov.coveredLits && "False" ∈ cov.coveredLits
  | .none => return "None" ∈ cov.coveredLits
  | _ => return false

def uncoveredSet (ty : Ty) (cov : Coverage) : Checker (List String) := do
  match ← apply ty with
  | .bool => return ["True", "False"].filter (· ∉ cov.coveredLits)
  | .none => return ["None"]
  | _ => return ["<wildcard or all constructors>"]

/-- The end of `check_match`, behind the arms. -/
def matchVerdict (ty : Ty) (cov : Coverage) (span : Span) : Checker BlockOutcome := do
  if ← isExhaustive ty cov then
    return .falls
  let uncovered ← uncoveredSet ty cov
  fail (.nonExhaustiveMatch uncovered span (some "add the missing cases or a wildcard `_` arm"))

section Check

variable (checks : Checks)

mutual

def bindPattern (flow : Flow) : Pattern → Ty → Checker Unit
  | .mk .wildcard _, _ => return ()
  | .mk (.binding _ d) _, t => recordDef d t
  | .mk (.literal l) span, t => unifyTys t (litType l) span
  | .mk (.sequence items rest) span, t => do
    match ← apply t with
    | .tuple elems =>
      if rest.isSome then
        return ()
      else if elems.length ≠ items.length then
        fail (.arityMismatch elems.length items.length span arityHint)
      else
        bindZip flow items elems
    | .list elem =>
      bindAll flow items (return elem)
      bindOption flow rest (return .list elem)
    | .var _ =>
      bindAll flow items freshVar
      bindOption flow rest freshVar
    | other => fail (.typeMismatch (.tuple []) other span mismatchHint)
  | .mk (.mapping entries rest) _, _ => do
    bindEntries flow entries
    match rest with
    | some (_, d) => recordDef d (← freshVar)
    | none => return ()
  | .mk (.class _ positional keyword) _, _ => do
    bindAll flow positional freshVar
    bindKeyword flow keyword
  | .mk (.or branches) _, t => bindAll flow branches (return t)

def bindZip (flow : Flow) : List Pattern → List Ty → Checker Unit
  | p :: patterns, t :: types => do
    bindPattern flow p t
    bindZip flow patterns types
  | _, _ => return ()

/-- Each pattern with the type of its own. -/
def bindAll (flow : Flow) : List Pattern → Checker Ty → Checker Unit
  | [], _ => return ()
  | p :: patterns, type => do
    bindPattern flow p (← type)
    bindAll flow patterns type

def bindOption (flow : Flow) : Option Pattern → Checker Ty → Checker Unit
  | none, _ => return ()
  | some p, type => do
    bindPattern flow p (← type)

def bindEntries (flow : Flow) : List (Expr × Pattern) → Checker Unit
  | [] => return ()
  | (key, p) :: entries => do
    let _ ← checks.synthExpr flow key
    bindPattern flow p (← freshVar)
    bindEntries flow entries

def bindKeyword (flow : Flow) : List (String × Pattern) → Checker Unit
  | [] => return ()
  | (_, p) :: keyword => do
    bindPattern flow p (← freshVar)
    bindKeyword flow keyword

end

def recordBinding : Option DefId → Checker Ty → Checker Unit
  | none, _ => return ()
  | some d, type => do
    recordDef d (← type)

/-- An optional expression that is not looked at. -/
def synthOption (flow : Flow) : Option Expr → Checker Unit
  | none => return ()
  | some e => do
    let _ ← checks.synthExpr flow e

def checkGuard (flow : Flow) : Option Expr → Checker Unit
  | none => return ()
  | some g => do
    let t ← checks.synthExpr flow g
    expectBool t g.span

/-- The type of the value of a `let`; a literal takes the width of its annotation. -/
def letType (flow : Flow) (b : LetBody) : Checker Ty := do
  match b.annot with
  | some t =>
    validateHashableDict t
    let valueTy ← checks.synthExpr flow b.value
    let annotTy ← Checker.lowerType t
    let coerced := match annotTy, valueTy with
      | .intN _, .int => if isLiteralLikeInt b.value then annotTy else valueTy
      | _, _ => valueTy
    unifyTys annotTy coerced b.span
    return annotTy
  | none => checks.synthExpr flow b.value

def checkReturn (flow : Flow) (value : Option Expr) (span : Span) : Checker BlockOutcome := do
  match flow.returnStack with
  | [] => fail (.returnOutsideFn span (some "move the `return` inside a `fn` body"))
  | ret :: _ =>
    let valueTy ← match value with
      | some e => checks.synthExpr flow e
      | none => pure .none
    unifyTys ret valueTy span
    return .diverges

mutual

def checkBlock (flow : Flow) : Block → Checker BlockOutcome
  | .mk stmts _ => checkStmts flow stmts .falls

/-- The outcome is that of the last statement. -/
def checkStmts (flow : Flow) : List Stmt → BlockOutcome → Checker BlockOutcome
  | [], outcome => return outcome
  | s :: rest, _ => do
    let outcome ← checkStmt flow s
    checkStmts flow rest outcome

def checkStmt (flow : Flow) : Stmt → Checker BlockOutcome
  | .mk .pass _ => return .falls
  | .mk (.expr e) _ => do
    let _ ← checks.synthExpr flow e
    return .falls
  | .mk (.return value) span => checkReturn checks flow value span
  | .mk .break span =>
    if flow.loopDepth = 0 then
      fail (.breakOutsideLoop span (some "move the `break` inside a `for` or `while` loop body"))
    else return .diverges
  | .mk .continue span =>
    if flow.loopDepth = 0 then
      fail (.continueOutsideLoop span (some "move the `continue` inside a `for` or `while` loop body"))
    else return .diverges
  | .mk (.raise exc cause) _ => do
    synthOption checks flow exc
    synthOption checks flow cause
    return .diverges
  | .mk (.let b) _ => do
    let t ← letType checks flow b
    bindPattern checks flow b.pattern t
    return .falls
  | .mk (.assign target value) span => do
    let targetTy ← checks.synthExpr flow target
    let valueTy ← checks.synthExpr flow value
    unifyTys targetTy valueTy span
    return .falls
  | .mk (.if arms elseBlock) _ => do
    let outcomes ← checkIfArms flow arms
    let elseOutcome ← checkElse flow elseBlock
    return .join (outcomes ++ [elseOutcome])
  | .mk (.loop (.while cond body elseBlock _)) _ => do
    let condTy ← checks.synthExpr flow cond
    expectBool condTy cond.span
    let _ ← checkBlock flow.inLoop body
    let _ ← checkElse flow elseBlock
    return .falls
  | .mk (.loop (.for _ pattern iter body elseBlock _)) _ => do
    let iterTy ← checks.synthExpr flow iter
    let elemTy ← iterElementFor iterTy iter.span true
    bindPattern checks flow pattern elemTy
    let _ ← checkBlock flow.inLoop body
    let _ ← checkElse flow elseBlock
    return .falls
  | .mk (.match scrutinee arms) span => do
    let ty ← checks.synthExpr flow scrutinee
    let ty ← apply ty
    let cov ← checkArms flow ty arms .none
    matchVerdict ty cov span
  | .mk (.with item body) _ => do
    let _ ← checks.synthExpr flow item.context
    recordBinding (item.binding.map Prod.fst) freshVar
    checkBlock flow body
  | .mk (.try body handlers elseBlock finallyBlock) _ => do
    let _ ← checkBlock flow body
    checkHandlers flow handlers
    let _ ← checkElse flow elseBlock
    let _ ← checkElse flow finallyBlock
    return .falls
  | .mk (.item it) _ => do
    checks.item flow it
    return .falls

def checkIfArms (flow : Flow) : List (Expr × Block) → Checker (List BlockOutcome)
  | [] => return []
  | (cond, body) :: arms => do
    let condTy ← checks.synthExpr flow cond
    expectBool condTy cond.span
    let outcome ← checkBlock flow body
    let outcomes ← checkIfArms flow arms
    return outcome :: outcomes

/-- An optional block falls through where there is none. -/
def checkElse (flow : Flow) : Option Block → Checker BlockOutcome
  | none => return .falls
  | some b => checkBlock flow b

def checkArms (flow : Flow) (ty : Ty) : List MatchArm → Coverage → Checker Coverage
  | [], cov => return cov
  | .mk pattern _ guard body _ :: arms, cov => do
    bindPattern checks flow pattern ty
    checkGuard checks flow guard
    let _ ← checkBlock flow body
    checkArms flow ty arms (cov.add pattern guard)

def checkHandlers (flow : Flow) : List ExceptHandler → Checker Unit
  | [] => return ()
  | .mk excType binding body _ :: handlers => do
    let excTy ← Checker.lowerType excType
    recordBinding (binding.map Prod.fst) (return excTy)
    let _ ← checkBlock flow body
    checkHandlers flow handlers

end

/-- `check_match` up to its verdict: the type of the scrutinee, and what the arms cover. -/
def matchCoverage (flow : Flow) (scrutinee : Expr) (arms : List MatchArm) : Checker (Ty × Coverage) := do
  let ty ← checks.synthExpr flow scrutinee
  let ty ← apply ty
  let cov ← checkArms checks flow ty arms .none
  return (ty, cov)

def checkMatch (flow : Flow) (scrutinee : Expr) (arms : List MatchArm) (span : Span) : Checker BlockOutcome := do
  let (ty, cov) ← matchCoverage checks flow scrutinee arms
  matchVerdict ty cov span

def validateParams : List Param → Checker Unit
  | [] => return ()
  | p :: params => do
    match p.annot with
    | some t => validateHashableDict t
    | none => pure ()
    validateParams params

def bindParams : List Param → List Ty → Checker Unit
  | p :: params, t :: types => do
    recordDef p.defId t
    match p.default with
    | some l =>
      if isMutableContainer (litType l) then
        fail (.mutableDefault p.span (some "use `None` as the default and assign inside the function body"))
      else pure ()
    | none => pure ()
    bindParams params types
  | _, _ => return ()

def bindVariadic : Option Param → Option Ty → Checker Unit
  | some p, some t => recordDef p.defId t
  | _, _ => return ()

/-- `check_fn`, for the function and its return annotation. -/
def checkFn (flow : Flow) (f : FnBody) (returnType : Option TypeExpr) : Checker Unit :=
  match f with
  | .mk defId _ params body _ => do
    validateParams params.positional
    validateParams params.keywordOnly
    validateParams params.varPositional.toList
    validateParams params.varKeyword.toList
    validateAll returnType.toList
    match ← lookupDef defId with
    | some (.fn positional named varPositional varKeyword returnTy) =>
      bindParams params.positional positional
      bindParams params.keywordOnly (named.map Prod.snd)
      bindVariadic params.varPositional varPositional
      bindVariadic params.varKeyword varKeyword
      let _ ← checkBlock checks (flow.inFn returnTy) body
    | _ => unreachable

end Check

end Cobrust
