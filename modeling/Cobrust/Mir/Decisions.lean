import Cobrust.Control.Traced
import Cobrust.Mir.CallRunBranch
import Cobrust.Mir.CallRunExpr

/-!
# Expressions with decisions and calls

What an expression over integers and booleans means, evaluated from left to right: `and` and `or` evaluate the right side
when the left one does not decide, a conditional expression evaluates one of its branches, and a call gives each
parameter its argument. The code gives the arguments in the order in which they stand.

* `computesCall_lowerExpr`: the code of an expression does what the expression means, with the arguments of its calls in
  the order in which they stand.
-/

namespace Cobrust.Mir

open Exec Control
open Hir (Expr CallArg)

/-- The name of a keyword argument. -/
def keywordName : CallArg → Option String
  | .keyword name _ => some name
  | _ => none

/-- The arguments in the order of the parameters: the positional ones, then for each keyword-only parameter the argument
with its name, or its default. -/
def bindArgs (positional : Nat) (keywordOnly : List String) (defaults : String → Option Value)
    (args : List (Option String × Value)) : Option (List Value) :=
  let plain := args.filterMap fun a => if a.1.isNone then some a.2 else none
  let given := args.filterMap fun a => a.1.map fun name => (name, a.2)
  if plain.length = positional ∧ (given.map Prod.fst).Nodup ∧ ∀ p ∈ given, p.1 ∈ keywordOnly then
    (keywordOnly.mapM fun name => given.lookup name <|> defaults name).map (plain ++ ·)
  else none

/-- The arguments of a call that is evaluated: as the code passes them, and as the parameters are bound. -/
structure Site where
  passed : List Value
  bound : Option (List Value)

/-- What the functions of a program return, and the defaults of their keyword-only parameters. -/
structure Callees where
  returns : Functions
  defaults : DefId → String → Option Value

/-- The parameters of a function: how many are positional, and the names of the keyword-only ones. -/
def LowerCtx.parameters (ctx : LowerCtx) (fn : DefId) : Nat × List String :=
  match ctx.lookupTy fn with
  | .fn positional named _ _ _ => (positional.length, named.map Prod.fst)
  | _ => (0, [])

def callSite (ctx : LowerCtx) (callees : Callees) (rn : Hir.ResolvedName) (args : List CallArg) (values : List Value) :
    Site where
  passed := packArgs rn.name values
  bound := bindArgs (ctx.parameters rn.defId).1 (ctx.parameters rn.defId).2 (callees.defaults rn.defId)
    ((args.map keywordName).zip values)

/-- A call with the arguments that are taken from its site. -/
def runSite (returns : Functions) (taken : Site → Option (List Value)) (fn : DefId) (site : Site) :
    Traced History Stop Site Value := do
  Traced.emit site
  match taken site with
  | some args => callFn returns fn args
  | none => Outcome.undefined.run

def ofOption : Option Value → Traced History Stop Site Value
  | some v => pure v
  | none => Outcome.undefined.run

section

variable (ctx : LowerCtx) (callees : Callees) (val : DefId → Option Value) (taken : Site → Option (List Value))

mutual

/-- Evaluate an expression, with the calls that it makes. A leaf has the value of its constant. -/
def evaluate : Expr → Traced History Stop Site Value
  | .mk (.lit l) _ => ofOption (constantValue (litToConstant ctx.parseF64 l))
  | .mk (.name rn) _ => ofOption (val rn.defId)
  | .mk (.un op operand) _ => do
    let v ← evaluate operand
    (unop (unToMir op) v).run
  | .mk (.bin op lhs rhs) _ =>
    if op = .and || op = .or then evaluate lhs >>= decideCall (op = .and) (evaluate rhs)
    else do
      let v ← evaluate lhs
      let w ← evaluate rhs
      (applyBin op v w).run
  | .mk (.call callee args) _ =>
    match callee with
    | .mk (.name rn) _ => do
      let values ← runAll (evaluateArgs args)
      runSite callees.returns taken rn.defId (callSite ctx callees rn args values)
    | _ => Outcome.undefined.run
  | .mk (.ifExpr cond thenBranch elseBranch) _ =>
    evaluate cond >>= chooseCall (evaluate thenBranch) (evaluate elseBranch)
  | _ => Outcome.undefined.run

def evaluateArgs : List CallArg → List (Traced History Stop Site Value)
  | [] => []
  | .positional e :: rest | .keyword _ e :: rest | .starArgs e :: rest | .starStarKwargs e :: rest =>
    evaluate e :: evaluateArgs rest

end

end

/-- The arithmetic and comparing operators, and `and` and `or`. -/
def isDecidedOp : Hir.BinOp → Bool
  | .matMul | .in | .notIn => false
  | _ => true

/-- Integers and booleans. -/
def isScalarTy : Ty → Bool
  | .int | .bool => true
  | _ => false

/-- A function of integers and booleans. -/
def isScalarFn : Ty → Bool
  | .fn positional named _ _ returnTy => positional.all isScalarTy && named.all (isScalarTy ·.2) && isScalarTy returnTy
  | _ => false

mutual

/-- An expression over integers and booleans, with names among `ids`. -/
def Decided (ctx : LowerCtx) (ids : List DefId) : Expr → Prop
  | .mk (.lit (.bool _)) _ | .mk (.lit (.int _)) _ => True
  | .mk (.name rn) _ => rn.defId ∈ ids ∧ isScalarTy (ctx.lookupTy rn.defId) = true
  | .mk (.un _ operand) _ => Decided ctx ids operand
  | .mk (.bin op lhs rhs) _ => isDecidedOp op = true ∧ Decided ctx ids lhs ∧ Decided ctx ids rhs
  | .mk (.call callee args) _ =>
    match callee with
    | .mk (.name rn) _ => isScalarFn (ctx.lookupTy rn.defId) = true ∧ DecidedArgs ctx ids args
    | _ => False
  | .mk (.ifExpr cond thenBranch elseBranch) _ =>
    Decided ctx ids cond ∧ Decided ctx ids thenBranch ∧ Decided ctx ids elseBranch
  | _ => False

/-- Positional and keyword arguments. -/
def DecidedArgs (ctx : LowerCtx) (ids : List DefId) : List CallArg → Prop
  | [] => True
  | .positional e :: rest | .keyword _ e :: rest => Decided ctx ids e ∧ DecidedArgs ctx ids rest
  | _ => False

end

end Cobrust.Mir

namespace Cobrust.Mir

open Exec Control
open Hir (Expr CallArg)

variable {ctx : LowerCtx} {ids : List DefId} {callees : Callees} {val : DefId → Option Value}

theorem isNumeric_of_isScalarTy {ty : Ty} (h : isScalarTy ty = true) : isNumeric ty = true := by
  cases ty <;> first | rfl | cases h

theorem isNumeric_synthBinResultTy (op : Hir.BinOp) {lt rt : Ty} (hl : isNumeric lt = true) (hr : isNumeric rt = true) :
    isNumeric (synthBinResultTy op lt rt) = true := by
  have hlf := (isPlain_facts (isPlain_of_isNumeric hl).1).2.2.2.1
  have hrf := (isPlain_facts (isPlain_of_isNumeric hr).1).2.2.2.1
  unfold synthBinResultTy
  rw [hlf, hrf]
  cases op <;> simp only [Bool.or_self, Bool.false_eq_true, if_false] <;> (try split) <;> rfl

theorem isScalarFn_eq {ty : Ty} (h : isScalarFn ty = true) :
    ∃ positional named varPositional varKeyword returnTy, ty = .fn positional named varPositional varKeyword returnTy ∧
      isScalarTy returnTy = true ∧ ty.isListFn = false := by
  cases ty with
  | fn positional named varPositional varKeyword returnTy =>
    simp only [isScalarFn, Bool.and_eq_true] at h
    refine ⟨positional, named, varPositional, varKeyword, returnTy, rfl, h.2, ?_⟩
    cases positional with
    | nil => rfl
    | cons p rest =>
      have hp : isScalarTy p = true := (Bool.and_eq_true_iff.1 h.1.1).1
      cases p <;> first | rfl | cases hp
  | _ => cases h

/-- The callee of a decided call is the name of a function of integers and booleans. -/
theorem Decided.callee {callee : Expr} {args : List CallArg} {span : Span}
    (h : Decided ctx ids (.mk (.call callee args) span)) : ∃ rn cspan, callee = .mk (.name rn) cspan ∧
      isScalarFn (ctx.lookupTy rn.defId) = true ∧ DecidedArgs ctx ids args := by
  obtain ⟨kind, cspan⟩ := callee
  cases kind with
  | name rn => exact ⟨rn, cspan, rfl, h⟩
  | _ => exact False.elim h

/-- Lowering gives an expression the type of an integer or a boolean, or none. -/
theorem isNumeric_of_decided : ∀ e : Expr, Decided ctx ids e →
    isNumeric (ctx.synthExprTy e) = true ∧ hirExprIsFloat e = false
  | .mk (.lit (.bool _)) _, _ | .mk (.lit (.int _)) _, _ => ⟨rfl, rfl⟩
  | .mk (.name _) _, h => ⟨isNumeric_of_isScalarTy h.2, rfl⟩
  | .mk (.un op operand) _, h => by
    obtain ⟨hty, hfloat⟩ := isNumeric_of_decided operand h
    refine ⟨?_, hfloat⟩
    cases op with
    | plus => exact hty
    | neg => exact hty
    | bitNot => rfl
    | not => rfl
  | .mk (.bin op lhs rhs) _, h => by
    obtain ⟨hl, hlf⟩ := isNumeric_of_decided lhs h.2.1
    obtain ⟨hr, hrf⟩ := isNumeric_of_decided rhs h.2.2
    refine ⟨isNumeric_synthBinResultTy op hl hr, ?_⟩
    rw [hirExprIsFloat, hlf, hrf]
    rfl
  | .mk (.call _ _) _, h => by
    obtain ⟨rn, cspan, rfl, hfn, -⟩ := h.callee
    obtain ⟨positional, named, varPositional, varKeyword, returnTy, hty, hreturn, -⟩ := isScalarFn_eq hfn
    refine ⟨?_, rfl⟩
    change isNumeric ((ctx.fnReturnTy rn.defId).getD .none) = true
    rw [LowerCtx.fnReturnTy, hty]
    exact isNumeric_of_isScalarTy hreturn
  | .mk (.ifExpr cond thenBranch elseBranch) _, h => by
    obtain ⟨hthen, -⟩ := isNumeric_of_decided thenBranch h.2.1
    obtain ⟨helse, -⟩ := isNumeric_of_decided elseBranch h.2.2
    refine ⟨?_, rfl⟩
    conv =>
      lhs
      arg 1
      whnf
    split
    · exact helse
    · exact hthen
  | .mk (.lit (.float _)) _, h | .mk (.lit (.imag _)) _, h | .mk (.lit (.str _)) _, h | .mk (.lit (.bytes _)) _, h
  | .mk (.lit .none) _, h | .mk (.format _) _, h | .mk (.tuple _) _, h | .mk (.list _) _, h | .mk (.set _) _, h
  | .mk (.dict _) _, h | .mk (.comp _ _ _ _) _, h | .mk (.lambda _ _ _) _, h | .mk (.attr _ _) _, h
  | .mk (.index _ _) _, h | .mk (.borrow _) _, h | .mk (.await _) _, h | .mk (.yield _) _, h | .mk (.yieldFrom _) _, h
  | .mk (.cast _ _) _, h => False.elim h

theorem ComputesCall.congr {functions : Functions} {m : LowerM Operand} {x y : Traced History Stop Site Value}
    (hx : ComputesCall functions ids val m x) (hxy : ∀ h, (y h).1 = (x h).1 ∧ (y h).2.1 = (x h).2.1) :
    ComputesCall functions ids val m y := by
  intro b c block hopen hn
  obtain ⟨op, b', hm, hg, hbelow, hrun⟩ := hx b c block hopen hn
  refine ⟨op, b', hm, hg, hbelow, fun blocks hcode => ?_⟩
  obtain ⟨hleads, hdelivers⟩ := hrun blocks hcode
  refine ⟨hleads, fun f hf h => ?_⟩
  have hd := hdelivers f hf h
  obtain ⟨hresult, hhistory⟩ := hxy h
  rcases hxh : x h with ⟨result, h', sites⟩
  rcases hyh : y h with ⟨result', h'', sites'⟩
  rw [hxh] at hd hresult hhistory
  rw [hyh] at hresult hhistory
  cases hresult
  cases hhistory
  exact hd.sites

/-- The arguments as the code passes them. -/
def Site.inOrder (site : Site) : Option (List Value) :=
  some site.passed

/-- A program that goes on in two ways which differ in their sites only. -/
theorem same_bind {α : Type} (x : Traced History Stop Site α) {f g : α → Traced History Stop Site Value}
    (hfg : ∀ a h, (g a h).1 = (f a h).1 ∧ (g a h).2.1 = (f a h).2.1) (h : History) :
    ((x >>= g) h).1 = ((x >>= f) h).1 ∧ ((x >>= g) h).2.1 = ((x >>= f) h).2.1 := by
  rw [Traced.bind_apply, Traced.bind_apply]
  rcases x h with ⟨stop | a, h', sites⟩
  · exact ⟨rfl, rfl⟩
  · exact hfg a h'

mutual

theorem computesCall_lowerExpr (hbuffers : ∀ ty op, isPlain ty = true → ctx.eco.lookupBufferBinop ty op = none)
    (hheld : ∀ id ∈ ids, ∃ v, val id = some v) : ∀ e : Expr, Decided ctx ids e →
      ComputesCall callees.returns ids val (lowerExpr ctx e) (evaluate ctx callees val Site.inOrder e)
  | .mk (.lit (.bool b)) _, _ => computesCall_constant rfl
  | .mk (.lit (.int s)) _, _ => computesCall_constant rfl
  | .mk (.name rn) span, h => by
    obtain ⟨v, hv⟩ := hheld rn.defId h.1
    have hmeans : evaluate ctx callees val Site.inOrder (.mk (.name rn) span) = ofOption (some v) := congrArg ofOption hv
    rw [hmeans]
    exact computesCall_lowerName h.1 hv
  | .mk (.un op operand) span, h => computesCall_lowerUn (computesCall_lowerExpr hbuffers hheld operand h)
  | .mk (.bin op lhs rhs) span, h => by
    have hx := computesCall_lowerExpr hbuffers hheld lhs h.2.1
    have hy := computesCall_lowerExpr hbuffers hheld rhs h.2.2
    by_cases hop : (op = .and || op = .or) = true
    · have hlower : lowerExpr ctx (.mk (.bin op lhs rhs) span) =
          lowerShortCircuitBool (op = .and) ⟨lhs, lowerExpr ctx lhs⟩ ⟨rhs, lowerExpr ctx rhs⟩ span := if_pos hop
      have hmeans : evaluate ctx callees val Site.inOrder (.mk (.bin op lhs rhs) span) =
          evaluate ctx callees val Site.inOrder lhs >>=
            decideCall (op = .and) (evaluate ctx callees val Site.inOrder rhs) := if_pos hop
      rw [hlower, hmeans]
      exact computesCall_shortCircuit hx hy
    · have hlower : lowerExpr ctx (.mk (.bin op lhs rhs) span) =
          lowerBin ctx op ⟨lhs, lowerExpr ctx lhs⟩ ⟨rhs, lowerExpr ctx rhs⟩ span := rfl
      have hmeans : evaluate ctx callees val Site.inOrder (.mk (.bin op lhs rhs) span) =
          evaluate ctx callees val Site.inOrder lhs >>= fun v =>
            evaluate ctx callees val Site.inOrder rhs >>= fun w => (applyBin op v w).run := if_neg hop
      rw [hlower, hmeans]
      obtain ⟨hl, hfloat⟩ := isNumeric_of_decided lhs h.2.1
      have hboth : op ≠ .and ∧ op ≠ .or := by simpa using hop
      exact computesCall_lowerBin hx hy hl (isNumeric_of_decided rhs h.2.2).1
        (hbuffers _ op (isPlain_of_isNumeric hl).1) hboth hfloat
  | .mk (.call _ args) span, h => by
    obtain ⟨rn, cspan, rfl, hfn, hargs⟩ := h.callee
    obtain ⟨positional, named, varPositional, varKeyword, returnTy, hty, -, hlist⟩ := isScalarFn_eq hfn
    have hlower : lowerExpr ctx (.mk (.call (.mk (.name rn) cspan) args) span) =
        lowerFnCall ctx ⟨.mk (.name rn) cspan, lowerExpr ctx (.mk (.name rn) cspan)⟩ (subArgs ctx args) span := rfl
    rw [hlower]
    refine (computesCall_lowerFnCall hty hlist (computesCall_subArgs hbuffers hheld args hargs)).congr ?_
    exact same_bind (runAll (evaluateArgs ctx callees val Site.inOrder args)) fun _ _ => ⟨rfl, rfl⟩
  | .mk (.ifExpr cond thenBranch elseBranch) span, h =>
    computesCall_ifExpr (computesCall_lowerExpr hbuffers hheld cond h.1)
      (computesCall_lowerExpr hbuffers hheld thenBranch h.2.1) (computesCall_lowerExpr hbuffers hheld elseBranch h.2.2)
  | .mk (.lit (.float _)) _, h | .mk (.lit (.imag _)) _, h | .mk (.lit (.str _)) _, h | .mk (.lit (.bytes _)) _, h
  | .mk (.lit .none) _, h | .mk (.format _) _, h | .mk (.tuple _) _, h | .mk (.list _) _, h | .mk (.set _) _, h
  | .mk (.dict _) _, h | .mk (.comp _ _ _ _) _, h | .mk (.lambda _ _ _) _, h | .mk (.attr _ _) _, h
  | .mk (.index _ _) _, h | .mk (.borrow _) _, h | .mk (.await _) _, h | .mk (.yield _) _, h | .mk (.yieldFrom _) _, h
  | .mk (.cast _ _) _, h => False.elim h

theorem computesCall_subArgs (hbuffers : ∀ ty op, isPlain ty = true → ctx.eco.lookupBufferBinop ty op = none)
    (hheld : ∀ id ∈ ids, ∃ v, val id = some v) : ∀ args : List CallArg, DecidedArgs ctx ids args →
      List.Forall₂ (fun a x => ComputesCall callees.returns ids val a.lower x) (subArgs ctx args)
        (evaluateArgs ctx callees val Site.inOrder args)
  | [], _ => .nil
  | .positional e :: rest, h =>
    .cons (computesCall_lowerExpr hbuffers hheld e h.1) (computesCall_subArgs hbuffers hheld rest h.2)
  | .keyword _ e :: rest, h =>
    .cons (computesCall_lowerExpr hbuffers hheld e h.1) (computesCall_subArgs hbuffers hheld rest h.2)
  | .starArgs _ :: _, h | .starStarKwargs _ :: _, h => False.elim h

end

/-! ## Evaluation with other arguments -/

theorem logs_run (o : Outcome) : Traced.Logs (o.run : Traced History Stop Site Value) := by
  cases o <;> exact fun log => List.suffix_refl log

theorem logs_callFn (returns : Functions) (fn : DefId) (args : List Value) :
    Traced.Logs (callFn returns fn args : Traced History Stop Site Value) := by
  intro log
  unfold callFn
  split <;> exact List.suffix_cons _ _

theorem logs_runSite (returns : Functions) (taken : Site → Option (List Value)) (fn : DefId) (site : Site) :
    Traced.Logs (runSite returns taken fn site) := by
  unfold runSite
  refine Traced.Logs.bind (fun log => List.suffix_refl log) fun _ => ?_
  split
  · exact logs_callFn returns fn _
  · exact logs_run .undefined

theorem logs_runAll {xs : List (Traced History Stop Site Value)} (h : ∀ x ∈ xs, Traced.Logs x) :
    Traced.Logs (runAll xs) := by
  induction xs with
  | nil => exact Traced.logs_pure []
  | cons x rest ih =>
    refine Traced.Logs.bind (h x List.mem_cons_self) fun v => ?_
    exact Traced.Logs.bind (ih fun y hy => h y (List.mem_cons_of_mem _ hy)) fun vs => Traced.logs_pure _

theorem logs_decideCall {isAnd : Bool} {x : Traced History Stop Site Value} (hx : Traced.Logs x) (v : Value) :
    Traced.Logs (decideCall isAnd x v) := by
  cases v with
  | bool t =>
    by_cases ht : t = isAnd
    · rw [decideCall, if_pos ht]
      exact hx
    · rw [decideCall, if_neg ht]
      exact Traced.logs_pure _
  | int n => exact logs_run .undefined
  | str s => exact logs_run .undefined

theorem logs_chooseCall {x y : Traced History Stop Site Value} (hx : Traced.Logs x) (hy : Traced.Logs y) (v : Value) :
    Traced.Logs (chooseCall x y v) := by
  cases v with
  | bool t => cases t <;> assumption
  | int n => exact logs_run .undefined
  | str s => exact logs_run .undefined

theorem logs_ofOption (o : Option Value) : Traced.Logs (ofOption o) := by
  cases o with
  | none => exact logs_run .undefined
  | some v => exact Traced.logs_pure v

section Evaluate

variable (ctx callees val) (taken : Site → Option (List Value))

mutual

theorem logs_evaluate : ∀ e : Expr, Traced.Logs (evaluate ctx callees val taken e)
  | .mk (.lit _) _ => logs_ofOption _
  | .mk (.name _) _ => logs_ofOption _
  | .mk (.un _ operand) _ => (logs_evaluate operand).bind fun _ => logs_run _
  | .mk (.bin op lhs rhs) _ => by
    rw [evaluate]
    split
    · exact (logs_evaluate lhs).bind fun v => logs_decideCall (logs_evaluate rhs) v
    · exact (logs_evaluate lhs).bind fun _ => (logs_evaluate rhs).bind fun _ => logs_run _
  | .mk (.call callee args) _ => by
    unfold evaluate
    split
    · exact (logs_runAll (logs_evaluateArgs args)).bind fun _ => logs_runSite _ _ _ _
    · exact logs_run .undefined
  | .mk (.ifExpr cond thenBranch elseBranch) _ =>
    (logs_evaluate cond).bind fun v => logs_chooseCall (logs_evaluate thenBranch) (logs_evaluate elseBranch) v
  | .mk (.format _) _ | .mk (.tuple _) _ | .mk (.list _) _ | .mk (.set _) _ | .mk (.dict _) _ | .mk (.comp _ _ _ _) _
  | .mk (.lambda _ _ _) _ | .mk (.attr _ _) _ | .mk (.index _ _) _ | .mk (.borrow _) _ | .mk (.await _) _
  | .mk (.yield _) _ | .mk (.yieldFrom _) _ | .mk (.cast _ _) _ => logs_run .undefined

theorem logs_evaluateArgs : ∀ args : List CallArg, ∀ x ∈ evaluateArgs ctx callees val taken args, Traced.Logs x
  | [] => fun _ h => absurd h List.not_mem_nil
  | .positional e :: rest | .keyword _ e :: rest | .starArgs e :: rest | .starStarKwargs e :: rest =>
    List.forall_mem_cons.2 ⟨logs_evaluate e, logs_evaluateArgs rest⟩

end

end Evaluate

/-- The arguments are passed as the parameters are bound. -/
def Site.Aligned (site : Site) : Prop :=
  site.bound = some site.passed

instance (site : Site) : Decidable site.Aligned :=
  inferInstanceAs (Decidable (site.bound = some site.passed))

theorem agree_run (o : Outcome) : Traced.Agree Site.Aligned (o.run : Traced History Stop Site Value) o.run := by
  cases o <;> exact fun _ => .inl ⟨fun _ h => absurd h List.not_mem_nil, rfl⟩

theorem sites_callFn (returns : Functions) (fn : DefId) (args : List Value) (log : History) :
    (callFn returns fn args log : Except Stop Value × History × List Site).2.2 = [] := by
  unfold callFn
  split <;> rfl

theorem sites_runSite (returns : Functions) (taken : Site → Option (List Value)) (fn : DefId) (site : Site)
    (log : History) : (runSite returns taken fn site log).2.2 = [site] := by
  unfold runSite
  rw [Traced.bind_apply]
  show [site] ++ _ = [site]
  cases taken site with
  | none => rfl
  | some args => rw [sites_callFn, List.append_nil]

theorem log_callFn (returns : Functions) (fn : DefId) (args : List Value) (log : History) :
    (callFn returns fn args log : Except Stop Value × History × List Site).2.1 = ⟨fn, args⟩ :: log := by
  unfold callFn
  split <;> rfl

/-- A call with the arguments in order against one with the arguments of the parameters. -/
theorem agree_runSite (returns : Functions) (fn : DefId) (site : Site) :
    Traced.Agree Site.Aligned (runSite returns Site.inOrder fn site) (runSite returns Site.bound fn site) := by
  intro log
  rw [sites_runSite]
  by_cases haligned : site.Aligned
  · refine .inl ⟨List.forall_mem_singleton.2 haligned, ?_⟩
    unfold runSite Site.inOrder
    rw [show site.bound = some site.passed from haligned]
  · refine .inr ⟨⟨site, List.mem_singleton.2 rfl, haligned⟩, log, ⟨fn, site.passed⟩, ?_, ?_⟩
    · have hlog : (runSite returns Site.inOrder fn site log).2.1 = ⟨fn, site.passed⟩ :: log :=
        log_callFn returns fn site.passed log
      rw [hlog]
    · cases hbound : site.bound with
      | none =>
        have hstop : runSite returns Site.bound fn site log = (.error .undefined, log, [site]) := by
          unfold runSite
          rw [hbound]
          rfl
        rw [hstop]
        exact .inl ⟨⟨_, rfl⟩, rfl⟩
      | some args =>
        have hlog : (runSite returns Site.bound fn site log).2.1 = ⟨fn, args⟩ :: log := by
          unfold runSite
          rw [hbound]
          exact log_callFn returns fn args log
        refine .inr ⟨⟨fn, args⟩, fun heq => haligned ?_, by rw [hlog]⟩
        rw [Site.Aligned, hbound]
        exact congrArg (fun event => some event.args) heq

theorem agree_runAll {xs ys : List (Traced History Stop Site Value)} (h : List.Forall₂ (Traced.Agree Site.Aligned) xs ys)
    (hx : ∀ x ∈ xs, Traced.Logs x) (hy : ∀ y ∈ ys, Traced.Logs y) :
    Traced.Agree Site.Aligned (runAll xs) (runAll ys) := by
  induction h with
  | nil => exact Traced.agree_pure _ _
  | cons hagree _ ih =>
    have hx' := fun x hmem => hx x (List.mem_cons_of_mem _ hmem)
    have hy' := fun y hmem => hy y (List.mem_cons_of_mem _ hmem)
    refine hagree.bind (fun v => ?_) (fun v => ?_) fun v => ?_
    · exact (ih hx' hy').bind (fun vs => Traced.agree_pure _ _) (fun vs => Traced.logs_pure _) fun vs => Traced.logs_pure _
    · exact (logs_runAll hx').bind fun vs => Traced.logs_pure _
    · exact (logs_runAll hy').bind fun vs => Traced.logs_pure _

theorem agree_decideCall {isAnd : Bool} {x y : Traced History Stop Site Value} (h : Traced.Agree Site.Aligned x y)
    (v : Value) : Traced.Agree Site.Aligned (decideCall isAnd x v) (decideCall isAnd y v) := by
  cases v with
  | bool t =>
    by_cases ht : t = isAnd
    · rw [decideCall, decideCall, if_pos ht, if_pos ht]
      exact h
    · rw [decideCall, decideCall, if_neg ht, if_neg ht]
      exact Traced.agree_pure _ _
  | int n => exact agree_run .undefined
  | str s => exact agree_run .undefined

theorem agree_chooseCall {x y x' y' : Traced History Stop Site Value} (hx : Traced.Agree Site.Aligned x x')
    (hy : Traced.Agree Site.Aligned y y') (v : Value) :
    Traced.Agree Site.Aligned (chooseCall x y v) (chooseCall x' y' v) := by
  cases v with
  | bool t => cases t <;> assumption
  | int n => exact agree_run .undefined
  | str s => exact agree_run .undefined

theorem agree_ofOption (o : Option Value) : Traced.Agree Site.Aligned (ofOption o) (ofOption o) := by
  cases o with
  | none => exact agree_run .undefined
  | some v => exact Traced.agree_pure _ v

section Evaluate

variable (ctx callees val)

mutual

theorem agree_evaluate : ∀ e : Expr,
    Traced.Agree Site.Aligned (evaluate ctx callees val Site.inOrder e) (evaluate ctx callees val Site.bound e)
  | .mk (.lit _) _ => agree_ofOption _
  | .mk (.name _) _ => agree_ofOption _
  | .mk (.un _ operand) _ =>
    (agree_evaluate operand).bind (fun _ => agree_run _) (fun _ => logs_run _) fun _ => logs_run _
  | .mk (.bin op lhs rhs) _ => by
    have hl := agree_evaluate lhs
    have hr := agree_evaluate rhs
    have hlogs (taken : Site → Option (List Value)) := logs_evaluate ctx callees val taken rhs
    rw [evaluate, evaluate]
    split
    · exact hl.bind (agree_decideCall hr) (logs_decideCall (hlogs _)) (logs_decideCall (hlogs _))
    · refine hl.bind (fun v => ?_) (fun v => (hlogs _).bind fun _ => logs_run _) fun v => (hlogs _).bind fun _ => logs_run _
      exact hr.bind (fun _ => agree_run _) (fun _ => logs_run _) fun _ => logs_run _
  | .mk (.call callee args) _ => by
    unfold evaluate
    split
    · refine (agree_runAll (agree_evaluateArgs args) (logs_evaluateArgs ctx callees val _ args)
        (logs_evaluateArgs ctx callees val _ args)).bind (fun values => ?_) (fun _ => logs_runSite _ _ _ _)
          fun _ => logs_runSite _ _ _ _
      exact agree_runSite _ _ _
    · exact agree_run .undefined
  | .mk (.ifExpr cond thenBranch elseBranch) _ => by
    have hlogs (taken : Site → Option (List Value)) (v : Value) :=
      logs_chooseCall (logs_evaluate ctx callees val taken thenBranch) (logs_evaluate ctx callees val taken elseBranch) v
    rw [evaluate, evaluate]
    exact (agree_evaluate cond).bind (agree_chooseCall (agree_evaluate thenBranch) (agree_evaluate elseBranch))
      (hlogs _) (hlogs _)
  | .mk (.format _) _ | .mk (.tuple _) _ | .mk (.list _) _ | .mk (.set _) _ | .mk (.dict _) _ | .mk (.comp _ _ _ _) _
  | .mk (.lambda _ _ _) _ | .mk (.attr _ _) _ | .mk (.index _ _) _ | .mk (.borrow _) _ | .mk (.await _) _
  | .mk (.yield _) _ | .mk (.yieldFrom _) _ | .mk (.cast _ _) _ => agree_run .undefined

theorem agree_evaluateArgs : ∀ args : List CallArg, List.Forall₂ (Traced.Agree Site.Aligned)
    (evaluateArgs ctx callees val Site.inOrder args) (evaluateArgs ctx callees val Site.bound args)
  | [] => .nil
  | .positional e :: rest | .keyword _ e :: rest | .starArgs e :: rest | .starStarKwargs e :: rest =>
    .cons (agree_evaluate e) (agree_evaluateArgs rest)

end

end Evaluate

/-! ## The code against the meaning -/

/-- The names in scope have locals, and the locals have values. -/
def Initialised (ids : List DefId) (b : BodyBuilder) (f : Frame) : Prop :=
  ∀ id ∈ ids, ∃ l v, b.localOf id = some l ∧ l < b.locals.length ∧ f l = some v

/-- The value of a definition. -/
def BodyBuilder.valueOf (b : BodyBuilder) (f : Frame) (id : DefId) : Option Value :=
  (b.localOf id).bind f

/-- Lowering adds code to the block that is being filled and leaves a block to be filled. In every vector of blocks with
the code, every path from the former comes to the latter unless an assert fails, and the run makes the calls that the
expression means and ends with its value. -/
def LowersTo (ctx : LowerCtx) (callees : Callees) (b : BodyBuilder) (f : Frame) (h : History) (e : Expr) : Prop :=
  ∃ op b', lowerExpr ctx e b = .ok (op, b') ∧ (∃ c block, b'.Open c block) ∧
    ∀ blocks, HasCode blocks b' b.Owns → Leads blocks b'.cursor b.cursor ∧
      DeliversCall callees.returns blocks b b' op f h (evaluate ctx callees (b.valueOf f) Site.bound e h)

/-- A run with the result is at its end, with the calls it has made. -/
theorem DeliversCall.ends {functions : Functions} {b b' : BodyBuilder} {c : BlockId} {block : BasicBlock}
    {op : Operand} {f : Frame} {h : History} {r : Except Stop Value × History × List Site} (hopen : b'.Open c block)
    (hr : DeliversCall functions b'.blocks b b' op f h r) :
    ∃ d, Runs functions b'.blocks ⟨b.point f, h⟩ d ∧ (stepCall functions b'.blocks d = some (.trap r.2.1) ∨
      stepCall functions b'.blocks d = none ∧ d.history = r.2.1) := by
  obtain ⟨stop | v, h', sites⟩ := r
  · cases stop with
    | trap =>
      obtain ⟨d, hruns, htrap⟩ := hr
      exact ⟨d, hruns, .inl htrap⟩
    | undefined =>
      obtain ⟨p, hruns, hnone, -⟩ := hr
      exact ⟨⟨p, h'⟩, hruns, .inr ⟨hnone, rfl⟩⟩
  · obtain ⟨f', hruns, -, -⟩ := hr
    refine ⟨_, hruns, .inr ⟨?_, rfl⟩⟩
    rw [hopen.point_eq]
    simp [stepCall, hopen.get, hopen.placeholder, stepCallTerminator, stepTerminator]

theorem DeliversCall.log_unique {functions : Functions} {b b' : BodyBuilder} {c : BlockId} {block : BasicBlock}
    {op : Operand} {f : Frame} {h : History} {r r' : Except Stop Value × History × List Site} (hopen : b'.Open c block)
    (hr : DeliversCall functions b'.blocks b b' op f h r) (hr' : DeliversCall functions b'.blocks b b' op f h r') :
    r.2.1 = r'.2.1 := by
  obtain ⟨d, hruns, hend⟩ := hr.ends hopen
  obtain ⟨d', hruns', hend'⟩ := hr'.ends hopen
  have hlast {e : Config} {log : History} (hend : stepCall functions b'.blocks e = some (.trap log) ∨
      stepCall functions b'.blocks e = none ∧ e.history = log) (x : Config) :
      stepCall functions b'.blocks e ≠ some (.next x) := by
    intro hnext
    rcases hend with htrap | ⟨hnone, -⟩
    · rw [htrap] at hnext
      cases hnext
    · rw [hnone] at hnext
      cases hnext
  obtain rfl := hruns.last_unique hruns' (hlast hend) (hlast hend')
  rcases hend with htrap | ⟨hnone, hlog⟩ <;> rcases hend' with htrap' | ⟨hnone', hlog'⟩
  · exact CallStep.trap.inj (Option.some.inj (htrap.symm.trans htrap'))
  · rw [htrap] at hnone'
    cases hnone'
  · rw [hnone] at htrap'
    cases htrap'
  · exact hlog.symm.trans hlog'

section

variable {b : BodyBuilder} {f : Frame} {h : History} {e : Expr}

/-- The code passes the arguments in the order in which they stand. -/
theorem code_of_decided (callees : Callees) (h : History) (he : Decided ctx ids e) (hopen : ∃ c block, b.Open c block)
    (hids : Initialised ids b f) (hbuffers : ∀ ty op, isPlain ty = true → ctx.eco.lookupBufferBinop ty op = none) :
    ∃ op b', lowerExpr ctx e b = .ok (op, b') ∧ (∃ c block, b'.Open c block) ∧
      ∀ blocks, HasCode blocks b' b.Owns → Leads blocks b'.cursor b.cursor ∧
        DeliversCall callees.returns blocks b b' op f h (evaluate ctx callees (b.valueOf f) Site.inOrder e h) := by
  obtain ⟨c, block, hopen⟩ := hopen
  have hheld : ∀ id ∈ ids, ∃ v, b.valueOf f id = some v := by
    intro id hid
    obtain ⟨l, v, hl, -, hv⟩ := hids id hid
    exact ⟨v, by rw [BodyBuilder.valueOf, hl]; exact hv⟩
  have hnamed : Named ids b := fun id hid => by
    obtain ⟨l, -, hl, hlt, -⟩ := hids id hid
    exact ⟨l, hl, hlt⟩
  have hvalues : HoldsValues ids (b.valueOf f) b f := fun id _ l hl => by
    rw [BodyBuilder.valueOf, hl]
    rfl
  have hcomputes : ComputesCall callees.returns ids (b.valueOf f) (lowerExpr ctx e)
      (evaluate ctx callees (b.valueOf f) Site.inOrder e) := computesCall_lowerExpr hbuffers hheld e he
  obtain ⟨op, b', hlower, hgrows, -, hrun⟩ := hcomputes b c block hopen hnamed
  refine ⟨op, b', hlower, hgrows.opened, fun blocks hcode => ?_⟩
  exact ⟨(hrun blocks hcode).1, (hrun blocks hcode).2 f hvalues h⟩

theorem aligned_of_lowersTo (he : Decided ctx ids e) (hopen : ∃ c block, b.Open c block) (hids : Initialised ids b f)
    (hbuffers : ∀ ty op, isPlain ty = true → ctx.eco.lookupBufferBinop ty op = none)
    (hlowers : LowersTo ctx callees b f h e) :
    ∀ site ∈ (evaluate ctx callees (b.valueOf f) Site.bound e h).2.2, site.Aligned := by
  obtain ⟨op, b', hlower, ⟨c', block', hopen'⟩, hrun⟩ := code_of_decided callees h he hopen hids hbuffers
  obtain ⟨op₁, b₁, hlower₁, -, hmeans⟩ := hlowers
  rw [hlower] at hlower₁
  cases hlower₁
  have hcode : HasCode b'.blocks b' b.Owns := fun i _ block hblock =>
    ⟨block, hblock, List.prefix_refl _, fun _ => rfl⟩
  have hlogs := (hrun b'.blocks hcode).2.log_unique hopen' (hmeans b'.blocks hcode).2
  exact ((agree_evaluate ctx callees (b.valueOf f) e).log_eq_iff h).1 hlogs

theorem lowersTo_of_aligned (he : Decided ctx ids e) (hopen : ∃ c block, b.Open c block) (hids : Initialised ids b f)
    (hbuffers : ∀ ty op, isPlain ty = true → ctx.eco.lookupBufferBinop ty op = none)
    (haligned : ∀ site ∈ (evaluate ctx callees (b.valueOf f) Site.bound e h).2.2, site.Aligned) :
    LowersTo ctx callees b f h e := by
  obtain ⟨op, b', hlower, hopen', hrun⟩ := code_of_decided callees h he hopen hids hbuffers
  have hsame : evaluate ctx callees (b.valueOf f) Site.inOrder e h = evaluate ctx callees (b.valueOf f) Site.bound e h := by
    rcases agree_evaluate ctx callees (b.valueOf f) e h with ⟨-, hsame⟩ | ⟨⟨site, hsite, hnot⟩, -⟩
    · exact hsame
    · exact absurd (haligned site hsite) hnot
  rw [hsame] at hrun
  exact ⟨op, b', hlower, hopen', hrun⟩

end

/-- The code of an expression does what the expression means exactly when every call that is evaluated gets its arguments
in the order of the parameters. -/
theorem lowersTo_iff (ctx : LowerCtx) (callees : Callees) (ids : List DefId) (b : BodyBuilder) (f : Frame) (h : History)
    (e : Expr) (he : Decided ctx ids e) (hopen : ∃ c block, b.Open c block) (hids : Initialised ids b f)
    (hbuffers : ∀ ty op, isPlain ty = true → ctx.eco.lookupBufferBinop ty op = none) :
    LowersTo ctx callees b f h e ↔
      ∀ site ∈ (evaluate ctx callees (b.valueOf f) Site.bound e h).2.2, site.bound = some site.passed :=
  ⟨aligned_of_lowersTo he hopen hids hbuffers, lowersTo_of_aligned he hopen hids hbuffers⟩

/-! ## Keyword arguments -/

/-- A program with `fn g(x: bool) -> bool` (10) and `fn f(*, a: bool, b: bool) -> bool` (11). -/
def keywordCtx : LowerCtx :=
  { LowerCtx.plain with
    defTy := fun id =>
      if id = 10 then some (.fn [.bool] [] none none .bool)
      else if id = 11 then some (.fn [] [("a", .bool), ("b", .bool)] none none .bool)
      else none }

/-- Functions that return `True`, without defaults. -/
def returnTrue : Callees where
  returns _ _ _ := some (.bool true)
  defaults _ _ := none

def boolLit (b : Bool) : Expr :=
  .mk (.lit (.bool b)) Span.synthetic

def callOf (name : String) (id : DefId) (args : List CallArg) : Expr :=
  .mk (.call (.mk (.name ⟨name, id, .fn⟩) Span.synthetic) args) Span.synthetic

/-- `g(True) if True else False`. -/
def conditionalCall : Expr :=
  .mk (.ifExpr (boolLit true) (callOf "g" 10 [.positional (boolLit true)]) (boolLit false)) Span.synthetic

/-- `f(b=True, a=False)`. -/
def keywordCall : Expr :=
  callOf "f" 11 [.keyword "b" (boolLit true), .keyword "a" (boolLit false)]

theorem lowersTo_iff_conditional :
    LowersTo keywordCtx returnTrue (.new 0 "main" Span.synthetic) (fun _ => none) [] conditionalCall := by
  refine (lowersTo_iff keywordCtx returnTrue [] _ _ _ conditionalCall ⟨trivial, ⟨rfl, trivial, trivial⟩, trivial⟩
    ⟨0, _, rfl, rfl, rfl⟩ (fun id hid => absurd hid List.not_mem_nil) fun _ _ _ => rfl).2 ?_
  exact List.forall_mem_singleton.2 rfl

/-- The code of `f(b=True, a=False)` passes `True` for `a`. -/
theorem keyword_arguments_in_order :
    Decided keywordCtx [] keywordCall ∧
      ¬ LowersTo keywordCtx returnTrue (.new 0 "main" Span.synthetic) (fun _ => none) [] keywordCall := by
  have hdecided : Decided keywordCtx [] keywordCall := ⟨rfl, trivial, trivial, trivial⟩
  refine ⟨hdecided, fun hlowers => ?_⟩
  have haligned := aligned_of_lowersTo hdecided ⟨0, _, rfl, rfl, rfl⟩ (fun id hid => absurd hid List.not_mem_nil)
    (fun _ _ _ => rfl) hlowers
  have hsite : (callSite keywordCtx returnTrue ⟨"f", 11, .fn⟩ [.keyword "b" (boolLit true), .keyword "a" (boolLit false)]
      [.bool true, .bool false]).Aligned := haligned _ (List.mem_singleton.2 rfl)
  exact absurd hsite (by decide)

end Cobrust.Mir
