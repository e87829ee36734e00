import Cobrust.Mir.CallRun

/-!
# The code of operators and calls, with the calls it makes

What the code that `lower_bin`, `lower_un` and `lower_call` emit does on integers and booleans.
-/

namespace Cobrust.Mir

open Exec BodyBuilder Control

variable {τ : Type} {functions : Functions} {ids : List DefId} {val : DefId → Option Value}

theorem computesCall_constant {k : Constant} {v : Value} (hk : constantValue k = some v) :
    ComputesCall functions ids val (pure (Operand.constant k)) (pure v : Traced History Stop τ Value) := by
  intro b c block hopen _
  exact ⟨.constant k, b, rfl, .refl hopen, trivial, fun blocks _ =>
    ⟨.here, fun f _ h => ⟨f, .refl, hk, fun _ _ => rfl⟩⟩⟩

theorem computesCall_lowerName {ctx : LowerCtx} {rn : Hir.ResolvedName} {span : Span} {v : Value} (hrn : rn.defId ∈ ids)
    (hv : val rn.defId = some v) :
    ComputesCall functions ids val (lowerName ctx rn span) (pure v : Traced History Stop τ Value) := by
  intro b c block hopen hn
  have hname : Computes ids val (lowerName ctx rn span) (.value v) := computes_lowerName hrn hv
  obtain ⟨op, b', hlower, hgrows, hbelow, hrun⟩ := hname b c block hopen hn
  obtain rfl : b' = b := by
    obtain ⟨l, hl, -⟩ := hn rn.defId hrn
    have hlookup : lookupLocalForResolved ctx rn span b = .ok (l, b) := by
      unfold lookupLocalForResolved
      exact Control.bind_eq_ok.2 ⟨b, b, Control.get_eq_ok.2 ⟨rfl, rfl⟩, by rw [hl]; rfl⟩
    obtain ⟨l', b₁, hl', hpure⟩ := Control.bind_eq_ok.1 hlower
    rw [hlookup] at hl'
    cases hl'
    exact (Prod.mk.inj (Except.ok.inj hpure)).2.symm
  refine ⟨op, b', hlower, hgrows, hbelow, fun blocks hcode => ⟨.here, fun f hf h => ?_⟩⟩
  have hvalue : Delivers blocks b' b' op f (.value v) := hrun blocks hcode f hf
  exact hvalue.call fun hundefined => by cases hundefined

section Statement

variable {β α : Type} [Readable β α]

theorem continues_assignTemp (name : String) (ty : Ty) (span : Span) {rv : β → Rvalue} {g : α → Outcome}
    (hrv : ∀ (f : Frame) a v, Readable.read f a = some v → f.rvalue (rv a) = g v) :
    Continues functions (fun a => assignTemp name ty (rv a) span) fun v => ((g v).run : Traced History Stop τ Value) := by
  intro b c block a hopen _
  refine ⟨_, _, assignTemp_eq hopen name ty _ span, grows_assignNew name ty span false hopen _, ?_, fun blocks hcode =>
    ⟨.here, fun f v hv h => ?_⟩⟩
  · rw [locals_assignNew]
    exact Nat.lt_succ_self _
  · dsimp only
    rw [← hrv f a v hv]
    exact deliversCall_assignNew name ty span false hopen hcode hopen.owns (.inl rfl) f h

theorem continues_callSymbol (name : String) (ty : Ty) (span : Span) (mutable : Bool) (symbol : String)
    (args : β → List Operand) (values : α → List Value)
    (hargs : ∀ (f : Frame) a v, Readable.read f a = some v → (args a).mapM f.operand = some (values v)) :
    Continues functions (fun a => do
      let dest ← declareLocal name ty span mutable
      callSymbol symbol (args a) dest
      return Operand.move (.ofLocal dest)) fun v => ((callRuntime symbol (values v)).run : Traced History Stop τ Value) := by
  intro b c block a hopen _
  refine ⟨.move (.ofLocal b.locals.length), b.callNew c name ty span mutable symbol (args a), ?_,
    grows_callNew name ty span mutable hopen symbol _, ?_, fun blocks hcode => ⟨?_, fun f v hv h => ?_⟩⟩
  · exact Control.bind_eq_ok.2 ⟨_, _, declareLocal_eq name ty span mutable b,
      Control.bind_eq_ok.2 ⟨(), _, callSymbol_eq hopen name ty span mutable symbol _, rfl⟩⟩
  · rw [locals_callNew]
    exact Nat.lt_succ_self _
  · exact leads_leave (open_addLocal hopen name ty span mutable) hcode hopen.owns rfl
  · exact deliversCall_callNew name ty span mutable hopen hcode hopen.owns (.inr rfl) (hargs f a v hv) h

end Statement

/-! ## Operators -/

/-- What an operator other than `and` and `or` gives. A division by zero fails. -/
def applyBin (op : Hir.BinOp) (a b : Value) : Outcome :=
  if op = .pow then
    match a, b with
    | .int base, .int exp => ipow base.toInt exp.toInt
    | _, _ => .undefined
  else if op = .div || op = .floorDiv || op = .mod then
    match b with
    | .int n => if n = 0#64 then .trap else binop (binToMir op) a b
    | _ => .undefined
  else binop (binToMir op) a b

theorem computesCall_lowerUn {ctx : LowerCtx} {op : Hir.UnaryOp} {operand : Sub} {span : Span}
    {x : Traced History Stop τ Value} (hx : ComputesCall functions ids val operand.lower x) :
    ComputesCall functions ids val (lowerUn ctx op operand span) (do
      let v ← x
      (unop (unToMir op) v).run) :=
  hx.bind (continues_assignTemp "_un" _ span fun f a v hv => by
    rw [Frame.rvalue, show f.operand a = some v from hv])

/-- The divisor is not zero, or the assert fails. -/
def checkDivisor (v : Value × Value) : Traced History Stop τ (Value × Value) :=
  match v.2 with
  | .int n => if n = 0#64 then Outcome.trap.run >>= fun _ => pure v else pure v
  | _ => Outcome.undefined.run >>= fun _ => pure v

theorem continues_divAssert (span : Span) :
    Continues functions (fun p : Operand × Operand => do
      emitDivAssert p.2 span
      return p) (checkDivisor : Value × Value → Traced History Stop τ (Value × Value)) := by
  intro b c block p hopen hbelow
  have hg₁ := grows_assignNew "_divcond" .bool span false hopen (.binaryOp .notEq p.2 (.constant (.int 0)))
  obtain ⟨block₁, hopen₁⟩ := open_assignNew "_divcond" .bool span false hopen (.binaryOp .notEq p.2 (.constant (.int 0)))
  generalize hb₁ : b.assignNew c "_divcond" .bool span false (.binaryOp .notEq p.2 (.constant (.int 0))) = b₁ at hg₁ hopen₁
  have hg₂ := grows_leave hopen₁ (.assert (.copy (.ofLocal b.locals.length)) true .divisionByZero b₁.blocks.length)
  refine ⟨p, b₁.leave c (.assert (.copy (.ofLocal b.locals.length)) true .divisionByZero b₁.blocks.length), ?_,
    hg₁.trans hg₂, ?_, fun blocks hcode => ⟨?_, fun f v hv h => ?_⟩⟩
  · refine Control.bind_eq_ok.2 ⟨(), _, ?_, rfl⟩
    refine Control.bind_eq_ok.2 ⟨_, _, declareLocal_eq "_divcond" .bool span false b, Control.bind_eq_ok.2 ⟨(), b₁, ?_, ?_⟩⟩
    · exact emitStmt_ok.2 ⟨c, hopen.cur, hb₁.symm⟩
    · exact continueAfter_eq hopen₁ _
  · exact Readable.below_mono hbelow (hg₁.trans hg₂).locals.length_le
  · have hcursor : b₁.cursor = b.cursor := (cursor_eq hopen₁).trans (cursor_eq hopen).symm
    exact hcursor ▸ leads_leave hopen₁ hcode hopen.owns rfl
  · have hcode₁ := hg₂.hasCode hcode
    rw [← hb₁] at hcode₁
    have hcond : DeliversCall functions blocks b _ (Operand.copy (.ofLocal b.locals.length)) f h
        (((f.rvalue (.binaryOp .notEq p.2 (.constant (.int 0)))).run : Traced History Stop τ Value) h) :=
      deliversCall_assignNew "_divcond" .bool span false hopen hcode₁ hopen.owns (.inl rfl) f h
    have hrv : f.rvalue (.binaryOp .notEq p.2 (.constant (.int 0))) = binop .notEq v.2 (.int 0#64) := by
      rw [Frame.rvalue, show f.operand p.2 = some v.2 from (read_pair_iff.1 hv).2]
      rfl
    rw [hrv, hb₁] at hcond
    cases hv₂ : v.2 with
    | bool _ =>
      rw [hv₂] at hcond
      rw [checkDivisor, hv₂]
      exact hcond
    | str _ =>
      rw [hv₂] at hcond
      rw [checkDivisor, hv₂]
      exact hcond
    | int n =>
      rw [hv₂] at hcond
      have hbool : binop .notEq (.int n) (.int 0#64) = .value (.bool (n != 0#64)) := rfl
      rw [hbool] at hcond
      obtain ⟨f₁, hrun, hop, hf₁⟩ := hcond
      have hassert := run_assert hopen₁ hcode (hopen.owns : b.Owns c) hop
      rw [checkDivisor, hv₂]
      by_cases hn : n = 0#64
      · subst hn
        exact (halts_of_traps hassert).of_runs hrun
      · have hne : (n != 0#64) = true := by simpa using hn
        rw [hne, if_pos rfl] at hassert
        dsimp only
        rw [if_neg hn]
        exact ⟨f₁, hrun.trans (runs_of_reaches hassert), (Readable.read_congr hbelow hf₁).trans hv, hf₁⟩

/-- The type of an integer or a boolean, or the `none` of an expression whose type lowering does not know. -/
def isNumeric : Ty → Bool
  | .int | .bool | .none => true
  | _ => false

theorem isPlain_of_isNumeric {ty : Ty} (h : isNumeric ty = true) : isPlain ty = true ∧ ty.isStr = false := by
  cases ty <;> first | exact ⟨rfl, rfl⟩ | cases h

section Binary

variable {ctx : LowerCtx} {op : Hir.BinOp} {lhs rhs : Sub} {span : Span} {x y : Traced History Stop τ Value}

theorem read_operands {f : Frame} {p : Operand × Operand} {v : Value × Value} (h : Readable.read f p = some v) :
    f.operand p.1 = some v.1 ∧ f.operand p.2 = some v.2 :=
  read_pair_iff.1 h

theorem continues_binary (op : BinOp) (ty : Ty) (span : Span) :
    Continues functions (fun p : Operand × Operand => assignTemp "_bin" ty (.binaryOp op p.1 p.2) span)
      fun v => ((binop op v.1 v.2).run : Traced History Stop τ Value) :=
  continues_assignTemp "_bin" ty span fun f p v hv => by
    rw [Frame.rvalue, (read_operands hv).1, (read_operands hv).2]

theorem applyBin_divide (hop : (op = .div || op = .floorDiv || op = .mod) = true) (v w : Value) :
    ((checkDivisor (v, w) >>= fun p => (binop (binToMir op) p.1 p.2).run) : Traced History Stop τ Value) =
      (applyBin op v w).run := by
  have hpow : op ≠ .pow := by
    rintro rfl
    simp at hop
  unfold applyBin checkDivisor
  rw [if_neg hpow, if_pos hop]
  cases w with
  | bool _ => rfl
  | str _ => rfl
  | int n =>
    dsimp only
    by_cases hn : n = 0#64
    · rw [if_pos hn, if_pos hn]
      rfl
    · rw [if_neg hn, if_neg hn, pure_bind]

theorem computesCall_lowerBin (hx : ComputesCall functions ids val lhs.lower x)
    (hy : ComputesCall functions ids val rhs.lower y) (hl : isNumeric (ctx.synthExprTy lhs.expr) = true)
    (hr : isNumeric (ctx.synthExprTy rhs.expr) = true)
    (heco : ctx.eco.lookupBufferBinop (ctx.synthExprTy lhs.expr) op = none) (hop : op ≠ .and ∧ op ≠ .or)
    (hfloat : hirExprIsFloat lhs.expr = false) :
    ComputesCall functions ids val (lowerBin ctx op lhs rhs span) (do
      let v ← x
      let w ← y
      (applyBin op v w).run) := by
  obtain ⟨hl, hlstr⟩ := isPlain_of_isNumeric hl
  obtain ⟨hr, hrstr⟩ := isPlain_of_isNumeric hr
  rw [lowerBin_plain hl hr heco hop]
  simp only [hlstr, hrstr, bne_self_eq_false, Bool.and_false, Bool.false_eq_true, if_false]
  have hpair := hx.pair hy
  by_cases hpow : op = .pow
  · have hcall := hpair.bind (continues_callSymbol "_ecoret" .int span true "__cobrust_ipow" (fun p => [p.1, p.2])
      (fun v => [v.1, v.2]) fun f p v hv => by simp [(read_operands hv).1, (read_operands hv).2])
    have happly (v w : Value) : callRuntime "__cobrust_ipow" [v, w] = applyBin op v w := by
      unfold applyBin
      rw [if_pos hpow]
      cases v <;> cases w <;> rfl
    simp only [bind_assoc, pure_bind, happly] at hcall
    simpa only [if_pos hpow, lowerPow, (isPlain_facts hl).2.2.2.1, (isPlain_facts hr).2.2.2.1, Bool.or_self,
      Bool.false_eq_true, if_false, emitEcosystemCall] using hcall
  rw [if_neg hpow]
  by_cases hdiv : (op = .div || op = .floorDiv || op = .mod) = true
  · have hdivide := hpair.bind ((continues_divAssert span).bind (continues_binary (binToMir op)
      (synthBinResultTy op (ctx.synthExprTy lhs.expr) (ctx.synthExprTy rhs.expr)) span))
    simp only [bind_assoc, pure_bind, applyBin_divide hdiv] at hdivide
    simp only [lowerPlainBin, hdiv, hfloat, Bool.not_false, Bool.and_self, if_true]
    exact hdivide
  · have hplain := hpair.bind (continues_binary (binToMir op)
      (synthBinResultTy op (ctx.synthExprTy lhs.expr) (ctx.synthExprTy rhs.expr)) span)
    have happly (v w : Value) : binop (binToMir op) v w = applyBin op v w := by
      unfold applyBin
      rw [if_neg hpow, if_neg hdiv]
    simp only [bind_assoc, pure_bind, happly] at hplain
    simp only [lowerPlainBin, eq_false_of_ne_true hdiv, Bool.false_and, Bool.false_eq_true, if_false]
    exact hplain

end Binary

/-! ## Calls -/

section Call

variable {ctx : LowerCtx} {span : Span}

/-- A call that is recorded, and what the function returns. -/
def callFn (functions : Functions) (fn : DefId) (args : List Value) : Traced History Stop τ Value :=
  fun h =>
    match functions fn args h with
    | some v => (.ok v, ⟨fn, args⟩ :: h, [])
    | none => (.error .trap, ⟨fn, args⟩ :: h, [])

/-- The builder after a call of a function into a new local. -/
def BodyBuilder.callFnNew (b : BodyBuilder) (c : BlockId) (name : String) (ty : Ty) (span : Span) (mutable : Bool)
    (fn : DefId) (args : List Operand) : BodyBuilder :=
  (b.addLocal name ty span mutable).leave c
    (.call (.constant (.fnRef fn)) args (.ofLocal b.locals.length) b.blocks.length none)

theorem continues_callFn (name : String) (ty : Ty) (span : Span) (mutable : Bool) (fn : DefId) :
    Continues functions (fun args : List Operand => do
      let dest ← declareLocal name ty span mutable
      callInto (.constant (.fnRef fn)) args (.ofLocal dest)
      return Operand.move (.ofLocal dest)) fun values => (callFn functions fn values : Traced History Stop τ Value) := by
  intro b c block args hopen _
  have hopen' := open_addLocal hopen name ty span mutable
  have hg := (grows_addLocal hopen name ty span mutable).trans
    (grows_leave hopen' (.call (.constant (.fnRef fn)) args (.ofLocal b.locals.length) b.blocks.length none))
  refine ⟨.move (.ofLocal b.locals.length), b.callFnNew c name ty span mutable fn args, ?_, hg, ?_, fun blocks hcode =>
    ⟨?_, fun f values hread h => ?_⟩⟩
  · exact Control.bind_eq_ok.2 ⟨_, _, declareLocal_eq name ty span mutable b,
      Control.bind_eq_ok.2 ⟨(), _, continueAfter_eq hopen' _, rfl⟩⟩
  · refine Nat.lt_of_lt_of_le ?_ (grows_leave hopen' _).locals.length_le
    simp [BodyBuilder.addLocal]
  · exact leads_leave hopen' hcode hopen.owns rfl
  · obtain ⟨final, hfinal, -, hsame⟩ := hcode c hopen.owns _ (block_leave_self hopen' _)
    have hne : (b.callFnNew c name ty span mutable fn args).curBlock ≠ some c := by
      rw [BodyBuilder.callFnNew]
      simpa [leave] using hopen'.lt.ne'
    rw [hsame hne] at hfinal
    have hargs : args.mapM f.operand = some values := hread
    have hstep : stepCall functions blocks ⟨b.point f, h⟩ =
        stepFn functions fn args b.locals.length b.blocks.length f h := by
      rw [hopen.point_eq]
      simp [stepCall, hfinal, stepCallTerminator, Place.ofLocal]
    unfold stepFn at hstep
    rw [hargs] at hstep
    dsimp only at hstep
    dsimp only [callFn]
    cases hreturn : functions fn values h with
    | none =>
      rw [hreturn] at hstep
      exact ⟨⟨b.point f, h⟩, .refl, hstep⟩
    | some v =>
      rw [hreturn] at hstep
      refine ⟨f.set b.locals.length v, .next ?_, f.set_self _ v, set_below f b v⟩
      rw [BodyBuilder.callFnNew, point_leave hopen', hstep]
      rfl

theorem below_upgrade (borrows : Ty → Bool) (b : BodyBuilder) {n : Nat} {op : Operand} (h : op.Below n) :
    (upgradeMoveToCopyWhen borrows b op).Below n := by
  unfold upgradeMoveToCopyWhen
  split
  · next p =>
    obtain ⟨l, projections⟩ := p
    cases projections <;> split <;> exact h
  · exact h

theorem operand_upgradeWhen (borrows : Ty → Bool) (b : BodyBuilder) (f : Frame) (op : Operand) :
    f.operand (upgradeMoveToCopyWhen borrows b op) = f.operand op := by
  unfold upgradeMoveToCopyWhen
  split
  · next p =>
    obtain ⟨l, projections⟩ := p
    cases projections <;> split <;> rfl
  · rfl

theorem below_upgradeCallArg (callee : Hir.Expr) (b : BodyBuilder) {n : Nat} {op : Operand} (h : op.Below n) :
    (upgradeCallArg callee b op).Below n := by
  unfold upgradeCallArg
  split_ifs
  · exact below_upgrade Ty.isStr b h
  · exact below_upgrade Ty.isBytes b h
  · exact h

theorem operand_upgradeCallArg (callee : Hir.Expr) (b : BodyBuilder) (f : Frame) (op : Operand) :
    f.operand (upgradeCallArg callee b op) = f.operand op := by
  unfold upgradeCallArg
  split_ifs
  · exact operand_upgradeWhen Ty.isStr b f op
  · exact operand_upgradeWhen Ty.isBytes b f op
  · rfl

theorem computesCall_upgrade (callee : Hir.Expr) {m : LowerM Operand} {x : Traced History Stop τ Value}
    (hm : ComputesCall functions ids val m x) :
    ComputesCall functions ids val (do
      let op ← m
      let b ← get
      return upgradeCallArg callee b op) x := by
  intro b c block hopen hn
  obtain ⟨op, b₁, hm₁, hg₁, hbelow₁, hrun₁⟩ := hm b c block hopen hn
  refine ⟨upgradeCallArg callee b₁ op, b₁, ?_, hg₁, below_upgradeCallArg callee b₁ hbelow₁, fun blocks hcode => ?_⟩
  · exact Control.bind_eq_ok.2 ⟨op, b₁, hm₁, Control.bind_eq_ok.2 ⟨b₁, b₁, Control.get_eq_ok.2 ⟨rfl, rfl⟩, rfl⟩⟩
  · obtain ⟨hleads, hdelivers⟩ := hrun₁ blocks hcode
    refine ⟨hleads, fun f hf h => ?_⟩
    have hop := hdelivers f hf h
    rcases hxh : x h with ⟨stop | v, h', sites⟩
    all_goals rw [hxh] at hop
    · exact hop
    · obtain ⟨f', hrun, hread, hf'⟩ := hop
      exact ⟨f', hrun, (operand_upgradeCallArg callee b₁ f' op).trans hread, hf'⟩

/-- The programs of a list of arguments, in order. -/
def runAll : List (Traced History Stop τ Value) → Traced History Stop τ (List Value)
  | [] => pure []
  | x :: rest => do
    let v ← x
    let vs ← runAll rest
    return v :: vs

theorem computesCall_lowerCallArgs (callee : Hir.Expr) {args : List SubArg} {xs : List (Traced History Stop τ Value)}
    (h : List.Forall₂ (fun a x => ComputesCall functions ids val a.lower x) args xs) :
    ComputesCall functions ids val (lowerCallArgs callee args) (runAll xs) := by
  induction h with
  | nil =>
    intro b c block hopen _
    exact ⟨[], b, rfl, .refl hopen, fun op hop => absurd hop List.not_mem_nil, fun blocks _ =>
      ⟨.here, fun f _ h => ⟨f, .refl, rfl, fun _ _ => rfl⟩⟩⟩
  | @cons a x args xs hx _ ih =>
    have hcons : Continues functions (fun p : Operand × List Operand => pure (p.1 :: p.2))
        fun v => (pure (v.1 :: v.2) : Traced History Stop τ (List Value)) := by
      refine continues_pure (fun n p hp => ?_) fun f p v hv => ?_
      · exact List.forall_mem_cons.2 ⟨hp.1, hp.2⟩
      · obtain ⟨h₁, h₂⟩ := read_pair_iff.1 hv
        have h₁ : f.operand p.1 = some v.1 := h₁
        have h₂ : p.2.mapM f.operand = some v.2 := h₂
        show (p.1 :: p.2).mapM f.operand = some (v.1 :: v.2)
        simp [h₁, h₂]
    have hall := ((computesCall_upgrade callee hx).pair ih).bind hcons
    simp only [bind_assoc, pure_bind] at hall
    exact hall

/-- The values that the callee gets, in the order in which the arguments stand; `range(n)` starts at 0. -/
def packArgs (name : String) (values : List Value) : List Value :=
  if name = "range" ∧ values.length = 1 then .int 0#64 :: values else values

/-- The operands that the callee gets. -/
def packOperands (name : String) (ops : List Operand) : List Operand :=
  if name = "range" ∧ ops.length = 1 then .constant (.int 0) :: ops else ops

theorem continues_pack (name : String) :
    Continues functions (fun ops => pure (packOperands name ops))
      fun values => (pure (packArgs name values) : Traced History Stop τ (List Value)) := by
  refine continues_pure (fun n ops hops => ?_) fun f ops values hread => ?_
  · unfold packOperands
    split_ifs
    · exact List.forall_mem_cons.2 ⟨trivial, hops⟩
    · exact hops
  · have hread : ops.mapM f.operand = some values := hread
    have hlen : values.length = ops.length := by
      clear * - hread
      induction ops generalizing values with
      | nil =>
        obtain rfl : [] = values := by simpa using hread
        rfl
      | cons op rest ih =>
        rw [List.mapM_cons] at hread
        obtain ⟨v, -, hread⟩ := Option.bind_eq_some_iff.1 hread
        obtain ⟨vs, hvs, hread⟩ := Option.bind_eq_some_iff.1 hread
        cases hread
        rw [List.length_cons, List.length_cons, ih vs hvs]
    show (packOperands name ops).mapM f.operand = some (packArgs name values)
    unfold packOperands packArgs
    rw [hlen]
    split_ifs
    · rw [List.mapM_cons, hread]
      rfl
    · exact hread

theorem computesCall_lowerFnCall {rn : Hir.ResolvedName} {cspan : Span} {lower : LowerM Operand} {args : List SubArg}
    {positional : List Ty} {named : List (String × Ty)} {varPositional varKeyword : Option Ty} {returnTy : Ty}
    {xs : List (Traced History Stop τ Value)}
    (hty : ctx.lookupTy rn.defId = .fn positional named varPositional varKeyword returnTy)
    (hlist : (ctx.lookupTy rn.defId).isListFn = false)
    (hargs : List.Forall₂ (fun a x => ComputesCall functions ids val a.lower x) args xs) :
    ComputesCall functions ids val (lowerFnCall ctx ⟨.mk (.name rn) cspan, lower⟩ args span) (do
      let values ← runAll xs
      callFn functions rn.defId (packArgs rn.name values)) := by
  have hcallee : lowerCallee ctx ⟨.mk (.name rn) cspan, lower⟩ = pure (.constant (.fnRef rn.defId)) := by
    unfold lowerCallee
    dsimp only
    rw [hty]
  have hpack (ops : List Operand) :
      packCallArgs ctx (.mk (.name rn) cspan) args ops span = pure (packOperands rn.name ops) := by
    have hreducer : calleeIsListReducer ctx (.mk (.name rn) cspan) = false := by
      rw [calleeIsListReducer, calleeIsListFn, hlist, Bool.and_false]
    unfold packCallArgs packOperands
    simp only [hreducer, Bool.false_and, Bool.false_eq_true, if_false, pure_bind, calleeName, Bool.and_eq_true,
      decide_eq_true_eq, Option.some.injEq]
    split <;> rfl
  have hcall := ((computesCall_lowerCallArgs (.mk (.name rn) cspan) hargs).bind (continues_pack rn.name)).bind
    (continues_callFn "_callret" (calleeReturnTy ctx (.mk (.name rn) cspan) args) span true rn.defId)
  simp only [bind_assoc, pure_bind] at hcall
  simpa only [lowerFnCall, hcallee, hpack, pure_bind] using hcall

end Call

end Cobrust.Mir
