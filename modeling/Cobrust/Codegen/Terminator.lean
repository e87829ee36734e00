import Cobrust.Codegen.Binop
import Cobrust.Control.Outcome
import Cobrust.Llvm.Value
import Cobrust.Mir.Lower.Stmt

/-!
# Terminators in LLVM

`lower_terminator`, `lower_call`, `lower_switch_int` and `lower_block` of
`cobrust-codegen/src/llvm_backend.rs`: each block becomes an LLVM block, and an assert gets a trap block of
its own. The straight-line code of statements, calls and drops is one instruction here, whose meaning is
the same before and after the lowering.

* `unreachable_iff`: the code runs into an `unreachable` exactly when the body leaves a block abnormally,
  through `Unreachable` or a failed assert. Nothing traps there.
-/

namespace Cobrust.Codegen

open Control (except_bind_ok)
open Llvm (AtTerm Meaning Reaches Undefined)
open Mir (BasicBlock BlockId Body Operand Place Statement SwitchValue Terminator)
open Relation (ReflTransGen)

inductive Label where
  | bb (id : BlockId)
  /-- The block of a failed assert. -/
  | trap (id : BlockId)
  deriving DecidableEq

/-- Straight-line code. -/
inductive Inst where
  | stmt (s : Statement)
  /-- A call whose result goes to `destination`. -/
  | call (func : Operand) (args : List Operand) (destination : Place)
  /-- A zero in the place of the result of an unknown function. -/
  | stub (destination : Place)
  | drop (place : Place)

structure EmitCtx where
  /-- The functions of the program, by the ids of their bodies. -/
  functions : Nat → Bool
  /-- The declared functions of the runtime. -/
  helpers : String → Bool
  /-- Whether the code of an instruction and of an operand can be emitted. -/
  emitInst : Inst → Except CodegenError Unit
  emitOperand : Operand → Except CodegenError Unit

variable (cx : EmitCtx)

def blockOf (body : Body) (id : BlockId) : Except CodegenError Label :=
  if id < body.blocks.length then .ok (.bb id)
  else .error (.invalidMir s!"terminator targets non-existent block bb{id} in body `{body.name}`")

def payload : SwitchValue → Int
  | .bool b => if b then 1 else 0
  | .int n => n
  | .adt d => d

def lowerSwitchInt (body : Body) (scrutinee : Operand) (cases : List (SwitchValue × BlockId))
    (otherwise : BlockId) : Except CodegenError (Llvm.Term Label Operand) := do
  let otherwiseBlk ← blockOf body otherwise
  if cases.isEmpty then return .br otherwiseBlk
  let casePairs ← cases.mapM fun entry => do
    let target ← blockOf body entry.2
    return (payload entry.1, target)
  return .switch scrutinee casePairs otherwiseBlk

/-- The code of a call: a function of the program or the runtime, or a stub for any other. -/
def callInst (func : Operand) (args : List Operand) (destination : Place) : Inst :=
  match func with
  | .constant (.fnRef id) => if cx.functions id then .call func args destination else .stub destination
  | .constant (.str name) => if cx.helpers name then .call func args destination else .stub destination
  | _ => .stub destination

def isPanic (func : Operand) : Bool :=
  match func with
  | .constant (.str name) => cx.helpers name && name == "__cobrust_panic"
  | _ => false

def lowerCall (body : Body) (func : Operand) (args : List Operand) (destination : Place)
    (target : BlockId) : Except CodegenError (List Inst × Llvm.Term Label Operand) := do
  let inst := callInst cx func args destination
  cx.emitInst inst
  if isPanic cx func then return ([inst], .unreachable)
  let blk ← blockOf body target
  return ([inst], .br blk)

/-- `lower_terminator`, for block `id`. -/
def lowerTerminator (body : Body) (id : BlockId) :
    Terminator → Except CodegenError (List Inst × Llvm.Term Label Operand)
  | .goto target => do
    let blk ← blockOf body target
    return ([], .br blk)
  | .ret => return ([], .ret)
  | .unreachable => return ([], .unreachable)
  | .switchInt operand cases otherwise => do
    cx.emitOperand operand
    let term ← lowerSwitchInt body operand cases otherwise
    return ([], term)
  | .assert cond expected _ target => do
    cx.emitOperand cond
    let targetBlk ← blockOf body target
    if expected then return ([], .condBr cond targetBlk (.trap id))
    else return ([], .condBr cond (.trap id) targetBlk)
  | .drop place target => do
    cx.emitInst (.drop place)
    let blk ← blockOf body target
    return ([.drop place], .br blk)
  | .call func args destination target _ => lowerCall cx body func args destination target

def lowerBlock (body : Body) (id : BlockId) (block : BasicBlock) :
    Except CodegenError (Llvm.Block Label Operand Inst) := do
  let stmts := block.statements.map Inst.stmt
  stmts.forM cx.emitInst
  let (insts, term) ← lowerTerminator cx body id block.terminator
  return ⟨stmts ++ insts, term⟩

/-- The blocks from number `id` on. -/
def lowerBlocks (body : Body) :
    BlockId → List BasicBlock → Except CodegenError (List (Llvm.Block Label Operand Inst))
  | _, [] => return []
  | id, block :: rest => do
    let lowered ← lowerBlock cx body id block
    let others ← lowerBlocks body (id + 1) rest
    return lowered :: others

def isAssert : Terminator → Bool
  | .assert _ _ _ _ => true
  | _ => false

/-- The blocks of a body, and the trap blocks of its asserts. -/
def lowerBody (body : Body) : Except CodegenError (Llvm.Fn Label Operand Inst) := do
  let blocks ← lowerBlocks cx body 0 body.blocks
  return fun label =>
    match label with
    | .bb id => blocks[id]?
    | .trap id =>
      if body.blocks[id]?.any fun block => isAssert block.terminator then some ⟨[], .unreachable⟩
      else none

/-- How a block is left: to another block, by a return, or abnormally. -/
inductive Exit where
  | next (target : BlockId)
  | ret
  | abnormal
  deriving DecidableEq

variable {σ : Type} (m : Meaning Operand Inst σ)

/-- The code that a terminator runs before control goes on. -/
def effect : Terminator → List Inst
  | .call func args destination _ _ => [callInst cx func args destination]
  | .drop place _ => [.drop place]
  | _ => []

def exit (s : σ) : Terminator → Exit
  | .goto target => .next target
  | .switchInt operand cases otherwise =>
    .next (((cases.map fun entry => (payload entry.1, entry.2)).lookup (m.value operand s)).getD otherwise)
  | .ret => .ret
  | .call _ _ _ target _ => .next target
  | .drop _ target => .next target
  | .unreachable => .abnormal
  | .assert cond expected _ target =>
    if (m.value cond s != 0) = expected then .next target else .abnormal

/-- A block of a body has run and is left. -/
def Exits (body : Body) (c : BlockId × σ) (how : Exit) (s : σ) : Prop :=
  ∃ block, body.blocks[c.1]? = some block ∧
    m.run (block.statements.map Inst.stmt ++ effect cx block.terminator) c.2 = some s ∧
    exit m s block.terminator = how

/-- From one block of a body to the next. -/
abbrev BodyReaches (body : Body) : BlockId × σ → BlockId × σ → Prop :=
  ReflTransGen fun c c' => Exits cx m body c (.next c'.1) c'.2

/-- `raise`, a match without a matching arm, or a failed assert. -/
def Abnormal (body : Body) (c : BlockId × σ) : Prop :=
  ∃ s, Exits cx m body c .abnormal s

variable {cx m} {body : Body} {id : BlockId} {insts : List Inst} {term : Llvm.Term Label Operand} {s : σ}

/-! ## One terminator -/

theorem blockOf_ok {l : Label} (h : blockOf body id = .ok l) : l = .bb id := by
  rw [blockOf] at h
  split at h
  · cases h
    rfl
  · cases h

theorem lookup_bb (cases : List (SwitchValue × BlockId)) (v : Int) :
    (cases.map fun entry => (payload entry.1, Label.bb entry.2)).lookup v =
      ((cases.map fun entry => (payload entry.1, entry.2)).lookup v).map Label.bb := by
  induction cases with
  | nil => rfl
  | cons entry rest ih =>
    rw [List.map_cons, List.map_cons, List.lookup_cons, List.lookup_cons]
    split
    · rfl
    · exact ih

theorem casePairs_ok {cases : List (SwitchValue × BlockId)} {pairs : List (Int × Label)}
    (h : (cases.mapM fun entry => do
      let target ← blockOf body entry.2
      return (payload entry.1, target)) = Except.ok pairs) :
    pairs = cases.map fun entry => (payload entry.1, Label.bb entry.2) := by
  induction cases generalizing pairs with
  | nil =>
    cases h
    rfl
  | cons entry rest ih =>
    rw [List.mapM_cons] at h
    obtain ⟨pair, hpair, h⟩ := except_bind_ok.1 h
    obtain ⟨target, htarget, hpair⟩ := except_bind_ok.1 hpair
    obtain ⟨others, hothers, h⟩ := except_bind_ok.1 h
    cases hpair
    cases h
    rw [List.map_cons, blockOf_ok htarget, ih hothers]

/-- The terminator goes where the block is left to; where it is left abnormally, the terminator is
`unreachable` or goes to the trap block. -/
def Agrees (m : Meaning Operand Inst σ) (id : BlockId) (t : Terminator) (term : Llvm.Term Label Operand)
    (s : σ) : Prop :=
  match exit m s t with
  | .next target => term.next m s = some (.bb target)
  | .ret => term = .ret
  | .abnormal => term = .unreachable ∨ isAssert t = true ∧ term.next m s = some (.trap id)

theorem lowerSwitchInt_next {scrutinee : Operand} {cases : List (SwitchValue × BlockId)}
    {otherwise : BlockId} (h : lowerSwitchInt body scrutinee cases otherwise = .ok term) :
    Agrees m id (.switchInt scrutinee cases otherwise) term s := by
  obtain ⟨other, hother, h⟩ := except_bind_ok.1 h
  have hbb := blockOf_ok hother
  subst hbb
  show term.next m s = some (.bb _)
  split at h
  · next hempty =>
    cases h
    rw [List.isEmpty_iff.1 hempty]
    rfl
  · obtain ⟨pairs, hpairs, h⟩ := except_bind_ok.1 h
    cases h
    rw [casePairs_ok hpairs, Llvm.Term.next, lookup_bb]
    congr 1
    cases ((cases.map fun entry => (payload entry.1, entry.2)).lookup (m.value scrutinee s)) <;> rfl

/-- Nothing comes back from `__cobrust_panic`. -/
def PanicDiverges (cx : EmitCtx) (m : Meaning Operand Inst σ) : Prop :=
  ∀ func args destination s, isPanic cx func = true → m.exec (.call func args destination) s = none

theorem callInst_of_isPanic {func : Operand} (args : List Operand) (destination : Place)
    (h : isPanic cx func = true) : callInst cx func args destination = .call func args destination := by
  unfold isPanic at h
  split at h
  · rw [Bool.and_eq_true] at h
    exact if_pos h.1
  · cases h

theorem lowerTerminator_agrees (hpanic : PanicDiverges cx m) {t : Terminator}
    (h : lowerTerminator cx body id t = .ok (insts, term)) :
    insts = effect cx t ∧
      (Agrees m id t term s ∨ ∃ inst, insts = [inst] ∧ ∀ s, m.exec inst s = none) := by
  cases t with
  | goto target =>
    obtain ⟨blk, hblk, h⟩ := except_bind_ok.1 h
    cases h
    rw [blockOf_ok hblk]
    exact ⟨rfl, .inl rfl⟩
  | ret =>
    cases h
    exact ⟨rfl, .inl rfl⟩
  | unreachable =>
    cases h
    exact ⟨rfl, .inl (.inl rfl)⟩
  | switchInt operand cases otherwise =>
    obtain ⟨-, -, h⟩ := except_bind_ok.1 h
    obtain ⟨term', hterm, h⟩ := except_bind_ok.1 h
    cases h
    exact ⟨rfl, .inl (lowerSwitchInt_next hterm)⟩
  | drop place target =>
    obtain ⟨-, -, h⟩ := except_bind_ok.1 h
    obtain ⟨blk, hblk, h⟩ := except_bind_ok.1 h
    cases h
    rw [blockOf_ok hblk]
    exact ⟨rfl, .inl rfl⟩
  | assert cond expected msg target =>
    obtain ⟨-, -, h⟩ := except_bind_ok.1 h
    obtain ⟨blk, hblk, h⟩ := except_bind_ok.1 h
    have hbb := blockOf_ok hblk
    subst hbb
    by_cases hcond : m.value cond s = 0 <;> cases expected <;> cases h <;>
      refine ⟨rfl, .inl ?_⟩ <;> simp [Agrees, exit, Llvm.Term.next, isAssert, hcond]
  | call func args destination target unwind =>
    obtain ⟨-, -, h⟩ := except_bind_ok.1 h
    split at h
    · next hp =>
      cases h
      refine ⟨rfl, .inr ⟨_, rfl, fun s => ?_⟩⟩
      rw [callInst_of_isPanic args destination hp]
      exact hpanic func args destination s hp
    · obtain ⟨blk, hblk, h⟩ := except_bind_ok.1 h
      cases h
      rw [blockOf_ok hblk]
      exact ⟨rfl, .inl rfl⟩

/-! ## Simulation -/

theorem lowerBlocks_get {n : BlockId} {blocks : List BasicBlock}
    {lowered : List (Llvm.Block Label Operand Inst)} (h : lowerBlocks cx body n blocks = .ok lowered)
    (k : Nat) :
    (blocks[k]? = none ∧ lowered[k]? = none) ∨
      ∃ block blk, blocks[k]? = some block ∧ lowered[k]? = some blk ∧
        lowerBlock cx body (n + k) block = .ok blk := by
  induction blocks generalizing n lowered k with
  | nil =>
    cases h
    exact .inl ⟨rfl, rfl⟩
  | cons block rest ih =>
    obtain ⟨blk, hblk, h⟩ := except_bind_ok.1 h
    obtain ⟨others, hothers, h⟩ := except_bind_ok.1 h
    cases h
    cases k with
    | zero => exact .inr ⟨block, blk, rfl, rfl, hblk⟩
    | succ k =>
      have hk := ih hothers k
      rw [Nat.succ_add_eq_add_succ] at hk
      exact hk

variable {fn : Llvm.Fn Label Operand Inst}

/-- What the blocks of a lowered body are. -/
structure Lowered (cx : EmitCtx) (body : Body) (fn : Llvm.Fn Label Operand Inst) : Prop where
  bb : ∀ id, (body.blocks[id]? = none ∧ fn (.bb id) = none) ∨
    ∃ block blk, body.blocks[id]? = some block ∧ fn (.bb id) = some blk ∧
      lowerBlock cx body id block = .ok blk
  trap : ∀ id block, body.blocks[id]? = some block → isAssert block.terminator = true →
    fn (.trap id) = some ⟨[], .unreachable⟩

theorem lowered_lowerBody (h : lowerBody cx body = .ok fn) : Lowered cx body fn := by
  obtain ⟨blocks, hblocks, h⟩ := except_bind_ok.1 h
  cases h
  refine ⟨fun id => ?_, fun id block hblock hassert => ?_⟩
  · have hget := lowerBlocks_get hblocks id
    rw [Nat.zero_add] at hget
    exact hget
  · refine if_pos ?_
    rw [hblock]
    exact hassert

/-- The terminator of a lowered block is reached in the state in which the block is left. -/
theorem atTerm_bb (hlowered : Lowered cx body fn) (hpanic : PanicDiverges cx m) {s₀ : σ} :
    AtTerm m fn (.bb id, s₀) term s →
      ∃ t block, body.blocks[id]? = some block ∧ block.terminator = t ∧
        Exits cx m body (id, s₀) (exit m s t) s ∧ Agrees m id t term s := by
  rintro ⟨blk, hfn, hrun, hterm⟩
  rcases hlowered.bb id with ⟨-, hnone⟩ | ⟨block, blk', hblock, hfn', hlower⟩
  · rw [hnone] at hfn
    cases hfn
  · obtain rfl : blk = blk' := Option.some.inj (hfn.symm.trans hfn')
    obtain ⟨-, -, hlower⟩ := except_bind_ok.1 hlower
    obtain ⟨⟨insts, term'⟩, hlowerTerm, hlower⟩ := except_bind_ok.1 hlower
    cases hlower
    obtain rfl : term' = term := hterm
    obtain ⟨rfl, hagrees | ⟨inst, hinsts, hnone⟩⟩ := lowerTerminator_agrees (s := s) hpanic hlowerTerm
    · exact ⟨block.terminator, block, hblock, rfl, ⟨block, hblock, hrun, rfl⟩, hagrees⟩
    · exfalso
      rw [hinsts, Llvm.run_append] at hrun
      obtain ⟨s₁, -, hrun⟩ := Option.bind_eq_some_iff.1 hrun
      rw [Meaning.run, hnone] at hrun
      cases hrun

theorem atTerm_of_exits (hlowered : Lowered cx body fn) (hpanic : PanicDiverges cx m) {s₀ : σ} {how : Exit} :
    Exits cx m body (id, s₀) how s →
      ∃ t block term, body.blocks[id]? = some block ∧ block.terminator = t ∧ exit m s t = how ∧
        AtTerm m fn (.bb id, s₀) term s ∧ Agrees m id t term s := by
  rintro ⟨block, hblock, hrun, hexit⟩
  rcases hlowered.bb id with ⟨hnone, -⟩ | ⟨block', blk, hblock', hfn, hlower⟩
  · rw [hnone] at hblock
    cases hblock
  · obtain rfl : block' = block := Option.some.inj (hblock'.symm.trans hblock)
    obtain ⟨-, -, hlower⟩ := except_bind_ok.1 hlower
    obtain ⟨⟨insts, term⟩, hlowerTerm, hlower⟩ := except_bind_ok.1 hlower
    cases hlower
    have hat : AtTerm m fn (.bb id, s₀) term s := by
      refine ⟨_, hfn, ?_, rfl⟩
      rw [(lowerTerminator_agrees (s := s) hpanic hlowerTerm).1]
      exact hrun
    obtain ⟨t, block₂, hblock₂, ht, -, hagrees⟩ := atTerm_bb hlowered hpanic hat
    obtain rfl : block' = block₂ := Option.some.inj (hblock'.symm.trans hblock₂)
    exact ⟨t, block', term, hblock', ht, by rw [← ht]; exact hexit, hat, hagrees⟩

theorem step_bb (hlowered : Lowered cx body fn) (hpanic : PanicDiverges cx m) {s₀ : σ} {l : Label}
    (h : Llvm.Step m fn (.bb id, s₀) (l, s)) :
    (∃ target, l = .bb target ∧ Exits cx m body (id, s₀) (.next target) s) ∨
      Exits cx m body (id, s₀) .abnormal s := by
  obtain ⟨term, hat, hnext⟩ := h
  obtain ⟨t, -, -, -, hexits, hagrees⟩ := atTerm_bb hlowered hpanic hat
  unfold Agrees at hagrees
  cases hexit : exit m s t with
  | next target =>
    rw [hexit] at hagrees hexits
    rw [hagrees, Option.some.injEq] at hnext
    exact .inl ⟨target, hnext.symm, hexits⟩
  | ret =>
    rw [hexit] at hagrees
    subst hagrees
    cases hnext
  | abnormal =>
    rw [hexit] at hexits
    exact .inr hexits

theorem abnormal_of_undefined (hlowered : Lowered cx body fn) (hpanic : PanicDiverges cx m) {s₀ : σ}
    (h : Undefined m fn (.bb id, s₀)) : Abnormal cx m body (id, s₀) := by
  obtain ⟨s, hat⟩ := h
  obtain ⟨t, -, -, -, hexits, hagrees⟩ := atTerm_bb hlowered hpanic hat
  unfold Agrees at hagrees
  cases hexit : exit m s t with
  | next target =>
    rw [hexit] at hagrees
    cases hagrees
  | ret =>
    rw [hexit] at hagrees
    cases hagrees
  | abnormal =>
    rw [hexit] at hexits
    exact ⟨s, hexits⟩

theorem step_of_exits (hlowered : Lowered cx body fn) (hpanic : PanicDiverges cx m) {s₀ : σ}
    {target : BlockId} (h : Exits cx m body (id, s₀) (.next target) s) :
    Llvm.Step m fn (.bb id, s₀) (.bb target, s) := by
  obtain ⟨t, -, term, -, -, hexit, hat, hagrees⟩ := atTerm_of_exits hlowered hpanic h
  unfold Agrees at hagrees
  rw [hexit] at hagrees
  exact ⟨term, hat, hagrees⟩

theorem undefined_of_abnormal (hlowered : Lowered cx body fn) (hpanic : PanicDiverges cx m) {s₀ : σ}
    (h : Abnormal cx m body (id, s₀)) : ∃ c, Reaches m fn (.bb id, s₀) c ∧ Undefined m fn c := by
  obtain ⟨s, hexits⟩ := h
  obtain ⟨t, block, term, hblock, ht, hexit, hat, hagrees⟩ := atTerm_of_exits hlowered hpanic hexits
  unfold Agrees at hagrees
  rw [hexit] at hagrees
  rcases hagrees with rfl | ⟨hassert, hnext⟩
  · exact ⟨(.bb id, s₀), .refl, s, hat⟩
  · have htrap : fn (.trap id) = some ⟨[], .unreachable⟩ :=
      hlowered.trap id block hblock (by rw [ht]; exact hassert)
    exact ⟨(.trap id, s), .single ⟨term, hat, hnext⟩, s, _, htrap, rfl, rfl⟩

theorem reaches_of_body (hlowered : Lowered cx body fn) (hpanic : PanicDiverges cx m) {c c' : BlockId × σ}
    (h : BodyReaches cx m body c c') : Reaches m fn (.bb c.1, c.2) (.bb c'.1, c'.2) := by
  induction h with
  | refl => exact .refl
  | tail _ hstep ih => exact ih.tail (step_of_exits hlowered hpanic hstep)

/-- A run of the code follows a run of the body until a block is left abnormally. -/
theorem body_of_reaches (hlowered : Lowered cx body fn) (hpanic : PanicDiverges cx m) {s₀ : σ}
    {c : Label × σ} (h : Reaches m fn (.bb id, s₀) c) :
    (∃ target, c.1 = .bb target ∧ BodyReaches cx m body (id, s₀) (target, c.2)) ∨
      ∃ c', BodyReaches cx m body (id, s₀) c' ∧ Abnormal cx m body c' := by
  induction h with
  | refl => exact .inl ⟨id, rfl, .refl⟩
  | @tail c₁ c₂ _ hstep ih =>
    rcases ih with ⟨target, hlabel, hreach⟩ | habnormal
    · obtain ⟨l₁, s₁⟩ := c₁
      obtain ⟨l₂, s₂⟩ := c₂
      subst hlabel
      rcases step_bb hlowered hpanic hstep with ⟨next, rfl, hexits⟩ | habnormal
      · exact .inl ⟨next, rfl, hreach.tail hexits⟩
      · exact .inr ⟨_, hreach, s₂, habnormal⟩
    · exact .inr habnormal

/-- No run of the code gets to an `unreachable` exactly when no run of the body leaves a block
abnormally. -/
theorem unreachable_iff (hlower : lowerBody cx body = .ok fn) (hpanic : PanicDiverges cx m) (s₀ : σ) :
    (∀ c, Reaches m fn (.bb 0, s₀) c → ¬ Undefined m fn c) ↔
      ∀ c, BodyReaches cx m body (0, s₀) c → ¬ Abnormal cx m body c := by
  have hlowered := lowered_lowerBody hlower
  constructor
  · intro hall c hreach habnormal
    obtain ⟨c', hreach', hundefined⟩ := undefined_of_abnormal hlowered hpanic habnormal
    exact hall c' ((reaches_of_body hlowered hpanic hreach).trans hreach') hundefined
  · intro hall c hreach hundefined
    rcases body_of_reaches hlowered hpanic hreach with ⟨target, hlabel, hbody⟩ | ⟨c', hbody, habnormal⟩
    · obtain ⟨l, s⟩ := c
      subst hlabel
      exact hall _ hbody (abnormal_of_undefined hlowered hpanic hundefined)
    · exact hall c' hbody habnormal

namespace Small

def emit : EmitCtx where
  functions _ := false
  helpers _ := false
  emitInst _ := .ok ()
  emitOperand _ := .ok ()

/-- Every instruction comes back, and every operand is zero. -/
def zeros : Meaning Operand Inst Unit where
  exec _ s := some s
  value _ _ := 0

/-- `return`. -/
def returns : Body :=
  ((Mir.BodyBuilder.new 0 "f" default).close .ret).finish

/-- What a statement makes of an empty body. -/
def bodyOf (code : Mir.LowerM Unit) : Body :=
  match code (Mir.BodyBuilder.new 0 "f" default) with
  | .ok ((), b) => b.finish
  | .error _ => returns

end Small

open Cobrust.Codegen.Small in
/-- A body that returns. -/
theorem unreachable_iff_returns :
    ∃ fn, lowerBody emit returns = .ok fn ∧ ∀ c, Reaches zeros fn (.bb 0, ()) c → ¬ Undefined zeros fn c := by
  have hpanic : PanicDiverges emit zeros := by
    intro func args destination s h
    unfold isPanic at h
    split at h <;> cases h
  have hlower : lowerBody emit returns = .ok _ := rfl
  refine ⟨_, hlower, (unreachable_iff hlower hpanic ()).2 ?_⟩
  intro c hreach
  have hret : ∀ how s, Exits emit zeros returns (0, ()) how s → how = .ret := by
    rintro how s ⟨block, hblock, -, hexit⟩
    cases hblock
    exact hexit.symm
  rcases ReflTransGen.cases_head hreach with rfl | ⟨c', hstep, -⟩
  · rintro ⟨s, habnormal⟩
    cases hret _ _ habnormal
  · cases hret _ _ hstep

open Cobrust.Codegen.Small in
/-- `raise`, and a division by zero: the code runs into an `unreachable`. -/
theorem raise_runs_into_unreachable :
    (∃ fn, lowerBody emit (bodyOf (Mir.lowerRaise .plain none)) = .ok fn ∧
      ¬ ∀ c, Reaches zeros fn (.bb 0, ()) c → ¬ Undefined zeros fn c) ∧
    ∃ fn, lowerBody emit (bodyOf (Mir.emitDivAssert (.constant (.int 0)) default)) = .ok fn ∧
      ¬ ∀ c, Reaches zeros fn (.bb 0, ()) c → ¬ Undefined zeros fn c := by
  refine ⟨⟨_, rfl, fun hall => hall (.bb 0, ()) .refl ⟨(), _, rfl, rfl, rfl⟩⟩,
    ⟨_, rfl, fun hall => hall (.trap 0, ()) (.single ?_) ⟨(), _, rfl, rfl, rfl⟩⟩⟩
  exact ⟨_, ⟨_, rfl, rfl, rfl⟩, rfl⟩

end Cobrust.Codegen
