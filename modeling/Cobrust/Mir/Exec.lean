import Cobrust.Codegen.Binop
import Mathlib.Logic.Relation

/-!
# Running MIR

What a body computes, statement by statement, on integers, booleans and strings. An integer operator does what
`lower_binop` makes of it; the runtime functions are those of `cobrust-stdlib`. A failed assert and a panic of the
runtime are traps; where an instruction has no defined result, or MIR has no code for the operands, the run is stuck.

* `Reaches.total`: of two points that a run comes by, one comes before the other.
* `Runs.last_unique`: a run with calls has one end.
* `Leads`: the paths through the blocks, whatever the branches are taken on.
-/

namespace Cobrust.Mir.Exec

inductive Value
  | int (n : BitVec 64)
  | bool (b : Bool)
  | str (s : String)
  deriving DecidableEq

inductive Outcome
  | value (v : Value)
  | trap
  | undefined
  deriving DecidableEq

def Outcome.bind : Outcome → (Value → Outcome) → Outcome
  | .value v, f => f v
  | .trap, _ => .trap
  | .undefined, _ => .undefined

@[simp] theorem bind_value (v : Value) (f : Value → Outcome) : (Outcome.value v).bind f = f v := rfl

@[simp] theorem bind_trap (f : Value → Outcome) : Outcome.trap.bind f = .trap := rfl

@[simp] theorem bind_undefined (f : Value → Outcome) : Outcome.undefined.bind f = .undefined := rfl

def ofLlvm : Codegen.Value → Value
  | .word w => .int w
  | .bit b => .bool b

def binop (op : BinOp) (a b : Value) : Outcome :=
  match op, a, b with
  | op, .int a, .int b =>
    match Codegen.lowerBinop op a b with
    | .ok (some v) => .value (ofLlvm v)
    | _ => .undefined
  | .eq, .bool a, .bool b => .value (.bool (a == b))
  | .notEq, .bool a, .bool b => .value (.bool (a != b))
  -- an `i1` is compared with its sign, so `True` is the smaller one
  | .lt, .bool a, .bool b => .value (.bool (Llvm.icmp .slt (.ofBool a) (.ofBool b)))
  | .ltEq, .bool a, .bool b => .value (.bool (Llvm.icmp .sle (.ofBool a) (.ofBool b)))
  | .gt, .bool a, .bool b => .value (.bool (Llvm.icmp .sgt (.ofBool a) (.ofBool b)))
  | .gtEq, .bool a, .bool b => .value (.bool (Llvm.icmp .sge (.ofBool a) (.ofBool b)))
  | _, _, _ => .undefined

def unop (op : UnOp) : Value → Outcome
  | .int a => .value (.int (Codegen.lowerUnop op a))
  | .bool b => if op = .not then .value (.bool !b) else .undefined
  | .str _ => .undefined

/-- `__cobrust_ipow`, with `checked_pow`. -/
def ipow (base exp : Int) : Outcome :=
  if exp < 0 then .trap
  else if 2 ^ 32 ≤ exp then .trap
  else
    let power := base ^ exp.toNat
    if -(2 ^ 63) ≤ power ∧ power < 2 ^ 63 then .value (.int (BitVec.ofInt 64 power)) else .trap

/-- The runtime functions on strings and powers. -/
def callRuntime (symbol : String) (args : List Value) : Outcome :=
  match symbol, args with
  | "__cobrust_str_concat", [.str a, .str b] => .value (.str (a ++ b))
  | "__cobrust_str_eq", [.str a, .str b] => .value (.int (if a = b then 1#64 else 0#64))
  | "__cobrust_str_cmp", [.str a, .str b] =>
    .value (.int (if a < b then -1#64 else if a = b then 0#64 else 1#64))
  | "__cobrust_str_repeat", [.str s, .int n] =>
    .value (.str (String.join (List.replicate n.toInt.toNat s)))
  | "__cobrust_ipow", [.int base, .int exp] => ipow base.toInt exp.toInt
  | _, _ => .undefined

/-- What the locals hold. -/
abbrev Frame := LocalId → Option Value

def Frame.set (f : Frame) (l : LocalId) (v : Value) : Frame :=
  fun l' => if l' = l then some v else f l'

theorem Frame.set_self (f : Frame) (l : LocalId) (v : Value) : f.set l v l = some v :=
  if_pos rfl

theorem Frame.set_of_ne {f : Frame} {l l' : LocalId} (v : Value) (h : l' ≠ l) : f.set l v l' = f l' :=
  if_neg h

def constantValue : Constant → Option Value
  | .bool b => some (.bool b)
  | .int n => some (.int (BitVec.ofInt 64 n))
  | .str s => some (.str s)
  | _ => none

def Frame.operand (f : Frame) : Operand → Option Value
  | .copy (.mk l []) | .move (.mk l []) => f l
  | .constant c => constantValue c
  | _ => none

def Frame.rvalue (f : Frame) : Rvalue → Outcome
  | .use op =>
    match f.operand op with
    | some v => .value v
    | none => .undefined
  | .binaryOp op a b =>
    match f.operand a, f.operand b with
    | some a, some b => binop op a b
    | _, _ => .undefined
  | .unaryOp op a =>
    match f.operand a with
    | some a => unop op a
    | none => .undefined
  | _ => .undefined

/-! ## Steps -/

/-- A place in the code, before a statement or the terminator of a block, with the frame there. -/
structure Point where
  block : BlockId
  index : Nat
  frame : Frame

inductive StepResult
  | next (p : Point)
  | trap

def stepStatement (p : Point) : StatementKind → Option StepResult
  | .assign (.mk l []) rv =>
    match p.frame.rvalue rv with
    | .value v => some (.next ⟨p.block, p.index + 1, p.frame.set l v⟩)
    | .trap => some .trap
    | .undefined => none
  | .assign _ _ => none
  | .storageLive _ | .storageDead _ | .nop => some (.next ⟨p.block, p.index + 1, p.frame⟩)

def switchTarget (b : Bool) (otherwise : BlockId) : List (SwitchValue × BlockId) → BlockId
  | [] => otherwise
  | (.bool b', target) :: rest => if b = b' then target else switchTarget b otherwise rest
  | _ :: rest => switchTarget b otherwise rest

def stepTerminator (f : Frame) : Terminator → Option StepResult
  | .goto target => some (.next ⟨target, 0, f⟩)
  | .switchInt operand cases otherwise =>
    match f.operand operand with
    | some (.bool b) => some (.next ⟨switchTarget b otherwise cases, 0, f⟩)
    | _ => none
  | .call (.constant (.str symbol)) args (.mk l []) target _ =>
    match args.mapM f.operand with
    | some values =>
      match callRuntime symbol values with
      | .value v => some (.next ⟨target, 0, f.set l v⟩)
      | .trap => some .trap
      | .undefined => none
    | none => none
  | .assert cond expected _ target =>
    match f.operand cond with
    | some (.bool b) => if b = expected then some (.next ⟨target, 0, f⟩) else some .trap
    | _ => none
  | _ => none

def step (blocks : List BasicBlock) (p : Point) : Option StepResult :=
  match blocks[p.block]? with
  | none => none
  | some block =>
    match block.statements[p.index]? with
    | some stmt => stepStatement p stmt.kind
    | none => stepTerminator p.frame block.terminator

/-- The run from the first point comes by the second one. -/
abbrev Reaches (blocks : List BasicBlock) : Point → Point → Prop :=
  Relation.ReflTransGen fun p q => step blocks p = some (.next q)

def Traps (blocks : List BasicBlock) (p : Point) : Prop :=
  ∃ q, Reaches blocks p q ∧ step blocks q = some .trap

/-- The run ends in a statement without a result, or at a terminator that cannot be followed. -/
def Stuck (blocks : List BasicBlock) (p : Point) : Prop :=
  ∃ q, Reaches blocks p q ∧ step blocks q = none ∧
    ∃ block, blocks[q.block]? = some block ∧ (q.index < block.statements.length ∨ block.terminator ≠ .unreachable)

variable {blocks : List BasicBlock} {p q r : Point}

theorem reaches_next (h : step blocks p = some (.next q)) : Reaches blocks p q :=
  .single h

theorem Traps.of_reaches (h : Reaches blocks p q) (ht : Traps blocks q) : Traps blocks p := by
  obtain ⟨r, hr, htrap⟩ := ht
  exact ⟨r, h.trans hr, htrap⟩

theorem Stuck.of_reaches (h : Reaches blocks p q) (hs : Stuck blocks q) : Stuck blocks p := by
  obtain ⟨r, hr, hstuck⟩ := hs
  exact ⟨r, h.trans hr, hstuck⟩

theorem Reaches.total (hq : Reaches blocks p q) (hr : Reaches blocks p r) :
    Reaches blocks q r ∨ Reaches blocks r q :=
  Relation.ReflTransGen.total_of_right_unique (fun _ _ _ h h' => by
    rw [h] at h'
    cases h'
    rfl) hq hr

/-- A point without a next one is the end of every run through it. -/
theorem Reaches.eq_of_last (h : Reaches blocks p q) (hlast : ∀ r, step blocks p ≠ some (.next r)) : p = q := by
  rcases Relation.ReflTransGen.cases_head h with h | ⟨r, hr, -⟩
  · exact h
  · exact absurd hr (hlast r)

theorem Reaches.last_unique (hq : Reaches blocks p q) (hr : Reaches blocks p r)
    (hqlast : ∀ s, step blocks q ≠ some (.next s)) (hrlast : ∀ s, step blocks r ≠ some (.next s)) : q = r := by
  rcases hq.total hr with h | h
  · exact h.eq_of_last hqlast
  · exact (h.eq_of_last hrlast).symm

end Cobrust.Mir.Exec

/-!
## Running MIR with calls

Runs of a body that calls other functions. What a function returns may depend on the calls that were made before; the
calls are kept, so that two runs with the same calls have done the same to the rest of the program.
-/

namespace Cobrust.Mir.Exec

/-- A call that was made: the function and its arguments. -/
structure CallEvent where
  fn : DefId
  args : List Value
  deriving DecidableEq

/-- The calls that were made, the last one first. -/
abbrev History := List CallEvent

/-- What functions return, after the calls before. A function that panics returns nothing. -/
abbrev Functions := DefId → List Value → History → Option Value

structure Config where
  point : Point
  history : History

inductive CallStep
  | next (c : Config)
  | trap (h : History)

/-- Why a run ends early. -/
inductive Stop
  | trap
  | undefined
  deriving DecidableEq

def StepResult.after (h : History) : StepResult → CallStep
  | .next p => .next ⟨p, h⟩
  | .trap => .trap h

/-- A call of a function. -/
def stepFn (functions : Functions) (fn : DefId) (args : List Operand) (l : LocalId) (target : BlockId) (f : Frame)
    (h : History) : Option CallStep :=
  match args.mapM f.operand with
  | some values =>
    match functions fn values h with
    | some v => some (.next ⟨⟨target, 0, f.set l v⟩, ⟨fn, values⟩ :: h⟩)
    | none => some (.trap (⟨fn, values⟩ :: h))
  | none => none

def stepCallTerminator (functions : Functions) (f : Frame) (h : History) : Terminator → Option CallStep
  | .call (.constant (.fnRef fn)) args (.mk l []) target _ => stepFn functions fn args l target f h
  | t => (stepTerminator f t).map (StepResult.after h)

def stepCall (functions : Functions) (blocks : List BasicBlock) (c : Config) : Option CallStep :=
  match blocks[c.point.block]? with
  | none => none
  | some block =>
    match block.statements[c.point.index]? with
    | some stmt => (stepStatement c.point stmt.kind).map (StepResult.after c.history)
    | none => stepCallTerminator functions c.point.frame c.history block.terminator

/-- The run from the first configuration comes by the second one. -/
abbrev Runs (functions : Functions) (blocks : List BasicBlock) : Config → Config → Prop :=
  Relation.ReflTransGen fun c d => stepCall functions blocks c = some (.next d)

/-- The run ends in the code for a reason, after the calls. -/
def Halts (functions : Functions) (blocks : List BasicBlock) (c : Config) (h : History) : Stop → Prop
  | .trap => ∃ d, Runs functions blocks c d ∧ stepCall functions blocks d = some (.trap h)
  | .undefined => ∃ p, Runs functions blocks c ⟨p, h⟩ ∧ stepCall functions blocks ⟨p, h⟩ = none ∧
    ∃ block, blocks[p.block]? = some block ∧ (p.index < block.statements.length ∨ block.terminator ≠ .unreachable)

variable {functions : Functions} {blocks : List BasicBlock} {c d e : Config} {h : History}

theorem Runs.next (hstep : stepCall functions blocks c = some (.next d)) : Runs functions blocks c d :=
  .single hstep

theorem Halts.of_runs {stop : Stop} (hrun : Runs functions blocks c d) (hd : Halts functions blocks d h stop) :
    Halts functions blocks c h stop := by
  cases stop with
  | trap =>
    obtain ⟨e, he, htrap⟩ := hd
    exact ⟨e, hrun.trans he, htrap⟩
  | undefined =>
    obtain ⟨p, hp, hstuck⟩ := hd
    exact ⟨p, hrun.trans hp, hstuck⟩

theorem stepCall_of_step {p : Point} {r : StepResult} (hstep : step blocks p = some r) :
    stepCall functions blocks ⟨p, h⟩ = some (r.after h) := by
  unfold step at hstep
  unfold stepCall
  split at hstep
  · cases hstep
  · next block hblock =>
    split at hstep
    · next stmt hstmt => simp only [hblock, hstmt, hstep, Option.map_some]
    · next hstmt =>
      simp only [hblock, hstmt]
      unfold stepCallTerminator
      split
      · next heq =>
        rw [heq] at hstep
        cases hstep
      · rw [hstep]
        rfl

theorem runs_of_reaches {p q : Point} (hreach : Reaches blocks p q) :
    Runs functions blocks ⟨p, h⟩ ⟨q, h⟩ := by
  induction hreach with
  | refl => exact .refl
  | tail _ hstep ih => exact ih.tail (stepCall_of_step hstep)

theorem halts_of_traps {p : Point} (htraps : Traps blocks p) : Halts functions blocks ⟨p, h⟩ h .trap := by
  obtain ⟨q, hreach, htrap⟩ := htraps
  exact ⟨⟨q, h⟩, runs_of_reaches hreach, stepCall_of_step htrap⟩

theorem halts_of_statement {p : Point} {block : BasicBlock} {s : Statement} (hblock : blocks[p.block]? = some block)
    (hs : block.statements[p.index]? = some s) (hnone : stepStatement p s.kind = none) :
    Halts functions blocks ⟨p, h⟩ h .undefined := by
  refine ⟨p, .refl, ?_, block, hblock, .inl (List.getElem?_eq_some_iff.1 hs).1⟩
  rw [stepCall, hblock]
  dsimp only
  rw [hs]
  dsimp only
  rw [hnone]
  rfl

theorem Runs.total (hd : Runs functions blocks c d) (he : Runs functions blocks c e) :
    Runs functions blocks d e ∨ Runs functions blocks e d :=
  Relation.ReflTransGen.total_of_right_unique (fun _ _ _ h h' => by
    rw [h] at h'
    cases h'
    rfl) hd he

theorem Runs.eq_of_last (hd : Runs functions blocks c d) (hlast : ∀ e, stepCall functions blocks c ≠ some (.next e)) :
    c = d := by
  rcases Relation.ReflTransGen.cases_head hd with hd | ⟨e, he, -⟩
  · exact hd
  · exact absurd he (hlast e)

theorem Runs.last_unique (hd : Runs functions blocks c d) (he : Runs functions blocks c e)
    (hdlast : ∀ x, stepCall functions blocks d ≠ some (.next x))
    (helast : ∀ x, stepCall functions blocks e ≠ some (.next x)) : d = e := by
  rcases hd.total he with hde | hed
  · exact hde.eq_of_last hdlast
  · exact (hed.eq_of_last helast).symm

/-- Every path from the block comes to the goal, unless an assert fails on it or a call does not return. -/
inductive Leads (blocks : List BasicBlock) (goal : BlockId) : BlockId → Prop
  | here : Leads blocks goal goal
  | step {c : BlockId} {block : BasicBlock} (hblock : blocks[c]? = some block)
      (hleaves : block.terminator.successors ≠ [])
      (hnext : ∀ x ∈ block.terminator.successors, Leads blocks goal x) : Leads blocks goal c

theorem Leads.trans {goal mid start : BlockId} (hgoal : Leads blocks goal mid) (hmid : Leads blocks mid start) :
    Leads blocks goal start := by
  induction hmid with
  | here => exact hgoal
  | step hblock hleaves _ ih => exact .step hblock hleaves ih

end Cobrust.Mir.Exec
