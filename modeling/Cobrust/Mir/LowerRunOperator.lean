import Cobrust.Mir.LowerRun

/-!
# Running the code of operators

What the code computes that `lower_bin`, `lower_un` and `lower_short_circuit_bool` emit, on integers, booleans and
strings.

* `computes_lowerBin`: an operator that evaluates both sides, as `binOutcome` of the two values.
* `computes_shortCircuit`: `and` and `or`.
-/

namespace Cobrust.Mir

open Exec BodyBuilder

variable {ids : List DefId} {val : DefId → Option Value} {blocks : List BasicBlock} {b : BodyBuilder} {c : BlockId}
  {block : BasicBlock} {S : BlockId → Prop}

theorem computes_constant {k : Constant} {v : Value} (hk : constantValue k = some v) :
    Computes ids val (pure (.constant k)) (.value v) := by
  intro b c block hopen _
  exact ⟨.constant k, b, rfl, .refl hopen, trivial, fun blocks _ f _ => ⟨f, .refl, hk, fun _ _ => rfl⟩⟩

theorem computes_lowerName {ctx : LowerCtx} {rn : Hir.ResolvedName} {span : Span} {v : Value} (hrn : rn.defId ∈ ids)
    (hv : val rn.defId = some v) : Computes ids val (lowerName ctx rn span) (.value v) := by
  intro b c block hopen hn
  obtain ⟨l, hl, hlt⟩ := hn rn.defId hrn
  have hlookup : lookupLocalForResolved ctx rn span b = .ok (l, b) := by
    unfold lookupLocalForResolved
    exact Control.bind_eq_ok.2 ⟨b, b, Control.get_eq_ok.2 ⟨rfl, rfl⟩, by rw [hl]; rfl⟩
  refine ⟨if isCopyType (ctx.lookupTy rn.defId) then .copy (.ofLocal l) else .move (.ofLocal l), b,
    Control.bind_eq_ok.2 ⟨l, b, hlookup, rfl⟩, .refl hopen, ?_, fun blocks _ f hf => ⟨f, .refl, ?_, fun _ _ => rfl⟩⟩
  · split <;> exact hlt
  · have hread : f l = some v := (hf rn.defId hrn l hl).trans hv
    split <;> exact hread

/-- A new local with the value of a right side. -/
def assignTemp (name : String) (ty : Ty) (rv : Rvalue) (span : Span) : LowerM Operand := do
  let temp ← declareLocal name ty span false
  emitAssign (.ofLocal temp) rv span
  return .copy (.ofLocal temp)

theorem assignTemp_eq (h : b.Open c block) (name : String) (ty : Ty) (rv : Rvalue) (span : Span) :
    assignTemp name ty rv span b = .ok (.copy (.ofLocal b.locals.length), b.assignNew c name ty span false rv) := by
  refine Control.bind_eq_ok.2 ⟨_, _, declareLocal_eq name ty span false b, Control.bind_eq_ok.2 ⟨(), _, ?_, rfl⟩⟩
  exact emitStmt_ok.2 ⟨c, h.cur, rfl⟩

theorem callSymbol_eq (h : b.Open c block) (name : String) (ty : Ty) (span : Span) (mutable : Bool) (symbol : String)
    (args : List Operand) :
    callSymbol symbol args b.locals.length (b.addLocal name ty span mutable) =
      .ok ((), b.callNew c name ty span mutable symbol args) :=
  continueAfter_eq (open_addLocal h name ty span mutable) _

/-- An operator applied to the two operands, into a new local. -/
theorem combines_binary (op : BinOp) (name : String) (ty : Ty) (span : Span) :
    Combines (fun a c => assignTemp name ty (.binaryOp op a c) span) (binop op) := by
  intro b c block op₁ op₂ hopen _ _
  refine ⟨_, _, assignTemp_eq hopen name ty _ span, grows_assignNew name ty span false hopen _, ?_,
    fun blocks hcode f v₁ v₂ h₁ h₂ => ?_⟩
  · rw [locals_assignNew]
    exact Nat.lt_succ_self _
  · have hrv : f.rvalue (.binaryOp op op₁ op₂) = binop op v₁ v₂ := by rw [Frame.rvalue, h₁, h₂]
    rw [← hrv]
    exact delivers_assignNew name ty span false hopen hcode hopen.owns (.inl rfl) f

theorem computes_lowerUn {ctx : LowerCtx} {op : Hir.UnaryOp} {operand : Sub} {span : Span} {o : Outcome}
    (h : Computes ids val operand.lower o) :
    Computes ids val (lowerUn ctx op operand span) (o.bind (unop (unToMir op))) := by
  intro b c block hopen hn
  obtain ⟨op₁, b₁, hm₁, hg₁, hbelow₁, hrun₁⟩ := h b c block hopen hn
  obtain ⟨c₁, block₁, hopen₁⟩ := hg₁.opened
  refine ⟨_, _, Control.bind_eq_ok.2 ⟨op₁, b₁, hm₁, assignTemp_eq hopen₁ "_un" _ (.unaryOp (unToMir op) op₁) span⟩,
    hg₁.trans (grows_assignNew _ _ _ _ hopen₁ _), ?_, fun blocks hcode f hf => ?_⟩
  · rw [locals_assignNew]
    exact Nat.lt_succ_self _
  · have hcode₁ := (grows_assignNew _ _ _ _ hopen₁ _).hasCode hcode
    refine (hrun₁ blocks hcode₁ f hf).bind hg₁.locals.length_le fun v f₁ _ hv _ => ?_
    have hrv : f₁.rvalue (.unaryOp (unToMir op) op₁) = unop (unToMir op) v := by rw [Frame.rvalue, hv]
    rw [← hrv]
    exact delivers_assignNew _ _ _ _ hopen₁ hcode (hg₁.owns hopen₁.owns) (.inl rfl) f₁

/-- A runtime function of the two operands, into a new local. -/
theorem combines_call (name : String) (ty : Ty) (span : Span) (mutable : Bool) (symbol : String)
    (args : Operand → Operand → List Operand) (values : Value → Value → List Value)
    (hargs : ∀ (f : Frame) op₁ op₂ v₁ v₂, f.operand op₁ = some v₁ → f.operand op₂ = some v₂ →
      (args op₁ op₂).mapM f.operand = some (values v₁ v₂)) :
    Combines (fun a c => do
      let dest ← declareLocal name ty span mutable
      callSymbol symbol (args a c) dest
      return .move (.ofLocal dest)) fun v₁ v₂ => callRuntime symbol (values v₁ v₂) := by
  intro b c block op₁ op₂ hopen _ _
  refine ⟨.move (.ofLocal b.locals.length), b.callNew c name ty span mutable symbol (args op₁ op₂), ?_,
    grows_callNew name ty span mutable hopen symbol _, ?_, fun blocks hcode f v₁ v₂ h₁ h₂ => ?_⟩
  · exact Control.bind_eq_ok.2 ⟨_, _, declareLocal_eq name ty span mutable b,
      Control.bind_eq_ok.2 ⟨(), _, callSymbol_eq hopen name ty span mutable symbol _, rfl⟩⟩
  · rw [locals_callNew]
    exact Nat.lt_succ_self _
  · exact delivers_callNew name ty span mutable hopen hcode hopen.owns (.inr rfl) (hargs f op₁ op₂ v₁ v₂ h₁ h₂)

/-- A runtime function of two operands and the comparison of its result with zero. -/
theorem combines_compare (name name' : String) (ty : Ty) (span : Span) (symbol : String) (op : BinOp) :
    Combines (fun a c => do
      let raw ← declareLocal name ty span false
      callSymbol symbol [upgradeMoveToCopyHandle a, upgradeMoveToCopyHandle c] raw
      compareWithZero name' op raw span)
      fun v₁ v₂ => (callRuntime symbol [v₁, v₂]).bind fun raw => binop op raw (.int 0#64) := by
  intro b c block op₁ op₂ hopen _ _
  have hg₁ := grows_callNew name ty span false hopen symbol [upgradeMoveToCopyHandle op₁, upgradeMoveToCopyHandle op₂]
  obtain ⟨c₁, block₁, hopen₁, -⟩ :=
    open_callNew name ty span false hopen symbol [upgradeMoveToCopyHandle op₁, upgradeMoveToCopyHandle op₂]
  have hg₂ := grows_assignNew name' .bool span false hopen₁
    (.binaryOp op (.copy (.ofLocal b.locals.length)) (.constant (.int 0)))
  refine ⟨_, _, Control.bind_eq_ok.2 ⟨_, _, declareLocal_eq name ty span false b, Control.bind_eq_ok.2 ⟨(), _,
    callSymbol_eq hopen name ty span false symbol _, assignTemp_eq hopen₁ name' .bool _ span⟩⟩, hg₁.trans hg₂, ?_,
    fun blocks hcode f v₁ v₂ h₁ h₂ => ?_⟩
  · rw [locals_assignNew]
    exact Nat.lt_succ_self _
  · have hargs : [upgradeMoveToCopyHandle op₁, upgradeMoveToCopyHandle op₂].mapM f.operand = some [v₁, v₂] := by
      simp [operand_upgrade, h₁, h₂]
    refine (delivers_callNew name ty span false hopen (hg₂.hasCode hcode) hopen.owns (.inl rfl) hargs).bind
      hg₁.locals.length_le fun raw f₁ _ hraw _ => ?_
    have hrv : f₁.rvalue (.binaryOp op (.copy (.ofLocal b.locals.length)) (.constant (.int 0))) =
        binop op raw (.int 0#64) := by
      rw [Frame.rvalue, hraw]
      rfl
    rw [← hrv]
    exact delivers_assignNew name' .bool span false hopen₁ hcode (hg₁.owns hopen₁.owns) (.inl rfl) f₁

theorem run_assert (h : b.Open c block) {op : Operand} {kind : AssertKind} {f : Frame} {t : Bool}
    (hcode : HasCode blocks (b.leave c (.assert op true kind b.blocks.length)) S) (hc : S c)
    (hop : f.operand op = some (.bool t)) :
    if t then Reaches blocks (b.point f) ((b.leave c (.assert op true kind b.blocks.length)).point f)
    else Traps blocks (b.point f) := by
  have hstep := step_leave h hcode hc f
  simp only [stepTerminator, hop] at hstep
  cases t with
  | true =>
    refine reaches_next ?_
    rw [point_leave h, hstep]
    rfl
  | false => exact ⟨b.point f, .refl, hstep⟩

/-- What a division of two values gives behind its assert. -/
def divide (op : BinOp) (v₁ v₂ : Value) : Outcome :=
  (binop .notEq v₂ (.int 0#64)).bind fun nonzero => if nonzero = .bool true then binop op v₁ v₂ else .trap

theorem binop_notEq_int {v w : Value} (h : binop .notEq v (.int 0#64) = .value w) : ∃ t, w = .bool t := by
  cases v with
  | int n =>
    cases h
    exact ⟨_, rfl⟩
  | bool _ => cases h
  | str _ => cases h

theorem combines_divide (op : BinOp) (ty : Ty) (span : Span) :
    Combines (fun a c => do
      emitDivAssert c span
      assignTemp "_bin" ty (.binaryOp op a c) span) (divide op) := by
  intro b c block op₁ op₂ hopen hbelow₁ hbelow₂
  have hg₁ := grows_assignNew "_divcond" .bool span false hopen (.binaryOp .notEq op₂ (.constant (.int 0)))
  obtain ⟨block₁, hopen₁⟩ := open_assignNew "_divcond" .bool span false hopen (.binaryOp .notEq op₂ (.constant (.int 0)))
  generalize hb₁ : b.assignNew c "_divcond" .bool span false (.binaryOp .notEq op₂ (.constant (.int 0))) = b₁ at hg₁ hopen₁
  have hg₂ := grows_leave hopen₁ (.assert (.copy (.ofLocal b.locals.length)) true .divisionByZero b₁.blocks.length)
  obtain ⟨c₂, block₂, hopen₂⟩ := hg₂.opened
  generalize hb₂ : b₁.leave c (.assert (.copy (.ofLocal b.locals.length)) true .divisionByZero b₁.blocks.length) = b₂
    at hg₂ hopen₂
  have hg₃ := grows_assignNew "_bin" ty span false hopen₂ (.binaryOp op op₁ op₂)
  refine ⟨_, _, Control.bind_eq_ok.2 ⟨(), b₂, ?_, assignTemp_eq hopen₂ "_bin" ty _ span⟩, hg₁.trans (hg₂.trans hg₃), ?_,
    fun blocks hcode f v₁ v₂ h₁ h₂ => ?_⟩
  · refine Control.bind_eq_ok.2 ⟨_, _, declareLocal_eq "_divcond" .bool span false b, Control.bind_eq_ok.2 ⟨(), b₁, ?_, ?_⟩⟩
    · exact emitStmt_ok.2 ⟨c, hopen.cur, hb₁.symm⟩
    · rw [continueAfter_eq hopen₁, hb₂]
  · rw [locals_assignNew]
    exact Nat.lt_succ_self _
  · have hcode₂ := hg₃.hasCode hcode
    have hcode₁ := hg₂.hasCode hcode₂
    rw [← hb₁] at hcode₁
    have hcond := delivers_assignNew "_divcond" .bool span false hopen hcode₁ hopen.owns (.inl rfl) f
    have hrv : f.rvalue (.binaryOp .notEq op₂ (.constant (.int 0))) = binop .notEq v₂ (.int 0#64) := by
      rw [Frame.rvalue, h₂]
      rfl
    rw [hrv, hb₁] at hcond
    refine hcond.bind hg₁.locals.length_le fun nonzero f₁ hnonzero hop hf₁ => ?_
    obtain ⟨t, rfl⟩ := binop_notEq_int hnonzero
    have howns₁ : b.Owns c := hopen.owns
    rw [← hb₂] at hcode₂
    have hassert := run_assert hopen₁ hcode₂ howns₁ hop
    cases t with
    | false => exact hassert
    | true =>
      rw [if_pos rfl, hb₂] at hassert
      rw [if_pos rfl]
      have hrv₂ : f₁.rvalue (.binaryOp op op₁ op₂) = binop op v₁ v₂ := by
        rw [Frame.rvalue, operand_congr hbelow₁ hf₁, operand_congr hbelow₂ hf₁, h₁, h₂]
      rw [← hrv₂]
      refine Delivers.after ?_ hassert hg₂.locals.length_le fun _ _ => rfl
      exact delivers_assignNew "_bin" ty span false hopen₂ hcode (hg₁.owns (hg₂.owns hopen₂.owns)) (.inl rfl) f₁

/-! ## Forks and jumps -/

/-- The builder behind a branch, in the first one of two new blocks. -/
def BodyBuilder.fork (b : BodyBuilder) (c : BlockId) (t : Terminator) : BodyBuilder :=
  (((b.startBlock.startBlock).moveTo c).close t).moveTo b.blocks.length

section Fork

variable (t : Terminator)

theorem open_fork (h : b.Open c block) : (b.fork c t).Open b.blocks.length ⟨b.blocks.length, [], .unreachable, b.span⟩ where
  cur := rfl
  get := by
    rw [BodyBuilder.fork, blocks_moveTo, block_close_of_ne _ (by simpa using h.lt.ne), blocks_moveTo]
    simp [startBlock]
  placeholder := rfl

theorem block_fork_self (h : b.Open c block) : (b.fork c t).blocks[c]? = some { block with terminator := t } := by
  have hlt := h.lt
  have hget : (b.startBlock.startBlock).blocks[c]? = some block := by
    rw [block_startBlock_of_lt (by rw [length_startBlock]; exact Nat.lt_succ_of_lt hlt), block_startBlock_of_lt hlt, h.get]
  simp [BodyBuilder.fork, close, hget]

theorem block_fork_of_ne {x : BlockId} (hx : x < b.blocks.length) (hne : x ≠ c) :
    (b.fork c t).blocks[x]? = b.blocks[x]? := by
  rw [BodyBuilder.fork, blocks_moveTo, block_close_of_ne _ (by simpa using Ne.symm hne), blocks_moveTo,
    block_startBlock_of_lt (by rw [length_startBlock]; exact Nat.lt_succ_of_lt hx), block_startBlock_of_lt hx]

theorem length_fork (b : BodyBuilder) (c : BlockId) : (b.fork c t).blocks.length = b.blocks.length + 2 := by
  rw [BodyBuilder.fork, blocks_moveTo, length_close, blocks_moveTo, length_startBlock, length_startBlock]

theorem grows_fork (h : b.Open c block) : Grows b (b.fork c t) where
  len := by
    rw [length_fork]
    exact Nat.le_add_right _ 2
  old x hx hcur := block_fork_of_ne t hx fun e => hcur (e ▸ h.cur)
  current c' block' hc' hblock' := by
    obtain rfl : c = c' := Option.some.inj (h.cur.symm.trans hc')
    obtain rfl : block = block' := Option.some.inj (h.get.symm.trans hblock')
    exact ⟨_, block_fork_self t h, List.prefix_refl _⟩
  cursor x hx := by
    obtain rfl : b.blocks.length = x := Option.some.inj hx
    exact .inr le_rfl
  opened := ⟨_, _, open_fork t h⟩
  locals := by
    rw [BodyBuilder.fork]
    simp [close, startBlock, moveTo]
  defs := by
    rw [BodyBuilder.fork]
    simp [close, startBlock, moveTo]

theorem block_fork_second (h : b.Open c block) :
    (b.fork c t).blocks[b.blocks.length + 1]? = some ⟨b.blocks.length + 1, [], .unreachable, b.span⟩ := by
  have hne : c ≠ b.blocks.length + 1 := (h.lt.trans (Nat.lt_succ_self _)).ne
  rw [BodyBuilder.fork, blocks_moveTo, block_close_of_ne _ (by simpa using hne), blocks_moveTo]
  simp [startBlock]

end Fork

/-- The builder behind a jump, in a block that is there. -/
def BodyBuilder.jump (b : BodyBuilder) (target next : BlockId) : BodyBuilder :=
  (b.close (.goto target)).moveTo next

section Jump

variable {b₀ : BodyBuilder} {target next : BlockId} {nextBlock : BasicBlock}

theorem block_jump_self (h : b.Open c block) (target next : BlockId) :
    (b.jump target next).blocks[c]? = some { block with terminator := .goto target } := by
  have hget : b.blocks[c]? = some block := h.get
  simp [BodyBuilder.jump, close, h.cur, hget]

theorem block_jump_of_ne (h : b.Open c block) {x : BlockId} (hne : x ≠ c) :
    (b.jump target next).blocks[x]? = b.blocks[x]? := by
  rw [BodyBuilder.jump, blocks_moveTo, block_close_of_ne _ (by rw [h.cur]; simpa using Ne.symm hne)]

theorem open_jump (h : b.Open c block) (hnext : b.blocks[next]? = some nextBlock)
    (hplaceholder : nextBlock.terminator = .unreachable) (hne : next ≠ c) : (b.jump target next).Open next nextBlock :=
  ⟨rfl, by rw [block_jump_of_ne h hne, hnext], hplaceholder⟩

theorem grows_jump (hg : Grows b₀ b) (h : b.Open c block) (hnext : b.blocks[next]? = some nextBlock)
    (hplaceholder : nextBlock.terminator = .unreachable) (hne : next ≠ c) (hnew : b₀.blocks.length ≤ next) :
    Grows b₀ (b.jump target next) where
  len := by
    rw [BodyBuilder.jump, blocks_moveTo, length_close]
    exact hg.len
  old x hx hcur := by
    have hxc : x ≠ c := by
      rintro rfl
      rcases hg.cursor x h.cur with e | hle
      · exact hcur e
      · exact absurd hx (Nat.not_lt.2 hle)
    rw [block_jump_of_ne h hxc, hg.old x hx hcur]
  current c' block' hc' hblock' := by
    obtain ⟨block'', hblock'', hstmts⟩ := hg.current c' block' hc' hblock'
    by_cases hcc : c' = c
    · subst hcc
      obtain rfl : block = block'' := Option.some.inj (h.get.symm.trans hblock'')
      exact ⟨_, block_jump_self h target next, hstmts⟩
    · exact ⟨block'', by rw [block_jump_of_ne h hcc, hblock''], hstmts⟩
  cursor x hx := by
    obtain rfl : next = x := Option.some.inj hx
    exact .inr hnew
  opened := ⟨_, _, open_jump h hnext hplaceholder hne⟩
  locals := by
    rw [BodyBuilder.jump]
    simpa [close, h.cur, moveTo] using hg.locals
  defs := by
    rw [BodyBuilder.jump]
    simpa [close, h.cur, moveTo] using hg.defs

/-- The code behind a jump has the code of the builder, the next block apart. -/
theorem hasCode_jump (h : b.Open c block) (hcode : HasCode blocks (b.jump target next) S) :
    HasCode blocks b fun i => S i ∧ i ≠ next := by
  rintro i ⟨hi, hne⟩ block' hblock'
  have hcur : (b.jump target next).curBlock ≠ some i := fun e => hne (Option.some.inj e).symm
  by_cases hic : i = c
  · subst hic
    obtain rfl : block = block' := Option.some.inj (h.get.symm.trans hblock')
    obtain ⟨final, hfinal, hstmts, -⟩ := hcode i hi _ (block_jump_self h target next)
    exact ⟨final, hfinal, hstmts, fun hne' => absurd h.cur hne'⟩
  · obtain ⟨final, hfinal, hstmts, hsame⟩ := hcode i hi block' (by rw [block_jump_of_ne h hic, hblock'])
    exact ⟨final, hfinal, hstmts, fun _ => hsame hcur⟩

end Jump

/-! ## `and` and `or` -/

/-- The builder behind the left side, in the block of the right side. -/
def BodyBuilder.branch (b : BodyBuilder) (c : BlockId) (result : LocalId) (isAnd : Bool) : BodyBuilder :=
  (((b.startBlock.startBlock).moveTo c).close
    (.switchInt (.copy (.ofLocal result)) [(.bool isAnd, b.blocks.length)] (b.blocks.length + 1))).moveTo b.blocks.length

theorem open_branch (h : b.Open c block) (result : LocalId) (isAnd : Bool) :
    (b.branch c result isAnd).Open b.blocks.length ⟨b.blocks.length, [], .unreachable, b.span⟩ :=
  open_fork _ h

theorem block_branch_self (h : b.Open c block) (result : LocalId) (isAnd : Bool) :
    (b.branch c result isAnd).blocks[c]? = some { block with
      terminator := .switchInt (.copy (.ofLocal result)) [(.bool isAnd, b.blocks.length)] (b.blocks.length + 1) } :=
  block_fork_self _ h

theorem length_branch (b : BodyBuilder) (c : BlockId) (result : LocalId) (isAnd : Bool) :
    (b.branch c result isAnd).blocks.length = b.blocks.length + 2 :=
  length_fork _ b c

theorem grows_branch (h : b.Open c block) (result : LocalId) (isAnd : Bool) : Grows b (b.branch c result isAnd) :=
  grows_fork _ h

theorem block_branch_merge (h : b.Open c block) (result : LocalId) (isAnd : Bool) :
    (b.branch c result isAnd).blocks[b.blocks.length + 1]? = some ⟨b.blocks.length + 1, [], .unreachable, b.span⟩ :=
  block_fork_second _ h

/-- From the end of the left side to the block of the right side or to the merge block. -/
theorem run_branch (h : b.Open c block) {result : LocalId} {isAnd : Bool} {f : Frame} {v : Value}
    (hcode : HasCode blocks (b.branch c result isAnd) S) (hc : S c) (hv : f result = some v) :
    match v with
    | .bool t => Reaches blocks (b.point f) ⟨if t = isAnd then b.blocks.length else b.blocks.length + 1, 0, f⟩
    | _ => Stuck blocks (b.point f) := by
  have hne : (b.branch c result isAnd).curBlock ≠ some c := by simpa [BodyBuilder.branch] using h.lt.ne'
  have hfinal := hcode.closed hc (block_branch_self h result isAnd) hne
  have hstep : step blocks (b.point f) =
      stepTerminator f (.switchInt (.copy (.ofLocal result)) [(.bool isAnd, b.blocks.length)] (b.blocks.length + 1)) := by
    rw [h.point_eq]
    simp [step, hfinal]
  have hread : f.operand (.copy (.ofLocal result)) = some v := hv
  have hstuck (hnone : step blocks (b.point f) = none) : Stuck blocks (b.point f) :=
    ⟨b.point f, .refl, hnone, _, by rw [h.point_eq]; exact hfinal, .inr fun e => by cases e⟩
  rw [stepTerminator, hread] at hstep
  cases v with
  | bool t => exact reaches_next hstep
  | int n => exact hstuck hstep
  | str s => exact hstuck hstep

/-- The builder that goes from the end of the right side to the merge block. -/
def BodyBuilder.join (b : BodyBuilder) (merge : BlockId) : BodyBuilder :=
  (b.close (.goto merge)).moveTo merge

section Join

variable {b₀ : BodyBuilder} {merge : BlockId} {mergeBlock : BasicBlock}

theorem block_join_self (h : b.Open c block) (merge : BlockId) :
    (b.join merge).blocks[c]? = some { block with terminator := .goto merge } :=
  block_jump_self h merge merge

theorem open_join (h : b.Open c block) (hmerge : b.blocks[merge]? = some mergeBlock)
    (hplaceholder : mergeBlock.terminator = .unreachable) (hne : merge ≠ c) : (b.join merge).Open merge mergeBlock :=
  open_jump h hmerge hplaceholder hne

theorem grows_join (hg : Grows b₀ b) (h : b.Open c block) (hmerge : b.blocks[merge]? = some mergeBlock)
    (hplaceholder : mergeBlock.terminator = .unreachable) (hne : merge ≠ c) (hnew : b₀.blocks.length ≤ merge) :
    Grows b₀ (b.join merge) :=
  grows_jump hg h hmerge hplaceholder hne hnew

/-- The code of the joined builder has the code of the builder, the merge block apart. -/
theorem hasCode_join (h : b.Open c block) (hcode : HasCode blocks (b.join merge) S) :
    HasCode blocks b fun i => S i ∧ i ≠ merge :=
  hasCode_jump h hcode

theorem reaches_join (h : b.Open c block) (hcode : HasCode blocks (b.join merge) S) (hc : S c) (hne : merge ≠ c)
    (hmerge : b.blocks[merge]? = some mergeBlock) (hplaceholder : mergeBlock.terminator = .unreachable)
    (hempty : mergeBlock.statements = []) (f : Frame) :
    Reaches blocks (b.point f) ((b.join merge).point f) := by
  have hfinal := hcode.closed hc (block_join_self h merge) fun e => hne (Option.some.inj e)
  refine reaches_next ?_
  rw [h.point_eq, (open_join h hmerge hplaceholder hne).point_eq, hempty]
  simp [step, hfinal, stepTerminator]

end Join

/-- What `and` and `or` give, from the value of the left side and the outcome of the right one. -/
def decide₂ (isAnd : Bool) (o : Outcome) : Value → Outcome
  | .bool t => if t = isAnd then o else .value (.bool t)
  | _ => .undefined

theorem delivers_assign (h : b.Open c block) {l : LocalId} {op : Operand} {f : Frame} {v : Value} {span : Span}
    (hcode : HasCode blocks (b.pushStmt c ⟨.assign (.ofLocal l) (.use op), span⟩) S) (hc : S c)
    (hop : f.operand op = some v) :
    Reaches blocks (b.point f) ((b.pushStmt c ⟨.assign (.ofLocal l) (.use op), span⟩).point (f.set l v)) := by
  refine reaches_next ?_
  rw [step_pushStmt h hcode hc, point_pushStmt h, h.point_eq]
  simp [stepStatement, Place.ofLocal, Frame.rvalue, hop]

theorem computes_shortCircuit {isAnd : Bool} {lhs rhs : Sub} {span : Span} {o₁ o₂ : Outcome}
    (h₁ : Computes ids val lhs.lower o₁) (h₂ : Computes ids val rhs.lower o₂) :
    Computes ids val (lowerShortCircuitBool isAnd lhs rhs span) (o₁.bind (decide₂ isAnd o₂)) := by
  intro b c block hopen hn
  -- the left side, into the result
  have hg₁ := grows_addLocal hopen "_sc_bool" .bool span true
  generalize hb₁ : b.addLocal "_sc_bool" .bool span true = b₁ at hg₁
  have hopen₁ : b₁.Open c block := hb₁ ▸ open_addLocal hopen "_sc_bool" .bool span true
  obtain ⟨op₁, b₂, hm₁, hg₂, hbelow₁, hrun₁⟩ := h₁ b₁ c block hopen₁ (hn.grows hg₁)
  obtain ⟨c₂, block₂, hopen₂⟩ := hg₂.opened
  have hg₃ := grows_pushStmt hopen₂ ⟨.assign (.ofLocal b.locals.length) (.use op₁), span⟩
  have hopen₃ := open_pushStmt hopen₂ ⟨.assign (.ofLocal b.locals.length) (.use op₁), span⟩
  generalize hb₃ : b₂.pushStmt c₂ ⟨.assign (.ofLocal b.locals.length) (.use op₁), span⟩ = b₃ at hg₃ hopen₃
  -- the branch, and the right side in its block
  have hg₄ := grows_branch hopen₃ b.locals.length isAnd
  have hopen₄ := open_branch hopen₃ b.locals.length isAnd
  have hmerge₄ := block_branch_merge hopen₃ b.locals.length isAnd
  have hlen₄ := length_branch b₃ c₂ b.locals.length isAnd
  generalize hb₄ : b₃.branch c₂ b.locals.length isAnd = b₄ at hg₄ hopen₄ hmerge₄ hlen₄
  have hgrows₄ : Grows b b₄ := hg₁.trans (hg₂.trans (hg₃.trans hg₄))
  obtain ⟨op₂, b₅, hm₂, hg₅, hbelow₂, hrun₂⟩ := h₂ b₄ _ _ hopen₄ (hn.grows hgrows₄)
  obtain ⟨c₅, block₅, hopen₅⟩ := hg₅.opened
  have hg₆ := grows_pushStmt hopen₅ ⟨.assign (.ofLocal b.locals.length) (.use op₂), span⟩
  have hopen₆ := open_pushStmt hopen₅ ⟨.assign (.ofLocal b.locals.length) (.use op₂), span⟩
  generalize hb₆ : b₅.pushStmt c₅ ⟨.assign (.ofLocal b.locals.length) (.use op₂), span⟩ = b₆ at hg₆ hopen₆
  -- the merge block is not one that the right side fills
  have hnew : b.blocks.length ≤ b₃.blocks.length := (hg₁.trans (hg₂.trans hg₃)).len
  have howns₄ (i : BlockId) (hi : b₄.Owns i) : b.Owns i ∧ i ≠ b₃.blocks.length + 1 := by
    rcases hi with e | hle
    · obtain rfl : b₃.blocks.length = i := Option.some.inj (hopen₄.cur.symm.trans e)
      exact ⟨.inr hnew, (Nat.lt_succ_self _).ne⟩
    · rw [hlen₄] at hle
      exact ⟨.inr (hnew.trans (Nat.le_of_add_right_le hle)), (Nat.lt_of_lt_of_le (Nat.lt_succ_self _) hle).ne'⟩
  have hc₅ : b₄.Owns c₅ := hg₅.owns hopen₅.owns
  have hmerge₅ : b₃.blocks.length + 1 ≠ c₅ := (howns₄ c₅ hc₅).2.symm
  have hmerge₆ : b₆.blocks[b₃.blocks.length + 1]? = some ⟨b₃.blocks.length + 1, [], .unreachable, b₃.span⟩ := by
    have hlt : b₃.blocks.length + 1 < b₄.blocks.length := by
      rw [hlen₄]
      exact Nat.lt_succ_self _
    rw [← hb₆, block_pushStmt_of_ne _ hmerge₅.symm, hg₅.old _ hlt (by rw [hopen₄.cur]; simp), hmerge₄]
  have hgrows₆ : Grows b b₆ := hgrows₄.trans (hg₅.trans hg₆)
  refine ⟨.copy (.ofLocal b.locals.length), b₆.join (b₃.blocks.length + 1), ?_,
    grows_join hgrows₆ hopen₆ hmerge₆ rfl hmerge₅ (hnew.trans (Nat.le_succ _)), ?_, fun blocks hcode f hf => ?_⟩
  · refine Control.bind_eq_ok.2 ⟨b.locals.length, b₁, by rw [declareLocal_eq, hb₁], ?_⟩
    refine Control.bind_eq_ok.2 ⟨op₁, b₂, hm₁, ?_⟩
    refine Control.bind_eq_ok.2 ⟨(), b₃, emitStmt_ok.2 ⟨c₂, hopen₂.cur, hb₃.symm⟩, ?_⟩
    refine Control.bind_eq_ok.2 ⟨c₂, b₃, currentBlockId_ok.2 ⟨hopen₃.cur, rfl⟩, ?_⟩
    refine Control.bind_eq_ok.2 ⟨_, _, startNewBlock_ok.2 ⟨rfl, rfl⟩, ?_⟩
    refine Control.bind_eq_ok.2 ⟨b₃.blocks.length + 1, _, startNewBlock_ok.2 ⟨(length_startBlock b₃).symm, rfl⟩, ?_⟩
    refine Control.bind_eq_ok.2 ⟨(), _, setCurBlock_ok.2 rfl, ?_⟩
    refine Control.bind_eq_ok.2 ⟨(), _, terminate_ok.2 rfl, ?_⟩
    refine Control.bind_eq_ok.2 ⟨(), b₄, setCurBlock_ok.2 hb₄.symm, ?_⟩
    refine Control.bind_eq_ok.2 ⟨op₂, b₅, hm₂, ?_⟩
    refine Control.bind_eq_ok.2 ⟨(), b₆, emitStmt_ok.2 ⟨c₅, hopen₅.cur, hb₆.symm⟩, ?_⟩
    refine Control.bind_eq_ok.2 ⟨(), _, gotoIfOpen_ok.2 rfl, ?_⟩
    exact Control.bind_eq_ok.2 ⟨(), _, setCurBlock_ok.2 rfl, rfl⟩
  · have hlocals : (b₆.join (b₃.blocks.length + 1)).locals = b₆.locals := by
      simp [BodyBuilder.join, close, hopen₆.cur, moveTo]
    have hlt : b.locals.length < b₁.locals.length := by
      rw [← hb₁]
      simp [BodyBuilder.addLocal]
    rw [hlocals]
    exact (hg₂.trans (hg₃.trans (hg₄.trans (hg₅.trans hg₆)))).lt_locals hlt
  · have hcode₆ := hasCode_join hopen₆ hcode
    have hcode₅ := hg₆.hasCode hcode₆
    have hcode₄ := hg₅.hasCode hcode₅
    have hcode₃ := hg₄.hasCode hcode₄
    have hcode₂ : HasCode blocks b₂ b₁.Owns := by
      intro i hi block' hblock'
      have hlt : i < b₂.blocks.length := (List.getElem?_eq_some_iff.1 hblock').1
      exact hg₃.hasCode hcode₃ i ⟨hg₁.owns hi, (Nat.lt_succ_of_lt (hlt.trans_le hg₃.len)).ne⟩ block' hblock'
    have hc₂ : b.Owns c₂ ∧ c₂ ≠ b₃.blocks.length + 1 :=
      ⟨hg₁.owns (hg₂.owns hopen₂.owns), (Nat.lt_succ_of_lt hopen₃.lt).ne⟩
    rw [← hb₃] at hcode₃
    rw [← hb₄] at hcode₄
    rw [← hb₆] at hcode₆
    have hpoint : b₁.point f = b.point f := by rw [← hb₁]; rfl
    have hlhs := hrun₁ blocks hcode₂ f (hf.grows hn hg₁ fun _ _ => rfl)
    cases o₁ with
    | trap =>
      rw [Delivers, hpoint] at hlhs
      exact hlhs
    | undefined =>
      rw [Delivers, hpoint] at hlhs
      exact hlhs
    | value v =>
      obtain ⟨f₂, hreach₂, hv, hf₂⟩ := hlhs
      rw [hpoint] at hreach₂
      have hassign := delivers_assign (l := b.locals.length) hopen₂ hcode₃
        (by rw [hb₃]; exact hc₂) hv
      rw [hb₃] at hassign
      have hreach₃ := hreach₂.trans hassign
      have hf₃ (l : LocalId) (hl : l < b.locals.length) : f₂.set b.locals.length v l = f l :=
        (set_below f₂ b v l hl).trans (hf₂ l (hg₁.lt_locals hl))
      have hbranch := run_branch hopen₃ hcode₄ hc₂ (f₂.set_self b.locals.length v)
      cases v with
      | int n => exact Stuck.of_reaches hreach₃ hbranch
      | str s => exact Stuck.of_reaches hreach₃ hbranch
      | bool t =>
        have hreach₄ := hreach₃.trans hbranch
        by_cases ht : t = isAnd
        · rw [if_pos ht] at hreach₄
          replace hreach₄ : Reaches blocks (b.point f) (b₄.point (f₂.set b.locals.length (.bool t))) := by
            rw [hopen₄.point_eq]
            exact hreach₄
          have hrhs := hrun₂ blocks (hcode₅.mono howns₄) _ (hf.grows hn hgrows₄ hf₃)
          rw [bind_value, decide₂, if_pos ht]
          cases o₂ with
          | trap => exact Traps.of_reaches hreach₄ hrhs
          | undefined => exact Stuck.of_reaches hreach₄ hrhs
          | value w =>
            obtain ⟨f₅, hreach₅, hw, hf₅⟩ := hrhs
            have hassign₂ := delivers_assign (l := b.locals.length) hopen₅ hcode₆ (howns₄ c₅ hc₅) hw
            rw [hb₆] at hassign₂
            have hjoin := reaches_join hopen₆ hcode (howns₄ c₅ hc₅).1 hmerge₅ hmerge₆ rfl rfl
              (f₅.set b.locals.length w)
            refine ⟨_, hreach₄.trans (hreach₅.trans (hassign₂.trans hjoin)), f₅.set_self _ w, fun l hl => ?_⟩
            rw [set_below f₅ b w l hl, hf₅ l (hgrows₄.lt_locals hl), hf₃ l hl]
        · rw [if_neg ht] at hreach₄
          rw [bind_value, decide₂, if_neg ht]
          refine ⟨f₂.set b.locals.length (.bool t), ?_, f₂.set_self _ _, hf₃⟩
          rw [(open_join hopen₆ hmerge₆ rfl hmerge₅).point_eq]
          exact hreach₄

/-- The types that integers, booleans, strings and their operators have in the lowering. -/
def isPlain : Ty → Bool
  | .int | .bool | .str | .none => true
  | _ => false

theorem isPlain_facts {ty : Ty} (h : isPlain ty = true) :
    ty.peelRef = ty ∧ ty.isCoilBuffer = false ∧ ty.isBytes = false ∧ ty.isFloat = false ∧ ∀ k v, ty ≠ .dict k v := by
  cases ty with
  | int => exact ⟨rfl, rfl, rfl, rfl, fun _ _ e => by cases e⟩
  | bool => exact ⟨rfl, rfl, rfl, rfl, fun _ _ e => by cases e⟩
  | str => exact ⟨rfl, rfl, rfl, rfl, fun _ _ e => by cases e⟩
  | none => exact ⟨rfl, rfl, rfl, rfl, fun _ _ e => by cases e⟩
  | _ => cases h

/-- What an operator gives on the values of its sides, whose types are `lt` and `rt`. -/
def binOutcome (op : Hir.BinOp) (lt rt : Ty) (v₁ v₂ : Value) : Outcome :=
  if op = .mul && (lt.isStr != rt.isStr) then callRuntime "__cobrust_str_repeat" (if lt.isStr then [v₁, v₂] else [v₂, v₁])
  else if op = .add && lt.isStr then callRuntime "__cobrust_str_concat" [v₁, v₂]
  else if (op = .eq || op = .notEq) && lt.isStr then
    (callRuntime "__cobrust_str_eq" [v₁, v₂]).bind fun raw => binop (if op = .notEq then .eq else .notEq) raw (.int 0#64)
  else if (op = .lt || op = .ltEq || op = .gt || op = .gtEq) && lt.isStr then
    (callRuntime "__cobrust_str_cmp" [v₁, v₂]).bind fun raw => binop (binToMir op) raw (.int 0#64)
  else if op = .pow then callRuntime "__cobrust_ipow" [v₁, v₂]
  else if op = .div || op = .floorDiv || op = .mod then divide (binToMir op) v₁ v₂
  else binop (binToMir op) v₁ v₂

section Both

variable {ctx : LowerCtx} {op : Hir.BinOp} {lhs rhs : Sub} {span : Span} {o₁ o₂ : Outcome}

theorem lowerBin_plain (hl : isPlain (ctx.synthExprTy lhs.expr) = true) (hr : isPlain (ctx.synthExprTy rhs.expr) = true)
    (heco : ctx.eco.lookupBufferBinop (ctx.synthExprTy lhs.expr) op = none) (hop : op ≠ .and ∧ op ≠ .or) :
    lowerBin ctx op lhs rhs span =
      let lt := ctx.synthExprTy lhs.expr
      let rt := ctx.synthExprTy rhs.expr
      if op = .mul && (lt.isStr != rt.isStr) then lowerStrRepeat lt.isStr lhs rhs span
      else if op = .add && lt.isStr then do
        let dest ← lowerHandlePair "_strcat" .str "__cobrust_str_concat" lhs rhs span
        return .move (.ofLocal dest)
      else if (op = .eq || op = .notEq) && lt.isStr then do
        let raw ← lowerHandlePair "_streq" .int "__cobrust_str_eq" lhs rhs span
        compareWithZero "_streqb" (if op = .notEq then .eq else .notEq) raw span
      else if (op = .lt || op = .ltEq || op = .gt || op = .gtEq) && lt.isStr then do
        let raw ← lowerHandlePair "_strcmp" .int "__cobrust_str_cmp" lhs rhs span
        compareWithZero "_strcmpb" (binToMir op) raw span
      else if op = .pow then lowerPow lt rt lhs rhs span
      else lowerPlainBin op lt rt lhs rhs span := by
  unfold lowerBin
  generalize ctx.synthExprTy lhs.expr = lt at hl heco ⊢
  generalize ctx.synthExprTy rhs.expr = rt at hr ⊢
  obtain ⟨hpeel, hbuffer, hbytes, -, -⟩ := isPlain_facts hl
  obtain ⟨hpeel', hbuffer', -, -, hdict⟩ := isPlain_facts hr
  rw [if_neg (by simp [hop.1, hop.2])]
  split
  · exact absurd rfl (hdict _ _)
  · exact absurd rfl (hdict _ _)
  · simp [hpeel, hpeel', hbuffer, hbuffer', hbytes, heco]

theorem computes_lowerBin (h₁ : Computes ids val lhs.lower o₁) (h₂ : Computes ids val rhs.lower o₂)
    (hl : isPlain (ctx.synthExprTy lhs.expr) = true) (hr : isPlain (ctx.synthExprTy rhs.expr) = true)
    (heco : ctx.eco.lookupBufferBinop (ctx.synthExprTy lhs.expr) op = none) (hop : op ≠ .and ∧ op ≠ .or)
    (hfloat : hirExprIsFloat lhs.expr = false) :
    Computes ids val (lowerBin ctx op lhs rhs span) (o₁.bind fun v₁ => o₂.bind fun v₂ =>
      binOutcome op (ctx.synthExprTy lhs.expr) (ctx.synthExprTy rhs.expr) v₁ v₂) := by
  rw [lowerBin_plain hl hr heco hop]
  generalize ctx.synthExprTy lhs.expr = lt at hl ⊢
  generalize ctx.synthExprTy rhs.expr = rt at hr ⊢
  unfold binOutcome
  have hhandles (f : Frame) (op₁ op₂ : Operand) (v₁ v₂ : Value) (h₁ : f.operand op₁ = some v₁)
      (h₂ : f.operand op₂ = some v₂) :
      [upgradeMoveToCopyHandle op₁, upgradeMoveToCopyHandle op₂].mapM f.operand = some [v₁, v₂] := by
    simp [operand_upgrade, h₁, h₂]
  by_cases hrepeat : (op = .mul && (lt.isStr != rt.isStr)) = true
  · simp only [if_pos hrepeat]
    refine h₁.pair h₂ (combines_call "_strrep" .str span false "__cobrust_str_repeat"
      (fun a c => if lt.isStr then [upgradeMoveToCopyHandle a, c] else [upgradeMoveToCopyHandle c, a])
      (fun v₁ v₂ => if lt.isStr then [v₁, v₂] else [v₂, v₁]) fun f op₁ op₂ v₁ v₂ h₁ h₂ => ?_)
    cases lt.isStr <;> simp [operand_upgrade, h₁, h₂]
  simp only [if_neg hrepeat]
  by_cases hconcat : (op = .add && lt.isStr) = true
  · simp only [if_pos hconcat, lowerHandlePair, bind_assoc, pure_bind]
    exact h₁.pair h₂ (combines_call "_strcat" .str span false "__cobrust_str_concat" _ (fun v₁ v₂ => [v₁, v₂]) hhandles)
  simp only [if_neg hconcat]
  by_cases heq : ((op = .eq || op = .notEq) && lt.isStr) = true
  · simp only [if_pos heq, lowerHandlePair, bind_assoc, pure_bind]
    exact h₁.pair h₂ (combines_compare "_streq" "_streqb" .int span "__cobrust_str_eq" _)
  simp only [if_neg heq]
  by_cases hcmp : ((op = .lt || op = .ltEq || op = .gt || op = .gtEq) && lt.isStr) = true
  · simp only [if_pos hcmp, lowerHandlePair, bind_assoc, pure_bind]
    exact h₁.pair h₂ (combines_compare "_strcmp" "_strcmpb" .int span "__cobrust_str_cmp" _)
  simp only [if_neg hcmp]
  by_cases hpow : op = .pow
  · simp only [if_pos hpow, lowerPow, (isPlain_facts hl).2.2.2.1, (isPlain_facts hr).2.2.2.1, Bool.or_self]
    exact h₁.pair h₂ (combines_call "_ecoret" .int span true "__cobrust_ipow" (fun a c => [a, c]) (fun v₁ v₂ => [v₁, v₂])
      fun f op₁ op₂ v₁ v₂ h₁ h₂ => by simp [h₁, h₂])
  simp only [if_neg hpow]
  by_cases hdiv : (op = .div || op = .floorDiv || op = .mod) = true
  · simp only [if_pos hdiv, lowerPlainBin, hdiv, hfloat, Bool.not_false, Bool.and_self, if_true]
    exact h₁.pair h₂ (combines_divide (binToMir op) _ span)
  · simp only [if_neg hdiv, lowerPlainBin, eq_false_of_ne_true hdiv, Bool.false_and, Bool.false_eq_true, if_false]
    exact h₁.pair h₂ (combines_binary (binToMir op) "_bin" _ span)

end Both

end Cobrust.Mir
