import Cobrust.Mir.Exec
import Cobrust.Mir.LowerStraight

/-!
# Running the code of an expression

What the actions of the body builder mean for a run. The code that an action adds is found in every vector of blocks
that has the blocks of the builder after it (`HasCode`), whatever comes behind; it is entered at the cursor before the
action (`BodyBuilder.point`) and left at the cursor after it.

* `Grows`: what lowering an expression does to the builder.
* `Computes`: the run through the code ends with the value of the expression in its operand, in a trap or stuck.
-/

namespace Cobrust.Mir

open Exec BodyBuilder

namespace BodyBuilder

/-- The builder has a block that is being filled. -/
structure Open (b : BodyBuilder) (c : BlockId) (block : BasicBlock) : Prop where
  cur : b.curBlock = some c
  get : b.blocks[c]? = some block
  placeholder : block.terminator = .unreachable

/-- The cursor, with a frame. -/
def point (b : BodyBuilder) (f : Frame) : Exec.Point :=
  ⟨b.curBlock.getD 0, b.stmtCount (b.curBlock.getD 0), f⟩

variable {b b' : BodyBuilder} {c : BlockId} {block : BasicBlock}

theorem Open.lt (h : b.Open c block) : c < b.blocks.length :=
  (List.getElem?_eq_some_iff.1 h.get).1

theorem Open.point_eq (h : b.Open c block) (f : Frame) : b.point f = ⟨c, block.statements.length, f⟩ := by
  simp [point, h.cur, stmtCount, h.get]

theorem Open.owns (h : b.Open c block) : b.Owns c :=
  .inl h.cur

end BodyBuilder

/-- The blocks of the builder that satisfy `S`, as far as they are filled, are in the vector. -/
def HasCode (blocks : List BasicBlock) (b : BodyBuilder) (S : BlockId → Prop) : Prop :=
  ∀ i, S i → ∀ block, b.blocks[i]? = some block →
    ∃ block', blocks[i]? = some block' ∧ block.statements <+: block'.statements ∧
      (b.curBlock ≠ some i → block' = block)

/-- Code was added to an open builder at the cursor and in new blocks, and new locals; it is open again. -/
structure Grows (b b' : BodyBuilder) : Prop where
  len : b.blocks.length ≤ b'.blocks.length
  old : ∀ x, x < b.blocks.length → b.curBlock ≠ some x → b'.blocks[x]? = b.blocks[x]?
  current : ∀ c block, b.curBlock = some c → b.blocks[c]? = some block →
    ∃ block', b'.blocks[c]? = some block' ∧ block.statements <+: block'.statements
  cursor : ∀ c, b'.curBlock = some c → b.Owns c
  opened : ∃ c block, b'.Open c block
  locals : b.locals <+: b'.locals
  defs : b'.defToLocal = b.defToLocal

namespace Grows

variable {b b' b'' : BodyBuilder}

theorem trans (h : Grows b b') (h' : Grows b' b'') : Grows b b'' where
  len := h.len.trans h'.len
  old x hx hcur := by
    have hne : b'.curBlock ≠ some x := by
      intro e
      rcases h.cursor x e with e' | hle
      · exact hcur e'
      · exact absurd hx (Nat.not_lt.2 hle)
    rw [h'.old x (hx.trans_le h.len) hne, h.old x hx hcur]
  current c block hcur hblock := by
    obtain ⟨block', hblock', hstmts⟩ := h.current c block hcur hblock
    by_cases hcur' : b'.curBlock = some c
    · obtain ⟨block'', hblock'', hstmts'⟩ := h'.current c block' hcur' hblock'
      exact ⟨block'', hblock'', hstmts.trans hstmts'⟩
    · have hlt : c < b'.blocks.length := (List.getElem?_eq_some_iff.1 hblock').1
      exact ⟨block', by rw [h'.old c hlt hcur', hblock'], hstmts⟩
  cursor c hc := by
    rcases h'.cursor c hc with e | hle
    · exact h.cursor c e
    · exact .inr (h.len.trans hle)
  opened := h'.opened
  locals := h.locals.trans h'.locals
  defs := h'.defs.trans h.defs

theorem refl {c : BlockId} {block : BasicBlock} (h : b.Open c block) : Grows b b where
  len := le_rfl
  old _ _ _ := rfl
  current _ block _ hblock := ⟨block, hblock, List.prefix_refl _⟩
  cursor _ hc := .inl hc
  opened := ⟨c, block, h⟩
  locals := List.prefix_refl _
  defs := rfl

theorem owns (h : Grows b b') {i : BlockId} (hi : b'.Owns i) : b.Owns i := by
  rcases hi with e | hle
  · exact h.cursor i e
  · exact .inr (h.len.trans hle)

theorem hasCode (h : Grows b b') {blocks : List BasicBlock} {S : BlockId → Prop} (hcode : HasCode blocks b' S) :
    HasCode blocks b S := by
  intro i hi block hblock
  by_cases hcur : b.curBlock = some i
  · obtain ⟨block', hblock', hstmts⟩ := h.current i block hcur hblock
    obtain ⟨final, hfinal, hstmts', -⟩ := hcode i hi block' hblock'
    exact ⟨final, hfinal, hstmts.trans hstmts', fun hne => absurd hcur hne⟩
  · have hlt : i < b.blocks.length := (List.getElem?_eq_some_iff.1 hblock).1
    have hne : b'.curBlock ≠ some i := by
      intro e
      rcases h.cursor i e with e' | hle
      · exact hcur e'
      · exact absurd hlt (Nat.not_lt.2 hle)
    obtain ⟨final, hfinal, hstmts, hsame⟩ := hcode i hi block (by rw [h.old i hlt hcur, hblock])
    exact ⟨final, hfinal, hstmts, fun _ => hsame hne⟩

theorem lt_locals (h : Grows b b') {l : LocalId} (hl : l < b.locals.length) : l < b'.locals.length :=
  hl.trans_le h.locals.length_le

end Grows

theorem HasCode.mono {blocks : List BasicBlock} {b : BodyBuilder} {S S' : BlockId → Prop} (h : HasCode blocks b S)
    (hS : ∀ i, S' i → S i) : HasCode blocks b S' :=
  fun i hi => h i (hS i hi)

theorem HasCode.closed {blocks : List BasicBlock} {b : BodyBuilder} {S : BlockId → Prop} {c : BlockId}
    {block : BasicBlock} (hcode : HasCode blocks b S) (hc : S c) (hblock : b.blocks[c]? = some block)
    (hcur : b.curBlock ≠ some c) : blocks[c]? = some block := by
  obtain ⟨final, hfinal, -, hsame⟩ := hcode c hc block hblock
  rw [hfinal, hsame hcur]

/-! ## The primitive actions -/

section Primitive

variable {b : BodyBuilder} {c : BlockId} {block : BasicBlock} {blocks : List BasicBlock} {S : BlockId → Prop}

/-- The builder with one more local. -/
def BodyBuilder.addLocal (b : BodyBuilder) (name : String) (ty : Ty) (span : Span) (mutable : Bool) : BodyBuilder :=
  { b with locals := b.locals ++ [⟨b.locals.length, name, ty, mutable, span, none⟩] }

theorem declareLocal_eq (name : String) (ty : Ty) (span : Span) (mutable : Bool) (b : BodyBuilder) :
    declareLocal name ty span mutable b = .ok (b.locals.length, b.addLocal name ty span mutable) := rfl

theorem open_addLocal (h : b.Open c block) (name : String) (ty : Ty) (span : Span) (mutable : Bool) :
    (b.addLocal name ty span mutable).Open c block :=
  ⟨h.cur, h.get, h.placeholder⟩

theorem grows_addLocal (h : b.Open c block) (name : String) (ty : Ty) (span : Span) (mutable : Bool) :
    Grows b (b.addLocal name ty span mutable) where
  len := le_rfl
  old _ _ _ := rfl
  current _ block _ hblock := ⟨block, hblock, List.prefix_refl _⟩
  cursor _ hc := .inl hc
  opened := ⟨c, block, open_addLocal h name ty span mutable⟩
  locals := List.prefix_append _ _
  defs := rfl

theorem open_pushStmt (h : b.Open c block) (s : Statement) :
    (b.pushStmt c s).Open c { block with statements := block.statements ++ [s] } where
  cur := h.cur
  get := by
    rw [pushStmt, List.getElem?_modify, h.get]
    simp
  placeholder := h.placeholder

theorem grows_pushStmt (h : b.Open c block) (s : Statement) : Grows b (b.pushStmt c s) where
  len := (length_pushStmt b c s).ge
  old x _ hx := block_pushStmt_of_ne s fun e => hx (e ▸ h.cur)
  current c' block' hc' hblock' := by
    obtain rfl : c = c' := Option.some.inj (h.cur.symm.trans hc')
    obtain rfl : block = block' := Option.some.inj (h.get.symm.trans hblock')
    exact ⟨_, (open_pushStmt h s).get, List.prefix_append _ _⟩
  cursor _ hc := .inl hc
  opened := ⟨c, _, open_pushStmt h s⟩
  locals := List.prefix_refl _
  defs := rfl

/-- The statement that was pushed is the one under the cursor before. -/
theorem step_pushStmt (h : b.Open c block) {s : Statement} (hcode : HasCode blocks (b.pushStmt c s) S) (hc : S c)
    (f : Frame) : step blocks (b.point f) = stepStatement (b.point f) s.kind := by
  obtain ⟨final, hfinal, hstmts, -⟩ := hcode c hc _ (open_pushStmt h s).get
  have hstmt : final.statements[block.statements.length]? = some s := by
    obtain ⟨rest, hrest⟩ := hstmts
    rw [← hrest]
    simp
  rw [h.point_eq]
  simp only [step, hfinal, hstmt]

theorem point_pushStmt (h : b.Open c block) (s : Statement) (f : Frame) :
    (b.pushStmt c s).point f = ⟨c, block.statements.length + 1, f⟩ := by
  rw [(open_pushStmt h s).point_eq]
  simp

/-- The builder after `continueAfter`. -/
def BodyBuilder.leave (b : BodyBuilder) (c : BlockId) (t : Terminator) : BodyBuilder :=
  ((b.startBlock.moveTo c).close t).moveTo b.blocks.length

theorem continueAfter_eq (h : b.Open c block) (term : BlockId → Terminator) :
    continueAfter term b = .ok ((), b.leave c (term b.blocks.length)) :=
  continueAfter_ok.2 ⟨c, h.cur, rfl⟩

theorem block_leave_self (h : b.Open c block) (t : Terminator) :
    (b.leave c t).blocks[c]? = some { block with terminator := t } := by
  have hblock : b.startBlock.blocks[c]? = some block := by rw [block_startBlock_of_lt h.lt, h.get]
  simp [leave, close, hblock]

theorem block_leave_of_ne (t : Terminator) {x : BlockId} (hx : x < b.blocks.length) (hne : x ≠ c) :
    (b.leave c t).blocks[x]? = b.blocks[x]? := by
  rw [leave, blocks_moveTo, block_close_of_ne t (by simpa using Ne.symm hne), blocks_moveTo, block_startBlock_of_lt hx]

theorem open_leave (h : b.Open c block) (t : Terminator) :
    (b.leave c t).Open b.blocks.length ⟨b.blocks.length, [], .unreachable, b.span⟩ where
  cur := rfl
  get := by
    rw [leave, blocks_moveTo, block_close_of_ne t (by simpa using h.lt.ne), blocks_moveTo, startBlock]
    simp
  placeholder := rfl

theorem grows_leave (h : b.Open c block) (t : Terminator) : Grows b (b.leave c t) where
  len := by
    rw [leave, blocks_moveTo, length_close, blocks_moveTo, length_startBlock]
    exact Nat.le_succ _
  old x hx hcur := block_leave_of_ne t hx fun e => hcur (e ▸ h.cur)
  current c' block' hc' hblock' := by
    obtain rfl : c = c' := Option.some.inj (h.cur.symm.trans hc')
    obtain rfl : block = block' := Option.some.inj (h.get.symm.trans hblock')
    exact ⟨_, block_leave_self h t, List.prefix_refl _⟩
  cursor x hx := by
    obtain rfl : b.blocks.length = x := Option.some.inj hx
    exact .inr le_rfl
  opened := ⟨_, _, open_leave h t⟩
  locals := by
    rw [leave]
    simp [close, startBlock, moveTo]
  defs := by
    rw [leave]
    simp [close, moveTo, startBlock]

theorem closed_leave (hopen : b.Open c block) {t : Terminator} (hcode : HasCode blocks (b.leave c t) S) (hc : S c) :
    blocks[c]? = some { block with terminator := t } :=
  hcode.closed hc (block_leave_self hopen t) (by simpa [leave] using hopen.lt.ne')

/-- The terminator through which the block was left is the one under the cursor before. -/
theorem step_leave (h : b.Open c block) {t : Terminator} (hcode : HasCode blocks (b.leave c t) S) (hc : S c)
    (f : Frame) : step blocks (b.point f) = stepTerminator f t := by
  rw [h.point_eq]
  simp [step, closed_leave h hcode hc]

theorem point_leave (h : b.Open c block) (t : Terminator) (f : Frame) :
    (b.leave c t).point f = ⟨b.blocks.length, 0, f⟩ :=
  (open_leave h t).point_eq f

end Primitive

/-! ## What a run through the code gives -/

/-- The operand is a constant or a local below the bound. -/
def Operand.Below (n : Nat) : Operand → Prop
  | .copy (.mk l []) | .move (.mk l []) => l < n
  | .constant _ => True
  | _ => False

theorem Operand.Below.mono {n n' : Nat} {op : Operand} (h : op.Below n) (hn : n ≤ n') : op.Below n' := by
  unfold Operand.Below at h ⊢
  split at h
  · exact Nat.lt_of_lt_of_le h hn
  · exact Nat.lt_of_lt_of_le h hn
  · trivial
  · exact h.elim

/-- The operand reads the same in frames that agree below the bound. -/
theorem operand_congr {n : Nat} {op : Operand} {f f' : Frame} (h : op.Below n) (hf : ∀ l, l < n → f' l = f l) :
    f'.operand op = f.operand op := by
  unfold Operand.Below at h
  split at h
  · exact hf _ h
  · exact hf _ h
  · rfl
  · exact h.elim

theorem operand_upgrade (f : Frame) (op : Operand) : f.operand (upgradeMoveToCopyHandle op) = f.operand op := by
  unfold upgradeMoveToCopyHandle
  split
  · next p =>
    obtain ⟨l, projections⟩ := p
    cases projections <;> rfl
  · rfl

/-- The run from the cursor of `b` to that of `b'`: the operand holds the value, and the locals of `b` are kept. -/
def Delivers (blocks : List BasicBlock) (b b' : BodyBuilder) (op : Operand) (f : Frame) : Outcome → Prop
  | .value v => ∃ f', Reaches blocks (b.point f) (b'.point f') ∧ f'.operand op = some v ∧
      ∀ l, l < b.locals.length → f' l = f l
  | .trap => Traps blocks (b.point f)
  | .undefined => Stuck blocks (b.point f)

section Delivers

variable {blocks : List BasicBlock} {b b₁ b₂ : BodyBuilder} {op op₁ : Operand} {f f₁ : Frame} {o : Outcome}

theorem Delivers.after (h : Delivers blocks b₁ b₂ op f₁ o) (hreach : Reaches blocks (b.point f) (b₁.point f₁))
    (hlen : b.locals.length ≤ b₁.locals.length) (hf : ∀ l, l < b.locals.length → f₁ l = f l) :
    Delivers blocks b b₂ op f o := by
  cases o with
  | value v =>
    obtain ⟨f₂, hreach₂, hop, hf₂⟩ := h
    exact ⟨f₂, hreach.trans hreach₂, hop, fun l hl => (hf₂ l (hl.trans_le hlen)).trans (hf l hl)⟩
  | trap => exact Traps.of_reaches hreach h
  | undefined => exact Stuck.of_reaches hreach h

/-- Code that goes on with the value of the code before it. -/
theorem Delivers.bind {g : Value → Outcome} (h : Delivers blocks b b₁ op₁ f o)
    (hlen : b.locals.length ≤ b₁.locals.length)
    (hg : ∀ v f₁, o = .value v → f₁.operand op₁ = some v → (∀ l, l < b.locals.length → f₁ l = f l) →
      Delivers blocks b₁ b₂ op f₁ (g v)) : Delivers blocks b b₂ op f (o.bind g) := by
  cases o with
  | value v =>
    obtain ⟨f₁, hreach, hop, hf⟩ := h
    exact (hg v f₁ rfl hop hf).after hreach hlen hf
  | trap => exact h
  | undefined => exact h

/-- Where a run with the outcome ends. -/
def EndsAt (blocks : List BasicBlock) (b' : BodyBuilder) (op : Operand) (q : Exec.Point) : Outcome → Prop
  | .value v => ∃ f', q = b'.point f' ∧ f'.operand op = some v
  | .trap => step blocks q = some .trap
  | .undefined => step blocks q = none ∧
    ∃ block, blocks[q.block]? = some block ∧ (q.index < block.statements.length ∨ block.terminator ≠ .unreachable)

theorem last_of_open {c : BlockId} {block : BasicBlock} (h : b.Open c block) (f : Frame) :
    step b.blocks (b.point f) = none := by
  rw [h.point_eq]
  simp [step, h.get, h.placeholder, stepTerminator]

theorem Delivers.ends {c : BlockId} {block : BasicBlock} (hopen : b₂.Open c block)
    (h : Delivers b₂.blocks b b₂ op f o) :
    ∃ q, Reaches b₂.blocks (b.point f) q ∧ (∀ r, step b₂.blocks q ≠ some (.next r)) ∧ EndsAt b₂.blocks b₂ op q o := by
  cases o with
  | value v =>
    obtain ⟨f', hreach, hop, -⟩ := h
    refine ⟨b₂.point f', hreach, fun r hr => ?_, f', rfl, hop⟩
    rw [last_of_open hopen] at hr
    cases hr
  | trap =>
    obtain ⟨q, hreach, htrap⟩ := h
    refine ⟨q, hreach, fun r hr => ?_, htrap⟩
    rw [htrap] at hr
    cases hr
  | undefined =>
    obtain ⟨q, hreach, hnone, hstuck⟩ := h
    refine ⟨q, hreach, fun r hr => ?_, hnone, hstuck⟩
    rw [hnone] at hr
    cases hr

theorem EndsAt.eq_trap {q : Exec.Point} (h : EndsAt blocks b₂ op q o) (htrap : step blocks q = some .trap)
    (hlast : ∀ f', step blocks (b₂.point f') = none) : o = .trap := by
  cases o with
  | value v =>
    obtain ⟨f', rfl, -⟩ := h
    rw [hlast f'] at htrap
    cases htrap
  | trap => rfl
  | undefined =>
    rw [h.1] at htrap
    cases htrap

theorem Delivers.unique {o' : Outcome} {c : BlockId} {block : BasicBlock} (h : Delivers b₂.blocks b b₂ op f o)
    (hopen : b₂.Open c block) (h' : Delivers b₂.blocks b b₂ op f o') : o = o' := by
  obtain ⟨q, hq, hlast, hend⟩ := h.ends hopen
  obtain ⟨q', hq', hlast', hend'⟩ := h'.ends hopen
  obtain rfl := hq.last_unique hq' hlast hlast'
  have hinside (f' : Frame) (hstuck : EndsAt b₂.blocks b₂ op (b₂.point f') .undefined) : False := by
    obtain ⟨-, block', hblock', hwhere⟩ := hstuck
    rw [hopen.point_eq] at hblock' hwhere
    obtain rfl : block = block' := Option.some.inj (hopen.get.symm.trans hblock')
    rcases hwhere with hlt | hne
    · exact absurd hlt (Nat.lt_irrefl _)
    · exact hne hopen.placeholder
  cases o with
  | trap => exact (hend'.eq_trap hend (last_of_open hopen)).symm
  | value v =>
    obtain ⟨f', rfl, hv⟩ := hend
    cases o' with
    | trap => exact absurd hend' (by rw [EndsAt, last_of_open hopen]; exact fun h => by cases h)
    | value w =>
      obtain ⟨f'', hpoint, hw⟩ := hend'
      obtain rfl : f' = f'' := congrArg Exec.Point.frame hpoint
      rw [hv] at hw
      exact congrArg _ (Option.some.inj hw)
    | undefined => exact (hinside f' hend').elim
  | undefined =>
    cases o' with
    | trap => exact hend.eq_trap hend' (last_of_open hopen)
    | value w =>
      obtain ⟨f', rfl, -⟩ := hend'
      exact (hinside f' hend).elim
    | undefined => rfl

end Delivers

section Delivered

variable {blocks : List BasicBlock} {b : BodyBuilder} {c : BlockId} {block : BasicBlock} {S : BlockId → Prop}

theorem operand_set (f : Frame) (l : LocalId) (v : Value) :
    (f.set l v).operand (.copy (.ofLocal l)) = some v ∧ (f.set l v).operand (.move (.ofLocal l)) = some v :=
  ⟨f.set_self l v, f.set_self l v⟩

theorem set_below (f : Frame) (b : BodyBuilder) (v : Value) (l : LocalId) (hl : l < b.locals.length) :
    f.set b.locals.length v l = f l :=
  Frame.set_of_ne v hl.ne

/-- The builder after an assignment to a new local. -/
def BodyBuilder.assignNew (b : BodyBuilder) (c : BlockId) (name : String) (ty : Ty) (span : Span) (mutable : Bool)
    (rv : Rvalue) : BodyBuilder :=
  (b.addLocal name ty span mutable).pushStmt c ⟨.assign (.ofLocal b.locals.length) rv, span⟩

/-- The builder after a call of a runtime function into a new local. -/
def BodyBuilder.callNew (b : BodyBuilder) (c : BlockId) (name : String) (ty : Ty) (span : Span) (mutable : Bool)
    (symbol : String) (args : List Operand) : BodyBuilder :=
  (b.addLocal name ty span mutable).leave c
    (.call (.constant (.str symbol)) args (.ofLocal b.locals.length) b.blocks.length none)

variable (name : String) (ty : Ty) (span : Span) (mutable : Bool)

theorem grows_assignNew (h : b.Open c block) (rv : Rvalue) : Grows b (b.assignNew c name ty span mutable rv) :=
  (grows_addLocal h name ty span mutable).trans (grows_pushStmt (open_addLocal h name ty span mutable) _)

theorem open_assignNew (h : b.Open c block) (rv : Rvalue) : ∃ block', (b.assignNew c name ty span mutable rv).Open c block' :=
  ⟨_, open_pushStmt (open_addLocal h name ty span mutable) _⟩

theorem locals_assignNew (b : BodyBuilder) (c : BlockId) (rv : Rvalue) :
    (b.assignNew c name ty span mutable rv).locals.length = b.locals.length + 1 := by
  simp [BodyBuilder.assignNew, BodyBuilder.addLocal, pushStmt]

theorem grows_callNew (h : b.Open c block) (symbol : String) (args : List Operand) :
    Grows b (b.callNew c name ty span mutable symbol args) :=
  (grows_addLocal h name ty span mutable).trans (grows_leave (open_addLocal h name ty span mutable) _)

theorem open_callNew (h : b.Open c block) (symbol : String) (args : List Operand) :
    ∃ c' block', (b.callNew c name ty span mutable symbol args).Open c' block' ∧ c' = b.blocks.length :=
  ⟨_, _, open_leave (open_addLocal h name ty span mutable) _, rfl⟩

theorem locals_callNew (b : BodyBuilder) (c : BlockId) (symbol : String) (args : List Operand) :
    (b.callNew c name ty span mutable symbol args).locals.length = b.locals.length + 1 := by
  unfold BodyBuilder.callNew leave close
  simp [BodyBuilder.addLocal, startBlock, moveTo]

/-- The assignment gives the local the value of the right side. -/
theorem delivers_assignNew (h : b.Open c block) {rv : Rvalue} {op : Operand}
    (hcode : HasCode blocks (b.assignNew c name ty span mutable rv) S) (hc : S c)
    (hop : op = .copy (.ofLocal b.locals.length) ∨ op = .move (.ofLocal b.locals.length)) (f : Frame) :
    Delivers blocks b (b.assignNew c name ty span mutable rv) op f (f.rvalue rv) := by
  have hopen := open_addLocal h name ty span mutable
  have hpoint : b.point f = (b.addLocal name ty span mutable).point f := rfl
  have hstep := step_pushStmt hopen hcode hc f
  rw [← hpoint, h.point_eq] at hstep
  cases hrv : f.rvalue rv with
  | value v =>
    refine ⟨f.set b.locals.length v, ?_, ?_, set_below f b v⟩
    · refine reaches_next ?_
      rw [BodyBuilder.assignNew, point_pushStmt hopen, h.point_eq, hstep]
      simp [stepStatement, Place.ofLocal, hrv]
    · rcases hop with rfl | rfl
      · exact (operand_set f _ v).1
      · exact (operand_set f _ v).2
  | trap =>
    refine ⟨b.point f, .refl, ?_⟩
    rw [h.point_eq, hstep]
    simp [stepStatement, Place.ofLocal, hrv]
  | undefined =>
    obtain ⟨final, hfinal, hstmts, -⟩ := hcode c hc _ (open_pushStmt hopen _).get
    refine ⟨b.point f, .refl, ?_, final, ?_, .inl ?_⟩
    · rw [h.point_eq, hstep]
      simp [stepStatement, Place.ofLocal, hrv]
    · rw [h.point_eq, hfinal]
    · rw [h.point_eq]
      have := hstmts.length_le
      simp only [List.length_append, List.length_singleton] at this
      exact this

/-- The call gives the local what the runtime function returns. -/
theorem delivers_callNew (h : b.Open c block) {symbol : String} {args : List Operand} {values : List Value} {op : Operand}
    (hcode : HasCode blocks (b.callNew c name ty span mutable symbol args) S) (hc : S c)
    (hop : op = .copy (.ofLocal b.locals.length) ∨ op = .move (.ofLocal b.locals.length)) {f : Frame}
    (hargs : args.mapM f.operand = some values) :
    Delivers blocks b (b.callNew c name ty span mutable symbol args) op f (callRuntime symbol values) := by
  have hopen := open_addLocal h name ty span mutable
  have hpoint : b.point f = (b.addLocal name ty span mutable).point f := rfl
  have hstep := step_leave hopen hcode hc f
  rw [← hpoint] at hstep
  simp only [stepTerminator, Place.ofLocal, hargs] at hstep
  cases hcall : callRuntime symbol values with
  | value v =>
    rw [hcall] at hstep
    refine ⟨f.set b.locals.length v, ?_, ?_, set_below f b v⟩
    · refine reaches_next ?_
      rw [BodyBuilder.callNew, point_leave hopen, hstep]
      rfl
    · rcases hop with rfl | rfl
      · exact (operand_set f _ v).1
      · exact (operand_set f _ v).2
  | trap =>
    rw [hcall] at hstep
    exact ⟨b.point f, .refl, hstep⟩
  | undefined =>
    rw [hcall] at hstep
    have hfinal := closed_leave hopen hcode hc
    exact ⟨b.point f, .refl, hstep, _, by rw [h.point_eq]; exact hfinal, .inr fun e => by cases e⟩

end Delivered

/-! ## Actions that compute -/

/-- The definitions have locals. -/
def Named (ids : List DefId) (b : BodyBuilder) : Prop :=
  ∀ id ∈ ids, ∃ l, b.localOf id = some l ∧ l < b.locals.length

/-- The locals of the definitions hold their values. -/
def HoldsValues (ids : List DefId) (val : DefId → Option Value) (b : BodyBuilder) (f : Frame) : Prop :=
  ∀ id ∈ ids, ∀ l, b.localOf id = some l → f l = val id

section Computes

variable {ids : List DefId} {val : DefId → Option Value} {b b' : BodyBuilder} {f f' : Frame}

theorem Grows.localOf (h : Grows b b') (id : DefId) : b'.localOf id = b.localOf id := by
  rw [BodyBuilder.localOf, BodyBuilder.localOf, h.defs]

theorem Named.grows (hn : Named ids b) (h : Grows b b') : Named ids b' := by
  intro id hid
  obtain ⟨l, hl, hlt⟩ := hn id hid
  exact ⟨l, by rw [h.localOf, hl], h.lt_locals hlt⟩

theorem HoldsValues.grows (hv : HoldsValues ids val b f) (hn : Named ids b) (h : Grows b b')
    (hf : ∀ l, l < b.locals.length → f' l = f l) : HoldsValues ids val b' f' := by
  intro id hid l hl
  rw [h.localOf] at hl
  obtain ⟨l', hl', hlt⟩ := hn id hid
  obtain rfl : l' = l := Option.some.inj (hl'.symm.trans hl)
  rw [hf l' hlt, hv id hid l' hl]

/-- The code that the action adds gives the outcome. -/
def Computes (ids : List DefId) (val : DefId → Option Value) (m : LowerM Operand) (o : Outcome) : Prop :=
  ∀ b c block, b.Open c block → Named ids b →
    ∃ op b', m b = .ok (op, b') ∧ Grows b b' ∧ op.Below b'.locals.length ∧
      ∀ blocks, HasCode blocks b' b.Owns → ∀ f, HoldsValues ids val b f → Delivers blocks b b' op f o

/-- The code that the action adds gives an outcome that depends on the values of two operands. -/
def Combines (k : Operand → Operand → LowerM Operand) (g : Value → Value → Outcome) : Prop :=
  ∀ b c block op₁ op₂, b.Open c block → op₁.Below b.locals.length → op₂.Below b.locals.length →
    ∃ op b', k op₁ op₂ b = .ok (op, b') ∧ Grows b b' ∧ op.Below b'.locals.length ∧
      ∀ blocks, HasCode blocks b' b.Owns → ∀ f v₁ v₂, f.operand op₁ = some v₁ → f.operand op₂ = some v₂ →
        Delivers blocks b b' op f (g v₁ v₂)

/-- Two operands, one after the other, and what is made of them. -/
theorem Computes.pair {m₁ m₂ : LowerM Operand} {o₁ o₂ : Outcome} {k : Operand → Operand → LowerM Operand}
    {g : Value → Value → Outcome} (h₁ : Computes ids val m₁ o₁) (h₂ : Computes ids val m₂ o₂) (hk : Combines k g) :
    Computes ids val (do
      let a ← m₁
      let c ← m₂
      k a c) (o₁.bind fun v₁ => o₂.bind fun v₂ => g v₁ v₂) := by
  intro b c block hopen hn
  obtain ⟨op₁, b₁, hm₁, hg₁, hbelow₁, hrun₁⟩ := h₁ b c block hopen hn
  obtain ⟨c₁, block₁, hopen₁⟩ := hg₁.opened
  obtain ⟨op₂, b₂, hm₂, hg₂, hbelow₂, hrun₂⟩ := h₂ b₁ c₁ block₁ hopen₁ (hn.grows hg₁)
  obtain ⟨c₂, block₂, hopen₂⟩ := hg₂.opened
  obtain ⟨op, b₃, hm₃, hg₃, hbelow₃, hrun₃⟩ :=
    hk b₂ c₂ block₂ op₁ op₂ hopen₂ (hbelow₁.mono hg₂.locals.length_le) hbelow₂
  refine ⟨op, b₃, ?_, hg₁.trans (hg₂.trans hg₃), hbelow₃, fun blocks hcode f hf => ?_⟩
  · exact Control.bind_eq_ok.2 ⟨op₁, b₁, hm₁, Control.bind_eq_ok.2 ⟨op₂, b₂, hm₂, hm₃⟩⟩
  · have hcode₂ := hg₃.hasCode hcode
    have hcode₁ := hg₂.hasCode hcode₂
    refine (hrun₁ blocks hcode₁ f hf).bind hg₁.locals.length_le fun v₁ f₁ _ hv₁ hf₁ => ?_
    refine (hrun₂ blocks (hcode₂.mono fun i => hg₁.owns) f₁ (hf.grows hn hg₁ hf₁)).bind hg₂.locals.length_le
      fun v₂ f₂ _ hv₂ hf₂ => ?_
    refine hrun₃ blocks (hcode.mono fun i hi => hg₁.owns (hg₂.owns hi)) f₂ v₁ v₂ ?_ hv₂
    rw [operand_congr hbelow₁ hf₂, hv₁]

end Computes

end Cobrust.Mir
