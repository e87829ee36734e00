import Cobrust.Mir.LowerExtent

/-!
# Reads are lowered to straight code

The actions of the builder, and one lemma for each function behind names, displays, attributes and
indexing. Each is a sequence of straight pieces.
-/

namespace Cobrust.Mir

open Control BodyBuilder

/-! ## The primitive actions -/

section Ok

variable {b b' : BodyBuilder} {u : Unit}

theorem startNewBlock_ok {id : BlockId} :
    startNewBlock b = .ok (id, b') ↔ id = b.blocks.length ∧ b' = b.startBlock := by
  simp [startNewBlock, eq_comm]

theorem setCurBlock_ok {id : BlockId} : setCurBlock id b = .ok (u, b') ↔ b' = b.moveTo id := by
  simp [setCurBlock, eq_comm]

theorem terminate_ok {t : Terminator} : terminate t b = .ok (u, b') ↔ b' = b.close t := by
  simp [terminate, eq_comm]

theorem terminated_ok {r : Bool} :
    terminated b = .ok (r, b') ↔ r = b.curBlock.isNone ∧ b = b' := by
  simp [terminated, @eq_comm _ r]

theorem currentBlockId_ok {id : BlockId} :
    currentBlockId b = .ok (id, b') ↔ b.curBlock = some id ∧ b = b' := by
  unfold currentBlockId
  cases b.curBlock with
  | none => simp
  | some c => simp

theorem emitStmt_ok {kind : StatementKind} {span : Span} :
    emitStmt kind span b = .ok (u, b') ↔
      ∃ c, b.curBlock = some c ∧ b' = b.pushStmt c ⟨kind, span⟩ := by
  unfold emitStmt
  cases b.curBlock with
  | none => simp
  | some c => simp [eq_comm]

/-- Closing a closed block changes nothing, so the test before the jump can be dropped. -/
theorem gotoIfOpen_ok {t : BlockId} : gotoIfOpen t b = .ok (u, b') ↔ b' = b.close (.goto t) := by
  unfold gotoIfOpen
  rw [bind_eq_ok]
  cases hc : b.curBlock with
  | none =>
    have hclose : b.close (.goto t) = b := by
      unfold close
      rw [hc]
    rw [hclose]
    simp [terminated_ok, hc, pure_eq_ok, @eq_comm _ b b']
  | some c => simp [terminated_ok, hc, terminate_ok]

theorem ensureOpenBlock_ok {id : BlockId} (h : b.curBlock = some id) :
    ensureOpenBlock b = .ok (id, b) := by
  simp [ensureOpenBlock, h]

theorem continueAfter_ok {term : BlockId → Terminator} :
    continueAfter term b = .ok (u, b') ↔ ∃ c : Nat, b.curBlock = some c ∧
      b' = ((b.startBlock.moveTo c).close (term b.blocks.length)).moveTo b.blocks.length := by
  unfold continueAfter
  simp only [bind_eq_ok, currentBlockId_ok, startNewBlock_ok, setCurBlock_ok, terminate_ok]
  constructor
  · rintro ⟨c, _, ⟨hc, rfl⟩, _, _, ⟨rfl, rfl⟩, _, _, rfl, _, _, rfl, rfl⟩
    exact ⟨c, hc, rfl⟩
  · rintro ⟨c, hc, rfl⟩
    exact ⟨c, b, ⟨hc, rfl⟩, _, _, ⟨rfl, rfl⟩, (), _, rfl, (), _, rfl, rfl⟩

end Ok

/-- Every successful run of `m` adds straight code. -/
abbrev StraightM {α : Type} (E : List Nat) (m : LowerM α) : Prop :=
  Steps (fun b b' => b.InRange → (∀ y ∈ E, y < b.blocks.length) → Straight E b b') m

namespace StraightM

variable {α β : Type} {E : List Nat}

theorem ret (a : α) : StraightM E (pure a : LowerM α) :=
  Steps.of_pure (fun b _ _ => Straight.refl b) a

theorem bind {m : LowerM α} {f : α → LowerM β} (hm : StraightM E m) (hf : ∀ a, StraightM E (f a)) :
    StraightM E (m >>= f) :=
  Steps.of_bind (fun h₁ h₂ hr hE => (h₁ hr hE).trans (h₂ ((h₁ hr hE).inRange hr) fun y hy =>
    Nat.lt_of_lt_of_le (hE y hy) (h₁ hr hE).len)) hm hf

theorem fail (e : MirError) : StraightM E (LowerM.fail e : LowerM α) :=
  Steps.of_throw _

theorem builder : StraightM E (get : LowerM BodyBuilder) :=
  Steps.of_get fun b _ _ => Straight.refl b

theorem mono {E' : List Nat} {m : LowerM α} (hm : StraightM E m) (hE : ∀ x ∈ E, x ∈ E') :
    StraightM E' m :=
  Steps.mono hm fun _ _ h hr hlt => (h hr fun y hy => hlt y (hE y hy)).mono hE

theorem run {m : LowerM α} (hm : StraightM [] m) {b b' : BodyBuilder} {a : α}
    (h : m b = .ok (a, b')) (hr : b.InRange) : Straight [] b b' :=
  hm b a b' h hr (by simp)

end StraightM

section

variable {E : List Nat}

/-- A change of the locals or of the map from definitions to locals. -/
theorem straight_of_blocks_eq {b b' : BodyBuilder} (hblocks : b'.blocks = b.blocks)
    (hcur : b'.curBlock = b.curBlock) (hloops : b'.loopStack = b.loopStack) : Straight E b b' :=
  .of_same_block (.of_blocks_eq hblocks hcur hloops) (by rw [hblocks]) hcur fun x => by
    rw [term, term, hblocks]

theorem straight_declareLocal (name : String) (ty : Ty) (span : Span) (mutable : Bool) :
    StraightM E (declareLocal name ty span mutable) := by
  intro b a b' h _ _
  obtain ⟨-, rfl⟩ := Prod.mk.inj (Except.ok.inj h)
  exact straight_of_blocks_eq rfl rfl rfl

theorem straight_declareLocalForDef (id : DefId) (name : String) (ty : Ty) (span : Span)
    (mutable : Bool) : StraightM E (declareLocalForDef id name ty span mutable) :=
  .bind (straight_declareLocal name ty span mutable) fun _ =>
    .bind (Steps.of_modify fun _ _ _ => straight_of_blocks_eq rfl rfl rfl) fun _ => .ret _

theorem straight_lookupLocalForResolved (ctx : LowerCtx) (rn : Hir.ResolvedName) (span : Span) :
    StraightM E (lookupLocalForResolved ctx rn span) := by
  unfold lookupLocalForResolved
  refine .bind .builder fun b => ?_
  cases b.localOf rn.defId with
  | none => exact straight_declareLocalForDef _ _ _ _ _
  | some id => exact .ret id

theorem straight_emitStmt (kind : StatementKind) (span : Span) : StraightM E (emitStmt kind span) := by
  intro b u b' h _ _
  obtain ⟨c, hc, rfl⟩ := emitStmt_ok.1 h
  exact .of_same_block (.pushStmt hc _) (length_pushStmt b c _) rfl (term_pushStmt b c _)

theorem straight_emitAssign (place : Place) (rvalue : Rvalue) (span : Span) :
    StraightM E (emitAssign place rvalue span) :=
  straight_emitStmt _ _

theorem straight_currentBlockId : StraightM E currentBlockId := by
  intro b c b' h _ _
  obtain ⟨-, rfl⟩ := currentBlockId_ok.1 h
  exact .refl b

theorem straight_startBlock {b : BodyBuilder} (h : b.curBlock = none) : Straight E b b.startBlock where
  toExtends := .startBlock b
  closed f _ x hx hlt hne := by
    rw [length_startBlock] at hlt
    rw [curBlock_startBlock] at hne
    rcases hx with hx | hx
    · rw [h] at hx
      cases hx
    · exact absurd (congrArg some (Nat.le_antisymm hx (Nat.lt_succ_iff.1 hlt))) hne
  path f _ c hc := by
    rw [h] at hc
    cases hc
  fresh x hx := by
    obtain rfl : b.blocks.length = x := Option.some.inj hx
    exact .inr ⟨Nat.le_refl _, term_startBlock_self b⟩

theorem straight_ensureOpenBlock : StraightM E ensureOpenBlock := by
  intro b id b' h _ _
  unfold ensureOpenBlock at h
  cases hc : b.curBlock with
  | none =>
    rw [hc] at h
    obtain ⟨-, rfl⟩ := startNewBlock_ok.1 h
    exact straight_startBlock hc
  | some c =>
    rw [hc] at h
    obtain ⟨-, rfl⟩ := Prod.mk.inj (Except.ok.inj h)
    exact .refl b

/-- The current block branches to the new one, and elsewhere only to `E`. -/
theorem straight_continueAfter {term : BlockId → Terminator}
    (hnext : ∀ next, next ∈ (term next).successors)
    (hE : ∀ next, ∀ y ∈ (term next).successors, y = next ∨ y ∈ E) :
    StraightM E (continueAfter term) := by
  intro b u b' h hr hlt
  obtain ⟨c, hc, rfl⟩ := continueAfter_ok.1 h
  have hclt := hr.cursor c hc
  have hlen : b.startBlock.blocks.length = b.blocks.length + 1 := length_startBlock b
  have hext := (Extends.startBlock b).rewire (c := c) (x := b.blocks.length) (term b.blocks.length)
    (.inl hc) (by omega) (.inr (Nat.le_refl _)) (by omega) fun y hy => by
      rw [hlen]
      rcases hE _ y hy with rfl | hy
      · exact Nat.lt_succ_self _
      · exact Nat.lt_succ_of_lt (hlt y hy)
  have hterm (x : Nat) :
      (((b.startBlock.moveTo c).close (term b.blocks.length)).moveTo b.blocks.length).term x =
        if x = c then some (term b.blocks.length) else b.startBlock.term x := by
    rw [term_moveTo, term_close_moveTo _ (by omega)]
  have hlen' : (((b.startBlock.moveTo c).close (term b.blocks.length)).moveTo
      b.blocks.length).blocks.length = b.blocks.length + 1 := by
    rw [blocks_moveTo, length_close, blocks_moveTo, hlen]
  have hedge (f : Nat → Option Terminator) (hf : Settled f b
      (((b.startBlock.moveTo c).close (term b.blocks.length)).moveTo b.blocks.length)) :
      targets f c = (term b.blocks.length).successors := by
    have hne : some b.blocks.length ≠ some c := fun e => Nat.ne_of_gt hclt (Option.some.inj e)
    have hfc := hf c (.inl hc) (by omega) hne
    rw [hterm, if_pos rfl] at hfc
    exact targets_eq hfc
  refine ⟨hext, ?_, ?_, ?_⟩
  · intro f hf x hx hxlt hne y hy
    rw [hlen'] at hxlt ⊢
    rcases hx with hx | hx
    · obtain rfl : c = x := Option.some.inj (hc.symm.trans hx)
      rw [hedge f hf] at hy
      rcases hE _ y hy with rfl | h
      · exact .inr ⟨Nat.le_refl _, Nat.lt_succ_self _⟩
      · exact .inl h
    · have heq : x = b.blocks.length := by omega
      exact absurd (congrArg some heq.symm) hne
  · intro f hf c' hc'
    obtain rfl : c = c' := Option.some.inj (hc.symm.trans hc')
    refine ⟨b.blocks.length, rfl, .single ?_⟩
    rw [hedge f hf]
    exact hnext _
  · intro x hx
    obtain rfl : b.blocks.length = x := Option.some.inj hx
    refine .inr ⟨Nat.le_refl _, ?_⟩
    rw [hterm, if_neg (by omega), term_startBlock_self]

theorem straight_callInto (func : Operand) (args : List Operand) (dest : Place) :
    StraightM E (callInto func args dest) := by
  refine straight_continueAfter (fun next => ?_) fun next y hy => ?_
  · simp [Terminator.successors]
  · exact .inl (by simpa [Terminator.successors] using hy)

theorem straight_callSymbol (symbol : String) (args : List Operand) (dest : LocalId) :
    StraightM E (callSymbol symbol args dest) :=
  straight_callInto _ _ _

end

/-! ## Displays, names and attributes -/

section

variable {E : List Nat}

theorem straight_lowerAll {subs : List Sub} (h : ∀ s ∈ subs, StraightM E s.lower) :
    StraightM E (lowerAll subs) := by
  induction subs with
  | nil => exact .ret _
  | cons s rest ih =>
    unfold lowerAll
    refine .bind (h s (by simp)) fun _ => .bind (ih fun t ht => h t (by simp [ht])) fun _ => .ret _

theorem straight_lowerAggregate (name : String) (ty : Ty) (kind : AggregateKind) (ops : List Operand)
    (span : Span) : StraightM E (lowerAggregate name ty kind ops span) :=
  .bind (straight_declareLocal _ _ _ _) fun _ => .bind (straight_emitAssign _ _ _) fun _ => .ret _

theorem straight_emitEcosystemCall (symbol : String) (ty : Ty) (args : List Operand) (span : Span) :
    StraightM E (emitEcosystemCall symbol ty args span) :=
  .bind (straight_declareLocal _ _ _ _) fun _ => .bind (straight_callSymbol _ _ _) fun _ => .ret _

/-- The subexpressions of the parts of an f-string. -/
def SubPart.Straight (E : List Nat) : SubPart → Prop
  | .lit _ => True
  | .hole e _ => StraightM E e.lower

def SubEntry.Straight (E : List Nat) : SubEntry → Prop
  | .pair k v => StraightM E k.lower ∧ StraightM E v.lower
  | .spread e => StraightM E e.lower

def SubIndex.Straight (E : List Nat) : SubIndex → Prop
  | .expr e => StraightM E e.lower
  | .slice start stop step =>
    ∀ o ∈ [start, stop, step], ∀ s, o = some s → StraightM E s.lower
  | .tuple => True

theorem straight_lowerFormatParts {parts : List SubPart} (h : ∀ p ∈ parts, p.Straight E) :
    StraightM E (lowerFormatParts parts) := by
  induction parts with
  | nil => exact .ret _
  | cons p rest ih =>
    have hrest := ih fun q hq => h q (by simp [hq])
    have hp := h p (by simp)
    cases p with
    | lit s => exact .bind hrest fun _ => .ret _
    | hole e spec => exact .bind hp fun _ => .bind hrest fun _ => .ret _

theorem straight_lowerDictEntries {entries : List SubEntry} (h : ∀ e ∈ entries, e.Straight E) :
    StraightM E (lowerDictEntries entries) := by
  induction entries with
  | nil => exact .ret _
  | cons e rest ih =>
    have hrest := ih fun q hq => h q (by simp [hq])
    have he := h e (by simp)
    cases e with
    | pair k v => exact .bind he.1 fun _ => .bind he.2 fun _ => .bind hrest fun _ => .ret _
    | spread e => exact .bind he fun _ => .bind hrest fun _ => .ret _

theorem straight_lowerIndex {index : SubIndex} (h : index.Straight E) :
    StraightM E (lowerIndex index) := by
  cases index with
  | expr e => exact h
  | slice start stop step => exact .ret _
  | tuple => exact .ret _

variable (ctx : LowerCtx)

theorem straight_lowerName (rn : Hir.ResolvedName) (span : Span) :
    StraightM E (lowerName ctx rn span) :=
  .bind (straight_lookupLocalForResolved _ _ _) fun _ => .ret _

theorem straight_markValidatedBody (op : Operand) (adt : AdtId) :
    StraightM E (markValidatedBody op adt) := by
  cases op with
  | copy p => exact Steps.of_modify fun _ _ _ => straight_of_blocks_eq rfl rfl rfl
  | move p => exact Steps.of_modify fun _ _ _ => straight_of_blocks_eq rfl rfl rfl
  | constant c => exact .ret _

theorem straight_resolveValidatedBodyBase (e : Hir.Expr) :
    StraightM E (resolveValidatedBodyBase ctx e) := by
  fun_induction resolveValidatedBodyBase ctx e with
  | case1 rn span =>
    refine .bind .builder fun b => ?_
    cases (b.localOf rn.defId).bind fun id => (b.locals[id]?).bind LocalDecl.validatedBodyOf with
    | none => exact .ret _
    | some adt => exact .bind (straight_lowerName ctx rn span) fun _ => .ret _
  | case2 innerBase field span ih =>
    refine .bind ih fun r => ?_
    cases r with
    | none => exact .ret _
    | some p =>
      obtain ⟨outerOp, outerAdt⟩ := p
      dsimp only
      split
      · exact .bind (straight_emitEcosystemCall _ _ _ _) fun _ =>
          .bind (straight_markValidatedBody _ _) fun _ => .ret _
      · exact .ret _
  | case3 => exact .ret _

variable {base : Sub} (hbase : StraightM E base.lower)

include hbase

theorem straight_lowerPlainAttr (span : Span) : StraightM E (lowerPlainAttr base span) :=
  .bind hbase fun _ => .bind (straight_declareLocal _ _ _ _) fun _ =>
    .bind (straight_emitAssign _ _ _) fun _ => .ret _

theorem straight_lowerOtherAttr (name : String) (span : Span) :
    StraightM E (lowerOtherAttr ctx base name span) := by
  unfold lowerOtherAttr
  cases ctx.moduleConst base.expr name with
  | none => exact straight_lowerPlainAttr hbase span
  | some bits => exact .ret _

theorem straight_lowerAttr (name : String) (span : Span) :
    StraightM E (lowerAttr ctx base name span) := by
  unfold lowerAttr
  cases ctx.eco.lookupHandleAttr (ctx.synthExprTy base.expr) name with
  | some sig => exact .bind hbase fun _ => straight_emitEcosystemCall _ _ _ _
  | none =>
    refine .bind (straight_resolveValidatedBodyBase ctx base.expr) fun r => ?_
    cases r with
    | none => exact straight_lowerOtherAttr ctx hbase name span
    | some p =>
      obtain ⟨baseOp, bodyAdt⟩ := p
      dsimp only
      cases validatedField ctx bodyAdt name with
      | none => exact straight_lowerOtherAttr ctx hbase name span
      | some q =>
        obtain ⟨fieldTy, accessor⟩ := q
        refine .bind (straight_emitEcosystemCall _ _ _ _) fun op => ?_
        split
        · exact .bind (straight_markValidatedBody _ _) fun _ => .ret _
        · exact .ret _

/-! ## Indexing -/

theorem straight_lowerSlice {start stop step : Option Sub}
    (hindex : (SubIndex.slice start stop step).Straight E)
    (tyName subject destName : String) (destTy : Ty) (symbol : String) (span : Span) :
    StraightM E (lowerSlice tyName subject destName destTy symbol base start stop step span) := by
  unfold lowerSlice
  split
  · next lo hi =>
    have hlo : StraightM E lo.lower := hindex _ (by simp) lo rfl
    have hhi : StraightM E hi.lower := hindex _ (by simp) hi rfl
    exact .bind hbase fun _ => .bind hlo fun _ => .bind hhi fun _ =>
      .bind (straight_declareLocal _ _ _ _) fun _ => .bind (straight_callSymbol _ _ _) fun _ => .ret _
  · exact .fail _

variable {index : SubIndex} (hindex : index.Straight E)

include hindex

theorem straight_lowerDictIndex (k v : Ty) (span : Span) :
    StraightM E (lowerDictIndex k v base index span) :=
  .bind hbase fun _ => .bind (straight_lowerIndex hindex) fun _ =>
    .bind (straight_declareLocal _ _ _ _) fun _ => .bind (straight_callSymbol _ _ _) fun _ => .ret _

theorem straight_lowerElementRead (destName : String) (destTy : Ty) (mutable : Bool) (symbol : String)
    (span : Span) : StraightM E (lowerElementRead destName destTy mutable symbol base index span) :=
  .bind hbase fun _ => .bind (straight_lowerIndex hindex) fun _ =>
    .bind (straight_declareLocal _ _ _ _) fun _ => .bind (straight_callSymbol _ _ _) fun _ => .ret _

theorem straight_lowerListElement (elem : Ty) (span : Span) :
    StraightM E (lowerListElement elem base index span) := by
  unfold lowerListElement
  refine .bind hbase fun _ => .bind (straight_lowerIndex hindex) fun _ => ?_
  split
  · exact .bind (straight_declareLocal _ _ _ _) fun _ => .bind (straight_callSymbol _ _ _) fun _ =>
      .bind (straight_declareLocal _ _ _ _) fun _ => .bind (straight_callSymbol _ _ _) fun _ => .ret _
  · exact .bind (straight_declareLocal _ _ _ _) fun _ => .bind (straight_callSymbol _ _ _) fun _ =>
      .ret _

theorem straight_lowerListIndex (elem : Ty) (span : Span) :
    StraightM E (lowerListIndex elem base index span) := by
  unfold lowerListIndex
  split
  · exact straight_lowerSlice hbase hindex _ _ _ _ _ span
  · exact straight_lowerListElement hbase hindex elem span

theorem straight_lowerBytesIndex (span : Span) : StraightM E (lowerBytesIndex base index span) := by
  unfold lowerBytesIndex
  split
  · exact straight_lowerSlice hbase hindex _ _ _ _ _ span
  · exact .bind (straight_lowerElementRead hbase hindex _ _ _ _ span) fun _ => .ret _

theorem straight_lowerStrIndex (span : Span) : StraightM E (lowerStrIndex base index span) := by
  unfold lowerStrIndex
  split
  · exact straight_lowerSlice hbase hindex _ _ _ _ _ span
  · exact .bind (straight_lowerElementRead hbase hindex _ _ _ _ span) fun _ => .ret _

theorem straight_lowerPlainIndex (span : Span) : StraightM E (lowerPlainIndex base index span) :=
  .bind hbase fun _ => .bind (straight_declareLocal _ _ _ _) fun _ =>
    .bind (straight_emitAssign _ _ _) fun _ => .bind (straight_lowerIndex hindex) fun _ => .ret _

theorem straight_lowerCoilIndex (span : Span) : StraightM E (lowerCoilIndex base index span) := by
  unfold lowerCoilIndex
  split
  · next lo hi =>
    have hlo : StraightM E lo.lower := hindex _ (by simp) lo rfl
    have hhi : StraightM E hi.lower := hindex _ (by simp) hi rfl
    exact .bind hbase fun _ => .bind hlo fun _ => .bind hhi fun _ =>
      .bind (straight_declareLocal _ _ _ _) fun _ => .bind (straight_callSymbol _ _ _) fun _ => .ret _
  · exact straight_lowerPlainIndex hbase hindex span
  · exact .bind (straight_lowerElementRead hbase hindex _ _ _ _ span) fun _ => .ret _

theorem straight_lowerTupleIndex (elems : List Ty) (span : Span) :
    StraightM E (lowerTupleIndex elems base index span) := by
  unfold lowerTupleIndex
  split
  · split
    · exact .bind hbase fun _ => .bind (straight_declareLocal _ _ _ _) fun _ =>
        .bind (straight_emitAssign _ _ _) fun _ => .bind (straight_declareLocal _ _ _ _) fun _ =>
        .bind (straight_emitAssign _ _ _) fun _ => .ret _
    · exact .fail _
  · exact straight_lowerPlainIndex hbase hindex span

theorem straight_lowerIndexExpr (span : Span) : StraightM E (lowerIndexExpr ctx base index span) := by
  unfold lowerIndexExpr
  split
  · exact straight_lowerDictIndex hbase hindex _ _ span
  · exact straight_lowerListIndex hbase hindex _ span
  · exact straight_lowerBytesIndex hbase hindex span
  · exact straight_lowerStrIndex hbase hindex span
  · split
    · exact straight_lowerCoilIndex hbase hindex span
    · exact straight_lowerPlainIndex hbase hindex span
  · exact straight_lowerTupleIndex hbase hindex _ span
  · exact straight_lowerPlainIndex hbase hindex span

end

end Cobrust.Mir
