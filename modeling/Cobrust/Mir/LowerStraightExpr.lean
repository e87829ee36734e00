import Cobrust.Mir.LowerStraight

/-!
# Expressions are lowered to straight code

Calls and operators are sequences of straight pieces. The conditional expression, the short-circuit
operators and the comprehension clauses build control flow, and their blocks are followed one by one.
-/

namespace Cobrust.Mir

open Control BodyBuilder

variable {E : List Nat} (ctx : LowerCtx)

/-! ## Calls -/

theorem straight_positional {args : List SubArg} (h : ∀ a ∈ args, StraightM E a.lower) :
    ∀ s ∈ collectPositionalArgs args, StraightM E s.lower := by
  intro s hs
  obtain ⟨a, ha, hpos⟩ := List.mem_filterMap.1 hs
  unfold SubArg.positional? at hpos
  split at hpos
  · obtain rfl := Option.some.inj hpos
    exact h a ha
  · cases hpos

theorem straight_lowerEcoArg {arg : Sub} (h : StraightM E arg.lower) (param : EcoParam) :
    StraightM E (lowerEcoArg arg param) := by
  cases param with
  | value ty => exact .bind h fun _ => .bind .builder fun _ => .ret _
  | callback ty =>
    unfold lowerEcoArg
    dsimp only
    split
    · split
      · exact .ret _
      · exact .fail _
    · exact .fail _

theorem straight_lowerEcoArgs {args : List Sub} (h : ∀ s ∈ args, StraightM E s.lower)
    (params : List EcoParam) : StraightM E (lowerEcoArgs args params) := by
  induction args generalizing params with
  | nil => exact .ret _
  | cons arg rest ih =>
    cases params with
    | nil => exact .ret _
    | cons param params =>
      unfold lowerEcoArgs
      exact .bind (straight_lowerEcoArg (h arg (by simp)) param) fun _ =>
        .bind (ih (fun s hs => h s (by simp [hs])) params) fun _ => .ret _

theorem straight_lowerArgs {args : List SubArg} (h : ∀ a ∈ args, StraightM E a.lower) :
    StraightM E (lowerArgs args) := by
  induction args with
  | nil => exact .ret _
  | cons a rest ih =>
    exact .bind (h a (by simp)) fun _ => .bind (ih fun s hs => h s (by simp [hs])) fun _ => .ret _

theorem straight_lowerCallArgs (callee : Hir.Expr) {args : List SubArg}
    (h : ∀ a ∈ args, StraightM E a.lower) : StraightM E (lowerCallArgs callee args) := by
  induction args with
  | nil => exact .ret _
  | cons a rest ih =>
    exact .bind (h a (by simp)) fun _ => .bind .builder fun _ =>
      .bind (ih fun s hs => h s (by simp [hs])) fun _ => .ret _

theorem straight_lowerMinMaxElems (elemIsFloat : Bool) (span : Span) (elems : List (SubArg × Operand)) :
    StraightM E (lowerMinMaxElems ctx elemIsFloat span elems) := by
  induction elems with
  | nil => exact .ret _
  | cons p rest ih =>
    obtain ⟨a, op⟩ := p
    unfold lowerMinMaxElems
    dsimp only
    split
    · exact .bind (straight_declareLocal _ _ _ _) fun _ => .bind (straight_emitAssign _ _ _) fun _ =>
        .bind ih fun _ => .ret _
    · exact .bind ih fun _ => .ret _

theorem straight_packCallArgs (callee : Hir.Expr) (args : List SubArg) (argOps : List Operand)
    (span : Span) : StraightM E (packCallArgs ctx callee args argOps span) := by
  have hlast (ops : List Operand) : StraightM E
      (if calleeName callee = some "range" && ops.length = 1 then
        (return .constant (.int 0) :: ops : LowerM (List Operand))
      else return ops) := by
    split
    · exact .ret _
    · exact .ret _
  unfold packCallArgs
  split
  · refine .bind (.bind (straight_lowerMinMaxElems ctx _ _ _) fun _ => ?_) hlast
    exact .bind (straight_lowerAggregate _ _ _ _ _) fun _ => .ret _
  · exact .bind (.ret _) hlast

section

variable {args : List SubArg} (hargs : ∀ a ∈ args, StraightM E a.lower)

include hargs

theorem straight_lowerEcoFn (symbol : String) (sig : EcoSig) (span : Span) :
    StraightM E (lowerEcoFn symbol sig args span) :=
  .bind (straight_lowerEcoArgs (straight_positional hargs) _) fun _ =>
    .bind (straight_emitEcosystemCall _ _ _ _) fun _ => .ret _

variable {base : Sub} (hbase : StraightM E base.lower)

include hbase

theorem straight_lowerHandleMethod (sig : EcoSig) (span : Span) :
    StraightM E (lowerHandleMethod ctx sig base args span) :=
  .bind hbase fun _ => .bind (straight_lowerEcoArgs (straight_positional hargs) _) fun _ =>
    .bind (straight_emitEcosystemCall _ _ _ _) fun _ => .ret _

theorem straight_tryLowerEcosystemCall (name : String) (span : Span) :
    StraightM E (tryLowerEcosystemCall ctx base name args span) := by
  unfold tryLowerEcosystemCall
  split
  · split
    · exact straight_lowerEcoFn hargs _ _ span
    · exact .ret _
  · split
    · split
      · exact straight_lowerEcoFn hargs _ _ span
      · exact .ret _
    · split
      · split
        · split
          · exact straight_lowerHandleMethod ctx hargs hbase _ span
          · exact .ret _
        · exact .ret _
      · exact .ret _

theorem straight_lowerRewrittenMethodCall (id : DefId) (name : String) (span : Span) :
    StraightM E (lowerRewrittenMethodCall ctx base args id name span) :=
  .bind hbase fun _ => .bind .builder fun _ => .bind (straight_lowerArgs hargs) fun _ =>
    .bind (straight_declareLocal _ _ _ _) fun _ => .bind (straight_callInto _ _ _) fun _ => .ret _

omit hbase

variable {callee : Sub} (hcallee : StraightM E callee.lower)

include hcallee

omit hargs in
theorem straight_lowerCallee : StraightM E (lowerCallee ctx callee) := by
  unfold lowerCallee
  split
  · split
    · exact .ret _
    · exact hcallee
  · exact hcallee

theorem straight_lowerFnCall (span : Span) : StraightM E (lowerFnCall ctx callee args span) :=
  .bind (straight_lowerCallee ctx hcallee) fun _ => .bind (straight_lowerCallArgs _ hargs) fun _ =>
    .bind (straight_packCallArgs ctx _ _ _ _) fun _ => .bind (straight_declareLocal _ _ _ _) fun _ =>
    .bind (straight_callInto _ _ _) fun _ => .ret _

theorem straight_lowerCall {base : Option (Sub × String)}
    (hbase : ∀ s name, base = some (s, name) → StraightM E s.lower) (span : Span) :
    StraightM E (lowerCall ctx callee base args span) := by
  unfold lowerCall
  split
  · exact straight_lowerFnCall ctx hargs hcallee span
  · next s name =>
    have hs := hbase s name rfl
    refine .bind (straight_tryLowerEcosystemCall ctx hargs hs name span) fun r => ?_
    cases r with
    | some op => exact .ret _
    | none =>
      dsimp only
      split
      · exact straight_lowerRewrittenMethodCall ctx hargs hs _ _ span
      · exact straight_lowerFnCall ctx hargs hcallee span

end

/-! ## Operators -/

theorem straight_compareWithZero (name : String) (op : BinOp) (raw : LocalId) (span : Span) :
    StraightM E (compareWithZero name op raw span) :=
  .bind (straight_declareLocal _ _ _ _) fun _ => .bind (straight_emitAssign _ _ _) fun _ => .ret _

theorem straight_castToFloatWhen (isInt : Bool) (name : String) (op : Operand) (span : Span) :
    StraightM E (castToFloatWhen isInt name op span) := by
  unfold castToFloatWhen
  split
  · exact .bind (straight_declareLocal _ _ _ _) fun _ => .bind (straight_emitAssign _ _ _) fun _ =>
      .ret _
  · exact .ret _

theorem straight_emitDivAssert (rhsOp : Operand) (span : Span) :
    StraightM E (emitDivAssert rhsOp span) := by
  refine .bind (straight_declareLocal _ _ _ _) fun _ => .bind (straight_emitAssign _ _ _) fun _ => ?_
  refine straight_continueAfter (fun next => ?_) fun next y hy => ?_
  · simp [Terminator.successors]
  · exact .inl (by simpa [Terminator.successors] using hy)

section

variable {lhs rhs : Sub} (hlhs : StraightM E lhs.lower) (hrhs : StraightM E rhs.lower)

include hlhs hrhs

theorem straight_lowerDictContains (keyTy : Ty) (negated : Bool) (span : Span) :
    StraightM E (lowerDictContains keyTy negated lhs rhs span) :=
  .bind hlhs fun _ => .bind hrhs fun _ => .bind (straight_declareLocal _ _ _ _) fun _ =>
    .bind (straight_callSymbol _ _ _) fun _ => straight_compareWithZero _ _ _ _

theorem straight_lowerBufferScalar (symbol : String) (ty : Ty) (span : Span) :
    StraightM E (lowerBufferScalar symbol ty lhs rhs span) :=
  .bind hlhs fun _ => .bind hrhs fun _ => .bind (straight_castToFloatWhen _ _ _ _) fun _ =>
    straight_emitEcosystemCall _ _ _ _

theorem straight_lowerHandlePair (name : String) (ty : Ty) (symbol : String) (span : Span) :
    StraightM E (lowerHandlePair name ty symbol lhs rhs span) :=
  .bind hlhs fun _ => .bind hrhs fun _ => .bind (straight_declareLocal _ _ _ _) fun _ =>
    .bind (straight_callSymbol _ _ _) fun _ => .ret _

theorem straight_lowerStrRepeat (lhsIsStr : Bool) (span : Span) :
    StraightM E (lowerStrRepeat lhsIsStr lhs rhs span) :=
  .bind hlhs fun _ => .bind hrhs fun _ => .bind (straight_declareLocal _ _ _ _) fun _ =>
    .bind (straight_callSymbol _ _ _) fun _ => .ret _

theorem straight_lowerPow (lhsTy rhsTy : Ty) (span : Span) :
    StraightM E (lowerPow lhsTy rhsTy lhs rhs span) := by
  unfold lowerPow
  split
  · exact .bind hlhs fun _ => .bind (straight_castToFloatWhen _ _ _ _) fun _ => .bind hrhs fun _ =>
      .bind (straight_castToFloatWhen _ _ _ _) fun _ => straight_emitEcosystemCall _ _ _ _
  · exact .bind hlhs fun _ => .bind hrhs fun _ => straight_emitEcosystemCall _ _ _ _

theorem straight_lowerPlainBin (op : Hir.BinOp) (lhsTy rhsTy : Ty) (span : Span) :
    StraightM E (lowerPlainBin op lhsTy rhsTy lhs rhs span) := by
  unfold lowerPlainBin
  refine .bind hlhs fun _ => .bind hrhs fun _ => ?_
  have hlast (lhsOp rhsOp : Operand) : StraightM E (do
      let temp ← declareLocal "_bin" (synthBinResultTy op lhsTy rhsTy) span false
      emitAssign (.ofLocal temp) (.binaryOp (binToMir op) lhsOp rhsOp) span
      return Operand.copy (.ofLocal temp)) :=
    .bind (straight_declareLocal _ _ _ _) fun _ => .bind (straight_emitAssign _ _ _) fun _ => .ret _
  split
  · exact .bind (straight_emitDivAssert _ _) fun _ => hlast _ _
  · exact hlast _ _

end

/-! ## Control flow inside an expression -/

/-- A run of straight code from the cursor of `b₁`, seen inside code from `b` to `b'`: what is written
later leaves its closed blocks alone. -/
theorem settled_of_later {f : Nat → Option Terminator} {b b₁ b₂ b' : BodyBuilder}
    (hf : Settled f b b') (hown : ∀ x, b₁.Owns x → b.Owns x)
    (hlen : b₂.blocks.length ≤ b'.blocks.length)
    (hlater : ∀ x, b₁.Owns x → x < b₂.blocks.length → b₂.curBlock ≠ some x →
      b'.curBlock ≠ some x ∧ b'.term x = b₂.term x) :
    Settled f b₁ b₂ := by
  intro x hx hlt hne
  obtain ⟨hne', hterm⟩ := hlater x hx hlt hne
  rw [hf x (hown x hx) (Nat.lt_of_lt_of_le hlt hlen) hne', hterm]

theorem owns_iff {b : BodyBuilder} {c : Nat} (hc : b.curBlock = some c) (x : Nat) :
    b.Owns x ↔ x = c ∨ b.blocks.length ≤ x := by
  unfold Owns
  rw [hc, Option.some.injEq, eq_comm]

/-- What `set_current(c); terminate(t); set_current(x)` does to the terminators. -/
structure Rewired (b b' : BodyBuilder) (c : Nat) (t : Terminator) (x : Nat) : Prop where
  len : b'.blocks.length = b.blocks.length
  cur : b'.curBlock = some x
  self : b'.term c = some t
  other : ∀ y, y ≠ c → b'.term y = b.term y

theorem rewired {b : BodyBuilder} {c : Nat} (t : Terminator) (x : Nat) (hc : c < b.blocks.length) :
    Rewired b (((b.moveTo c).close t).moveTo x) c t x where
  len := by rw [blocks_moveTo, length_close, blocks_moveTo]
  cur := rfl
  self := by rw [term_moveTo, term_close_moveTo t hc, if_pos rfl]
  other y hy := by rw [term_moveTo, term_close_moveTo t hc, if_neg hy]

/-- The blocks of `and`/`or` behind the left operand: the cursor `c` of `b` branches to the right
operand, lowered from `b₂` to `b₁`, and to the block where both ways meet. -/
theorem straight_shortCircuit {b b₂ b₁ b' : BodyBuilder} {c e : Nat} {switch : Terminator}
    (hr : b.InRange) (hc : b.curBlock = some c)
    (hswitch : switch.successors = [b.blocks.length, b.blocks.length + 1])
    (h₂ : Rewired b.startBlock.startBlock b₂ c switch b.blocks.length)
    (hext₂ : Extends b b₂) (hrhs : Straight [] b₂ b₁) (he : b₁.curBlock = some e)
    (h' : Rewired b₁ b' e (.goto (b.blocks.length + 1)) (b.blocks.length + 1))
    (hext' : Extends b b') : Straight [] b b' := by
  have hlt := hr.cursor c hc
  have hlen₂ : b₂.blocks.length = b.blocks.length + 2 := by
    rw [h₂.len, length_startBlock, length_startBlock]
  have hlen₁ : b.blocks.length + 2 ≤ b₁.blocks.length := hlen₂ ▸ hrhs.len
  have hown (x : Nat) : b₂.Owns x ↔ x = b.blocks.length ∨ b.blocks.length + 2 ≤ x := by
    rw [owns_iff h₂.cur, hlen₂]
  have heown := (hown e).1 (hrhs.cursor e he)
  have hcterm : b'.term c = some switch := by
    rw [h'.other c (by omega), hrhs.term_eq (by omega) (by rw [h₂.cur]; simp; omega), h₂.self]
  have hset (f : Nat → Option Terminator) (hf : Settled f b b') : Settled f b₂ b₁ := by
    refine settled_of_later hf (fun x hx => hext₂.owns hx) (Nat.le_of_eq h'.len.symm) ?_
    intro x hx hx₁ hne
    have hxown := (hown x).1 hx
    refine ⟨?_, h'.other x fun e' => hne (by rw [he, e'])⟩
    rw [h'.cur]
    simp only [ne_eq, Option.some.injEq]
    omega
  have htargets_c (f : Nat → Option Terminator) (hf : Settled f b b') :
      targets f c = [b.blocks.length, b.blocks.length + 1] := by
    rw [targets_eq (t := switch), hswitch]
    rw [hf c (.inl hc) (by rw [h'.len]; omega) (by rw [h'.cur]; simp; omega), hcterm]
  have htargets_e (f : Nat → Option Terminator) (hf : Settled f b b') :
      targets f e = [b.blocks.length + 1] := by
    rw [targets_eq (t := .goto (b.blocks.length + 1))]
    · rfl
    · have helt := (hrhs.inRange (hext₂.inRange hr)).cursor e he
      rw [hf e (hext₂.owns ((hown e).2 heown)) (by rw [h'.len]; exact helt)
        (by rw [h'.cur]; simp; omega), h'.self]
  refine ⟨hext', ?_, ?_, ?_⟩
  · intro f hf x hx hxlt hxne y hy
    rw [h'.len] at hxlt ⊢
    rw [h'.cur] at hxne
    by_cases hxc : x = c
    · rw [hxc, htargets_c f hf] at hy
      simp only [List.mem_cons, List.not_mem_nil, or_false] at hy
      omega
    · have hxn : b.blocks.length ≤ x := ((owns_iff hc x).1 hx).resolve_left hxc
      have hxown : b₂.Owns x := (hown x).2 (by simp at hxne; omega)
      by_cases hxe : b₁.curBlock = some x
      · obtain rfl : e = x := Option.some.inj (he.symm.trans hxe)
        rw [htargets_e f hf] at hy
        simp only [List.mem_cons, List.not_mem_nil, or_false] at hy
        omega
      · have hin := hrhs.closed f (hset f hf) x hxown hxlt hxe y hy
        rw [hlen₂] at hin
        simp only [List.not_mem_nil, false_or] at hin
        omega
  · intro f hf c' hc'
    obtain rfl : c = c' := Option.some.inj (hc.symm.trans hc')
    obtain ⟨e', he', hpath⟩ := hrhs.path f (hset f hf) b.blocks.length h₂.cur
    obtain rfl : e = e' := Option.some.inj (he.symm.trans he')
    refine ⟨b.blocks.length + 1, h'.cur, ?_⟩
    have hfirst : b.blocks.length ∈ targets f c := by simp [htargets_c f hf]
    have hlast : b.blocks.length + 1 ∈ targets f e := by simp [htargets_e f hf]
    exact .head hfirst (hpath.tail hlast)
  · intro x hx
    obtain rfl : b.blocks.length + 1 = x := Option.some.inj (h'.cur.symm.trans hx)
    refine .inr ⟨Nat.le_succ _, ?_⟩
    rw [h'.other _ (by omega), hrhs.term_eq (by omega) (by rw [h₂.cur]; simp), h₂.other _ (by omega)]
    have hself := term_startBlock_self b.startBlock
    rw [length_startBlock] at hself
    exact hself

theorem straight_lowerShortCircuitBool (isAnd : Bool) {lhs rhs : Sub} (hlhs : StraightM [] lhs.lower)
    (hrhs : StraightM [] rhs.lower) (span : Span) :
    StraightM [] (lowerShortCircuitBool isAnd lhs rhs span) := by
  unfold lowerShortCircuitBool
  refine .bind (straight_declareLocal _ _ _ _) fun result => .bind hlhs fun _ =>
    .bind (straight_emitAssign _ _ _) fun _ => ?_
  intro b op b' h hr _
  simp only [bind_eq_ok, currentBlockId_ok, startNewBlock_ok, setCurBlock_ok, terminate_ok,
    gotoIfOpen_ok, pure_eq_ok] at h
  obtain ⟨c, _, ⟨hc, rfl⟩, evalRhs, _, ⟨rfl, rfl⟩, merge, _, ⟨rfl, rfl⟩, _, _, rfl, _, _, rfl, _, _,
    rfl, rhsOp, b₁, hrun, _, b₂, hemit, _, _, rfl, _, _, rfl, -, rfl⟩ := h
  have hlt := hr.cursor c hc
  have hlen : b.startBlock.startBlock.blocks.length = b.blocks.length + 2 := by
    rw [length_startBlock, length_startBlock]
  have hstart : Extends b b.startBlock.startBlock := (Extends.startBlock b).trans (.startBlock _)
  have hext := hstart.rewire (c := c) (x := b.blocks.length) (.switchInt (.copy (.ofLocal result))
    [(.bool isAnd, b.blocks.length)] b.startBlock.blocks.length) (.inl hc) (by omega)
    (.inr (Nat.le_refl _)) (by omega) (by
      intro x hx
      rw [Terminator.successors, List.map_singleton, List.singleton_append, List.mem_cons,
        List.mem_singleton, length_startBlock] at hx
      rw [hlen]
      rcases hx with rfl | rfl
      · exact Nat.lt_add_of_pos_right (Nat.succ_pos 1)
      · exact Nat.lt_succ_self _)
  have hsub := StraightM.run (.bind hrhs fun a => straight_emitAssign (.ofLocal result) (.use a) span)
    (bind_eq_ok.2 ⟨rhsOp, b₁, hrun, hemit⟩) (hext.inRange hr)
  obtain ⟨e, he, -⟩ := hsub.path b₂.term (fun _ _ _ _ => rfl) b.blocks.length rfl
  have helt := (hsub.inRange (hext.inRange hr)).cursor e he
  have hlen₂ := hsub.len
  rw [blocks_moveTo, length_close, blocks_moveTo, hlen] at hlen₂
  have hclose : b₂.close (.goto b.startBlock.blocks.length) =
      (b₂.moveTo e).close (.goto b.startBlock.blocks.length) := by
    unfold moveTo
    rw [← he]
  rw [length_startBlock] at hclose ⊢
  rw [hclose]
  refine straight_shortCircuit hr hc ?_ (rewired _ _ (by omega)) hext hsub he (rewired _ _ helt) ?_
  · simp [Terminator.successors, length_startBlock]
  · exact (hext.trans hsub.toExtends).rewire _ (hext.owns (hsub.cursor e he)) helt
      (.inr (Nat.le_succ _)) (by omega) (by simp [Terminator.successors]; exact hlen₂)

theorem straight_lowerBin (op : Hir.BinOp) {lhs rhs : Sub} (hlhs : StraightM [] lhs.lower)
    (hrhs : StraightM [] rhs.lower) (span : Span) :
    StraightM [] (lowerBin ctx op lhs rhs span) := by
  unfold lowerBin
  dsimp only
  split
  · exact straight_lowerShortCircuitBool _ hlhs hrhs span
  split
  · exact straight_lowerDictContains hlhs hrhs _ _ span
  · exact straight_lowerDictContains hlhs hrhs _ _ span
  split
  · exact straight_lowerBufferScalar hlhs hrhs _ _ span
  split
  · exact straight_lowerBufferScalar hrhs hlhs _ _ span
  split
  · exact .bind hlhs fun _ => .bind hrhs fun _ => straight_emitEcosystemCall _ _ _ _
  split
  · exact .bind (straight_lowerHandlePair hlhs hrhs _ _ _ span) fun _ => .ret _
  split
  · exact straight_lowerStrRepeat hlhs hrhs _ span
  split
  · exact .bind (straight_lowerHandlePair hlhs hrhs _ _ _ span) fun _ => .ret _
  split
  · exact .bind (straight_lowerHandlePair hlhs hrhs _ _ _ span) fun _ =>
      straight_compareWithZero _ _ _ _
  split
  · exact .bind (straight_lowerHandlePair hlhs hrhs _ _ _ span) fun _ =>
      straight_compareWithZero _ _ _ _
  split
  · exact straight_lowerPow hlhs hrhs _ _ span
  · exact straight_lowerPlainBin hlhs hrhs _ _ _ span

section

variable {inner : Sub} (hinner : StraightM E inner.lower)

include hinner

theorem straight_lowerUn (op : Hir.UnaryOp) (span : Span) :
    StraightM E (lowerUn ctx op inner span) :=
  .bind hinner fun _ => .bind (straight_declareLocal _ _ _ _) fun _ =>
    .bind (straight_emitAssign _ _ _) fun _ => .ret _

theorem straight_lowerBorrowInner : StraightM E (lowerBorrowInner ctx inner) := by
  unfold lowerBorrowInner
  split
  · exact .bind (straight_lookupLocalForResolved _ _ _) fun _ => .ret _
  · exact hinner

theorem straight_lowerCast (target : Hir.TypeExpr) (span : Span) :
    StraightM E (lowerCast inner target span) := by
  have hcast (op : Operand) (kind : CastKind) (ty : Ty) : StraightM E (do
      let dest ← declareLocal "_cast" ty span false
      emitAssign (.ofLocal dest) (.cast kind op ty) span
      return Operand.copy (.ofLocal dest)) :=
    .bind (straight_declareLocal _ _ _ _) fun _ => .bind (straight_emitAssign _ _ _) fun _ => .ret _
  unfold lowerCast
  refine .bind hinner fun op => ?_
  dsimp only
  split
  · exact hcast op _ _
  split
  · exact hcast op _ _
  · exact .ret _

theorem straight_lowerAwait (span : Span) : StraightM E (lowerAwait inner span) :=
  .bind hinner fun _ => .bind (straight_declareLocal _ _ _ _) fun _ =>
    .bind (straight_callInto _ _ _) fun _ => .ret _

theorem straight_lowerCondition : StraightM E (lowerCondition inner) :=
  .bind hinner fun _ => .bind straight_currentBlockId fun _ => .ret _

end

theorem lowerCondition_ok {inner : Sub} (hinner : StraightM [] inner.lower) {b b' : BodyBuilder}
    {op : Operand} {condEnd : BlockId}
    (h : lowerCondition inner b = .ok ((op, condEnd), b')) (hr : b.InRange) :
    b'.curBlock = some condEnd ∧ Straight [] b b' := by
  refine ⟨?_, (straight_lowerCondition hinner).run h hr⟩
  unfold lowerCondition at h
  simp only [bind_eq_ok, currentBlockId_ok, pure_eq_ok] at h
  obtain ⟨_, _, -, _, _, ⟨hc, rfl⟩, heq, rfl⟩ := h
  rw [hc, (Prod.mk.inj heq).2]

theorem BodyBuilder.Straight.exists_cursor {b b' : BodyBuilder} (h : Straight E b b') {c : Nat}
    (hc : b.curBlock = some c) : ∃ e : Nat, b'.curBlock = some e := by
  obtain ⟨e, he, -⟩ := h.path b'.term (fun _ _ _ _ => rfl) c hc
  exact ⟨e, he⟩

/-- The blocks of a conditional expression: the cursor `c` of `b` branches to one region, lowered up to
`b₁` with end `t`, and to another, lowered up to `b₂` with end `e`; both go on to a new block. -/
theorem straight_ifExpr {b b₁ b₂ b' : BodyBuilder} {c t e : Nat} {s : Terminator}
    (hr : b.InRange) (hc : b.curBlock = some c)
    (hthen : Straight [] b.startBlock b₁) (ht : b₁.curBlock = some t)
    (helse : Straight [] b₁.startBlock b₂) (he : b₂.curBlock = some e)
    (hswitch : s.successors = [b.blocks.length, b₁.blocks.length])
    (hlen : b'.blocks.length = b₂.blocks.length + 1) (hcur : b'.curBlock = some b₂.blocks.length)
    (hterm : ∀ x : Nat, b'.term x = if x = c then some s else
      if x = e ∨ x = t then some (.goto b₂.blocks.length) else b₂.startBlock.term x)
    (hext : Extends b b') : Straight [] b b' := by
  have hlt := hr.cursor c hc
  have hr₁ := hthen.inRange ((Extends.startBlock b).inRange hr)
  have hlen₁ := hthen.len
  have hlen₂ := helse.len
  rw [length_startBlock] at hlen₁ hlen₂
  have hown₁ (x : Nat) : b.startBlock.Owns x ↔ x = b.blocks.length ∨ b.blocks.length + 1 ≤ x := by
    rw [owns_iff (curBlock_startBlock b), length_startBlock]
  have hown₂ (x : Nat) : b₁.startBlock.Owns x ↔ x = b₁.blocks.length ∨ b₁.blocks.length + 1 ≤ x := by
    rw [owns_iff (curBlock_startBlock b₁), length_startBlock]
  have htown := (hown₁ t).1 (hthen.cursor t ht)
  have heown := (hown₂ e).1 (helse.cursor e he)
  have htlt := hr₁.cursor t ht
  have helt := (helse.inRange ((Extends.startBlock b₁).inRange hr₁)).cursor e he
  have hset₁ (f : Nat → Option Terminator) (hf : Settled f b b') : Settled f b.startBlock b₁ := by
    refine settled_of_later hf (fun x hx => .inr (by rw [hown₁] at hx; omega)) (by omega) ?_
    intro x hx hx₁ hne
    have hxown := (hown₁ x).1 hx
    have hxt : x ≠ t := fun e' => hne (by rw [ht, e'])
    refine ⟨by rw [hcur]; simp; omega, ?_⟩
    rw [hterm, if_neg (by omega), if_neg (by omega), term_startBlock_of_lt (by omega)]
    rw [helse.term_eq (by rw [length_startBlock]; omega) (by rw [curBlock_startBlock]; simp; omega),
      term_startBlock_of_lt hx₁]
  have hset₂ (f : Nat → Option Terminator) (hf : Settled f b b') : Settled f b₁.startBlock b₂ := by
    refine settled_of_later hf (fun x hx => .inr (by rw [hown₂] at hx; omega)) (by omega) ?_
    intro x hx hx₂ hne
    have hxown := (hown₂ x).1 hx
    have hxe : x ≠ e := fun e' => hne (by rw [he, e'])
    refine ⟨by rw [hcur]; simp; omega, ?_⟩
    rw [hterm, if_neg (by omega), if_neg (by omega), term_startBlock_of_lt hx₂]
  have hfin (f : Nat → Option Terminator) (hf : Settled f b b') (x : Nat) (hx : b.Owns x)
      (hxlt : x < b₂.blocks.length) : f x = b'.term x :=
    hf x hx (by omega) (by rw [hcur]; simp; omega)
  have htargets_c (f : Nat → Option Terminator) (hf : Settled f b b') :
      targets f c = [b.blocks.length, b₁.blocks.length] := by
    rw [targets_eq (t := s), hswitch]
    rw [hfin f hf c (.inl hc) (by omega), hterm, if_pos rfl]
  have htargets (f : Nat → Option Terminator) (hf : Settled f b b') (x : Nat) (hx : x = e ∨ x = t) :
      targets f x = [b₂.blocks.length] := by
    rw [targets_eq (t := .goto b₂.blocks.length)]
    · rfl
    · rw [hfin f hf x (.inr (by omega)) (by omega), hterm, if_neg (by omega), if_pos hx]
  refine ⟨hext, ?_, ?_, ?_⟩
  · intro f hf x hx hxlt hxne y hy
    rw [hlen] at hxlt ⊢
    rw [hcur] at hxne
    have hxowns := (owns_iff hc x).1 hx
    have hxj : x ≠ b₂.blocks.length := fun e' => hxne (by rw [e'])
    refine .inr ?_
    by_cases hxc : x = c
    · rw [hxc, htargets_c f hf] at hy
      simp only [List.mem_cons, List.not_mem_nil, or_false] at hy
      omega
    by_cases hxe : x = e ∨ x = t
    · rw [htargets f hf x hxe] at hy
      simp only [List.mem_cons, List.not_mem_nil, or_false] at hy
      omega
    by_cases hx₁ : x < b₁.blocks.length
    · have hin := hthen.closed f (hset₁ f hf) x ((hown₁ x).2 (by omega)) hx₁
        (by rw [ht]; simp; omega) y hy
      rw [length_startBlock] at hin
      simp only [List.not_mem_nil, false_or] at hin
      omega
    · have hin := helse.closed f (hset₂ f hf) x ((hown₂ x).2 (by omega)) (by omega)
        (by rw [he]; simp; omega) y hy
      rw [length_startBlock] at hin
      simp only [List.not_mem_nil, false_or] at hin
      omega
  · intro f hf c' hc'
    obtain rfl : c = c' := Option.some.inj (hc.symm.trans hc')
    obtain ⟨t', ht', hpath⟩ := hthen.path f (hset₁ f hf) b.blocks.length rfl
    obtain rfl : t = t' := Option.some.inj (ht.symm.trans ht')
    refine ⟨b₂.blocks.length, hcur, ?_⟩
    have hfirst : b.blocks.length ∈ targets f c := by simp [htargets_c f hf]
    have hlast : b₂.blocks.length ∈ targets f t := by simp [htargets f hf t (.inr rfl)]
    exact .head hfirst (hpath.tail hlast)
  · intro x hx
    obtain rfl : b₂.blocks.length = x := Option.some.inj (hcur.symm.trans hx)
    refine .inr ⟨by omega, ?_⟩
    rw [hterm, if_neg (by omega), if_neg (by omega), term_startBlock_self]

theorem straight_lowerIfExpr {cond thenBranch elseBranch : Sub} (hcond : StraightM [] cond.lower)
    (hthen : StraightM [] thenBranch.lower) (helse : StraightM [] elseBranch.lower) (span : Span) :
    StraightM [] (lowerIfExpr ctx cond thenBranch elseBranch span) := by
  unfold lowerIfExpr
  refine .bind (straight_declareLocal _ _ _ _) fun result => ?_
  intro b₀ op b' h hr₀ _
  simp only [bind_eq_ok, currentBlockId_ok, startNewBlock_ok, setCurBlock_ok, terminate_ok,
    gotoIfOpen_ok, pure_eq_ok, and_assoc, exists_eq_left, exists_and_left] at h
  obtain ⟨⟨condOp, c⟩, b, hrunc, thenOp, b₁', hrun₁, _, b₁, hemit₁, t, ht, _, rfl, elseOp, b₂', hrun₂, _, b₂, hemit₂, e,
    he, _, rfl, _, _, _, _, _, _, _, -, rfl⟩ := h
  obtain ⟨hc, hs₀⟩ := lowerCondition_ok hcond hrunc hr₀
  refine hs₀.trans ?_
  have hr := hs₀.inRange hr₀
  have hlt := hr.cursor c hc
  have hs₁ := StraightM.run (.bind hthen fun a => straight_emitAssign (.ofLocal result) (.use a) span)
    (bind_eq_ok.2 ⟨thenOp, b₁', hrun₁, hemit₁⟩) ((Extends.startBlock b).inRange hr)
  have hr₁ := hs₁.inRange ((Extends.startBlock b).inRange hr)
  have hs₂ := StraightM.run (.bind helse fun a => straight_emitAssign (.ofLocal result) (.use a) span)
    (bind_eq_ok.2 ⟨elseOp, b₂', hrun₂, hemit₂⟩) ((Extends.startBlock b₁).inRange hr₁)
  have hlen₁ := hs₁.len
  have hlen₂ := hs₂.len
  rw [length_startBlock] at hlen₁ hlen₂
  have htlt := hr₁.cursor t ht
  have helt := (hs₂.inRange ((Extends.startBlock b₁).inRange hr₁)).cursor e he
  have hext₁ : Extends b b₁ := (Extends.startBlock b).trans hs₁.toExtends
  have hext₂ : Extends b₁ b₂ := (Extends.startBlock b₁).trans hs₂.toExtends
  have hbase : Extends b b₂.startBlock := (hext₁.trans hext₂).trans (.startBlock b₂)
  have htown : b.Owns t := (Extends.startBlock b).owns (hs₁.cursor t ht)
  have heown : b.Owns e := hext₁.owns ((Extends.startBlock b₁).owns (hs₂.cursor e he))
  refine straight_ifExpr (e := e)
    (s := switchTrue condOp b.blocks.length b₁.blocks.length) hr hc hs₁ ht hs₂ he ?_ ?_ rfl ?_ ?_
  · simp [switchTrue, Terminator.successors]
  · simp only [blocks_moveTo, length_close, length_startBlock]
  · intro x
    rw [term_moveTo, term_close_moveTo _ (by simp only [blocks_moveTo, length_close, length_startBlock]; omega),
      term_close_moveTo _ (by simp only [blocks_moveTo, length_close, length_startBlock]; omega),
      term_close_moveTo _ (by simp only [length_startBlock]; omega)]
    by_cases hxe : x = e
    · simp [hxe]
    · simp [hxe]
  · have hrw₁ := hbase.rewire (c := t) (x := e) (.goto b₂.blocks.length) htown
      (by rw [length_startBlock]; omega) heown (by rw [length_startBlock]; omega)
      (by simp [Terminator.successors, length_startBlock])
    have hrw₂ := hrw₁.rewire (c := e) (x := c) (.goto b₂.blocks.length) heown
      (by simp only [blocks_moveTo, length_close, length_startBlock]; omega) (.inl hc)
      (by simp only [blocks_moveTo, length_close, length_startBlock]; omega)
      (by simp [Terminator.successors, length_startBlock])
    refine hrw₂.rewire _ (.inl hc)
      (by simp only [blocks_moveTo, length_close, length_startBlock]; omega) (.inr (by omega))
      (by simp only [blocks_moveTo, length_close, length_startBlock]; omega) ?_
    intro y hy
    simp only [switchTrue, Terminator.successors, List.map_cons, List.map_nil, List.cons_append,
      List.nil_append, List.mem_cons, List.not_mem_nil, or_false] at hy
    simp only [blocks_moveTo, length_close, length_startBlock]
    rcases hy with rfl | rfl
    · exact Nat.lt_succ_of_lt (Nat.lt_of_lt_of_le (Nat.lt_of_succ_le hlen₁) (Nat.le_of_succ_le hlen₂))
    · exact Nat.lt_succ_of_lt (Nat.lt_of_succ_le hlen₂)

end Cobrust.Mir
