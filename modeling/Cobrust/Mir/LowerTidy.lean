import Cobrust.Mir.DropShape
import Cobrust.Mir.LowerStmtExtent

/-!
# Lowered bodies are tidy

Whatever is lowered, the blocks stay numbered by their places in the vector, and none is closed with a drop.
-/

namespace Cobrust.Mir

open Control BodyBuilder
open Hir (Expr CallArg IndexKind FormatPart DictEntry CompElem CompClause CompKind)

/-- Every block is numbered by its place and drops nothing. -/
def BodyBuilder.Tidy (b : BodyBuilder) : Prop :=
  ∀ (x : Nat) block, b.blocks[x]? = some block → block.id = x ∧ ¬ block.terminator.IsDrop

namespace BodyBuilder.Tidy

variable {b : BodyBuilder}

theorem startBlock (h : b.Tidy) : b.startBlock.Tidy := by
  intro x block hx
  rcases Nat.lt_trichotomy x b.blocks.length with hlt | rfl | hlt
  · exact h x block (block_startBlock_of_lt hlt ▸ hx)
  · simp only [BodyBuilder.startBlock, List.getElem?_concat_length, Option.some.injEq] at hx
    subst hx
    exact ⟨rfl, fun h => h⟩
  · rw [List.getElem?_eq_none (by rwa [length_startBlock])] at hx
    cases hx

theorem modify (h : b.Tidy) (c : Nat) {f : BasicBlock → BasicBlock}
    (hf : ∀ block, ¬ block.terminator.IsDrop → (f block).id = block.id ∧ ¬ (f block).terminator.IsDrop) (x : Nat)
    (block : BasicBlock) (hx : (b.blocks.modify c f)[x]? = some block) : block.id = x ∧ ¬ block.terminator.IsDrop := by
  rw [List.getElem?_modify] at hx
  obtain ⟨old, hold, rfl⟩ := Option.map_eq_some_iff.1 hx
  obtain ⟨hid, hdrop⟩ := h x old hold
  by_cases hc : c = x
  · simpa [hc, ← hid] using hf old hdrop
  · simpa [hc] using h x old hold

end BodyBuilder.Tidy

/-- Every successful run of `m` from a tidy builder leaves a tidy one. -/
def TidyM {α : Type} (m : LowerM α) : Prop :=
  Steps (fun b b' => b.Tidy → b'.Tidy) m

namespace TidyM

variable {α β : Type} {m : LowerM α} {f : α → LowerM β} {a : α} {e : MirError}

@[grind ←] theorem ret : TidyM (pure a : LowerM α) :=
  Steps.of_pure (fun _ => id) a

@[grind ←] theorem bind (hm : TidyM m) (hf : ∀ a, TidyM (f a)) : TidyM (m >>= f) :=
  Steps.of_bind (fun h h' => h' ∘ h) hm hf

@[grind ←] theorem fail : TidyM (LowerM.fail e : LowerM α) :=
  Steps.of_throw _

@[grind ←] theorem builder : TidyM (get : LowerM BodyBuilder) :=
  Steps.of_get fun _ => id

theorem of_blocks (h : ∀ b a b', m b = .ok (a, b') → b'.blocks = b.blocks) : TidyM m := by
  intro b a b' hok hb
  unfold BodyBuilder.Tidy
  rwa [h b a b' hok]

end TidyM

/-! ## The builder -/

section

variable {name symbol : String} {ty : Ty} {span : Span} {mutable : Bool} {id target : BlockId} {defId : DefId}
  {t : Terminator} {term : BlockId → Terminator} {place : Place} {rvalue : Rvalue} {kind : StatementKind}
  {dest : LocalId} {args : List Operand} {op func : Operand} {rn : Hir.ResolvedName} {ctx : LowerCtx} {adt : AdtId}

@[grind ←] theorem tidy_declareLocal : TidyM (declareLocal name ty span mutable) :=
  .of_blocks fun _ _ _ h => by cases h; rfl

@[grind ←] theorem tidy_declareLocalForDef : TidyM (declareLocalForDef defId name ty span mutable) :=
  .of_blocks fun _ _ _ h => by cases h; rfl

@[grind ←] theorem tidy_startNewBlock : TidyM startNewBlock := by
  intro b a b' h hb
  cases h
  exact hb.startBlock

@[grind ←] theorem tidy_setCurBlock : TidyM (setCurBlock id) :=
  .of_blocks fun _ _ _ h => by cases h; rfl

@[grind ←] theorem tidy_currentBlockId : TidyM currentBlockId :=
  .of_blocks fun _ _ _ h => by rw [(currentBlockId_ok.1 h).2]

@[grind ←] theorem tidy_emitStmt : TidyM (emitStmt kind span) := by
  intro b a b' h hb
  obtain ⟨c, -, rfl⟩ := emitStmt_ok.1 h
  exact hb.modify c fun _ hdrop => ⟨rfl, hdrop⟩

@[grind ←] theorem tidy_emitAssign : TidyM (emitAssign place rvalue span) :=
  tidy_emitStmt

attribute [grind =] Terminator.IsDrop switchTrue

@[grind ←] theorem tidy_terminate (ht : ¬ t.IsDrop) : TidyM (terminate t) := by
  intro b a b' h hb
  obtain rfl := terminate_ok.1 h
  unfold BodyBuilder.close
  split
  · exact hb.modify _ fun _ _ => ⟨rfl, ht⟩
  · exact hb

@[grind ←] theorem tidy_terminated : TidyM terminated :=
  .of_blocks fun _ _ _ h => by cases h; rfl

@[grind ←] theorem tidy_ensureOpenBlock : TidyM ensureOpenBlock := by
  intro b a b' h hb
  unfold ensureOpenBlock at h
  split at h
  · cases h
    exact hb
  · exact tidy_startNewBlock b a b' h hb

@[grind ←] theorem tidy_pushLoop : TidyM (pushLoop id target) :=
  .of_blocks fun _ _ _ h => by cases h; rfl

@[grind ←] theorem tidy_popLoop : TidyM popLoop :=
  .of_blocks fun _ _ _ h => by cases h; rfl

@[grind ←] theorem tidy_gotoIfOpen : TidyM (gotoIfOpen target) := by
  unfold gotoIfOpen
  grind

@[grind ←] theorem tidy_markValidatedBody : TidyM (markValidatedBody op adt) := by
  cases op with
  | copy p | move p => exact .of_blocks fun _ _ _ h => by cases h; rfl
  | constant c => exact .ret

@[grind ←] theorem tidy_continueAfter (h : ∀ next, ¬ (term next).IsDrop) : TidyM (continueAfter term) := by
  unfold continueAfter
  grind

@[grind ←] theorem tidy_callInto : TidyM (callInto func args place) :=
  tidy_continueAfter fun _ h => h

@[grind ←] theorem tidy_callSymbol : TidyM (callSymbol symbol args dest) :=
  tidy_callInto

@[grind ←] theorem tidy_lookupLocalForResolved : TidyM (lookupLocalForResolved ctx rn span) := by
  unfold lookupLocalForResolved
  grind

/-! ## Reads -/

variable {subs : List Sub} {base inner : Sub} {index : SubIndex} {start stop step : Option Sub} {k v elem : Ty}
  {elems : List Ty} {parts : List SubPart} {entries : List SubEntry} {agg : AggregateKind} {subject destName : String}

@[grind ←] theorem tidy_lowerAll (h : ∀ s ∈ subs, TidyM s.lower) : TidyM (lowerAll subs) := by
  induction subs with
  | nil => exact .ret
  | cons s rest ih =>
    unfold lowerAll
    grind

@[grind ←] theorem tidy_lowerAggregate : TidyM (lowerAggregate name ty agg args span) := by
  unfold lowerAggregate
  grind

@[grind ←] theorem tidy_emitEcosystemCall : TidyM (emitEcosystemCall symbol ty args span) := by
  unfold emitEcosystemCall
  grind

/-- The subexpressions of a part of an f-string. -/
@[grind] def SubPart.Tidy : SubPart → Prop
  | .lit _ => True
  | .hole e _ => TidyM e.lower

@[grind] def SubEntry.Tidy : SubEntry → Prop
  | .pair k v => TidyM k.lower ∧ TidyM v.lower
  | .spread e => TidyM e.lower

@[grind] def SubIndex.Tidy : SubIndex → Prop
  | .expr e => TidyM e.lower
  | .slice start stop step => ∀ o ∈ [start, stop, step], ∀ s, o = some s → TidyM s.lower
  | .tuple => True

@[grind ←] theorem tidy_lowerFormatParts (h : ∀ p ∈ parts, p.Tidy) : TidyM (lowerFormatParts parts) := by
  induction parts with
  | nil => exact .ret
  | cons p rest ih =>
    rw [List.forall_mem_cons] at h
    cases p <;> unfold lowerFormatParts <;> grind

@[grind ←] theorem tidy_lowerDictEntries (h : ∀ e ∈ entries, e.Tidy) : TidyM (lowerDictEntries entries) := by
  induction entries with
  | nil => exact .ret
  | cons e rest ih =>
    rw [List.forall_mem_cons] at h
    cases e <;> unfold lowerDictEntries <;> grind

@[grind ←] theorem tidy_lowerIndex (h : index.Tidy) : TidyM (lowerIndex index) := by
  unfold lowerIndex
  cases index <;> grind

@[grind ←] theorem tidy_lowerCondition (h : TidyM base.lower) : TidyM (lowerCondition base) := by
  unfold lowerCondition
  grind

@[grind ←] theorem tidy_lowerName : TidyM (lowerName ctx rn span) := by
  unfold lowerName
  grind

@[grind ←] theorem tidy_resolveValidatedBodyBase (e : Expr) : TidyM (resolveValidatedBodyBase ctx e) := by
  fun_induction resolveValidatedBodyBase ctx e <;> grind

@[grind ←] theorem tidy_lowerAttr (h : TidyM base.lower) : TidyM (lowerAttr ctx base name span) := by
  have hother : TidyM (lowerOtherAttr ctx base name span) := by
    unfold lowerOtherAttr lowerPlainAttr
    grind
  unfold lowerAttr
  split
  · grind
  refine .bind (tidy_resolveValidatedBodyBase _) fun r => ?_
  split
  · exact hother
  split
  · exact hother
  refine .bind tidy_emitEcosystemCall fun op => ?_
  split <;> grind

@[grind ←] theorem tidy_lowerSlice (h : TidyM base.lower) (hindex : (SubIndex.slice start stop step).Tidy) :
    TidyM (lowerSlice name subject destName ty symbol base start stop step span) := by
  unfold lowerSlice
  grind

@[grind ←] theorem tidy_lowerElementRead (h : TidyM base.lower) (hindex : index.Tidy) :
    TidyM (lowerElementRead destName ty mutable symbol base index span) := by
  unfold lowerElementRead
  grind

@[grind ←] theorem tidy_lowerListElement (h : TidyM base.lower) (hindex : index.Tidy) :
    TidyM (lowerListElement elem base index span) := by
  unfold lowerListElement
  grind

@[grind ←] theorem tidy_lowerPlainIndex (h : TidyM base.lower) (hindex : index.Tidy) :
    TidyM (lowerPlainIndex base index span) := by
  unfold lowerPlainIndex
  grind

@[grind ←] theorem tidy_lowerCoilIndex (h : TidyM base.lower) (hindex : index.Tidy) :
    TidyM (lowerCoilIndex base index span) := by
  unfold lowerCoilIndex
  grind

@[grind ←] theorem tidy_lowerTupleIndex (h : TidyM base.lower) (hindex : index.Tidy) :
    TidyM (lowerTupleIndex elems base index span) := by
  unfold lowerTupleIndex
  split
  · split
    · exact .bind h fun _ => by grind
    · exact .fail
  · grind

theorem tidy_lowerIndexExpr (h : TidyM base.lower) (hindex : index.Tidy) :
    TidyM (lowerIndexExpr ctx base index span) := by
  unfold lowerIndexExpr lowerDictIndex lowerListIndex lowerBytesIndex lowerStrIndex
  grind

/-! ## Calls -/

variable {callArgs : List SubArg} {callee cond thenBranch elseBranch lhs rhs : Sub} {param : EcoParam}
  {params : List EcoParam} {sig : EcoSig} {flag : Bool} {pairs : List (SubArg × Operand)} {e : Expr}

theorem tidy_positional (h : ∀ a ∈ callArgs, TidyM a.lower) : ∀ s ∈ collectPositionalArgs callArgs, TidyM s.lower := by
  intro s hs
  obtain ⟨a, ha, hpos⟩ := List.mem_filterMap.1 hs
  unfold SubArg.positional? at hpos
  split at hpos
  · obtain rfl := Option.some.inj hpos
    exact h a ha
  · cases hpos

@[grind ←] theorem tidy_lowerEcoArg (h : TidyM base.lower) : TidyM (lowerEcoArg base param) := by
  unfold lowerEcoArg
  grind

@[grind ←] theorem tidy_lowerEcoArgs (h : ∀ s ∈ subs, TidyM s.lower) : TidyM (lowerEcoArgs subs params) := by
  fun_induction lowerEcoArgs subs params <;> grind

@[grind ←] theorem tidy_lowerArgs (h : ∀ a ∈ callArgs, TidyM a.lower) : TidyM (lowerArgs callArgs) := by
  fun_induction lowerArgs callArgs <;> grind

@[grind ←] theorem tidy_lowerCallArgs (h : ∀ a ∈ callArgs, TidyM a.lower) : TidyM (lowerCallArgs e callArgs) := by
  fun_induction lowerCallArgs e callArgs <;> grind

@[grind ←] theorem tidy_lowerMinMaxElems : TidyM (lowerMinMaxElems ctx flag span pairs) := by
  fun_induction lowerMinMaxElems ctx flag span pairs <;> grind

@[grind ←] theorem tidy_packCallArgs : TidyM (packCallArgs ctx e callArgs args span) := by
  unfold packCallArgs lowerMinMaxList
  grind

@[grind ←] theorem tidy_lowerEcoFn (h : ∀ a ∈ callArgs, TidyM a.lower) :
    TidyM (lowerEcoFn symbol sig callArgs span) := by
  have hpos := tidy_positional h
  unfold lowerEcoFn
  grind

@[grind ←] theorem tidy_lowerHandleMethod (h : ∀ a ∈ callArgs, TidyM a.lower) (hbase : TidyM base.lower) :
    TidyM (lowerHandleMethod ctx sig base callArgs span) := by
  have hpos := tidy_positional h
  unfold lowerHandleMethod
  grind

@[grind ←] theorem tidy_tryLowerEcosystemCall (h : ∀ a ∈ callArgs, TidyM a.lower) (hbase : TidyM base.lower) :
    TidyM (tryLowerEcosystemCall ctx base name callArgs span) := by
  unfold tryLowerEcosystemCall
  grind

@[grind ←] theorem tidy_lowerRewrittenMethodCall (h : ∀ a ∈ callArgs, TidyM a.lower) (hbase : TidyM base.lower) :
    TidyM (lowerRewrittenMethodCall ctx base callArgs defId name span) := by
  unfold lowerRewrittenMethodCall
  grind

@[grind ←] theorem tidy_lowerCallee (h : TidyM callee.lower) : TidyM (lowerCallee ctx callee) := by
  unfold lowerCallee
  grind

@[grind ←] theorem tidy_lowerFnCall (h : ∀ a ∈ callArgs, TidyM a.lower) (hcallee : TidyM callee.lower) :
    TidyM (lowerFnCall ctx callee callArgs span) := by
  unfold lowerFnCall
  grind

theorem tidy_lowerCall {base : Option (Sub × String)} (h : ∀ a ∈ callArgs, TidyM a.lower) (hcallee : TidyM callee.lower)
    (hbase : ∀ s name, base = some (s, name) → TidyM s.lower) : TidyM (lowerCall ctx callee base callArgs span) := by
  unfold lowerCall
  grind

/-! ## Operators -/

variable {binOp : BinOp} {hirOp : Hir.BinOp} {unOp : Hir.UnaryOp} {lhsTy rhsTy : Ty} {target' : Hir.TypeExpr}

@[grind ←] theorem tidy_compareWithZero : TidyM (compareWithZero name binOp dest span) := by
  unfold compareWithZero
  grind

@[grind ←] theorem tidy_castToFloatWhen : TidyM (castToFloatWhen flag name op span) := by
  unfold castToFloatWhen
  grind

@[grind ←] theorem tidy_emitDivAssert : TidyM (emitDivAssert op span) := by
  unfold emitDivAssert
  grind

section

variable (hlhs : TidyM lhs.lower) (hrhs : TidyM rhs.lower)

include hlhs hrhs

@[grind ←] theorem tidy_lowerDictContains : TidyM (lowerDictContains ty flag lhs rhs span) := by
  unfold lowerDictContains
  grind

@[grind ←] theorem tidy_lowerBufferScalar : TidyM (lowerBufferScalar symbol ty lhs rhs span) := by
  unfold lowerBufferScalar
  grind

@[grind ←] theorem tidy_lowerHandlePair : TidyM (lowerHandlePair name ty symbol lhs rhs span) := by
  unfold lowerHandlePair
  grind

@[grind ←] theorem tidy_lowerStrRepeat : TidyM (lowerStrRepeat flag lhs rhs span) := by
  unfold lowerStrRepeat
  grind

@[grind ←] theorem tidy_lowerPow : TidyM (lowerPow lhsTy rhsTy lhs rhs span) := by
  unfold lowerPow
  grind

@[grind ←] theorem tidy_lowerPlainBin : TidyM (lowerPlainBin hirOp lhsTy rhsTy lhs rhs span) := by
  unfold lowerPlainBin
  grind

@[grind ←] theorem tidy_lowerShortCircuitBool : TidyM (lowerShortCircuitBool flag lhs rhs span) := by
  unfold lowerShortCircuitBool
  iterate 8 refine .bind (by grind) fun _ => ?_
  grind

theorem tidy_lowerBin : TidyM (lowerBin ctx hirOp lhs rhs span) := by
  unfold lowerBin
  dsimp only
  repeat' split
  all_goals grind

end

/-! ## Expressions -/

theorem tidy_lowerUn (h : TidyM inner.lower) : TidyM (lowerUn ctx unOp inner span) := by
  unfold lowerUn
  grind

@[grind ←] theorem tidy_lowerBorrowInner (h : TidyM inner.lower) : TidyM (lowerBorrowInner ctx inner) := by
  unfold lowerBorrowInner
  grind

theorem tidy_lowerCast (h : TidyM inner.lower) : TidyM (lowerCast inner target' span) := by
  unfold lowerCast
  grind

theorem tidy_lowerAwait (h : TidyM inner.lower) : TidyM (lowerAwait inner span) := by
  unfold lowerAwait
  grind

theorem tidy_lowerIfExpr (hcond : TidyM cond.lower) (hthen : TidyM thenBranch.lower) (helse : TidyM elseBranch.lower) :
    TidyM (lowerIfExpr ctx cond thenBranch elseBranch span) := by
  unfold lowerIfExpr
  iterate 12 refine .bind (by grind) fun _ => ?_
  grind

variable {ids : List DefId} {target' : Hir.Pattern} {guards : List Sub} {varLocal : Option LocalId}
  {lowerElem : LowerM Operand} {comp : CompKind} {acc : LocalId} {clauses : List SubClause}

@[grind ←] theorem tidy_declareBindings : TidyM (declareBindings ctx name span ids) := by
  fun_induction declareBindings ctx name span ids <;> grind

@[grind ←] theorem tidy_declareTarget (target' : Hir.Pattern) : TidyM (declareTarget ctx name target' ids span) := by
  unfold declareTarget
  grind

@[grind ←] theorem tidy_lowerGuards (h : ∀ g ∈ guards, TidyM g.lower) : TidyM (lowerGuards id guards) := by
  fun_induction lowerGuards id guards <;> grind

@[grind ←] theorem tidy_storeElement : TidyM (storeElement varLocal dest span) := by
  unfold storeElement
  grind

@[grind ←] theorem tidy_lowerCompBody (h : TidyM lowerElem) : TidyM (lowerCompBody lowerElem comp acc span) := by
  unfold lowerCompBody
  grind

@[grind ←] theorem tidy_lowerCompClauses (helem : TidyM lowerElem)
    (h : ∀ c ∈ clauses, TidyM c.iter.lower ∧ ∀ g ∈ c.guards, TidyM g.lower) :
    TidyM (lowerCompClauses ctx lowerElem comp acc span clauses) := by
  induction clauses with
  | nil => exact tidy_lowerCompBody helem
  | cons first rest ih =>
    obtain ⟨⟨hiter, hguards⟩, hrest⟩ := List.forall_mem_cons.1 h
    unfold lowerCompClauses
    iterate 20 refine .bind (by grind) fun _ => ?_
    grind

theorem tidy_lowerComprehension (helem : TidyM lowerElem)
    (h : ∀ c ∈ clauses, TidyM c.iter.lower ∧ ∀ g ∈ c.guards, TidyM g.lower) :
    TidyM (lowerComprehension ctx comp lowerElem clauses span) := by
  unfold lowerComprehension
  grind

end

section

variable (ctx : LowerCtx)

mutual

theorem tidy_lowerExpr : ∀ e : Expr, TidyM (lowerExpr ctx e)
  | .mk (.lit _) _ | .mk (.lambda _ _ _) _ | .mk (.yield none) _ => .ret
  | .mk (.format parts) _ => .bind (tidy_lowerFormatParts (tidy_subParts parts)) fun _ => tidy_lowerAggregate
  | .mk (.name _) _ => tidy_lowerName
  | .mk (.tuple items) _ | .mk (.list items) _ | .mk (.set items) _ =>
    .bind (tidy_lowerAll (tidy_subs items)) fun _ => tidy_lowerAggregate
  | .mk (.dict entries) _ => .bind (tidy_lowerDictEntries (tidy_subEntries entries)) fun _ => tidy_lowerAggregate
  | .mk (.comp _ element clauses _) _ =>
    tidy_lowerComprehension (tidy_lowerCompElem element) (tidy_subClauses clauses)
  | .mk (.call callee args) _ => tidy_lowerCall (tidy_subArgs args) (tidy_lowerExpr callee) (tidy_subBase callee)
  | .mk (.attr base _) _ => tidy_lowerAttr (tidy_lowerExpr base)
  | .mk (.index base index) _ => tidy_lowerIndexExpr (tidy_lowerExpr base) (tidy_subIndex index)
  | .mk (.bin _ lhs rhs) _ => tidy_lowerBin (tidy_lowerExpr lhs) (tidy_lowerExpr rhs)
  | .mk (.un _ operand) _ => tidy_lowerUn (tidy_lowerExpr operand)
  | .mk (.borrow inner) _ => tidy_lowerBorrowInner (tidy_lowerExpr inner)
  | .mk (.await inner) _ => tidy_lowerAwait (tidy_lowerExpr inner)
  | .mk (.yield (some inner)) _ | .mk (.yieldFrom inner) _ => .bind (tidy_lowerExpr inner) fun _ => .ret
  | .mk (.cast e _) _ => tidy_lowerCast (tidy_lowerExpr e)
  | .mk (.ifExpr cond thenBranch elseBranch) _ =>
    tidy_lowerIfExpr (tidy_lowerExpr cond) (tidy_lowerExpr thenBranch) (tidy_lowerExpr elseBranch)

theorem tidy_subs : ∀ items : List Expr, ∀ s ∈ subs ctx items, TidyM s.lower
  | [] => List.forall_mem_nil _
  | e :: rest => List.forall_mem_cons.2 ⟨tidy_lowerExpr e, tidy_subs rest⟩

theorem tidy_subOption : ∀ o : Option Expr, ∀ s, subOption ctx o = some s → TidyM s.lower
  | none => fun _ h => by cases h
  | some e => fun _ h => Option.some.inj h ▸ tidy_lowerExpr e

theorem tidy_subBase : ∀ e : Expr, ∀ s name, subBase ctx e = some (s, name) → TidyM s.lower
  | .mk kind _ => fun s name h => by
    cases kind with
    | attr base field => exact (Prod.mk.inj (Option.some.inj h)).1 ▸ tidy_lowerExpr base
    | _ => cases h

theorem tidy_subArgs : ∀ args : List CallArg, ∀ a ∈ subArgs ctx args, TidyM a.lower
  | [] => List.forall_mem_nil _
  | .positional e :: rest | .keyword _ e :: rest | .starArgs e :: rest | .starStarKwargs e :: rest =>
    List.forall_mem_cons.2 ⟨tidy_lowerExpr e, tidy_subArgs rest⟩

theorem tidy_subIndex : ∀ index : IndexKind, (subIndex ctx index).Tidy
  | .expr e => tidy_lowerExpr e
  | .slice start stop step => List.forall_mem_cons.2 ⟨tidy_subOption start, List.forall_mem_cons.2
      ⟨tidy_subOption stop, List.forall_mem_singleton.2 (tidy_subOption step)⟩⟩
  | .tuple _ => trivial

theorem tidy_subParts : ∀ parts : List FormatPart, ∀ p ∈ subParts ctx parts, p.Tidy
  | [] => List.forall_mem_nil _
  | .lit _ :: rest => List.forall_mem_cons.2 ⟨trivial, tidy_subParts rest⟩
  | .hole e _ _ :: rest => List.forall_mem_cons.2 ⟨tidy_lowerExpr e, tidy_subParts rest⟩

theorem tidy_subEntries : ∀ entries : List DictEntry, ∀ e ∈ subEntries ctx entries, e.Tidy
  | [] => List.forall_mem_nil _
  | .pair k v :: rest => List.forall_mem_cons.2 ⟨⟨tidy_lowerExpr k, tidy_lowerExpr v⟩, tidy_subEntries rest⟩
  | .spread e :: rest => List.forall_mem_cons.2 ⟨tidy_lowerExpr e, tidy_subEntries rest⟩

theorem tidy_subClauses : ∀ clauses : List CompClause, ∀ c ∈ subClauses ctx clauses,
    TidyM c.iter.lower ∧ ∀ g ∈ c.guards, TidyM g.lower
  | [] => List.forall_mem_nil _
  | .mk _ _ iter guards :: rest =>
    List.forall_mem_cons.2 ⟨⟨tidy_lowerExpr iter, tidy_subs guards⟩, tidy_subClauses rest⟩

theorem tidy_lowerCompElem : ∀ element : CompElem, TidyM (lowerCompElem ctx element)
  | .single e | .keyValue e _ => tidy_lowerExpr e

end

attribute [grind ←] tidy_lowerExpr tidy_subIndex

/-! ## Statements -/

variable {o : Option (LowerM Unit)} {stmts : List (LowerM Unit)} {scrut dest : LocalId} {mutable isStr : Bool}
  {span : Span} {body : LowerM Unit} {arms : List IfArm} {cases' : List SubMatchArm} {arm : SubMatchArm}
  {cond iter : Sub} {guard : Option Sub} {ids : List DefId} {id exit merge : BlockId} {handlers : List SubHandler}

@[grind ←] theorem tidy_lowerOptional (h : ∀ m, o = some m → TidyM m) : TidyM (lowerOptional o) := by
  unfold lowerOptional
  grind

@[grind ←] theorem tidy_lowerBlockWith (h : ∀ m ∈ stmts, TidyM m) : TidyM (lowerBlockWith stmts) := by
  fun_induction lowerBlockWith stmts <;> grind

@[grind ←] theorem tidy_bindField (idx : Nat) (p : Hir.Pattern) : TidyM (bindField ctx scrut mutable idx p) := by
  unfold bindField
  grind

@[grind ←] theorem tidy_bindFields (idx : Nat) (items : List Hir.Pattern) :
    TidyM (bindFields ctx scrut mutable idx items) := by
  fun_induction bindFields ctx scrut mutable idx items <;> grind

@[grind ←] theorem tidy_declareEntries (entries : List (Expr × Hir.Pattern)) : TidyM (declareEntries ctx entries) := by
  fun_induction declareEntries ctx entries <;> grind

mutual

theorem tidy_bindPatternToLocal : ∀ p : Hir.Pattern, TidyM (bindPatternToLocal ctx scrut p)
  | .mk (.binding _ _) _ => .bind tidy_declareLocalForDef fun _ => tidy_emitAssign
  | .mk (.sequence items _) _ => tidy_bindFields ctx _ items
  | .mk (.«class» _ _ _) _ => .bind (tidy_bindFields ctx _ _) fun _ => tidy_bindFields ctx _ _
  | .mk (.or branches) _ => tidy_bindBranches branches
  | .mk (.mapping _ _) _ => tidy_declareEntries ctx _
  | .mk .wildcard _ | .mk (.literal _) _ => .ret

theorem tidy_bindBranches : ∀ branches : List Hir.Pattern, TidyM (bindBranches ctx scrut branches)
  | [] => .ret
  | p :: rest => .bind (tidy_bindPatternToLocal p) fun _ => tidy_bindBranches rest

end

attribute [grind ←] tidy_bindPatternToLocal

@[grind ←] theorem tidy_lowerLet (body : Hir.LetBody) : TidyM (lowerLet ctx body) := by
  unfold lowerLet
  grind

@[grind ←] theorem tidy_lowerLvalue (e : Expr) : TidyM (lowerLvalue ctx e) := by
  fun_induction lowerLvalue ctx e <;> grind

@[grind ←] theorem tidy_lowerSetItem (destName symbol : String) (upgrade : Operand → Operand) (base value : Expr)
    (index : IndexKind) : TidyM (lowerSetItem ctx destName symbol upgrade base index value span) := by
  unfold lowerSetItem
  grind

theorem tidy_lowerAssign (target value : Expr) : TidyM (lowerAssign ctx target value span) := by
  unfold lowerAssign lowerPlaceAssign
  grind

theorem tidy_lowerReturn (value : Option Expr) : TidyM (lowerReturn ctx value span) := by
  unfold lowerReturn
  grind

theorem tidy_lowerBreak : TidyM lowerBreak := by
  unfold lowerBreak
  grind

theorem tidy_lowerContinue : TidyM lowerContinue := by
  unfold lowerContinue
  grind

theorem tidy_lowerRaise (exc : Option Expr) : TidyM (lowerRaise ctx exc) := by
  unfold lowerRaise
  grind

@[grind ←] theorem tidy_lowerIfArms (h : ∀ a ∈ arms, TidyM a.cond.lower ∧ TidyM a.body) :
    TidyM (lowerIfArms merge arms id) := by
  induction arms generalizing id with
  | nil => exact .ret
  | cons arm rest ih =>
    rw [List.forall_mem_cons] at h
    unfold lowerIfArms
    iterate 7 refine .bind (by grind) fun _ => ?_
    grind

theorem tidy_lowerIf (h : ∀ a ∈ arms, TidyM a.cond.lower ∧ TidyM a.body) (ho : ∀ m, o = some m → TidyM m) :
    TidyM (lowerIf arms o) := by
  have helse (merge : BlockId) : TidyM (lowerIfElse merge o) := by
    unfold lowerIfElse
    grind
  unfold lowerIf
  grind

@[grind ←] theorem tidy_lowerLoopElse (ho : ∀ m, o = some m → TidyM m) : TidyM (lowerLoopElse exit o) := by
  unfold lowerLoopElse
  grind

theorem tidy_lowerWhile (hcond : TidyM cond.lower) (hbody : TidyM body) (ho : ∀ m, o = some m → TidyM m) :
    TidyM (lowerWhile cond body o) := by
  unfold lowerWhile
  iterate 12 refine .bind (by grind) fun _ => ?_
  grind

@[grind ←] theorem tidy_lowerForInit (h : TidyM iter.lower) : TidyM (lowerForInit ctx isStr iter span) := by
  unfold lowerForInit lowerIterValue
  grind

@[grind ←] theorem tidy_lowerForRead (iterLocal idxLocal var : LocalId) :
    TidyM (lowerForRead isStr iterLocal idxLocal var span) := by
  unfold lowerForRead
  grind

@[grind ←] theorem tidy_lowerForTest (lenLocal : LocalId) : TidyM (lowerForTest lenLocal dest span) := by
  unfold lowerForTest
  grind

theorem tidy_lowerFor (pattern : Hir.Pattern) (hiter : TidyM iter.lower) (hbody : TidyM body)
    (ho : ∀ m, o = some m → TidyM m) : TidyM (lowerFor ctx ids pattern iter body o span) := by
  unfold lowerFor lowerForStep
  iterate 19 refine .bind (by grind) fun _ => ?_
  refine .bind (tidy_lowerOptional fun m hm => ?_) fun _ => by grind
  obtain ⟨var, -, rfl⟩ := Option.map_eq_some_iff.1 hm
  exact tidy_lowerForRead _ _ _

@[grind ←] theorem tidy_lowerGuard (h : ∀ g, guard = some g → TidyM g.lower) : TidyM (lowerGuard id exit guard) := by
  unfold lowerGuard
  grind

@[grind ←] theorem tidy_openNextArm (isLast : Bool) : TidyM (openNextArm isLast) := by
  unfold openNextArm
  grind

@[grind ←] theorem tidy_lowerMatchTest (h : ∀ g, arm.guard = some g → TidyM g.lower) (isLast : Bool) :
    TidyM (lowerMatchTest ctx scrut merge arm isLast id) := by
  unfold lowerMatchTest
  iterate 6 refine .bind (by grind) fun _ => ?_
  grind

@[grind ←] theorem tidy_lowerMatchArms (h : ∀ a ∈ cases', (∀ g, a.guard = some g → TidyM g.lower) ∧ TidyM a.body) :
    TidyM (lowerMatchArms ctx scrut merge cases' id) := by
  fun_induction lowerMatchArms ctx scrut merge cases' id <;> grind [lowerMatchArm]

theorem tidy_lowerMatch (hscrut : TidyM cond.lower)
    (h : ∀ a ∈ cases', (∀ g, a.guard = some g → TidyM g.lower) ∧ TidyM a.body) :
    TidyM (lowerMatch ctx cond cases' span) := by
  have hscrutinee : TidyM (lowerScrutinee cond span) := by
    unfold lowerScrutinee
    grind
  unfold lowerMatch
  grind

theorem tidy_lowerWith (item : Hir.WithItem) (h : TidyM body) : TidyM (lowerWith ctx item body span) := by
  unfold lowerWith
  grind

@[grind ←] theorem tidy_lowerHandlers (h : ∀ hd ∈ handlers, TidyM hd.body) :
    TidyM (lowerHandlers ctx span handlers) := by
  fun_induction lowerHandlers ctx span handlers <;> grind

theorem tidy_lowerTry {elseBlock finallyBlock : Option (LowerM Unit)} (hbody : TidyM body)
    (h : ∀ hd ∈ handlers, TidyM hd.body) (helse : ∀ m, elseBlock = some m → TidyM m)
    (hfinally : ∀ m, finallyBlock = some m → TidyM m) :
    TidyM (lowerTry ctx body handlers elseBlock finallyBlock span) := by
  unfold lowerTry
  grind

mutual

theorem tidy_lowerStmt : ∀ s : Hir.Stmt, TidyM (lowerStmt ctx s)
  | .mk .pass _ => .bind tidy_ensureOpenBlock fun _ => tidy_emitStmt
  | .mk (.expr e) _ => .bind tidy_ensureOpenBlock fun _ => .bind (tidy_lowerExpr ctx e) fun _ => .ret
  | .mk (.«let» body) _ => tidy_lowerLet ctx body
  | .mk (.assign target value) _ => tidy_lowerAssign ctx target value
  | .mk (.«if» arms elseBlock) _ => tidy_lowerIf (tidy_lowerArms arms) (tidy_lowerElse elseBlock)
  | .mk (.loop (.«while» cond body elseBlock _)) _ =>
    tidy_lowerWhile (tidy_lowerExpr ctx cond) (tidy_lowerBlock body) (tidy_lowerElse elseBlock)
  | .mk (.loop (.«for» _ pattern iter body elseBlock _)) _ =>
    tidy_lowerFor ctx pattern (tidy_lowerExpr ctx iter) (tidy_lowerBlock body) (tidy_lowerElse elseBlock)
  | .mk (.«match» scrutinee arms) _ =>
    tidy_lowerMatch ctx (tidy_lowerExpr ctx scrutinee) (tidy_lowerMatchBodies arms)
  | .mk (.«with» item body) _ => tidy_lowerWith ctx item (tidy_lowerBlock body)
  | .mk (.«try» body handlers elseBlock finallyBlock) _ =>
    tidy_lowerTry ctx (tidy_lowerBlock body) (tidy_lowerHandlerBodies handlers) (tidy_lowerElse elseBlock)
      (tidy_lowerElse finallyBlock)
  | .mk (.«return» value) _ => tidy_lowerReturn ctx value
  | .mk .«break» _ => tidy_lowerBreak
  | .mk .«continue» _ => tidy_lowerContinue
  | .mk (.raise exc _) _ => tidy_lowerRaise ctx exc
  | .mk (.item _) _ => .ret

theorem tidy_lowerBlock : ∀ block : Hir.Block, TidyM (lowerBlock ctx block)
  | .mk stmts _ => tidy_lowerBlockWith (tidy_lowerStmts stmts)

theorem tidy_lowerStmts : ∀ stmts : List Hir.Stmt, ∀ m ∈ lowerStmts ctx stmts, TidyM m
  | [] => List.forall_mem_nil _
  | s :: rest => List.forall_mem_cons.2 ⟨tidy_lowerStmt s, tidy_lowerStmts rest⟩

theorem tidy_lowerArms : ∀ arms : List (Expr × Hir.Block), ∀ a ∈ lowerArms ctx arms, TidyM a.cond.lower ∧ TidyM a.body
  | [] => List.forall_mem_nil _
  | (cond, body) :: rest =>
    List.forall_mem_cons.2 ⟨⟨tidy_lowerExpr ctx cond, tidy_lowerBlock body⟩, tidy_lowerArms rest⟩

theorem tidy_lowerElse : ∀ o : Option Hir.Block, ∀ m, lowerElse ctx o = some m → TidyM m
  | none => fun _ h => by cases h
  | some block => fun _ h => Option.some.inj h ▸ tidy_lowerBlock block

theorem tidy_lowerMatchBodies : ∀ arms : List Hir.MatchArm, ∀ a ∈ lowerMatchBodies ctx arms,
    (∀ g, a.guard = some g → TidyM g.lower) ∧ TidyM a.body
  | [] => List.forall_mem_nil _
  | .mk _ guard _ body _ :: rest => List.forall_mem_cons.2 ⟨⟨fun g hg => by
      obtain ⟨e, -, rfl⟩ := Option.map_eq_some_iff.1 hg
      exact tidy_lowerExpr ctx e, tidy_lowerBlock body⟩, tidy_lowerMatchBodies rest⟩

theorem tidy_lowerHandlerBodies : ∀ handlers : List Hir.ExceptHandler,
    ∀ hd ∈ lowerHandlerBodies ctx handlers, TidyM hd.body
  | [] => List.forall_mem_nil _
  | .mk _ _ body _ :: rest => List.forall_mem_cons.2 ⟨tidy_lowerBlock body, tidy_lowerHandlerBodies rest⟩

end

end

end Cobrust.Mir
