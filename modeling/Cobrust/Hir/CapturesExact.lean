import Cobrust.Hir.Captures
import Mathlib.Data.List.Basic

/-!
# What the capture analysis finds

The walkers record the visible uses of a body, one after the other (`captures_eq`). So a local of an enclosing function
is missed when all its uses are hidden, and a variable of the module is taken for one (`captures_exact_iff`).
-/

namespace Cobrust.Hir

/-- Record the visible uses in order. -/
def recordAll (start : DefId) (mentions : List Mention) (s : CaptureState) : CaptureState :=
  (mentions.filterMap Mention.visible).foldl (fun s use => recordNameCapture start use.1 use.2 s) s

variable {start : DefId}

theorem recordAll_append (ms ns : List Mention) (s : CaptureState) :
    recordAll start (ms ++ ns) s = recordAll start ns (recordAll start ms s) := by
  rw [recordAll, List.filterMap_append, List.foldl_append]
  rfl

theorem visible_hide (m : Mention) : m.hide.visible = none := by
  cases m <;> rfl

theorem recordAll_hide (ms : List Mention) (s : CaptureState) : recordAll start (ms.map Mention.hide) s = s := by
  have hnone : (ms.map Mention.hide).filterMap Mention.visible = [] := by
    rw [List.filterMap_map]
    exact List.filterMap_eq_nil_iff.2 fun m _ => visible_hide m
  rw [recordAll, hnone]
  rfl

theorem recordAll_binds {α : Type} (f : α → DefId) (ids : List α) (s : CaptureState) :
    recordAll start (ids.map fun a => Mention.bind (f a)) s = s := by
  have hnone : (ids.map fun a => Mention.bind (f a)).filterMap Mention.visible = [] := by
    rw [List.filterMap_map]
    exact List.filterMap_eq_nil_iff.2 fun a _ => rfl
  rw [recordAll, hnone]
  rfl

theorem recordAll_bind (ids : List DefId) (s : CaptureState) : recordAll start (ids.map Mention.bind) s = s :=
  recordAll_binds id ids s

theorem recordAll_seq {ms ns : List Mention} {s s₁ s₂ : CaptureState} (h : s₁ = recordAll start ms s)
    (h' : s₂ = recordAll start ns s₁) : s₂ = recordAll start (ms ++ ns) s := by
  rw [recordAll_append, ← h, h']

/-! ## The walkers record the visible uses -/

mutual

theorem walkExpr_eq : ∀ (e : Expr) (s : CaptureState), walkExpr start e s = recordAll start (exprMentions e) s
  | .mk kind span, s => walkKind_eq span kind s

theorem walkKind_eq (span : Span) : ∀ (kind : ExprKind) (s : CaptureState),
    walkKind start span kind s = recordAll start (kindMentions span kind) s
  | .lit _, _ => rfl
  | .format parts, s => walkParts_eq parts s
  | .name _, _ => rfl
  | .tuple items, s => walkExprs_eq items s
  | .list items, s => walkExprs_eq items s
  | .set items, s => walkExprs_eq items s
  | .dict entries, s => walkEntries_eq entries s
  | .comp _ element clauses _, _ => recordAll_seq (walkClauses_eq clauses _) (walkElement_eq element _)
  | .lambda _ body _, _ => recordAll_seq (recordAll_binds _ _ _).symm (walkExpr_eq body _)
  | .call callee args, _ => recordAll_seq (walkExpr_eq callee _) (walkArgs_eq args _)
  | .attr base _, s => walkExpr_eq base s
  | .index base index, _ => recordAll_seq (walkExpr_eq base _) (walkIndex_eq index _)
  | .bin _ lhs rhs, _ => recordAll_seq (walkExpr_eq lhs _) (walkExpr_eq rhs _)
  | .un _ operand, s => walkExpr_eq operand s
  | .borrow inner, s => walkExpr_eq inner s
  | .await inner, s => walkExpr_eq inner s
  | .yield inner, s => walkOption_eq inner s
  | .yieldFrom inner, s => walkExpr_eq inner s
  | .cast expr _, s => walkExpr_eq expr s
  | .ifExpr cond thenBranch elseBranch, _ =>
    recordAll_seq (walkExpr_eq cond _) (recordAll_seq (walkExpr_eq thenBranch _) (walkExpr_eq elseBranch _))

theorem walkExprs_eq : ∀ (items : List Expr) (s : CaptureState),
    walkExprs start items s = recordAll start (exprsMentions items) s
  | [], _ => rfl
  | e :: rest, _ => recordAll_seq (walkExpr_eq e _) (walkExprs_eq rest _)

theorem walkOption_eq : ∀ (o : Option Expr) (s : CaptureState),
    walkOption start o s = recordAll start (optionMentions o) s
  | none, _ => rfl
  | some e, s => walkExpr_eq e s

theorem walkParts_eq : ∀ (parts : List FormatPart) (s : CaptureState),
    walkParts start parts s = recordAll start (partsMentions parts) s
  | [], _ => rfl
  | .lit _ :: rest, s => walkParts_eq rest s
  | .hole expr _ _ :: rest, _ => recordAll_seq (walkExpr_eq expr _) (walkParts_eq rest _)

theorem walkEntries_eq : ∀ (entries : List DictEntry) (s : CaptureState),
    walkEntries start entries s = recordAll start (entriesMentions entries) s
  | [], _ => rfl
  | .pair key value :: rest, _ =>
    recordAll_seq (walkExpr_eq key _) (recordAll_seq (walkExpr_eq value _) (walkEntries_eq rest _))
  | .spread expr :: rest, _ => recordAll_seq (walkExpr_eq expr _) (walkEntries_eq rest _)

theorem walkElement_eq : ∀ (element : CompElem) (s : CaptureState),
    walkElement start element s = recordAll start (elementMentions element) s
  | .single expr, s => walkExpr_eq expr s
  | .keyValue key value, _ => recordAll_seq (walkExpr_eq key _) (walkExpr_eq value _)

theorem walkClauses_eq : ∀ (clauses : List CompClause) (s : CaptureState),
    walkClauses start clauses s = recordAll start (clausesMentions clauses) s
  | [], _ => rfl
  | .mk _ _ iter guards :: rest, _ =>
    recordAll_seq (walkExpr_eq iter _) (recordAll_seq (recordAll_bind _ _).symm (recordAll_seq (recordAll_hide _ _).symm
      (recordAll_seq (walkExprs_eq guards _) (walkClauses_eq rest _))))

theorem walkArgs_eq : ∀ (args : List CallArg) (s : CaptureState),
    walkArgs start args s = recordAll start (argsMentions args) s
  | [], _ => rfl
  | .positional e :: rest, _ | .keyword _ e :: rest, _ | .starArgs e :: rest, _ | .starStarKwargs e :: rest, _ =>
    recordAll_seq (walkExpr_eq e _) (walkArgs_eq rest _)

theorem walkIndex_eq : ∀ (index : IndexKind) (s : CaptureState),
    walkIndex start index s = recordAll start (indexMentions index) s
  | .expr e, s => walkExpr_eq e s
  | .slice first last step, _ =>
    recordAll_seq (walkOption_eq first _) (recordAll_seq (walkOption_eq last _) (walkOption_eq step _))
  | .tuple items, s => walkIndexes_eq items s

theorem walkIndexes_eq : ∀ (items : List IndexKind) (s : CaptureState),
    walkIndexes start items s = recordAll start (indexesMentions items) s
  | [], _ => rfl
  | i :: rest, _ => recordAll_seq (walkIndex_eq i _) (walkIndexes_eq rest _)

end

theorem recordAll_withItem (item : WithItem) (s : CaptureState) : recordAll start item.mentions s = s := by
  unfold WithItem.mentions
  split
  · next id pattern _ => exact recordAll_hide (.bind id :: patternMentions pattern) s
  · rfl

mutual

theorem walkBlock_eq : ∀ (block : Block) (s : CaptureState),
    walkBlock start block s = recordAll start (blockMentions block) s
  | .mk stmts _, s => walkStmts_eq stmts s

theorem walkStmts_eq : ∀ (stmts : List Stmt) (s : CaptureState),
    walkStmts start stmts s = recordAll start (stmtsMentions stmts) s
  | [], _ => rfl
  | .mk kind _ :: rest, _ => recordAll_seq (walkStmt_eq kind _) (walkStmts_eq rest _)

theorem walkStmt_eq : ∀ (kind : StmtKind) (s : CaptureState),
    walkStmt start kind s = recordAll start (stmtMentions kind) s
  | .let _, _ => recordAll_seq (walkExpr_eq _ _) (recordAll_hide _ _).symm
  | .assign target value, _ => recordAll_seq (walkExpr_eq target _) (walkExpr_eq value _)
  | .if arms elseBlock, _ => recordAll_seq (walkIfArms_eq arms _) (walkBlockOption_eq elseBlock _)
  | .loop kind, s => walkLoop_eq kind s
  | .match scrutinee arms, _ => recordAll_seq (walkExpr_eq scrutinee _) (walkMatchArms_eq arms _)
  | .with item body, _ =>
    recordAll_seq (walkExpr_eq _ _) (recordAll_seq (recordAll_withItem item _).symm (walkBlock_eq body _))
  | .try body handlers elseBlock finallyBlock, _ =>
    recordAll_seq (walkBlock_eq body _) (recordAll_seq (walkHandlers_eq handlers _)
      (recordAll_seq (walkBlockOption_eq elseBlock _) (walkBlockOption_eq finallyBlock _)))
  | .return value, s => walkOption_eq value s
  | .raise exc cause, _ => recordAll_seq (walkOption_eq exc _) (walkOption_eq cause _)
  | .expr e, s => walkExpr_eq e s
  | .break, _ | .continue, _ | .pass, _ => rfl
  | .item it, s => (recordAll_hide (itemMentions it) s).symm

theorem walkBlockOption_eq : ∀ (o : Option Block) (s : CaptureState),
    walkBlockOption start o s = recordAll start (blockOptionMentions o) s
  | none, _ => rfl
  | some block, s => walkBlock_eq block s

theorem walkIfArms_eq : ∀ (arms : List (Expr × Block)) (s : CaptureState),
    walkIfArms start arms s = recordAll start (ifArmsMentions arms) s
  | [], _ => rfl
  | (cond, body) :: rest, _ =>
    recordAll_seq (walkExpr_eq cond _) (recordAll_seq (walkBlock_eq body _) (walkIfArms_eq rest _))

theorem walkLoop_eq : ∀ (kind : LoopKind) (s : CaptureState),
    walkLoop start kind s = recordAll start (loopMentions kind) s
  | .while cond body elseBlock _, _ =>
    recordAll_seq (walkExpr_eq cond _) (recordAll_seq (walkBlock_eq body _) (walkBlockOption_eq elseBlock _))
  | .for _ _ iter body elseBlock _, _ =>
    recordAll_seq (walkExpr_eq iter _) (recordAll_seq (recordAll_bind _ _).symm (recordAll_seq (recordAll_hide _ _).symm
      (recordAll_seq (walkBlock_eq body _) (walkBlockOption_eq elseBlock _))))

theorem walkMatchArms_eq : ∀ (arms : List MatchArm) (s : CaptureState),
    walkMatchArms start arms s = recordAll start (matchArmsMentions arms) s
  | [], _ => rfl
  | .mk _ _ guard body _ :: rest, _ =>
    recordAll_seq (recordAll_hide _ _).symm (recordAll_seq (recordAll_bind _ _).symm
      (recordAll_seq (walkOption_eq guard _) (recordAll_seq (walkBlock_eq body _) (walkMatchArms_eq rest _))))

theorem walkHandlers_eq : ∀ (handlers : List ExceptHandler) (s : CaptureState),
    walkHandlers start handlers s = recordAll start (handlersMentions handlers) s
  | [], _ => rfl
  | .mk _ _ body _ :: rest, _ =>
    recordAll_seq (recordAll_binds _ _ _).symm (recordAll_seq (walkBlock_eq body _) (walkHandlers_eq rest _))

end

/-- The captures are those recorded from the visible uses. -/
theorem captures_eq (c : Closure) : c.captures start = (recordAll start c.mentions {}).out := by
  rw [Closure.mentions, recordAll_append, Params.mentions, recordAll_binds, Closure.captures]
  cases c.body with
  | block body => rw [ClosureBody.captures, collectCapturesBlock, walkBlock_eq body]; rfl
  | expr body => rw [ClosureBody.captures, collectCapturesExpr, walkExpr_eq body]; rfl

/-! ## Recording -/

/-- The ids seen are those of the captures found. -/
structure CaptureState.Sound (s : CaptureState) : Prop where
  seen : ∀ id, id ∈ s.seen ↔ id ∈ s.out.map CaptureSpec.defId
  nodup : (s.out.map CaptureSpec.defId).Nodup

/-- The use is one that is recorded. -/
def Recorded (start : DefId) (rn : ResolvedName) : Prop :=
  rn.defId < start ∧ captureKindIsGlobal rn.kind = false

theorem recordNameCapture_sound {s : CaptureState} (hs : s.Sound) (rn : ResolvedName) (span : Span) :
    (recordNameCapture start rn span s).Sound := by
  unfold recordNameCapture
  split_ifs with hstart hglobal hseen
  · exact hs
  · exact hs
  · exact hs
  · have hnew : rn.defId ∉ s.out.map CaptureSpec.defId := fun h => hseen ((hs.seen _).2 h)
    constructor
    · intro id
      rw [List.mem_cons, hs.seen id, List.map_append, List.mem_append, List.map_singleton, List.mem_singleton]
      exact or_comm
    · simpa [List.nodup_append] using ⟨hs.nodup, fun c hc heq => hnew (heq ▸ List.mem_map_of_mem hc)⟩

theorem mem_recordNameCapture {s : CaptureState} (hs : s.Sound) (rn : ResolvedName) (span : Span) (id : DefId) :
    id ∈ (recordNameCapture start rn span s).out.map CaptureSpec.defId ↔
      id ∈ s.out.map CaptureSpec.defId ∨ (id = rn.defId ∧ Recorded start rn) := by
  unfold recordNameCapture Recorded
  split_ifs with hstart hglobal hseen
  · simp [Nat.not_lt.2 hstart]
  · simp [hglobal]
  · have hold : rn.defId ∈ s.out.map CaptureSpec.defId := (hs.seen _).1 hseen
    exact ⟨.inl, fun h => h.elim (fun h => h) fun h => h.1 ▸ hold⟩
  · have hbefore : rn.defId < start := Nat.not_le.1 hstart
    simp [hbefore, hglobal]

theorem recordAll_sound (ms : List Mention) {s : CaptureState} (hs : s.Sound) : (recordAll start ms s).Sound := by
  unfold recordAll
  induction ms.filterMap Mention.visible generalizing s with
  | nil => exact hs
  | cons use rest ih => exact ih (recordNameCapture_sound hs use.1 use.2)

theorem mem_recordAll (ms : List Mention) {s : CaptureState} (hs : s.Sound) (id : DefId) :
    id ∈ (recordAll start ms s).out.map CaptureSpec.defId ↔
      id ∈ s.out.map CaptureSpec.defId ∨
        ∃ rn ∈ (ms.filterMap Mention.visible).map Prod.fst, id = rn.defId ∧ Recorded start rn := by
  unfold recordAll
  induction ms.filterMap Mention.visible generalizing s with
  | nil => simp
  | cons use rest ih =>
    rw [List.foldl_cons, ih (recordNameCapture_sound hs use.1 use.2), mem_recordNameCapture hs, or_assoc,
      List.map_cons, List.exists_mem_cons_iff]

theorem sound_empty : ({} : CaptureState).Sound :=
  ⟨fun _ => Iff.rfl, List.nodup_nil⟩

variable {c : Closure} {outer : DefId → Option Definition}

theorem captures_nodup (c : Closure) : ((c.captures start).map CaptureSpec.defId).Nodup := by
  rw [captures_eq]
  exact (recordAll_sound c.mentions sound_empty).nodup

theorem mem_captures (c : Closure) (id : DefId) :
    id ∈ (c.captures start).map CaptureSpec.defId ↔ ∃ rn ∈ c.visibleUses, id = rn.defId ∧ Recorded start rn := by
  rw [captures_eq, mem_recordAll c.mentions sound_empty]
  simp [Closure.visibleUses]

theorem mem_uses_of_visible {rn : ResolvedName} (h : rn ∈ c.visibleUses) : rn ∈ c.uses := by
  obtain ⟨⟨name, span⟩, hvisible, rfl⟩ := List.mem_map.1 h
  obtain ⟨m, hm, heq⟩ := List.mem_filterMap.1 hvisible
  refine List.mem_filterMap.2 ⟨m, hm, ?_⟩
  cases m with
  | bind id => simp [Mention.visible] at heq
  | use name' span' hidden =>
    cases hidden with
    | true => simp [Mention.visible] at heq
    | false => simpa [Mention.visible, Mention.used] using congrArg (Option.map Prod.fst) heq

namespace Closure.Opened

variable (h : c.Opened start outer)
include h

/-- What is used and has an earlier id is in scope outside. -/
theorem outer_of_lt {rn : ResolvedName} (hrn : rn ∈ c.uses) (hlt : rn.defId < start) :
    ∃ d, outer rn.defId = some d ∧ d.kind = rn.kind :=
  (h.resolved rn hrn).resolve_left (Nat.not_le.2 hlt)

theorem kind_eq {rn : ResolvedName} (hrn : rn ∈ c.uses) {d : Definition} (hd : outer rn.defId = some d) :
    d.kind = rn.kind := by
  obtain ⟨d', hd', hkind⟩ := h.outer_of_lt hrn (h.before _ _ hd)
  rwa [Option.some.inj (hd.symm.trans hd')]

theorem recorded_iff {rn : ResolvedName} (hrn : rn ∈ c.uses) :
    Recorded start rn ↔ ∃ d, outer rn.defId = some d ∧ captureKindIsGlobal d.kind = false := by
  constructor
  · rintro ⟨hlt, hglobal⟩
    obtain ⟨d, hd, hkind⟩ := h.outer_of_lt hrn hlt
    exact ⟨d, hd, hkind ▸ hglobal⟩
  · rintro ⟨d, hd, hglobal⟩
    exact ⟨h.before _ _ hd, h.kind_eq hrn hd ▸ hglobal⟩

theorem not_bound_of_captured {id : DefId} (hid : id ∈ (c.captures start).map CaptureSpec.defId) : id ∉ c.bound := by
  obtain ⟨rn, -, rfl, hlt, -⟩ := (mem_captures c id).1 hid
  exact fun hbound => absurd (h.within _ hbound) (Nat.not_le.2 hlt)

end Closure.Opened

theorem Definition.isLocalVariable_iff (d : Definition) :
    d.isLocalVariable ↔ d.inFunction ∧ captureKindIsGlobal d.kind = false ∧ d.kind ≠ .typeParam := by
  simp [Definition.isLocalVariable, and_assoc]

/-- The captures of a function or lambda are exact if and only if each free local variable is used outside nested items
and the keys of mapping patterns, and nothing else from outside is used there but items of the module. -/
theorem captures_exact_iff (c : Closure) (start : DefId) (outer : DefId → Option Definition)
    (h : c.Opened start outer) :
    c.Exact start outer ↔
      (∀ id, c.FreeLocal outer id → ∃ rn ∈ c.visibleUses, rn.defId = id) ∧
      ∀ rn ∈ c.visibleUses, ∀ d, outer rn.defId = some d →
        captureKindIsGlobal d.kind ∨ d.inFunction ∧ d.kind ≠ .typeParam := by
  constructor
  · rintro ⟨-, hexact, -⟩
    constructor
    · intro id hfree
      obtain ⟨rn, hrn, heq, -⟩ := (mem_captures c id).1 ((hexact id).2 hfree)
      exact ⟨rn, hrn, heq.symm⟩
    · intro rn hrn d hd
      by_cases hglobal : captureKindIsGlobal d.kind = true
      · exact .inl hglobal
      · have hrecorded : Recorded start rn :=
          (h.recorded_iff (mem_uses_of_visible hrn)).2 ⟨d, hd, Bool.eq_false_iff.2 hglobal⟩
        obtain ⟨-, d', hd', hvar⟩ := (hexact rn.defId).1 ((mem_captures c _).2 ⟨rn, hrn, rfl, hrecorded⟩)
        cases hd.symm.trans hd'
        obtain ⟨hin, -, hkind⟩ := d.isLocalVariable_iff.1 hvar
        exact .inr ⟨hin, hkind⟩
  · rintro ⟨hseen, honly⟩
    refine ⟨captures_nodup c, fun id => ⟨fun hid => ?_, fun hfree => ?_⟩, fun id => h.not_bound_of_captured⟩
    · obtain ⟨rn, hrn, rfl, hrecorded⟩ := (mem_captures c id).1 hid
      have huse := mem_uses_of_visible hrn
      obtain ⟨d, hd, hglobal⟩ := (h.recorded_iff huse).1 hrecorded
      obtain ⟨hin, hkind⟩ := (honly rn hrn d hd).resolve_left (by simp [hglobal])
      exact ⟨⟨rn, huse, rfl⟩, d, hd, d.isLocalVariable_iff.2 ⟨hin, hglobal, hkind⟩⟩
    · obtain ⟨rn, hrn, rfl⟩ := hseen id hfree
      obtain ⟨-, d, hd, hvar⟩ := hfree
      obtain ⟨-, hglobal, -⟩ := d.isLocalVariable_iff.1 hvar
      exact (mem_captures c _).2 ⟨rn, hrn, rfl, (h.recorded_iff (mem_uses_of_visible hrn)).2 ⟨d, hd, hglobal⟩⟩

/-- A parameter `x` of an enclosing function, with the id 1. -/
def outerParam : DefId → Option Definition
  | 1 => some ⟨.param, true⟩
  | _ => none

theorem outerParam_le {id : DefId} {d : Definition} (h : outerParam id = some d) : id ≤ 1 := by
  unfold outerParam at h
  split at h
  · exact Nat.le_refl 1
  · cases h

/-- A use of that parameter. -/
def useOuterParam : Expr :=
  .mk (.name ⟨"x", 1, .param⟩) ⟨0, 0, 1⟩

/-- `lambda y: x`, where `y` has the id 2. -/
def lambdaOverParam : Closure :=
  ⟨⟨[⟨2, "y", none, none, ⟨0, 0, 1⟩⟩], none, [], none⟩, .expr useOuterParam⟩

theorem captures_exact_lambda : lambdaOverParam.Exact 2 outerParam := by
  refine (captures_exact_iff lambdaOverParam 2 outerParam ⟨fun id d hd => ?_, ?_, ?_⟩).2 ⟨?_, ?_⟩
  · exact Nat.lt_of_le_of_lt (outerParam_le hd) (by decide)
  · exact List.forall_mem_singleton.2 (Nat.le_refl 2)
  · exact List.forall_mem_singleton.2 (.inr ⟨_, rfl, rfl⟩)
  · rintro id ⟨⟨rn, hrn, rfl⟩, -⟩
    exact ⟨rn, hrn, rfl⟩
  · refine List.forall_mem_singleton.2 fun d hd => ?_
    cases hd
    exact .inr ⟨rfl, by decide⟩

/-- `fn middle(): fn inner(): return x`, where `inner` has the id 3. -/
def useInNested : Closure :=
  ⟨⟨[], none, [], none⟩, .block (.mk [.mk (.item (.mk (.fn (.mk 3 "inner" ⟨[], none, [], none⟩
    (.mk [.mk (.return (some useOuterParam)) ⟨0, 0, 1⟩] ⟨0, 0, 1⟩) ⟨0, 0, 1⟩)) ⟨0, 0, 1⟩)) ⟨0, 0, 1⟩] ⟨0, 0, 1⟩)⟩

/-- The middle one of three nested functions has no captures, although the innermost uses a parameter of the outer. -/
theorem captures_miss_nested : useInNested.Opened 3 outerParam ∧ ¬ useInNested.Exact 3 outerParam := by
  refine ⟨⟨fun id d hd => ?_, ?_, ?_⟩, fun h => ?_⟩
  · exact Nat.lt_of_le_of_lt (outerParam_le hd) (by decide)
  · exact List.forall_mem_singleton.2 (Nat.le_refl 3)
  · exact List.forall_mem_singleton.2 (.inr ⟨_, rfl, rfl⟩)
  · have hfree : useInNested.FreeLocal outerParam 1 := ⟨⟨_, List.mem_singleton.2 rfl, rfl⟩, _, rfl, rfl⟩
    exact absurd ((h.2.1 1).2 hfree) (by decide)

end Cobrust.Hir
