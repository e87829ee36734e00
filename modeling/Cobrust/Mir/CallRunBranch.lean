import Cobrust.Mir.CallRun
import Cobrust.Mir.Lower.Expr

/-!
# The code of `and`, `or` and the conditional expression

Both leave blocks open and close them later, so that the code of a part is found in the finished blocks with another
terminator at its end (`HasCode.of_later`).
-/

namespace Cobrust.Mir

open Exec BodyBuilder Control

variable {τ : Type} {functions : Functions} {ids : List DefId} {val : DefId → Option Value} {blocks : List BasicBlock}
  {S : BlockId → Prop} {b b' : BodyBuilder} {c : BlockId} {block : BasicBlock}

/-- The code of a builder, from that of a later one that has filled its last block further. -/
theorem HasCode.of_later {S' : BlockId → Prop} (hcode : HasCode blocks b' S')
    (h : ∀ i, S i → ∀ block, b.blocks[i]? = some block → S' i ∧ ∃ block', b'.blocks[i]? = some block' ∧
      block.statements <+: block'.statements ∧ (b.curBlock ≠ some i → block' = block ∧ b'.curBlock ≠ some i)) :
    HasCode blocks b S := by
  intro i hi block hblock
  obtain ⟨hi', block', hblock', hstmts, hsame⟩ := h i hi block hblock
  obtain ⟨final, hfinal, hstmts', hsame'⟩ := hcode i hi' block' hblock'
  refine ⟨final, hfinal, hstmts.trans hstmts', fun hne => ?_⟩
  rw [hsame' (hsame hne).2, (hsame hne).1]

/-- Lower a part and assign it to a local. -/
def assignInto (l : LocalId) (m : LowerM Operand) (span : Span) : LowerM Unit := do
  let op ← m
  emitAssign (.ofLocal l) (.use op) span

/-- The run leaves the value in the local, and keeps the locals below it. -/
def DeliversInto (functions : Functions) (blocks : List BasicBlock) (b b' : BodyBuilder) (l : LocalId) (f : Frame)
    (h : History) : Except Stop Value × History × List τ → Prop
  | (.ok v, h', _) => ∃ f', Runs functions blocks ⟨b.point f, h⟩ ⟨b'.point f', h'⟩ ∧ f' l = some v ∧
      ∀ l', l' < l → f' l' = f l'
  | (.error stop, h', _) => Halts functions blocks ⟨b.point f, h⟩ h' stop

theorem computesCall_assignInto {m : LowerM Operand} {x : Traced History Stop τ Value}
    (hm : ComputesCall functions ids val m x) (span : Span) {l : LocalId} (hopen : b.Open c block) (hn : Named ids b)
    (hl : l < b.locals.length) :
    ∃ b', assignInto l m span b = .ok ((), b') ∧ Grows b b' ∧
      ∀ blocks, HasCode blocks b' b.Owns → Leads blocks b'.cursor b.cursor ∧
        ∀ f, HoldsValues ids val b f → ∀ h, DeliversInto functions blocks b b' l f h (x h) := by
  obtain ⟨op, b₁, hm₁, hg₁, -, hrun₁⟩ := hm b c block hopen hn
  obtain ⟨c₁, block₁, hopen₁⟩ := hg₁.opened
  have hg₂ := grows_pushStmt hopen₁ ⟨.assign (.ofLocal l) (.use op), span⟩
  refine ⟨b₁.pushStmt c₁ ⟨.assign (.ofLocal l) (.use op), span⟩, ?_, hg₁.trans hg₂, fun blocks hcode => ?_⟩
  · exact Control.bind_eq_ok.2 ⟨op, b₁, hm₁, emitStmt_ok.2 ⟨c₁, hopen₁.cur, rfl⟩⟩
  · obtain ⟨hleads, hdelivers⟩ := hrun₁ blocks (hg₂.hasCode hcode)
    refine ⟨hleads, fun f hf h => ?_⟩
    have hop := hdelivers f hf h
    rcases hxh : x h with ⟨stop | v, h', sites⟩
    all_goals rw [hxh] at hop
    · exact hop
    · obtain ⟨f₁, hrun, hread, hf₁⟩ := hop
      have hassign := delivers_assign (l := l) hopen₁ hcode (hg₁.owns hopen₁.owns) hread
      refine ⟨f₁.set l v, hrun.trans (runs_of_reaches hassign), f₁.set_self l v, fun l' hl' => ?_⟩
      rw [Frame.set_of_ne v hl'.ne, hf₁ l' (hl'.trans hl)]

/-- The right side runs when the left one does not decide. -/
def decideCall (isAnd : Bool) (x : Traced History Stop τ Value) : Value → Traced History Stop τ Value
  | .bool t => if t = isAnd then x else pure (.bool t)
  | _ => Outcome.undefined.run

theorem halts_of_switch {f : Frame} {h : History} {op : Operand} {cases : List (SwitchValue × BlockId)}
    {otherwise : BlockId} {v : Value} (hopen : b.Open c block) {final : BasicBlock} (hfinal : blocks[c]? = some final)
    (hstmts : final.statements = block.statements) (hterm : final.terminator = .switchInt op cases otherwise)
    (hop : f.operand op = some v) (hv : ∀ t, v ≠ .bool t) :
    Halts functions blocks ⟨b.point f, h⟩ h .undefined := by
  rw [hopen.point_eq]
  refine ⟨_, .refl, ?_, final, hfinal, .inr fun e => by rw [hterm] at e; cases e⟩
  cases v with
  | bool t => exact absurd rfl (hv t)
  | int _ => simp [stepCall, hfinal, hstmts, hterm, stepCallTerminator, stepTerminator, hop]
  | str _ => simp [stepCall, hfinal, hstmts, hterm, stepCallTerminator, stepTerminator, hop]

theorem runs_switch {f : Frame} {h : History} {op : Operand} {cases : List (SwitchValue × BlockId)}
    {otherwise : BlockId} {t : Bool} (hopen : b.Open c block) {final : BasicBlock} (hfinal : blocks[c]? = some final)
    (hstmts : final.statements = block.statements) (hterm : final.terminator = .switchInt op cases otherwise)
    (hop : f.operand op = some (.bool t)) :
    Runs functions blocks ⟨b.point f, h⟩ ⟨⟨switchTarget t otherwise cases, 0, f⟩, h⟩ := by
  refine .next ?_
  rw [hopen.point_eq]
  simp [stepCall, hfinal, hstmts, hterm, stepCallTerminator, stepTerminator, hop, StepResult.after]

theorem runs_goto {f : Frame} {h : History} {target : BlockId} (hopen : b.Open c block) {final : BasicBlock}
    (hfinal : blocks[c]? = some final) (hstmts : final.statements = block.statements)
    (hterm : final.terminator = .goto target) :
    Runs functions blocks ⟨b.point f, h⟩ ⟨⟨target, 0, f⟩, h⟩ := by
  refine .next ?_
  rw [hopen.point_eq]
  simp [stepCall, hfinal, hstmts, hterm, stepCallTerminator, stepTerminator, StepResult.after]

/-- A part whose value is in the result, and the jump behind it. -/
theorem DeliversInto.join {p q : BodyBuilder} {f f₁ : Frame} {h h₁ : History} {target : BlockId}
    {r : Except Stop Value × History × List τ}
    (hinto : DeliversInto functions blocks p q b.locals.length f₁ h₁ r)
    (hruns : Runs functions blocks ⟨b.point f, h⟩ ⟨p.point f₁, h₁⟩) (hf₁ : ∀ l, l < b.locals.length → f₁ l = f l)
    (hopen : q.Open c block) (hfinal : blocks[c]? = some { block with terminator := .goto target })
    (hjoin : ∀ f', b'.point f' = ⟨target, 0, f'⟩) (sites : List τ) :
    DeliversCall functions blocks b b' (Operand.copy (.ofLocal b.locals.length)) f h (r.1, r.2.1, sites) := by
  obtain ⟨stop | v, h₂, sites'⟩ := r
  · exact Halts.of_runs hruns hinto
  · obtain ⟨f₂, hruns₂, hv, hf₂⟩ := hinto
    refine ⟨f₂, hruns.trans (hruns₂.trans ?_), hv, fun l hl => (hf₂ l hl).trans (hf₁ l hl)⟩
    rw [hjoin]
    exact runs_goto hopen hfinal rfl rfl

theorem lowerShortCircuitBool_eq (isAnd : Bool) (lhs rhs : Sub) (span : Span) :
    lowerShortCircuitBool isAnd lhs rhs span = (do
      let result ← declareLocal "_sc_bool" .bool span true
      assignInto result lhs.lower span
      let condBlock ← currentBlockId
      let evalRhsBlock ← startNewBlock
      let mergeBlock ← startNewBlock
      setCurBlock condBlock
      terminate (.switchInt (.copy (.ofLocal result)) [(.bool isAnd, evalRhsBlock)] mergeBlock)
      setCurBlock evalRhsBlock
      assignInto result rhs.lower span
      gotoIfOpen mergeBlock
      setCurBlock mergeBlock
      return .copy (.ofLocal result)) := by
  simp only [lowerShortCircuitBool, assignInto, bind_assoc]

theorem computesCall_shortCircuit {isAnd : Bool} {lhs rhs : Sub} {span : Span} {x y : Traced History Stop τ Value}
    (hx : ComputesCall functions ids val lhs.lower x) (hy : ComputesCall functions ids val rhs.lower y) :
    ComputesCall functions ids val (lowerShortCircuitBool isAnd lhs rhs span) (x >>= decideCall isAnd y) := by
  intro b c block hopen hn
  rw [lowerShortCircuitBool_eq]
  -- the left side, into the result
  have hg₁ := grows_addLocal hopen "_sc_bool" .bool span true
  have hopen₁ := open_addLocal hopen "_sc_bool" .bool span true
  have hl : b.locals.length < (b.addLocal "_sc_bool" .bool span true).locals.length := by simp [BodyBuilder.addLocal]
  obtain ⟨b₂, hm₂, hg₂, hrun₂⟩ := computesCall_assignInto hx span hopen₁ (hn.grows hg₁) hl
  obtain ⟨c₂, block₂, hopen₂⟩ := hg₂.opened
  -- the branch, and the right side in its block
  have hg₃ := grows_branch hopen₂ b.locals.length isAnd
  have hopen₃ := open_branch hopen₂ b.locals.length isAnd
  have hself₃ := block_branch_self hopen₂ b.locals.length isAnd
  have hmerge₃ := block_branch_merge hopen₂ b.locals.length isAnd
  have hlen₃ := length_branch b₂ c₂ b.locals.length isAnd
  generalize hb₃ : b₂.branch c₂ b.locals.length isAnd = b₃ at hg₃ hopen₃ hself₃ hmerge₃ hlen₃
  have hgrows₃ : Grows b b₃ := hg₁.trans (hg₂.trans hg₃)
  have hl₃ : b.locals.length < b₃.locals.length := (hg₂.trans hg₃).lt_locals hl
  obtain ⟨b₄, hm₄, hg₄, hrun₄⟩ := computesCall_assignInto hy span hopen₃ (hn.grows hgrows₃) hl₃
  obtain ⟨c₄, block₄, hopen₄⟩ := hg₄.opened
  -- the merge block is not one that the right side fills
  have howns (i : BlockId) (hi : b₃.Owns i) : b.Owns i ∧ i ≠ b₂.blocks.length + 1 := by
    have hnew : b.blocks.length ≤ b₂.blocks.length := (hg₁.trans hg₂).len
    rcases hi with e | hle
    · obtain rfl : b₂.blocks.length = i := Option.some.inj (hopen₃.cur.symm.trans e)
      exact ⟨.inr hnew, (Nat.lt_succ_self _).ne⟩
    · rw [hlen₃] at hle
      exact ⟨.inr (hnew.trans (Nat.le_of_add_right_le hle)), (Nat.lt_of_lt_of_le (Nat.lt_succ_self _) hle).ne'⟩
  have hc₄ : b₃.Owns c₄ := hg₄.owns hopen₄.owns
  have hne₄ : b₂.blocks.length + 1 ≠ c₄ := (howns c₄ hc₄).2.symm
  have hmerge₄ : b₄.blocks[b₂.blocks.length + 1]? = some ⟨b₂.blocks.length + 1, [], .unreachable, b₂.span⟩ := by
    have hlt : b₂.blocks.length + 1 < b₃.blocks.length := by
      rw [hlen₃]
      exact Nat.lt_succ_self _
    rw [hg₄.old _ hlt (by rw [hopen₃.cur]; simp), hmerge₃]
  have hnew : b.blocks.length ≤ b₂.blocks.length + 1 := ((hg₁.trans hg₂).len).trans (Nat.le_succ _)
  refine ⟨.copy (.ofLocal b.locals.length), b₄.join (b₂.blocks.length + 1), ?_,
    grows_join (hgrows₃.trans hg₄) hopen₄ hmerge₄ rfl hne₄ hnew, ?_, fun blocks hcode => ?_⟩
  · refine Control.bind_eq_ok.2 ⟨b.locals.length, _, declareLocal_eq _ _ _ _ _, ?_⟩
    refine Control.bind_eq_ok.2 ⟨(), b₂, hm₂, ?_⟩
    refine Control.bind_eq_ok.2 ⟨c₂, b₂, currentBlockId_ok.2 ⟨hopen₂.cur, rfl⟩, ?_⟩
    refine Control.bind_eq_ok.2 ⟨_, _, startNewBlock_ok.2 ⟨rfl, rfl⟩, ?_⟩
    refine Control.bind_eq_ok.2 ⟨b₂.blocks.length + 1, _, startNewBlock_ok.2 ⟨(length_startBlock b₂).symm, rfl⟩, ?_⟩
    refine Control.bind_eq_ok.2 ⟨(), _, setCurBlock_ok.2 rfl, ?_⟩
    refine Control.bind_eq_ok.2 ⟨(), _, terminate_ok.2 rfl, ?_⟩
    refine Control.bind_eq_ok.2 ⟨(), b₃, setCurBlock_ok.2 hb₃.symm, ?_⟩
    refine Control.bind_eq_ok.2 ⟨(), b₄, hm₄, ?_⟩
    refine Control.bind_eq_ok.2 ⟨(), _, gotoIfOpen_ok.2 rfl, ?_⟩
    exact Control.bind_eq_ok.2 ⟨(), _, setCurBlock_ok.2 rfl, rfl⟩
  · have hlocals : (b₄.join (b₂.blocks.length + 1)).locals = b₄.locals := by
      simp [BodyBuilder.join, close, hopen₄.cur, moveTo]
    rw [hlocals]
    exact hg₄.lt_locals hl₃
  · have hcode₄ := hasCode_join hopen₄ hcode
    have hcode₃ := hg₄.hasCode hcode₄
    have hcode₂ : HasCode blocks b₂ (b.addLocal "_sc_bool" .bool span true).Owns := by
      intro i hi block' hblock'
      have hlt : i < b₂.blocks.length := (List.getElem?_eq_some_iff.1 hblock').1
      exact hg₃.hasCode hcode₃ i ⟨hg₁.owns hi, (Nat.lt_succ_of_lt (hlt.trans_le le_rfl)).ne⟩ block' hblock'
    have hc₂ : b.Owns c₂ ∧ c₂ ≠ b₂.blocks.length + 1 :=
      ⟨hg₁.owns (hg₂.owns hopen₂.owns), (Nat.lt_succ_of_lt hopen₂.lt).ne⟩
    obtain ⟨final₂, hfinal₂, -, hsame₂⟩ := hcode₃ c₂ hc₂ _ hself₃
    rw [hsame₂ (by rw [hopen₃.cur]; simpa using hopen₂.lt.ne')] at hfinal₂
    obtain ⟨final₄, hfinal₄, -, hsame₄⟩ := hcode c₄ (howns c₄ hc₄).1 _ (block_join_self hopen₄ _)
    rw [hsame₄ fun e => hne₄ (Option.some.inj e)] at hfinal₄
    obtain ⟨hleads₂, hdelivers₂⟩ := hrun₂ blocks hcode₂
    obtain ⟨hleads₄, hdelivers₄⟩ := hrun₄ blocks (hcode₄.mono howns)
    have hopen₅ := open_join hopen₄ hmerge₄ rfl hne₄
    refine ⟨?_, fun f hf h => ?_⟩
    · rw [cursor_eq hopen₂] at hleads₂
      rw [cursor_eq hopen₄, cursor_eq hopen₃] at hleads₄
      rw [cursor_eq hopen₅]
      have hjoin : Leads blocks (b₂.blocks.length + 1) c₄ := by
        refine .step hfinal₄ (by simp [Terminator.successors]) fun i hi => ?_
        rw [List.mem_singleton.1 hi]
        exact .here
      refine Leads.trans (.step hfinal₂ (by simp [Terminator.successors]) fun i hi => ?_) hleads₂
      rcases List.mem_cons.1 hi with rfl | hi
      · exact hjoin.trans hleads₄
      · rw [List.mem_singleton.1 hi]
        exact .here
    · have hleft := hdelivers₂ f (hf.grows hn hg₁ fun _ _ => rfl) h
      rw [Traced.bind_apply]
      rcases hxh : x h with ⟨stop | v, h₂, sites⟩
      all_goals rw [hxh] at hleft
      · exact hleft
      obtain ⟨f₂, hruns₂, hv, hf₂⟩ := hleft
      have hop : f₂.operand (.copy (.ofLocal b.locals.length)) = some v := hv
      cases v with
      | int n => exact (halts_of_switch hopen₂ hfinal₂ rfl rfl hop fun t e => by cases e).of_runs hruns₂
      | str s => exact (halts_of_switch hopen₂ hfinal₂ rfl rfl hop fun t e => by cases e).of_runs hruns₂
      | bool t =>
        have hruns₃ := hruns₂.trans (runs_switch hopen₂ hfinal₂ rfl rfl hop)
        by_cases ht : t = isAnd
        · have hright := hdelivers₄ f₂ (hf.grows hn hgrows₃ hf₂) h₂
          have htarget : switchTarget t (b₂.blocks.length + 1) [(.bool isAnd, b₂.blocks.length)] = b₂.blocks.length :=
            if_pos ht
          have hpoint : b₃.point f₂ = ⟨b₂.blocks.length, 0, f₂⟩ := hopen₃.point_eq f₂
          rw [htarget, ← hpoint] at hruns₃
          have hdecide : decideCall isAnd y (.bool t) = y := if_pos ht
          rw [Traced.andThen, hdecide]
          exact hright.join hruns₃ hf₂ hopen₄ hfinal₄ hopen₅.point_eq _
        · have htarget : switchTarget t (b₂.blocks.length + 1) [(.bool isAnd, b₂.blocks.length)] = b₂.blocks.length + 1 :=
            if_neg ht
          rw [htarget] at hruns₃
          have hdecide : decideCall isAnd y (.bool t) = pure (.bool t) := if_neg ht
          rw [Traced.andThen, hdecide]
          refine ⟨f₂, ?_, hop, hf₂⟩
          rw [hopen₅.point_eq]
          exact hruns₃

/-! ## The conditional expression -/

/-- Close a block that was left open. -/
def BodyBuilder.seal (b : BodyBuilder) (c : BlockId) (t : Terminator) : BodyBuilder :=
  (b.moveTo c).close t

theorem block_seal_self (h : b.blocks[c]? = some block) (t : Terminator) :
    (b.seal c t).blocks[c]? = some { block with terminator := t } := by
  simp [BodyBuilder.seal, close, moveTo, h]

theorem block_seal_of_ne (t : Terminator) {x : BlockId} (hne : x ≠ c) : (b.seal c t).blocks[x]? = b.blocks[x]? := by
  rw [BodyBuilder.seal, block_close_of_ne t (by simpa using Ne.symm hne), blocks_moveTo]

theorem same_seal (b : BodyBuilder) (c : BlockId) (t : Terminator) :
    (b.seal c t).blocks.length = b.blocks.length ∧ (b.seal c t).locals = b.locals ∧
      (b.seal c t).defToLocal = b.defToLocal := by
  refine ⟨?_, ?_, ?_⟩
  · rw [BodyBuilder.seal, length_close, blocks_moveTo]
  · simp [BodyBuilder.seal, close, moveTo]
  · simp [BodyBuilder.seal, close, moveTo]

theorem open_startBlock (b : BodyBuilder) :
    b.startBlock.Open b.blocks.length ⟨b.blocks.length, [], .unreachable, b.span⟩ where
  cur := rfl
  get := by simp [startBlock]
  placeholder := rfl

theorem grows_startBlock (h : b.Open c block) : Grows b b.startBlock where
  len := by
    rw [length_startBlock]
    exact Nat.le_succ _
  old x hx _ := block_startBlock_of_lt hx
  current c' block' hc' hblock' := by
    obtain rfl : c = c' := Option.some.inj (h.cur.symm.trans hc')
    exact ⟨block', by rw [block_startBlock_of_lt h.lt, hblock'], List.prefix_refl _⟩
  cursor x hx := by
    obtain rfl : b.blocks.length = x := Option.some.inj hx
    exact .inr le_rfl
  opened := ⟨_, _, open_startBlock b⟩
  locals := List.prefix_refl _
  defs := rfl

/-- The builder in which the condition goes to its branches, and both branches to a new block. -/
def BodyBuilder.joinBranches (b : BodyBuilder) (condEnd thenExit elseExit : BlockId) (branch : Terminator) :
    BodyBuilder :=
  (((b.startBlock.seal thenExit (.goto b.blocks.length)).seal elseExit (.goto b.blocks.length)).seal condEnd
    branch).moveTo b.blocks.length

section JoinBranches

variable {condEnd thenExit elseExit : BlockId} {condBlock thenBlock elseBlock : BasicBlock} {branch : Terminator}
  (hne : condEnd ≠ thenExit ∧ condEnd ≠ elseExit ∧ thenExit ≠ elseExit)

theorem block_joinBranches_of_ne {x : BlockId} (hx : x < b.blocks.length)
    (hother : x ≠ condEnd ∧ x ≠ thenExit ∧ x ≠ elseExit) :
    (b.joinBranches condEnd thenExit elseExit branch).blocks[x]? = b.blocks[x]? := by
  rw [BodyBuilder.joinBranches, blocks_moveTo, block_seal_of_ne _ hother.1, block_seal_of_ne _ hother.2.2,
    block_seal_of_ne _ hother.2.1, block_startBlock_of_lt hx]

include hne

theorem block_joinBranches_cond (h : b.blocks[condEnd]? = some condBlock) :
    (b.joinBranches condEnd thenExit elseExit branch).blocks[condEnd]? = some { condBlock with terminator := branch } := by
  have hlt := (List.getElem?_eq_some_iff.1 h).1
  rw [BodyBuilder.joinBranches, blocks_moveTo]
  refine block_seal_self ?_ branch
  rw [block_seal_of_ne _ hne.2.1, block_seal_of_ne _ hne.1, block_startBlock_of_lt hlt, h]

theorem block_joinBranches_then (h : b.blocks[thenExit]? = some thenBlock) :
    (b.joinBranches condEnd thenExit elseExit branch).blocks[thenExit]? =
      some { thenBlock with terminator := .goto b.blocks.length } := by
  have hlt := (List.getElem?_eq_some_iff.1 h).1
  rw [BodyBuilder.joinBranches, blocks_moveTo, block_seal_of_ne _ hne.1.symm, block_seal_of_ne _ hne.2.2]
  refine block_seal_self ?_ _
  rw [block_startBlock_of_lt hlt, h]

theorem block_joinBranches_else (h : b.blocks[elseExit]? = some elseBlock) :
    (b.joinBranches condEnd thenExit elseExit branch).blocks[elseExit]? =
      some { elseBlock with terminator := .goto b.blocks.length } := by
  have hlt := (List.getElem?_eq_some_iff.1 h).1
  rw [BodyBuilder.joinBranches, blocks_moveTo, block_seal_of_ne _ hne.2.1.symm]
  refine block_seal_self ?_ _
  rw [block_seal_of_ne _ hne.2.2.symm, block_startBlock_of_lt hlt, h]

omit hne in
theorem open_joinBranches (hlt : condEnd < b.blocks.length ∧ thenExit < b.blocks.length ∧ elseExit < b.blocks.length) :
    (b.joinBranches condEnd thenExit elseExit branch).Open b.blocks.length ⟨b.blocks.length, [], .unreachable, b.span⟩ where
  cur := rfl
  get := by
    rw [BodyBuilder.joinBranches, blocks_moveTo, block_seal_of_ne _ hlt.1.ne', block_seal_of_ne _ hlt.2.2.ne',
      block_seal_of_ne _ hlt.2.1.ne', (open_startBlock b).get]
  placeholder := rfl

omit hne in
theorem same_joinBranches (b : BodyBuilder) (condEnd thenExit elseExit : BlockId) (branch : Terminator) :
    (b.joinBranches condEnd thenExit elseExit branch).blocks.length = b.blocks.length + 1 ∧
      (b.joinBranches condEnd thenExit elseExit branch).locals = b.locals ∧
      (b.joinBranches condEnd thenExit elseExit branch).defToLocal = b.defToLocal := by
  have h₁ := same_seal b.startBlock thenExit (.goto b.blocks.length)
  have h₂ := same_seal (b.startBlock.seal thenExit (.goto b.blocks.length)) elseExit (.goto b.blocks.length)
  have h₃ := same_seal ((b.startBlock.seal thenExit (.goto b.blocks.length)).seal elseExit (.goto b.blocks.length))
    condEnd branch
  refine ⟨?_, ?_, ?_⟩
  · rw [BodyBuilder.joinBranches, blocks_moveTo, h₃.1, h₂.1, h₁.1, length_startBlock]
  · exact h₃.2.1.trans (h₂.2.1.trans h₁.2.1)
  · exact h₃.2.2.trans (h₂.2.2.trans h₁.2.2)

end JoinBranches

/-- A new block leaves the blocks before it as they are. -/
theorem block_after_start (h : Grows b.startBlock b') {x : BlockId} (hx : x < b.blocks.length) :
    b'.blocks[x]? = b.blocks[x]? := by
  rw [h.old x (by rw [length_startBlock]; exact Nat.lt_succ_of_lt hx) fun e => hx.ne' (Option.some.inj e),
    block_startBlock_of_lt hx]

theorem owns_startBlock {x : BlockId} (h : b.startBlock.Owns x) : b.blocks.length ≤ x := by
  rcases h with e | hle
  · exact (Option.some.inj e).le
  · rw [length_startBlock] at hle
    exact Nat.le_of_succ_le hle

/-- The code of a builder whose last block was closed later. -/
theorem HasCode.of_sealed {S' : BlockId → Prop} {t : Terminator} (hopen : b.Open c block) (hcode : HasCode blocks b' S')
    (hS : ∀ i, S i → S' i) (hself : b'.blocks[c]? = some { block with terminator := t })
    (hother : ∀ i, S i → i < b.blocks.length → i ≠ c → b'.blocks[i]? = b.blocks[i]? ∧ b'.curBlock ≠ some i) :
    HasCode blocks b S := by
  refine hcode.of_later fun i hi block' hblock' => ⟨hS i hi, ?_⟩
  by_cases hic : i = c
  · subst hic
    obtain rfl : block = block' := Option.some.inj (hopen.get.symm.trans hblock')
    exact ⟨_, hself, List.prefix_refl _, fun hne => absurd hopen.cur hne⟩
  · obtain ⟨hsame, hcur⟩ := hother i hi (List.getElem?_eq_some_iff.1 hblock').1 hic
    exact ⟨block', hsame.trans hblock', List.prefix_refl _, fun _ => ⟨rfl, hcur⟩⟩

/-- A builder behind the condition, one behind the branch taken on `true`, and one behind the other branch. -/
structure Branches (b p q r : BodyBuilder) (condEnd thenExit elseExit : BlockId)
    (condBlock thenBlock elseBlock : BasicBlock) : Prop where
  cond : Grows b p
  condOpen : p.Open condEnd condBlock
  thenPart : Grows p.startBlock q
  thenOpen : q.Open thenExit thenBlock
  elsePart : Grows q.startBlock r
  elseOpen : r.Open elseExit elseBlock

namespace Branches

variable {p q r : BodyBuilder} {condEnd thenExit elseExit : BlockId} {condBlock thenBlock elseBlock : BasicBlock}
  {branch : Terminator} (h : Branches b p q r condEnd thenExit elseExit condBlock thenBlock elseBlock)
include h

theorem before_then : p.blocks.length ≤ thenExit :=
  owns_startBlock (h.thenPart.owns h.thenOpen.owns)

theorem before_else : q.blocks.length ≤ elseExit :=
  owns_startBlock (h.elsePart.owns h.elseOpen.owns)

theorem len_cond : p.blocks.length < q.blocks.length :=
  Nat.lt_of_lt_of_le (by rw [length_startBlock]; exact Nat.lt_succ_self _) h.thenPart.len

theorem len_then : q.blocks.length < r.blocks.length :=
  Nat.lt_of_lt_of_le (by rw [length_startBlock]; exact Nat.lt_succ_self _) h.elsePart.len

theorem before_then_else {x : BlockId} (hx : x < p.blocks.length) : x ≠ thenExit ∧ x ≠ elseExit :=
  ⟨(hx.trans_le h.before_then).ne, ((hx.trans h.len_cond).trans_le h.before_else).ne⟩

theorem ne : condEnd ≠ thenExit ∧ condEnd ≠ elseExit ∧ thenExit ≠ elseExit :=
  ⟨(h.before_then_else h.condOpen.lt).1, (h.before_then_else h.condOpen.lt).2,
    (h.thenOpen.lt.trans_le h.before_else).ne⟩

theorem block_then {x : BlockId} (hx : x < q.blocks.length) : r.blocks[x]? = q.blocks[x]? :=
  block_after_start h.elsePart hx

theorem block_cond {x : BlockId} (hx : x < p.blocks.length) : r.blocks[x]? = p.blocks[x]? := by
  rw [h.block_then (hx.trans h.len_cond), block_after_start h.thenPart hx]

theorem sealed_cond : (r.joinBranches condEnd thenExit elseExit branch).blocks[condEnd]? =
    some { condBlock with terminator := branch } :=
  block_joinBranches_cond h.ne (by rw [h.block_cond h.condOpen.lt, h.condOpen.get])

theorem sealed_then : (r.joinBranches condEnd thenExit elseExit branch).blocks[thenExit]? =
    some { thenBlock with terminator := .goto r.blocks.length } :=
  block_joinBranches_then h.ne (by rw [h.block_then h.thenOpen.lt, h.thenOpen.get])

theorem sealed_else : (r.joinBranches condEnd thenExit elseExit branch).blocks[elseExit]? =
    some { elseBlock with terminator := .goto r.blocks.length } :=
  block_joinBranches_else h.ne h.elseOpen.get

theorem opened : (r.joinBranches condEnd thenExit elseExit branch).Open r.blocks.length
    ⟨r.blocks.length, [], .unreachable, r.span⟩ :=
  open_joinBranches ⟨(h.condOpen.lt.trans h.len_cond).trans h.len_then, h.thenOpen.lt.trans h.len_then, h.elseOpen.lt⟩

theorem block_other (branch : Terminator) {x : BlockId} (hx : x < r.blocks.length)
    (hne : x ≠ condEnd ∧ x ≠ thenExit ∧ x ≠ elseExit) :
    (r.joinBranches condEnd thenExit elseExit branch).blocks[x]? = r.blocks[x]? ∧
      (r.joinBranches condEnd thenExit elseExit branch).curBlock ≠ some x :=
  ⟨block_joinBranches_of_ne hx hne, fun e => hx.ne' (Option.some.inj (h.opened.cur.symm.trans e))⟩

theorem grows : Grows b (r.joinBranches condEnd thenExit elseExit branch) := by
  have hpr : p.blocks.length < r.blocks.length := h.len_cond.trans h.len_then
  have hlen : b.blocks.length ≤ r.blocks.length := h.cond.len.trans hpr.le
  obtain ⟨hsame, hlocals, hdefs⟩ := same_joinBranches r condEnd thenExit elseExit branch
  refine ⟨?_, fun x hx hcur => ?_, fun c block hc hblock => ?_, fun x hx => ?_, ⟨_, _, h.opened⟩, ?_, ?_⟩
  · rw [hsame]
    exact hlen.trans (Nat.le_succ _)
  · have hxp : x < p.blocks.length := hx.trans_le h.cond.len
    have hne : x ≠ condEnd := by
      rintro rfl
      rcases h.cond.cursor x h.condOpen.cur with e | hle
      · exact hcur e
      · exact absurd hx (Nat.not_lt.2 hle)
    rw [(h.block_other branch (hxp.trans hpr) ⟨hne, h.before_then_else hxp⟩).1, h.block_cond hxp, h.cond.old x hx hcur]
  · obtain ⟨block', hblock', hstmts⟩ := h.cond.current c block hc hblock
    by_cases hcc : c = condEnd
    · subst hcc
      obtain rfl : condBlock = block' := Option.some.inj (h.condOpen.get.symm.trans hblock')
      exact ⟨_, h.sealed_cond, hstmts⟩
    · have hcp : c < p.blocks.length := (List.getElem?_eq_some_iff.1 hblock').1
      refine ⟨block', ?_, hstmts⟩
      rw [(h.block_other branch (hcp.trans hpr) ⟨hcc, h.before_then_else hcp⟩).1, h.block_cond hcp, hblock']
  · obtain rfl : r.blocks.length = x := Option.some.inj (h.opened.cur.symm.trans hx)
    exact .inr hlen
  · rw [hlocals]
    exact h.cond.locals.trans (h.thenPart.locals.trans h.elsePart.locals)
  · rw [hdefs]
    exact h.elsePart.defs.trans (h.thenPart.defs.trans h.cond.defs)

/-! The code of the three parts is in the finished blocks. -/

variable (hcode : HasCode blocks (r.joinBranches condEnd thenExit elseExit branch) b.Owns)
include hcode

theorem hasCode_cond : HasCode blocks p b.Owns := by
  refine hcode.of_sealed h.condOpen (fun _ => id) h.sealed_cond fun i _ hi hne => ?_
  obtain ⟨hsame, hcur⟩ :=
    h.block_other branch (hi.trans (h.len_cond.trans h.len_then)) ⟨hne, h.before_then_else hi⟩
  exact ⟨hsame.trans (h.block_cond hi), hcur⟩

theorem hasCode_then : HasCode blocks q p.startBlock.Owns := by
  refine hcode.of_sealed h.thenOpen (fun i hi => .inr (h.cond.len.trans (owns_startBlock hi))) h.sealed_then
    fun i howns hi hne => ?_
  have hcond : condEnd < i := h.condOpen.lt.trans_le (owns_startBlock howns)
  have helse : i < elseExit := hi.trans_le h.before_else
  obtain ⟨hsame, hcur⟩ := h.block_other branch (hi.trans h.len_then) ⟨hcond.ne', hne, helse.ne⟩
  exact ⟨hsame.trans (h.block_then hi), hcur⟩

theorem hasCode_else : HasCode blocks r q.startBlock.Owns := by
  refine hcode.of_sealed h.elseOpen
    (fun i hi => .inr (h.cond.len.trans (h.len_cond.le.trans (owns_startBlock hi)))) h.sealed_else
    fun i howns hi hne => ?_
  have hthen : thenExit < i := h.thenOpen.lt.trans_le (owns_startBlock howns)
  have hcond : condEnd < i := (h.condOpen.lt.trans h.len_cond).trans_le (owns_startBlock howns)
  exact h.block_other branch hi ⟨hcond.ne', hthen.ne', hne⟩

theorem finals : blocks[condEnd]? = some { condBlock with terminator := branch } ∧
    blocks[thenExit]? = some { thenBlock with terminator := .goto r.blocks.length } ∧
    blocks[elseExit]? = some { elseBlock with terminator := .goto r.blocks.length } := by
  have hcur (x : BlockId) (hx : x < r.blocks.length) :
      (r.joinBranches condEnd thenExit elseExit branch).curBlock ≠ some x := fun e =>
    hx.ne' (Option.some.inj (h.opened.cur.symm.trans e))
  have hthen : b.blocks.length ≤ thenExit := h.cond.len.trans h.before_then
  have helse : b.blocks.length ≤ elseExit := h.cond.len.trans (h.len_cond.le.trans h.before_else)
  obtain ⟨final₁, hfinal₁, -, hsame₁⟩ := hcode condEnd (h.cond.owns h.condOpen.owns) _ h.sealed_cond
  obtain ⟨final₂, hfinal₂, -, hsame₂⟩ := hcode thenExit (.inr hthen) _ h.sealed_then
  obtain ⟨final₃, hfinal₃, -, hsame₃⟩ := hcode elseExit (.inr helse) _ h.sealed_else
  rw [hsame₁ (hcur _ (h.condOpen.lt.trans (h.len_cond.trans h.len_then)))] at hfinal₁
  rw [hsame₂ (hcur _ (h.thenOpen.lt.trans h.len_then))] at hfinal₂
  rw [hsame₃ (hcur _ h.elseOpen.lt)] at hfinal₃
  exact ⟨hfinal₁, hfinal₂, hfinal₃⟩

end Branches

theorem lowerIfExpr_eq (ctx : LowerCtx) (cond thenBranch elseBranch : Sub) (span : Span) :
    lowerIfExpr ctx cond thenBranch elseBranch span = (do
      let result ← declareLocal "_tern" (ctx.synthExprTy thenBranch.expr) span false
      let condOp ← cond.lower
      let condEnd ← currentBlockId
      let thenBlock ← startNewBlock
      assignInto result thenBranch.lower span
      let thenExit ← currentBlockId
      let elseBlock ← startNewBlock
      assignInto result elseBranch.lower span
      let elseExit ← currentBlockId
      let joinBlock ← startNewBlock
      setCurBlock thenExit
      gotoIfOpen joinBlock
      setCurBlock elseExit
      gotoIfOpen joinBlock
      setCurBlock condEnd
      terminate (switchTrue condOp thenBlock elseBlock)
      setCurBlock joinBlock
      return .copy (.ofLocal result)) := by
  simp only [lowerIfExpr, lowerCondition, assignInto, bind_assoc, pure_bind]

/-- One of two branches runs. -/
def chooseCall (x y : Traced History Stop τ Value) : Value → Traced History Stop τ Value
  | .bool t => if t then x else y
  | _ => Outcome.undefined.run

theorem computesCall_ifExpr {ctx : LowerCtx} {cond thenBranch elseBranch : Sub} {span : Span}
    {x y z : Traced History Stop τ Value} (hx : ComputesCall functions ids val cond.lower x)
    (hy : ComputesCall functions ids val thenBranch.lower y) (hz : ComputesCall functions ids val elseBranch.lower z) :
    ComputesCall functions ids val (lowerIfExpr ctx cond thenBranch elseBranch span) (x >>= chooseCall y z) := by
  intro b c block hopen hn
  rw [lowerIfExpr_eq]
  generalize ctx.synthExprTy thenBranch.expr = ty
  have hg₁ := grows_addLocal hopen "_tern" ty span false
  have hopen₁ := open_addLocal hopen "_tern" ty span false
  have hl : b.locals.length < (b.addLocal "_tern" ty span false).locals.length := by simp [BodyBuilder.addLocal]
  -- the condition, and a block for each branch
  obtain ⟨op, p, hmp, hgp, hbelow, hrunp⟩ := hx _ c block hopen₁ (hn.grows hg₁)
  obtain ⟨c₂, block₂, hopenp⟩ := hgp.opened
  have hgp' : Grows b p.startBlock := hg₁.trans (hgp.trans (grows_startBlock hopenp))
  obtain ⟨q, hmq, hgq, hrunq⟩ := computesCall_assignInto hy span (open_startBlock p) (hn.grows hgp')
    ((hgp.trans (grows_startBlock hopenp)).lt_locals hl)
  obtain ⟨c₄, block₄, hopenq⟩ := hgq.opened
  have hgq' : Grows b q.startBlock := hgp'.trans (hgq.trans (grows_startBlock hopenq))
  have hlq : b.locals.length < q.startBlock.locals.length :=
    (hgp.trans ((grows_startBlock hopenp).trans (hgq.trans (grows_startBlock hopenq)))).lt_locals hl
  obtain ⟨r, hmr, hgr, hrunr⟩ := computesCall_assignInto hz span (open_startBlock q) (hn.grows hgq') hlq
  obtain ⟨c₆, block₆, hopenr⟩ := hgr.opened
  have hparts : Branches b p q r c₂ c₄ c₆ block₂ block₄ block₆ := ⟨hg₁.trans hgp, hopenp, hgq, hopenq, hgr, hopenr⟩
  refine ⟨.copy (.ofLocal b.locals.length),
    r.joinBranches c₂ c₄ c₆ (switchTrue op p.blocks.length q.blocks.length), ?_, hparts.grows, ?_, fun blocks hcode => ?_⟩
  · refine Control.bind_eq_ok.2 ⟨b.locals.length, _, declareLocal_eq _ _ _ _ _, ?_⟩
    refine Control.bind_eq_ok.2 ⟨op, p, hmp, ?_⟩
    refine Control.bind_eq_ok.2 ⟨c₂, p, currentBlockId_ok.2 ⟨hopenp.cur, rfl⟩, ?_⟩
    refine Control.bind_eq_ok.2 ⟨_, _, startNewBlock_ok.2 ⟨rfl, rfl⟩, ?_⟩
    refine Control.bind_eq_ok.2 ⟨(), q, hmq, ?_⟩
    refine Control.bind_eq_ok.2 ⟨c₄, q, currentBlockId_ok.2 ⟨hopenq.cur, rfl⟩, ?_⟩
    refine Control.bind_eq_ok.2 ⟨_, _, startNewBlock_ok.2 ⟨rfl, rfl⟩, ?_⟩
    refine Control.bind_eq_ok.2 ⟨(), r, hmr, ?_⟩
    refine Control.bind_eq_ok.2 ⟨c₆, r, currentBlockId_ok.2 ⟨hopenr.cur, rfl⟩, ?_⟩
    refine Control.bind_eq_ok.2 ⟨_, _, startNewBlock_ok.2 ⟨rfl, rfl⟩, ?_⟩
    refine Control.bind_eq_ok.2 ⟨(), _, setCurBlock_ok.2 rfl, ?_⟩
    refine Control.bind_eq_ok.2 ⟨(), _, gotoIfOpen_ok.2 rfl, ?_⟩
    refine Control.bind_eq_ok.2 ⟨(), _, setCurBlock_ok.2 rfl, ?_⟩
    refine Control.bind_eq_ok.2 ⟨(), _, gotoIfOpen_ok.2 rfl, ?_⟩
    refine Control.bind_eq_ok.2 ⟨(), _, setCurBlock_ok.2 rfl, ?_⟩
    refine Control.bind_eq_ok.2 ⟨(), _, terminate_ok.2 rfl, ?_⟩
    exact Control.bind_eq_ok.2 ⟨(), _, setCurBlock_ok.2 rfl, rfl⟩
  · rw [(same_joinBranches _ _ _ _ _).2.1]
    exact hgr.lt_locals hlq
  · obtain ⟨hfinal₂, hfinal₄, hfinal₆⟩ := hparts.finals hcode
    obtain ⟨hleads₂, hdelivers₂⟩ := hrunp blocks ((hparts.hasCode_cond hcode).mono fun i => hg₁.owns)
    obtain ⟨hleads₄, hdelivers₄⟩ := hrunq blocks (hparts.hasCode_then hcode)
    obtain ⟨hleads₆, hdelivers₆⟩ := hrunr blocks (hparts.hasCode_else hcode)
    refine ⟨?_, fun f hf h => ?_⟩
    · rw [cursor_eq hopenp] at hleads₂
      rw [cursor_eq hopenq, cursor_eq (open_startBlock p)] at hleads₄
      rw [cursor_eq hopenr, cursor_eq (open_startBlock q)] at hleads₆
      rw [cursor_eq hparts.opened]
      have hgoto {i : BlockId} {block' : BasicBlock}
          (hi : blocks[i]? = some { block' with terminator := .goto r.blocks.length }) : Leads blocks r.blocks.length i := by
        refine .step hi (by simp [Terminator.successors]) fun x hx => ?_
        rw [List.mem_singleton.1 hx]
        exact .here
      refine Leads.trans (.step hfinal₂ (by simp [Terminator.successors, switchTrue]) fun i hi => ?_) hleads₂
      rcases List.mem_cons.1 hi with rfl | hi
      · exact (hgoto hfinal₄).trans hleads₄
      · rw [List.mem_singleton.1 hi]
        exact (hgoto hfinal₆).trans hleads₆
    · have hcond := hdelivers₂ f (hf.grows hn hg₁ fun _ _ => rfl) h
      rw [Traced.bind_apply]
      rcases hxh : x h with ⟨stop | v, h₂, sites⟩
      all_goals rw [hxh] at hcond
      · exact hcond
      obtain ⟨f₂, hruns₂, hv, hf₂⟩ := hcond
      have hop : f₂.operand op = some v := hv
      have hf₂' (l : LocalId) (hlt : l < b.locals.length) : f₂ l = f l := hf₂ l (hlt.trans hl)
      cases v with
      | int n => exact (halts_of_switch hopenp hfinal₂ rfl rfl hop fun t e => by cases e).of_runs hruns₂
      | str s => exact (halts_of_switch hopenp hfinal₂ rfl rfl hop fun t e => by cases e).of_runs hruns₂
      | bool t =>
        have hruns₃ := hruns₂.trans (runs_switch hopenp hfinal₂ rfl rfl hop)
        have hpoint (f' : Frame) : (r.joinBranches c₂ c₄ c₆ (switchTrue op p.blocks.length q.blocks.length)).point f' =
            ⟨r.blocks.length, 0, f'⟩ := hparts.opened.point_eq f'
        cases t with
        | true =>
          have hstart : p.startBlock.point f₂ = ⟨p.blocks.length, 0, f₂⟩ := (open_startBlock p).point_eq f₂
          refine (hdelivers₄ f₂ (hf.grows hn hgp' hf₂') h₂).join ?_ hf₂' hopenq hfinal₄ hpoint _
          rw [hstart]
          exact hruns₃
        | false =>
          have hstart : q.startBlock.point f₂ = ⟨q.blocks.length, 0, f₂⟩ := (open_startBlock q).point_eq f₂
          refine (hdelivers₆ f₂ (hf.grows hn hgq' hf₂') h₂).join ?_ hf₂' hopenr hfinal₆ hpoint _
          rw [hstart]
          exact hruns₃

end Cobrust.Mir
