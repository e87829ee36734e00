import Cobrust.Mir.LowerStmtExtent

/-!
# Where control goes in a match

The scrutinee of a match is evaluated in the block under the cursor. The jump into the first arm is
written to another block, so the block of the scrutinee keeps the terminator it had, and neither an arm
nor the merge block is entered from it.
-/

namespace Cobrust.Mir

open Control BodyBuilder

/-- The blocks of a lowered match: where the scrutinee has been evaluated, where the body of each arm
starts, and where control goes on behind the match. -/
structure MatchBlocks where
  scrutinee : BlockId
  bodies : List BlockId
  merge : BlockId

/-- Where a match sends control. Arm `i` is selected by `outcomes[i]`: its pattern matches the value
and its guard holds. -/
def MatchBlocks.target (blocks : MatchBlocks) (outcomes : List Bool) : BlockId :=
  match outcomes.findIdx? id with
  | some i => blocks.bodies.getD i blocks.merge
  | none => blocks.merge

/-- From the block of the scrutinee control gets to the body of the first arm that is selected, or to
the merge block where no arm is. -/
def SelectsFirstArm (term : Nat → Option Terminator) (blocks : MatchBlocks) (outcomes : List Bool) :
    Prop :=
  Path term blocks.scrutinee (blocks.target outcomes)

section

variable (ctx : LowerCtx)

/-- `lowerMatchArms`, with the blocks in which the bodies start. -/
def matchBodies (scrut : LocalId) (merge : BlockId) :
    List SubMatchArm → BlockId → LowerM (List BlockId)
  | [], _ => return []
  | arm :: rest, armEval => do
    let nextArm ← lowerMatchTest ctx scrut merge arm rest.isEmpty armEval
    let body ← currentBlockId
    arm.body
    gotoIfOpen merge
    let bodies ← matchBodies scrut merge rest (nextArm.getD armEval)
    return body :: bodies

/-- `lowerMatch`, with its blocks. -/
def matchBlocks (scrutinee : Sub) (arms : List SubMatchArm) (span : Span) : LowerM MatchBlocks := do
  let scrutLocal ← lowerScrutinee scrutinee span
  let scrutBlock ← currentBlockId
  let merge ← startNewBlock
  let armEval ← startNewBlock
  let preEval ← currentBlockId
  setCurBlock (preEval - 1)
  terminate (.goto armEval)
  let bodies ← matchBodies ctx scrutLocal merge arms armEval
  setCurBlock merge
  return ⟨scrutBlock, bodies, merge⟩

/-- The test of an arm leaves the cursor on the block of its body. -/
theorem lowerMatchTest_curBlock {scrut : LocalId} {merge : BlockId} {arm : SubMatchArm} {isLast : Bool}
    {armEval : BlockId} {nextArm : Option BlockId} {b b' : BodyBuilder}
    (h : lowerMatchTest ctx scrut merge arm isLast armEval b = .ok (nextArm, b')) :
    ∃ body, b'.curBlock = some body := by
  unfold lowerMatchTest at h
  simp only [bind_eq_ok, setCurBlock_ok, startNewBlock_ok, terminate_ok, pure_eq_ok] at h
  obtain ⟨_, _, rfl, _, b₁, -, _, _, ⟨rfl, rfl⟩, _, b₂, -, _, _, rfl, _, _, rfl, _, _, rfl, _, b₃, hguard,
    rfl, rfl⟩ := h
  cases hg : arm.guard with
  | none =>
    rw [hg] at hguard
    obtain ⟨-, rfl⟩ := pure_eq_ok.1 hguard
    exact ⟨_, rfl⟩
  | some g =>
    rw [hg] at hguard
    unfold lowerGuard at hguard
    simp only [bind_eq_ok, setCurBlock_ok, startNewBlock_ok, terminate_ok] at hguard
    obtain ⟨_, _, -, _, _, ⟨rfl, rfl⟩, _, _, rfl, _, _, rfl, rfl⟩ := hguard
    exact ⟨_, rfl⟩

theorem exists_matchBodies {scrut : LocalId} {merge : BlockId} {arms : List SubMatchArm}
    {armEval : BlockId} {b b' : BodyBuilder} {u : Unit}
    (h : lowerMatchArms ctx scrut merge arms armEval b = .ok (u, b')) :
    ∃ bodies, matchBodies ctx scrut merge arms armEval b = .ok (bodies, b') := by
  induction arms generalizing armEval b with
  | nil =>
    obtain ⟨-, rfl⟩ := pure_eq_ok.1 h
    exact ⟨[], rfl⟩
  | cons arm rest ih =>
    unfold lowerMatchArms lowerMatchArm at h
    simp only [bind_eq_ok, pure_eq_ok] at h
    obtain ⟨next, b₁, ⟨nextArm, b₂, htest, _, b₃, hbody, _, b₄, hgoto, rfl, rfl⟩, hrest⟩ := h
    obtain ⟨body, hcur⟩ := lowerMatchTest_curBlock ctx htest
    obtain ⟨bodies, hbodies⟩ := ih hrest
    refine ⟨body :: bodies, ?_⟩
    unfold matchBodies
    simp only [bind_eq_ok, currentBlockId_ok, pure_eq_ok]
    exact ⟨nextArm, b₂, htest, body, b₂, ⟨hcur, rfl⟩, _, b₃, hbody, _, b₄, hgoto, bodies, b', hbodies,
      rfl, rfl⟩

/-- The bodies start in blocks that the match has opened. -/
theorem le_of_mem_matchBodies {b₀ : BodyBuilder} (hr : b₀.InRange) {scrut : LocalId} {merge : Nat}
    {arms : List SubMatchArm}
    (harms : ∀ a ∈ arms, (∀ g, a.guard = some g → StraightM [] g.lower) ∧ ExtendsM a.body)
    {armEval : Nat} {b b' : BodyBuilder} {bodies : List BlockId} (hb : Extends b₀ b)
    (hown : b₀.Owns armEval) (hlt : armEval < b.blocks.length) (hmerge : merge < b.blocks.length)
    (h : matchBodies ctx scrut merge arms armEval b = .ok (bodies, b')) :
    ∀ y ∈ bodies, b₀.Owns y := by
  induction arms generalizing armEval b bodies with
  | nil =>
    obtain ⟨rfl, -⟩ := pure_eq_ok.1 h
    simp
  | cons arm rest ih =>
    unfold matchBodies at h
    simp only [bind_eq_ok, currentBlockId_ok, pure_eq_ok] at h
    obtain ⟨nextArm, b₁, htest, body, _, ⟨hcur, rfl⟩, _, b₂, hbody, _, b₃, hgoto, rests, _, hrest, rfl,
      rfl⟩ := h
    obtain ⟨hguard, hext⟩ := harms arm (by simp)
    obtain ⟨h₁, -, -⟩ := extends_lowerMatchTest ctx hr scrut hguard hb hown hlt hmerge htest
    have harm : lowerMatchArm ctx scrut merge arm rest.isEmpty armEval b =
        .ok (nextArm.getD armEval, b₃) := by
      unfold lowerMatchArm
      simp only [bind_eq_ok, pure_eq_ok]
      exact ⟨nextArm, b₁, htest, _, b₂, hbody, _, b₃, hgoto, rfl, rfl⟩
    obtain ⟨h₃, hown₃, hlt₃, hmerge₃⟩ :=
      extends_lowerMatchArm ctx hr scrut hguard hext _ hb hown hlt hmerge harm
    refine List.forall_mem_cons.2 ⟨h₁.cursor body hcur, ?_⟩
    exact ih (fun a ha => harms a (by simp [ha])) h₃ hown₃ hlt₃ hmerge₃ hrest

theorem lowerScrutinee_curBlock {scrutinee : Sub} {span : Span} {scrut : LocalId} {b b' : BodyBuilder}
    (h : lowerScrutinee scrutinee span b = .ok (scrut, b')) : ∃ c, b'.curBlock = some c := by
  unfold lowerScrutinee emitAssign at h
  simp only [bind_eq_ok, emitStmt_ok, pure_eq_ok] at h
  obtain ⟨_, _, -, _, _, -, _, _, -, _, _, ⟨c, hc, rfl⟩, -, rfl⟩ := h
  exact ⟨c, hc⟩

theorem matchBlocks_ok {scrutinee : Sub} {arms : List SubMatchArm} {span : Span} {b b₁ b₂ : BodyBuilder}
    {scrut : LocalId} {c : BlockId} {bodies : List BlockId}
    (hrun : lowerScrutinee scrutinee span b = .ok (scrut, b₁)) (hc : b₁.curBlock = some c)
    (h : matchBodies ctx scrut b₁.blocks.length arms (b₁.blocks.length + 1) b₁.openMatch =
      .ok (bodies, b₂)) :
    matchBlocks ctx scrutinee arms span b =
      .ok (⟨c, bodies, b₁.blocks.length⟩, b₂.moveTo b₁.blocks.length) := by
  have hpre : b₁.startBlock.blocks.length - 1 = b₁.blocks.length := by
    rw [length_startBlock, Nat.add_sub_cancel]
  unfold matchBlocks
  simp only [bind_eq_ok, currentBlockId_ok, setCurBlock_ok, startNewBlock_ok, terminate_ok, pure_eq_ok]
  refine ⟨scrut, b₁, hrun, c, b₁, ⟨hc, rfl⟩, _, _, ⟨rfl, rfl⟩, _, _, ⟨rfl, rfl⟩, _, _, ⟨rfl, rfl⟩, (), _,
    rfl, (), _, rfl, bodies, b₂, ?_, (), _, rfl, rfl, rfl⟩
  rw [hpre, length_startBlock]
  exact h

/-- Where the first `n` blocks branch among themselves, a path from one of them stays there. -/
theorem lt_of_path {b b' : BodyBuilder} {n : Nat}
    (hterm : ∀ x < n, b'.term x = b.term x) (hn : ∀ x < n, ∀ y ∈ targets b.term x, y < n) {x y : Nat}
    (hx : x < n) (h : Path b'.term x y) : y < n := by
  induction h with
  | refl => exact hx
  | @tail y z _ hstep ih =>
    unfold targets at hstep
    rw [hterm y ih] at hstep
    exact hn y ih z hstep

/-- A match never sends control to the arm that it selects. Its blocks are those of the run; the code
behind the match, which goes on in the merge block, does not change this. -/
theorem lowerMatch_selects_no_arm (scrutinee : Hir.Expr) (arms : List Hir.MatchArm) (span : Span)
    {b b' : BodyBuilder} (hr : b.InRange)
    (h : lowerStmt ctx (.mk (.«match» scrutinee arms) span) b = .ok ((), b')) :
    ∃ blocks,
      matchBlocks ctx (subOf ctx scrutinee) (lowerMatchBodies ctx arms) span b = .ok (blocks, b') ∧
      ∀ b'', Extends b' b'' → ∀ outcomes, ¬ SelectsFirstArm b''.term blocks outcomes := by
  obtain ⟨scrut, b₁, _, b₂, hrun, harms, rfl⟩ := (lowerMatch_ok ctx).1 h
  have hs := (straight_lowerScrutinee (straight_lowerExpr ctx scrutinee) span).run hrun hr
  have hr₁ := hs.inRange hr
  obtain ⟨c, hc⟩ := lowerScrutinee_curBlock hrun
  obtain ⟨bodies, hbodies⟩ := exists_matchBodies ctx harms
  have hbodyArms := extends_lowerMatchBodies ctx arms
  have hext := extends_openMatch_arms ctx hbodyArms hr₁ harms
  refine ⟨_, matchBlocks_ok ctx hrun hc hbodies, fun b'' hlater outcomes hpath => ?_⟩
  -- every block of the match lies behind those that existed when the scrutinee was evaluated
  have hown := le_of_mem_matchBodies ctx ((Extends.startBlock b₁).inRange hr₁) hbodyArms
    (extends_openMatch b₁) (.inr (by rw [length_startBlock])) (by rw [length_openMatch]; omega)
    (by rw [length_openMatch]; omega) hbodies
  have hge (y : Nat) (hy : b₁.startBlock.Owns y) : b₁.blocks.length ≤ y := by
    rw [owns_iff (curBlock_startBlock b₁), length_startBlock] at hy
    omega
  have htarget : b₁.blocks.length ≤
      (MatchBlocks.target ⟨c, bodies, b₁.blocks.length⟩ outcomes : Nat) := by
    unfold MatchBlocks.target
    split
    · next i _ =>
      rw [List.getD_eq_getElem?_getD]
      cases hi : bodies[i]? with
      | none => exact Nat.le_refl _
      | some y => exact hge y (hown y (List.mem_of_getElem? hi))
    · exact Nat.le_refl _
  have hterm (x : Nat) (hx : x < b₁.blocks.length) : b''.term x = b₁.term x := by
    have hlt₁ : x < b₁.startBlock.blocks.length := by
      rw [length_startBlock]
      omega
    rw [hlater.term_eq (Nat.lt_of_lt_of_le hlt₁ hext.len) (by rw [curBlock_moveTo]; simp; omega),
      hext.term_eq hlt₁ (by rw [curBlock_startBlock]; simp; omega), term_startBlock_of_lt hx]
  have hlt := lt_of_path hterm (fun x _ y hy => hr₁.targets x y hy) (hr₁.cursor c hc) hpath
  exact Nat.not_lt_of_le htarget hlt

end

theorem inRange_new (id : DefId) (name : String) (span : Span) : (BodyBuilder.new id name span).InRange where
  cursor x hx := by
    obtain rfl : 0 = x := Option.some.inj hx
    exact Nat.zero_lt_one
  targets x y hy := by
    cases x with
    | zero => cases hy
    | succ x => cases hy
  loops l hl := by cases hl

/-- The one arm of `match 1: case _: pass`. -/
def wildcardArm : Hir.MatchArm :=
  .mk (.mk .wildcard .synthetic) [] none (.mk [.mk .pass .synthetic] .synthetic) .synthetic

/-- `match 1: case _: pass`. -/
def wildcardMatch : Hir.Stmt :=
  .mk (.«match» (.mk (.lit (.int "1")) .synthetic) [wildcardArm]) .synthetic

/-- Block 0 evaluates the scrutinee, block 3 is the body of the arm. -/
theorem wildcardMatch_stuck :
    ∃ b, lowerStmt .plain wildcardMatch (.new 0 "f" .synthetic) = .ok ((), b) ∧
      matchBlocks .plain (subOf .plain (.mk (.lit (.int "1")) .synthetic))
        (lowerMatchBodies .plain [wildcardArm]) .synthetic (.new 0 "f" .synthetic) =
          .ok (⟨0, [3], 1⟩, b) ∧
      ¬ SelectsFirstArm b.term ⟨0, [3], 1⟩ [true] := by
  refine ⟨_, rfl, rfl, fun h => ?_⟩
  rcases Relation.ReflTransGen.cases_head h with heq | ⟨y, hstep, -⟩
  · exact absurd heq (by decide)
  · have hnone : y ∈ ([] : List Nat) := hstep
    cases hnone

theorem wildcardMatch_selects_no_arm :
    ∃ b blocks, matchBlocks .plain (subOf .plain (.mk (.lit (.int "1")) .synthetic))
        (lowerMatchBodies .plain [wildcardArm]) .synthetic (.new 0 "f" .synthetic) = .ok (blocks, b) ∧
      ∀ b'', Extends b b'' → ∀ outcomes, ¬ SelectsFirstArm b''.term blocks outcomes :=
  ⟨_, lowerMatch_selects_no_arm .plain _ _ _ (inRange_new 0 "f" .synthetic) rfl⟩

end Cobrust.Mir
