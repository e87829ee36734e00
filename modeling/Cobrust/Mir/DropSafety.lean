import Cobrust.Mir.DropVerify
import Mathlib.Tactic.IntervalCases

/-!
# Obligation B4: drop after last use

The drop chain of a return block runs before the statements of that block. So a scheduled body reads
a dropped local, and the second borrow check rejects it, when a return block other than the entry
reads a local of the schedule; otherwise neither happens (`computeDropSchedule_dropAfterUse_iff`).
-/

namespace Cobrust.Mir

open Dataflow
open Control (except_bind_ok)

/-- No point reads, through a `Copy` or `Move` operand, a local dropped before. -/
def NoReadAfterDrop (points : List Point) : Prop :=
  ∀ past p future, points = past ++ p :: future →
    ∀ l ∈ p.operandReads, l ∉ past.flatMap Point.drops

theorem noReadAfterDrop_of_no_drops {points : List Point} (h : ∀ p ∈ points, p.drops = []) :
    NoReadAfterDrop points := by
  rintro past p future rfl l - hl
  obtain ⟨q, hq, hl⟩ := List.mem_flatMap.1 hl
  rw [h q (List.mem_append_left _ hq)] at hl
  cases hl

theorem noReadAfterDrop_of_no_reads {points : List Point} (h : ∀ p ∈ points, p.operandReads = []) :
    NoReadAfterDrop points := by
  rintro past p future rfl l hl
  rw [h p (by simp)] at hl
  cases hl

theorem noReadAfterDrop_append {xs ys : List Point} : NoReadAfterDrop (xs ++ ys) ↔
    NoReadAfterDrop xs ∧ NoReadAfterDrop ys ∧
      ∀ p ∈ ys, ∀ l ∈ p.operandReads, l ∉ xs.flatMap Point.drops := by
  constructor
  · intro h
    refine ⟨?_, ?_, ?_⟩
    · rintro past p future rfl l hl
      exact h past p (future ++ ys) (by simp) l hl
    · rintro past p future rfl l hl hmem
      refine h (xs ++ past) p future (by simp) l hl ?_
      rw [List.flatMap_append]
      exact List.mem_append_right _ hmem
    · intro p hp l hl hmem
      obtain ⟨past, future, rfl⟩ := List.append_of_mem hp
      refine h (xs ++ past) p future (by simp) l hl ?_
      rw [List.flatMap_append]
      exact List.mem_append_left _ hmem
  · rintro ⟨hxs, hys, hcross⟩ past p future hsplit l hl
    rcases List.append_eq_append_iff.1 hsplit with ⟨mid, rfl, hright⟩ | ⟨mid, rfl, hright⟩
    · rw [List.flatMap_append, List.mem_append, not_or]
      have hp : p ∈ ys := by simp [hright]
      exact ⟨hcross p hp l hl, hys mid p future hright l hl⟩
    · cases mid with
      | nil =>
        rw [List.append_nil] at hcross
        have hp : p ∈ ys := by
          rw [List.nil_append] at hright
          simp [← hright]
        exact hcross p hp l hl
      | cons q mid =>
        rw [List.cons_append, List.cons.injEq] at hright
        obtain ⟨rfl, -⟩ := hright
        exact hxs past p mid rfl l hl

theorem Body.points_append (body : Body) (p q : List BlockId) :
    body.points (p ++ q) = body.points p ++ body.points q := by
  simp [points]

theorem Body.points_singleton {body : Body} {b : BlockId} {block : BasicBlock}
    (hb : body.blocks[b]? = some block) : body.points [b] = block.points := by
  simp [points, hb]

/-- Enlarge the dropped set. -/
def BlockState.withDropped (s : BlockState) (X : Finset LocalId) : BlockState :=
  { s with dropped := s.dropped ∪ X }

theorem BlockState.Clear.withDropped {s : BlockState} {ls : List LocalId} {X : Finset LocalId}
    (h : s.Clear ls) (hX : ∀ l ∈ ls, l ∉ X) : (s.withDropped X).Clear ls := by
  intro l hl
  obtain ⟨hm, hd⟩ := h l hl
  refine ⟨hm, fun hmem => ?_⟩
  rcases Finset.mem_union.1 hmem with hmem | hmem
  · exact hd hmem
  · exact hX l hl hmem

theorem checkStatement_withDropped {stmt : Statement} {s r : BlockState} {X : Finset LocalId}
    (h : checkStatement stmt s = .ok r) (hX : ∀ l ∈ (Point.stmt stmt).checkedReads, l ∉ X) :
    checkStatement stmt (s.withDropped X) = .ok (r.withDropped X) := by
  obtain ⟨kind, span⟩ := stmt
  cases kind with
  | assign place rvalue =>
    obtain ⟨hclear, hborrow, rfl⟩ := checkAssign_ok.1 h
    exact checkAssign_ok.2 ⟨hclear.withDropped hX, hborrow, rfl⟩
  | _ =>
    cases h
    rfl

theorem checkStatements_withDropped :
    ∀ (stmts : List Statement) {s r : BlockState} {X : Finset LocalId},
      checkStatements stmts s = .ok r →
      (∀ p ∈ stmts.map Point.stmt, ∀ l ∈ p.checkedReads, l ∉ X) →
      checkStatements stmts (s.withDropped X) = .ok (r.withDropped X) := by
  intro stmts
  induction stmts with
  | nil =>
    intro s r X h _
    cases h
    rfl
  | cons stmt stmts ih =>
    intro s r X h hX
    obtain ⟨s₁, h₁, h₂⟩ := except_bind_ok.1 h
    have hstep := checkStatement_withDropped h₁ (hX _ List.mem_cons_self)
    exact except_bind_ok.2 ⟨_, hstep, ih h₂ fun p hp => hX p (List.mem_cons_of_mem _ hp)⟩

theorem checkBlock_withDropped {block : BasicBlock} {moved dropped X : Finset LocalId}
    {r : Facts} (h : checkBlock block (moved, dropped) = .ok r)
    (hX : ∀ p ∈ block.points, ∀ l ∈ p.checkedReads, l ∉ X) :
    ∃ r', checkBlock block (moved, dropped ∪ X) = .ok r' := by
  obtain ⟨s₁, h₁, h⟩ := except_bind_ok.1 h
  obtain ⟨s₂, h₂, -⟩ := except_bind_ok.1 h
  have hstmts := checkStatements_withDropped _ h₁ fun p hp => hX p (List.mem_append_left _ hp)
  obtain ⟨hclear, hargs, -⟩ := checkTerminator_ok.1 h₂
  have hterm := checkTerminator_ok.2 ⟨hclear.withDropped (X := X) fun l hl =>
    hX (.term block.terminator) (by simp [BasicBlock.points]) l hl, hargs, rfl⟩
  exact ⟨_, except_bind_ok.2 ⟨_, hstmts, except_bind_ok.2 ⟨_, hterm, rfl⟩⟩⟩

/-- The checks do not look at the targets of a terminator. -/
theorem checkTerminator_retarget (σ : BlockId → BlockId) (t : Terminator) (s : BlockState) :
    checkTerminator (t.retarget σ) s = checkTerminator t s := by
  cases t <;> rfl

theorem checkPath_append (body : Body) (p q : List BlockId) {facts r : Facts}
    (hp : ∀ b ∈ p, b < body.blocks.length) : checkPath body (p ++ q) facts = .ok r ↔
      ∃ facts', checkPath body p facts = .ok facts' ∧ checkPath body q facts' = .ok r := by
  induction p generalizing facts with
  | nil => simp [checkPath]
  | cons b p ih =>
    have hb := List.getElem?_eq_getElem (hp b List.mem_cons_self)
    simp only [List.cons_append, checkPath, hb, except_bind_ok,
      ih fun c hc => hp c (List.mem_cons_of_mem _ hc)]
    constructor
    · rintro ⟨f₁, h₁, f₂, h₂, h₃⟩
      exact ⟨f₂, ⟨f₁, h₁, h₂⟩, h₃⟩
    · rintro ⟨f₂, ⟨f₁, h₁, h₂⟩, h₃⟩
      exact ⟨f₁, h₁, f₂, h₂, h₃⟩

namespace Scheduled

variable {body B : Body} {locals : List LocalId} {done : List BlockId}
  {chain : BlockId → List BlockId}

theorem points_return (h : Scheduled body locals done chain B) {R : BlockId}
    (hR : body.ReturnsAt R) : B.points [R] = body.points [R] := by
  obtain ⟨block, hblock, hret⟩ := hR
  rw [Body.points_singleton hblock, Body.points_singleton (h.original R block hblock)]
  simp [BasicBlock.points, hret, Terminator.retarget]

theorem reads_chain (h : Scheduled body locals done chain B) {R : BlockId} {pre suf : List BlockId}
    (hc : chain R = pre ++ suf) : ∀ p ∈ B.points pre, p.operandReads = [] := by
  intro p hp
  obtain ⟨b, hb, hpoint⟩ := List.mem_flatMap.1 hp
  obtain ⟨pre₁, pre₂, rfl⟩ := List.append_of_mem hb
  rw [List.append_assoc, List.cons_append] at hc
  obtain ⟨l, -, span, hblock⟩ := h.chain_block hc
  rw [hblock] at hpoint
  obtain rfl := List.mem_singleton.1 hpoint
  rfl

theorem drops_originals (h : Scheduled body locals done chain B) (hfree : body.DropFree)
    {path : List BlockId} (hlt : ∀ b ∈ path, b < body.blocks.length) :
    ∀ p ∈ B.points path, p.drops = [] :=
  List.flatMap_eq_nil_iff.1 (h.dropsOn_originals hfree hlt)

theorem checkPath_originals (h : Scheduled body locals done chain B) :
    ∀ (path : List BlockId) (facts : Facts), (∀ b ∈ path, b < body.blocks.length) →
      checkPath B path facts = checkPath body path facts := by
  intro path
  induction path with
  | nil => exact fun _ _ => rfl
  | cons b path ih =>
    intro facts hlt
    have hblock := List.getElem?_eq_getElem (hlt b List.mem_cons_self)
    have hcheck : ∀ block : BasicBlock,
        checkBlock { block with terminator := block.terminator.retarget (enter chain) } facts =
          checkBlock block facts := by
      intro block
      unfold checkBlock
      simp only [checkTerminator_retarget]
    simp only [checkPath, hblock, h.original b _ hblock, hcheck,
      ih _ fun c hc => hlt c (List.mem_cons_of_mem _ hc)]

/-- A chain moves nothing and drops locals of the schedule. -/
theorem checkPath_chain (h : Scheduled body locals done chain B) {R : BlockId} :
    ∀ {pre suf : List BlockId} (mid : List BlockId) (moved dropped : Finset LocalId),
      chain R = pre ++ (mid ++ suf) → ∃ X ⊆ locals.toFinset,
        checkPath B mid (moved, dropped) = .ok (moved, dropped ∪ X) := by
  intro pre suf mid
  induction mid generalizing pre with
  | nil =>
    intro moved dropped _
    exact ⟨∅, Finset.empty_subset _, by rw [Finset.union_empty]; rfl⟩
  | cons b mid ih =>
    intro moved dropped hc
    obtain ⟨l, hl, span, hblock⟩ := h.chain_block (b := b) (by simpa using hc)
    have hc' : chain R = (pre ++ [b]) ++ (mid ++ suf) := by simp [hc]
    obtain ⟨X, hX, hcheck⟩ := ih moved (insert l dropped) hc'
    refine ⟨insert l X, Finset.insert_subset (List.mem_toFinset.2 hl) hX, ?_⟩
    have hstep : checkBlock (⟨b, [], .drop (.ofLocal l) ((mid ++ suf).headD R), span⟩ : BasicBlock)
        (moved, dropped) = .ok (moved, insert l dropped) := rfl
    simp only [checkPath, hblock]
    refine except_bind_ok.2 ⟨_, hstep, ?_⟩
    rw [hcheck, Finset.insert_union, Finset.union_insert]

end Scheduled

/-! ## The condition -/

/-- Block `R` reads a local that the schedule drops. -/
def Body.ReadsScheduledAt (body : Body) (R : BlockId) : Prop :=
  ∃ p ∈ body.points [R], ∃ l ∈ p.operandReads, l ∈ dropEligible body ∧ l ∉ globallyMoved body

/-- Some return block that an edge reaches reads a local that the schedule drops. -/
def Body.ReadsBeforeReturn (body : Body) : Prop :=
  ∃ R, R ≠ 0 ∧ body.Reachable R ∧ body.ReturnsAt R ∧ body.ReadsScheduledAt R

/-- The entry of a path with an edge is no return block. -/
theorem Body.IsPath.ne_zero_of_successor {body : Body} {path : List BlockId}
    (h : body.IsPath path) {last R : BlockId} (hlast : path.getLast? = some last)
    (hR : R ∈ body.successors last) (hret : body.ReturnsAt R) : R ≠ 0 := by
  rintro rfl
  obtain ⟨hhead, hchain, -⟩ := h
  cases path with
  | nil => cases hhead
  | cons e path =>
    obtain rfl : e = 0 := by simpa using hhead
    cases path with
    | nil =>
      obtain rfl : 0 = last := by simpa using hlast
      rw [hret.successors] at hR
      cases hR
    | cons c path =>
      have hedge := (List.isChain_cons_cons.1 hchain).1
      rw [hret.successors] at hedge
      cases hedge

section Schedule

variable {order : HashOrder} {body B : Body} {done : List BlockId} {chain : BlockId → List BlockId}

/-- Without such a block no path reads a dropped local. -/
theorem Scheduled.noReadAfterDrop (h : Scheduled body (toDrop order body) done chain B)
    (hrange : body.TargetsInRange) (hfree : body.DropFree)
    (hdone : ∀ R, R ∈ done ↔ body.ReturnsAt R) (hcond : ¬ body.ReadsBeforeReturn)
    {path : List BlockId} (hp : B.IsPath path) : NoReadAfterDrop (B.points path) := by
  obtain ⟨p, hpath, hshape⟩ := h.path_shapes hrange hdone hp
  have hnodrops := h.drops_originals hfree hpath.2.2
  have hnone : (B.points p).flatMap Point.drops = [] := List.flatMap_eq_nil_iff.2 hnodrops
  rcases hshape with ⟨rfl, -⟩ | ⟨last, R, pre, suf, hlast, hsucc, hR, hc, rfl | ⟨rfl, rfl⟩⟩
  · exact noReadAfterDrop_of_no_drops hnodrops
  · rw [Body.points_append, noReadAfterDrop_append, hnone]
    refine ⟨noReadAfterDrop_of_no_drops hnodrops, noReadAfterDrop_of_no_reads (h.reads_chain hc), ?_⟩
    simp
  · rw [Body.points_append, Body.points_append, noReadAfterDrop_append, noReadAfterDrop_append,
      hnone]
    have hRlt : ∀ b ∈ [R], b < body.blocks.length := by
      intro b hb
      rw [List.mem_singleton.1 hb]
      exact hR.lt
    refine ⟨noReadAfterDrop_of_no_drops hnodrops, ⟨noReadAfterDrop_of_no_reads (h.reads_chain hc),
      noReadAfterDrop_of_no_drops (h.drops_originals hfree hRlt), ?_⟩, by simp⟩
    intro q hq l hl hmem
    rw [h.points_return hR] at hq
    have hdrops : (B.points pre).flatMap Point.drops = toDrop order body := by
      have hall := h.dropsOn_chain hdone hR
      rwa [hc, List.append_nil] at hall
    rw [hdrops, mem_toDrop] at hmem
    have hreach : body.Reachable R :=
      .step (hpath.reachable last (List.mem_of_getLast? hlast)) hsucc hR.lt
    exact hcond ⟨R, hpath.ne_zero_of_successor hlast hsucc hR, hreach, hR, q, hq, l, hl, hmem⟩

/-- Without such a block every path passes the second borrow check. -/
theorem Scheduled.checkPath_ok (h : Scheduled body (toDrop order body) done chain B)
    (hrange : body.TargetsInRange) (hdone : ∀ R, R ∈ done ↔ body.ReturnsAt R)
    (hacc : BorrowAccepts body) (hcond : ¬ body.ReadsBeforeReturn) {path : List BlockId}
    (hp : B.IsPath path) : ∃ facts, checkPath B path (∅, ∅) = .ok facts := by
  obtain ⟨p, hpath, hshape⟩ := h.path_shapes hrange hdone hp
  have hsame := h.checkPath_originals p (∅, ∅) hpath.2.2
  obtain ⟨⟨moved, dropped⟩, hfacts⟩ := hacc.checkPath_ok hpath
  have hpB : ∀ b ∈ p, b < B.blocks.length :=
    fun b hb => Nat.lt_of_lt_of_le (hpath.2.2 b hb) h.length_le
  rcases hshape with ⟨rfl, -⟩ | ⟨last, R, pre, suf, hlast, hsucc, hR, hc, rfl | ⟨rfl, rfl⟩⟩
  · exact ⟨_, by rw [hsame]; exact hfacts⟩
  · have hc' : chain R = [] ++ (pre ++ suf) := hc
    obtain ⟨X, -, hchain⟩ := h.checkPath_chain pre moved dropped hc'
    exact ⟨_, (checkPath_append B p pre hpB).2 ⟨_, by rw [hsame]; exact hfacts, hchain⟩⟩
  · have hc' : chain R = [] ++ (pre ++ []) := hc
    obtain ⟨X, hX, hchain⟩ := h.checkPath_chain pre moved dropped hc'
    have hpreB : ∀ b ∈ pre, b < B.blocks.length := fun b hb =>
      (h.table.inserted R b (by rw [hc]; exact List.mem_append_left _ hb)).2
    -- the original path goes on to the return block and is accepted there
    obtain ⟨facts, hlong⟩ := hacc.checkPath_ok (Body.isPath_concat hpath hlast hsucc hR.lt)
    obtain ⟨facts', hp', hret⟩ := (checkPath_append body p [R] hpath.2.2).1 hlong
    rw [hfacts, Except.ok.injEq] at hp'
    subst hp'
    obtain ⟨block, hblock, hterm⟩ := id hR
    simp only [checkPath, hblock] at hret
    obtain ⟨facts₁, hcheck, -⟩ := except_bind_ok.1 hret
    have hreach : body.Reachable R :=
      .step (hpath.reachable last (List.mem_of_getLast? hlast)) hsucc hR.lt
    have hfresh : ∀ q ∈ block.points, ∀ l ∈ q.checkedReads, l ∉ X := by
      intro q hq l hl hmem
      have hdrop := mem_toDrop.1 (List.mem_toFinset.1 (hX hmem))
      refine hcond ⟨R, hpath.ne_zero_of_successor hlast hsucc hR, hreach, hR, q, ?_, l, ?_, hdrop⟩
      · rw [Body.points_singleton hblock]
        exact hq
      · exact List.mem_append_left _ hl
    obtain ⟨r, hr⟩ := checkBlock_withDropped hcheck hfresh
    refine ⟨r, (checkPath_append B p (pre ++ [R]) hpB).2 ⟨_, by rw [hsame]; exact hfacts, ?_⟩⟩
    refine (checkPath_append B pre [R] hpreB).2 ⟨_, hchain, ?_⟩
    rw [h.checkPath_originals [R] _ fun b hb => by rw [List.mem_singleton.1 hb]; exact hR.lt]
    simp only [checkPath, hblock]
    exact except_bind_ok.2 ⟨_, hr, rfl⟩

end Schedule

/-- **Drop after last use.** No path of the scheduled body reads a dropped local, and the second
borrow check accepts it, exactly when no return block that an edge reaches reads a local that the
schedule drops. -/
theorem computeDropSchedule_dropAfterUse_iff (order : HashOrder) (body : Body)
    (hwf : body.WellFormed) (hfree : body.DropFree) (hacc : BorrowAccepts body) (fuel : Nat)
    (B : Body) (h : computeDropSchedule order body fuel = some (B, .ok ())) :
    ((∀ path, B.IsPath path → NoReadAfterDrop (B.points path)) ∧ BorrowAccepts B) ↔
      ¬ body.ReadsBeforeReturn := by
  rw [computeDropSchedule_eq h]
  obtain ⟨chain, done, hdone, hsched⟩ := insertDrops_scheduled order hwf hfree
  constructor
  · rintro ⟨hno, -⟩ ⟨R, hne, hreach, hR, p, hp, l, hl, hdrop⟩
    obtain ⟨path, hpath, hlast⟩ := hreach.exists_path
    obtain ⟨q, rfl⟩ : ∃ q, path = q ++ [R] := ⟨_, (List.dropLast_append_getLast? R hlast).symm⟩
    have hq : q ≠ [] := by
      rintro rfl
      exact hne (by simpa using hpath.1)
    have hlong := hsched.isPath_expand hwf.targets hpath
    have hsafe := hno _ hlong
    rw [expand_concat hq, Scheduled.expand_eq_self (hsched.chain_of_mem_init hdone hpath),
      Body.points_append, Body.points_append, noReadAfterDrop_append, noReadAfterDrop_append]
      at hsafe
    obtain ⟨-, ⟨-, -, hcross⟩, -⟩ := hsafe
    rw [hsched.points_return hR] at hcross
    refine hcross p hp l hl ?_
    have hall := hsched.dropsOn_chain hdone hR
    unfold Body.dropsOn at hall
    rw [hall, mem_toDrop]
    exact hdrop
  · intro hcond
    refine ⟨fun path hp => hsched.noReadAfterDrop hwf.targets hfree hdone hcond hp, ?_⟩
    have hrange := hsched.targetsInRange hwf.targets hdone
    obtain ⟨r, fuel₀, hr⟩ := borrowCheck_returns hrange
    have hlast := hr fuel₀ le_rfl
    rcases Nat.eq_zero_or_pos (insertDrops order body).blocks.length with hzero | hpos
    · exact ⟨0, by simp [borrowCheck, List.length_eq_zero_iff.1 hzero]⟩
    · have hok : r = .ok () := by
        rw [borrowCheck_ok_iff hlast hpos, pathsOk_iff hrange hpos]
        exact fun path hp => hsched.checkPath_ok hwf.targets hdone hacc hcond hp
      exact ⟨fuel₀, by rw [hlast, hok]⟩

theorem stringLoop_dropAfterUse :
    (∀ path, (insertDrops .ascending stringLoop).IsPath path →
      NoReadAfterDrop ((insertDrops .ascending stringLoop).points path)) ∧
    BorrowAccepts (insertDrops .ascending stringLoop) := by
  have hschedule : computeDropSchedule .ascending stringLoop 8 =
      some (insertDrops .ascending stringLoop, .ok ()) := rfl
  refine (computeDropSchedule_dropAfterUse_iff .ascending stringLoop (by decide) (by decide)
    ⟨6, rfl⟩ 8 _ hschedule).2 ?_
  rintro ⟨R, -, -, ⟨block, hblock, hret⟩, p, hp, l, hl, -⟩
  have hlt : R < 3 := (List.getElem?_eq_some_iff.1 hblock).1
  interval_cases R
  · obtain rfl := Option.some.inj hblock
    cases hret
  · obtain rfl := List.mem_singleton.1 hp
    cases hl
  · obtain rfl := Option.some.inj hblock
    cases hret

/-- A string is bound in the entry block and read in the block that returns it. -/
def readAfterGoto : Body where
  defId := 0
  name := "read_after_goto"
  locals := [⟨0, "_return", .none, true, .synthetic, none⟩, ⟨1, "s", .str, true, .synthetic, none⟩]
  blocks := [
    ⟨0, [⟨.assign (.ofLocal 1) (.use (.constant (.str "x"))), .synthetic⟩], .goto 1, .synthetic⟩,
    ⟨1, [⟨.assign (.ofLocal 0) (.use (.copy (.ofLocal 1))), .synthetic⟩], .ret, .synthetic⟩]
  returnLocal := 0
  paramCount := 0
  span := .synthetic

/-- The schedule drops the string before the return block reads it, and the second borrow check
rejects a body that the first one accepts. -/
theorem readAfterGoto_rejected : readAfterGoto.WellFormed ∧ readAfterGoto.DropFree ∧
    BorrowAccepts readAfterGoto ∧
    computeDropSchedule .ascending readAfterGoto 8 =
      some (insertDrops .ascending readAfterGoto, .ok ()) ∧
    (insertDrops .ascending readAfterGoto).IsPath [0, 2, 1] ∧
    ¬ NoReadAfterDrop ((insertDrops .ascending readAfterGoto).points [0, 2, 1]) ∧
    borrowCheck (insertDrops .ascending readAfterGoto) 8 =
      some (.error (.readDropped 1 .synthetic)) := by
  refine ⟨by decide, by decide, ⟨4, rfl⟩, rfl, ⟨rfl, ?_, ?_⟩, fun hno => ?_, rfl⟩
  · have h02 : 2 ∈ (insertDrops .ascending readAfterGoto).successors 0 := by decide
    have h21 : 1 ∈ (insertDrops .ascending readAfterGoto).successors 2 := by decide
    exact List.isChain_cons_cons.2 ⟨h02, List.isChain_cons_cons.2 ⟨h21, List.isChain_singleton _⟩⟩
  · decide
  · let past : List Point := (insertDrops .ascending readAfterGoto).points [0, 2]
    let read : Point := .stmt ⟨.assign (.ofLocal 0) (.use (.copy (.ofLocal 1))), .synthetic⟩
    exact hno past read [.term .ret] rfl 1 (by decide) (by decide)

end Cobrust.Mir
