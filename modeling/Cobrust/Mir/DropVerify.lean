import Cobrust.Mir.BorrowPaths
import Cobrust.Mir.DropOnce

/-!
# The verification phase never fails

`verify_drops` is the worklist on a flow problem whose facts are the locals dropped so far. No path of
a scheduled body drops a local twice, so on well-formed bodies without drops
`compute_drop_schedule` always returns `Ok` (`computeDropSchedule_ok`).
-/

namespace Cobrust.Mir

open Dataflow

/-- What a block does to the set of dropped locals. -/
def dropTransfer (block : BasicBlock) (dropped : Finset LocalId) :
    Except MirError (Finset LocalId) :=
  match block.terminator with
  | .drop place _ =>
    if place.localId ∈ dropped then .error (.droppedTwice place.localId block.span)
    else .ok (insert place.localId dropped)
  | _ => .ok dropped

/-- The data-flow problem that `verify_drops` solves. -/
def verifyFlow (body : Body) : Flow BlockId (Finset LocalId) MirError where
  entry := 0
  init := ∅
  transfer b dropped :=
    match body.blocks[b]? with
    | some block => dropTransfer block dropped
    | none => .ok dropped
  succ := body.successors

variable {body : Body}

theorem verifyFlow_transfer {b : BlockId} {block : BasicBlock} (hb : body.blocks[b]? = some block)
    (dropped : Finset LocalId) :
    (verifyFlow body).transfer b dropped = dropTransfer block dropped := by
  simp [verifyFlow, hb]

/-- A block accepts the dropped set exactly when it drops none of its members, and adds its own. -/
theorem dropTransfer_ok {block : BasicBlock} {s r : Finset LocalId} :
    dropTransfer block s = .ok r ↔
      (∀ l ∈ (Point.term block.terminator).drops, l ∉ s) ∧
        r = s ∪ (Point.term block.terminator).drops.toFinset := by
  unfold dropTransfer
  cases block.terminator with
  | drop place target =>
    have hdrops : (Point.term (.drop place target)).drops = [place.localId] := rfl
    by_cases hmem : place.localId ∈ s
    · simp [hdrops, hmem]
    · simp [hdrops, hmem, eq_comm]
  | _ => simp [Point.drops, Point.dropped, eq_comm]

theorem verifyFlow_joinPreserving (body : Body) : (verifyFlow body).JoinPreserving := by
  refine ⟨fun n a b c => ?_⟩
  cases hn : body.blocks[n]? with
  | none => simp [verifyFlow, hn, eq_comm]
  | some block =>
    simp only [verifyFlow_transfer hn, dropTransfer_ok]
    constructor
    · rintro ⟨hclear, rfl⟩
      have ha : ∀ l ∈ (Point.term block.terminator).drops, l ∉ a :=
        fun l hl hla => hclear l hl (Finset.mem_union_left _ hla)
      have hb : ∀ l ∈ (Point.term block.terminator).drops, l ∉ b :=
        fun l hl hlb => hclear l hl (Finset.mem_union_right _ hlb)
      refine ⟨_, _, ⟨ha, rfl⟩, ⟨hb, rfl⟩, ?_⟩
      exact Finset.union_union_distrib_right a b _
    · rintro ⟨_, _, ⟨ha, rfl⟩, ⟨hb, rfl⟩, rfl⟩
      refine ⟨fun l hl hmem => ?_, (Finset.union_union_distrib_right a b _).symm⟩
      rcases Finset.mem_union.1 hmem with hla | hlb
      · exact ha l hl hla
      · exact hb l hl hlb

/-- A path is free of errors when it drops no local twice, and none that was dropped before. -/
theorem verifyFlow_walk :
    ∀ (path : List BlockId) {s : Finset LocalId}, (∀ b ∈ path, b < body.blocks.length) →
      (body.dropsOn path).Nodup → (∀ l ∈ body.dropsOn path, l ∉ s) →
      ∃ r, (verifyFlow body).walk s path = .ok r := by
  intro path
  induction path with
  | nil => exact fun _ _ _ => ⟨_, rfl⟩
  | cons b path ih =>
    intro s hlt hnodup hfresh
    obtain ⟨block, hblock⟩ : ∃ block, body.blocks[b]? = some block :=
      ⟨_, List.getElem?_eq_getElem (hlt b List.mem_cons_self)⟩
    rw [← List.singleton_append, Body.dropsOn_append, Body.dropsOn_singleton hblock] at hnodup hfresh
    obtain ⟨-, hrest, hdisj⟩ := List.nodup_append.1 hnodup
    have hstep := (dropTransfer_ok (s := s)).2
      ⟨fun l hl => hfresh l (List.mem_append_left _ hl), rfl⟩
    have hfresh' : ∀ l ∈ body.dropsOn path,
        l ∉ s ∪ (Point.term block.terminator).drops.toFinset := by
      intro l hl hmem
      rcases Finset.mem_union.1 hmem with hmem | hmem
      · exact hfresh l (List.mem_append_right _ hl) hmem
      · exact hdisj l (List.mem_toFinset.1 hmem) l hl rfl
    obtain ⟨r, hr⟩ := ih (fun c hc => hlt c (List.mem_cons_of_mem _ hc)) hrest hfresh'
    refine ⟨r, Flow.walk_cons_ok.2 ⟨_, ?_, hr⟩⟩
    rw [verifyFlow_transfer hblock]
    exact hstep

def VerifyLoop.abs (st : VerifyLoop) : Worklist BlockId (Finset LocalId) :=
  ⟨st.entryDropped, st.work⟩

theorem VerifyLoop.propagate_abs (state : Finset LocalId) (st : VerifyLoop) (target : BlockId) :
    (st.propagate state target).abs = Worklist.propagate state st.abs target := by
  have hentry : (st.entryDropped target).getD ∅ = (st.abs.table target).getD ⊥ := rfl
  rcases Worklist.propagate_cases state st.abs target with ⟨hsame, u, hu, hle⟩ | ⟨hnew, hgrew⟩
  · rw [hsame]
    have hu' : st.entryDropped target = some u := hu
    have hjoin : u ∪ state = u := Finset.union_eq_left.2 hle
    have htable : Function.update st.entryDropped target (some (u ∪ state)) = st.entryDropped := by
      rw [hjoin, ← hu', Function.update_eq_self]
    simp only [VerifyLoop.propagate, hu', Option.getD_some, Option.isNone_some, Bool.or_false,
      Bool.not_eq_true', decide_eq_false_iff_not]
    rw [if_neg (not_not_intro hle), htable]
  · rw [hnew]
    have hflag : (!decide (state ⊆ (st.entryDropped target).getD ∅) ||
        (st.entryDropped target).isNone) = true := by
      rcases hgrew with hnone | ⟨u, hu, hle⟩
      · have hnone' : st.entryDropped target = none := hnone
        simp [hnone']
      · have hu' : st.entryDropped target = some u := hu
        have hle' : ¬ state ⊆ u := hle
        simp [hu', hle']
    simp only [VerifyLoop.propagate, hflag, if_true]
    unfold Worklist.push VerifyLoop.abs
    split <;> rfl

theorem VerifyLoop.foldl_propagate_abs (state : Finset LocalId) :
    ∀ (targets : List BlockId) (st : VerifyLoop),
      (targets.foldl (VerifyLoop.propagate state) st).abs =
        targets.foldl (Worklist.propagate state) st.abs := by
  intro targets
  induction targets with
  | nil => exact fun _ => rfl
  | cons t targets ih =>
    intro st
    rw [List.foldl_cons, ih, VerifyLoop.propagate_abs, List.foldl_cons]

theorem verifyLoop_cons {fuel : Nat} {st : VerifyLoop} {bid : BlockId} {work : List BlockId}
    {block : BasicBlock} (hw : st.work = bid :: work) (hb : body.blocks[bid]? = some block) :
    verifyLoop body (fuel + 1) st =
      match dropTransfer block ((st.entryDropped bid).getD ∅) with
      | .error e => some (.error e)
      | .ok dropped => verifyLoop body fuel
          (block.terminator.successors.foldl (VerifyLoop.propagate dropped)
            ⟨st.entryDropped, work⟩) := by
  rw [verifyLoop]
  simp only [hw, hb, dropTransfer]
  cases ht : block.terminator with
  | drop place target =>
    by_cases hmem : place.localId ∈ (st.entryDropped bid).getD ∅
    · simp only [if_pos hmem]
    · simp only [if_neg hmem]
      rfl
  | _ => rfl

/-- The loop of `verify_drops` is the generic worklist on the flow problem of the body. -/
theorem verifyLoop_refines (hrange : body.TargetsInRange) :
    ∀ (fuel : Nat) {st : VerifyLoop}, (∀ b ∈ st.work, b < body.blocks.length) →
      verifyLoop body fuel st = (Worklist.iterate (verifyFlow body) fuel st.abs).map
        fun r => r.map fun _ => () := by
  intro fuel
  induction fuel with
  | zero => intro st _; rfl
  | succ fuel ih =>
    intro st hin
    unfold Worklist.iterate
    have hwork : st.abs.work = st.work := rfl
    rw [hwork]
    cases hw : st.work with
    | nil =>
      rw [verifyLoop]
      simp only [hw]
      rfl
    | cons bid work =>
      have hblt := hin bid (by simp [hw])
      have hb := List.getElem?_eq_getElem hblt
      have hentry : (st.abs.table bid).getD ⊥ = (st.entryDropped bid).getD ∅ := rfl
      rw [verifyLoop_cons hw hb]
      simp only [verifyFlow_transfer hb, hentry]
      cases dropTransfer body.blocks[bid] ((st.entryDropped bid).getD ∅) with
      | error e => rfl
      | ok dropped =>
        have hsucc : (verifyFlow body).succ bid = body.blocks[bid].terminator.successors :=
          Body.successors_eq hb
        have habs := VerifyLoop.foldl_propagate_abs dropped body.blocks[bid].terminator.successors
          ⟨st.entryDropped, work⟩
        have hrest : (⟨st.abs.table, work⟩ : Worklist BlockId (Finset LocalId)) =
            VerifyLoop.abs ⟨st.entryDropped, work⟩ := rfl
        simp only [hsucc, hrest]
        rw [← habs]
        apply ih
        intro c hc
        have hc' : c ∈ (body.blocks[bid].terminator.successors.foldl
            (Worklist.propagate dropped) (VerifyLoop.abs ⟨st.entryDropped, work⟩)).work := by
          rw [← habs]
          exact hc
        rcases Worklist.mem_foldl_work hc' with hc' | hc'
        · exact hrange bid c (by rw [Body.successors_eq hb]; exact hc')
        · exact hin c (by rw [hw]; exact List.mem_cons_of_mem _ hc')

/-- The arena of the verification: the blocks of the body and the locals that they drop. -/
def verifyArena (h : body.TargetsInRange) (hne : 0 < body.blocks.length) :
    Worklist.Arena (verifyFlow body) where
  nodes := Finset.range body.blocks.length
  bound := (body.dropsOn (List.range body.blocks.length)).toFinset
  rank s := s.card
  rank_strictMono := fun _ _ hab => Finset.card_lt_card hab
  entry_mem := Finset.mem_range.2 hne
  init_le := Finset.empty_subset _
  succ_mem := fun b _ c hc => Finset.mem_range.2 (h b c hc)
  transfer_le := by
    intro b hb s r hs hr
    have hlt := Finset.mem_range.1 hb
    have hblock := List.getElem?_eq_getElem hlt
    rw [verifyFlow_transfer hblock, dropTransfer_ok] at hr
    obtain ⟨-, rfl⟩ := hr
    refine Finset.union_subset hs fun l hl => ?_
    rw [List.mem_toFinset] at hl ⊢
    obtain ⟨pre, suf, hrange⟩ := List.append_of_mem (List.mem_range.2 hlt)
    rw [hrange, Body.dropsOn_append, ← List.singleton_append, Body.dropsOn_append,
      Body.dropsOn_singleton hblock]
    exact List.mem_append_right _ (List.mem_append_left _ hl)

/-- When no path drops a local twice, the verification returns `Ok`. -/
theorem verifyDrops_ok (h : body.TargetsInRange)
    (hnodup : ∀ path, body.IsPath path → (body.dropsOn path).Nodup) :
    ∃ fuel₀, ∀ fuel ≥ fuel₀, verifyDrops body fuel = some (.ok ()) := by
  rcases Nat.eq_zero_or_pos body.blocks.length with hzero | hne
  · exact ⟨0, fun fuel _ => by simp [verifyDrops, List.length_eq_zero_iff.1 hzero]⟩
  · obtain ⟨r, hr, hiff⟩ := Worklist.iterate_spec (verifyFlow_joinPreserving body)
      (verifyArena h hne)
    have hpaths : (verifyFlow body).PathsOk := by
      intro path hp
      have hpath : body.IsPath path := (isPath_iff h hne).2 ⟨hp.1, hp.2⟩
      exact verifyFlow_walk path hpath.2.2 (hnodup path hpath) (by simp [verifyFlow])
    obtain ⟨T, rfl⟩ := hiff.2 hpaths
    refine ⟨(verifyArena h hne).fuel, fun fuel hfuel => ?_⟩
    have hnonempty : body.blocks.isEmpty = false := by
      rw [List.isEmpty_eq_false_iff]
      exact List.ne_nil_of_length_pos hne
    have hstart : VerifyLoop.abs ⟨fun b => if b = 0 then some ∅ else none, [0]⟩ =
        Worklist.start (verifyFlow body) := rfl
    unfold verifyDrops
    rw [hnonempty, verifyLoop_refines h fuel (by simpa using hne), hstart, hr fuel hfuel]
    rfl

theorem Scheduled.targetsInRange {B : Body} {locals : List LocalId} {done : List BlockId}
    {chain : BlockId → List BlockId} (h : Scheduled body locals done chain B)
    (hrange : body.TargetsInRange) (hdone : ∀ R, R ∈ done ↔ body.ReturnsAt R) :
    B.TargetsInRange := by
  intro b c hc
  have hhead : ∀ (R : BlockId) (suf : List BlockId), R < body.blocks.length →
      (∀ b ∈ suf, b ∈ chain R) → suf.headD R < B.blocks.length := by
    intro R suf hR hsuf
    cases suf with
    | nil => exact Nat.lt_of_lt_of_le hR h.length_le
    | cons d suf => exact (h.table.inserted R d (hsuf d List.mem_cons_self)).2
  rcases h.edge_cases hrange hc with ⟨t, ht, rfl⟩ | ⟨R, pre, suf, hR, rfl⟩
  · exact hhead t (chain t) (hrange b t ht) fun _ hb => hb
  · have hdoneR : R ∈ done := h.done_of_mem_chain (b := b) (by simp [hR])
    refine hhead R suf ((hdone R).1 hdoneR).lt fun d hd => ?_
    rw [hR]
    exact List.mem_append_right _ (List.mem_cons_of_mem _ hd)

/-- `compute_drop_schedule` returns `Ok` on every well-formed body without drops. -/
theorem computeDropSchedule_ok (order : HashOrder) {body : Body} (hwf : body.WellFormed)
    (hfree : body.DropFree) : ∃ fuel₀, ∀ fuel ≥ fuel₀,
      computeDropSchedule order body fuel = some (insertDrops order body, .ok ()) := by
  obtain ⟨chain, done, hdone, hsched⟩ := insertDrops_scheduled order hwf hfree
  have hrange := hsched.targetsInRange hwf.targets hdone
  have hnodup : ∀ path, (insertDrops order body).IsPath path →
      ((insertDrops order body).dropsOn path).Nodup := by
    intro path hp
    have hpre₀ := hsched.dropsOn_prefix hwf.targets hfree hdone hp
    exact (nodup_toDrop order body).sublist hpre₀.sublist
  obtain ⟨fuel₀, hok⟩ := verifyDrops_ok hrange hnodup
  refine ⟨fuel₀, fun fuel hfuel => ?_⟩
  unfold computeDropSchedule
  split
  · next hempty => simp [insertDrops, returnBlocks, List.isEmpty_iff.1 hempty]
  · simp only [hok fuel hfuel, Option.map_some]

end Cobrust.Mir
