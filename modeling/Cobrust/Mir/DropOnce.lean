import Cobrust.Mir.DropPaths

/-!
# Exactly-once drops

On a path of a scheduled body to a return block, the drop blocks are those of the chain of the return
block, so every local of the schedule is dropped once (`Scheduled.dropsOn_return`). The exception is
a return block that is the entry: no edge enters it, so its chain is never run. The schedule drops
each owned local exactly once just when this does not happen (`computeDropSchedule_exactlyOnce_iff`).
-/

namespace Cobrust.Mir

open Dataflow

/-! ## What the schedule selects -/

theorem mem_collectMoveInOperand {op : Operand} {into : Finset LocalId} {l : LocalId} :
    l ∈ collectMoveInOperand op into ↔ l ∈ op.moveRoots ∨ l ∈ into := by
  cases op <;> simp [collectMoveInOperand, Operand.moveRoots]

theorem mem_foldl_collect {ops : List Operand} {into : Finset LocalId} {l : LocalId} :
    l ∈ ops.foldl (fun into op => collectMoveInOperand op into) into ↔
      l ∈ ops.flatMap Operand.moveRoots ∨ l ∈ into := by
  induction ops generalizing into with
  | nil => simp
  | cons op ops ih =>
    rw [List.foldl_cons, ih, mem_collectMoveInOperand, List.flatMap_cons, List.mem_append]
    tauto

theorem mem_collectMovesInRvalue {rv : Rvalue} {into : Finset LocalId} {l : LocalId} :
    l ∈ collectMovesInRvalue rv into ↔ l ∈ rv.operands.flatMap Operand.moveRoots ∨ l ∈ into := by
  cases rv with
  | aggregate kind items => exact mem_foldl_collect
  | binaryOp op a b =>
    simp only [collectMovesInRvalue, mem_collectMoveInOperand, Rvalue.operands, List.flatMap_cons,
      List.flatMap_nil, List.append_nil, List.mem_append]
    tauto
  | _ => simp [collectMovesInRvalue, mem_collectMoveInOperand, Rvalue.operands]

/-- The moves that `compute_drop_schedule` sees in a point. -/
def Point.scheduledMoves : Point → List LocalId
  | stmt ⟨.assign _ rvalue, _⟩ => rvalue.operands.flatMap Operand.moveRoots
  | term (.call _ args _ _ _) => args.flatMap Operand.moveRoots
  | _ => []

theorem Point.scheduledMoves_subset (p : Point) : p.scheduledMoves ⊆ p.moveOperands := by
  intro l hl
  unfold moveOperands
  rw [List.flatMap_append]
  apply List.mem_append_left
  cases p with
  | stmt stmt =>
    obtain ⟨kind, span⟩ := stmt
    cases kind with
    | assign place rvalue => exact hl
    | _ => cases hl
  | term term =>
    cases term with
    | call func args destination target unwind =>
      simp only [operands, Terminator.operands, List.flatMap_cons]
      exact List.mem_append_right _ hl
    | _ => cases hl

theorem mem_collectMovesInStatement {stmt : Statement} {into : Finset LocalId} {l : LocalId} :
    l ∈ collectMovesInStatement into stmt ↔ l ∈ (Point.stmt stmt).scheduledMoves ∨ l ∈ into := by
  obtain ⟨kind, span⟩ := stmt
  cases kind with
  | assign place rvalue => exact mem_collectMovesInRvalue
  | _ => simp [collectMovesInStatement, Point.scheduledMoves]

theorem mem_foldl_statements {stmts : List Statement} {into : Finset LocalId} {l : LocalId} :
    l ∈ stmts.foldl collectMovesInStatement into ↔
      l ∈ (stmts.map Point.stmt).flatMap Point.scheduledMoves ∨ l ∈ into := by
  induction stmts generalizing into with
  | nil => simp
  | cons stmt stmts ih =>
    rw [List.foldl_cons, ih, mem_collectMovesInStatement, List.map_cons, List.flatMap_cons,
      List.mem_append]
    tauto

theorem mem_movedInBlock {block : BasicBlock} {l : LocalId} :
    l ∈ movedInBlock block ↔ l ∈ block.points.flatMap Point.scheduledMoves := by
  have hstmts : l ∈ block.statements.foldl collectMovesInStatement ∅ ↔
      l ∈ (block.statements.map Point.stmt).flatMap Point.scheduledMoves := by
    simp [mem_foldl_statements]
  unfold movedInBlock BasicBlock.points
  rw [List.flatMap_append, List.mem_append, ← hstmts]
  cases ht : block.terminator with
  | call func args destination target unwind =>
    rw [mem_foldl_collect]
    simp [Point.scheduledMoves, or_comm]
  | _ => simp [Point.scheduledMoves]

/-- The points of a body. -/
def Body.allPoints (body : Body) : List Point := body.blocks.flatMap BasicBlock.points

theorem mem_globallyMoved {body : Body} (h : body.WellFormed) {l : LocalId} :
    l ∈ globallyMoved body ↔ ∃ p ∈ body.allPoints, l ∈ p.scheduledMoves := by
  have htable : ∀ (blocks : List BasicBlock) (table : BlockId → Finset LocalId),
      (blocks.map BasicBlock.id).Nodup → ∀ block ∈ blocks,
        blocks.foldl (fun table block => Function.update table block.id (movedInBlock block))
          table block.id = movedInBlock block := by
    intro blocks
    induction blocks using List.reverseRecOn with
    | nil => intro table _ block hblock; cases hblock
    | append_singleton blocks b ih =>
      intro table hnodup block hblock
      rw [List.foldl_append, List.foldl_cons, List.foldl_nil]
      rw [List.map_append, List.map_singleton, List.nodup_append] at hnodup
      rcases List.mem_append.1 hblock with hblock | hblock
      · have hne : block.id ≠ b.id :=
          hnodup.2.2 block.id (List.mem_map_of_mem hblock) b.id (by simp)
        rw [Function.update_of_ne hne]
        exact ih table hnodup.1 block hblock
      · rw [List.mem_singleton.1 hblock, Function.update_self]
  have hnodup : (body.blocks.map BasicBlock.id).Nodup := by
    rw [(Body.wellFormed_iff.1 h).1]
    exact List.nodup_range
  unfold globallyMoved Body.allPoints
  rw [Finset.mem_biUnion]
  constructor
  · rintro ⟨id, hid, hl⟩
    obtain ⟨block, hblock, rfl⟩ := List.mem_map.1 (List.mem_toFinset.1 hid)
    unfold movedOutPerBlock at hl
    rw [htable _ _ hnodup block hblock, mem_movedInBlock] at hl
    obtain ⟨p, hp, hl⟩ := List.mem_flatMap.1 hl
    exact ⟨p, List.mem_flatMap.2 ⟨block, hblock, hp⟩, hl⟩
  · rintro ⟨p, hp, hl⟩
    obtain ⟨block, hblock, hp⟩ := List.mem_flatMap.1 hp
    refine ⟨block.id, List.mem_toFinset.2 (List.mem_map_of_mem hblock), ?_⟩
    unfold movedOutPerBlock
    rw [htable _ _ hnodup block hblock, mem_movedInBlock]
    exact List.mem_flatMap.2 ⟨p, hp, hl⟩

theorem mem_dropEligible {body : Body} {l : LocalId} : l ∈ dropEligible body ↔
    ∃ ld ∈ body.locals, ld.id = l ∧ isCopy ld.ty = false ∧ body.paramCount < ld.id := by
  simp only [dropEligible, List.mem_toFinset, List.mem_map, List.mem_filter, Bool.and_eq_true,
    Bool.not_eq_true', decide_eq_false_iff_not, Nat.not_lt]
  constructor
  · rintro ⟨ld, ⟨hmem, hcopy, hid⟩, rfl⟩
    exact ⟨ld, hmem, rfl, hcopy, hid⟩
  · rintro ⟨ld, hmem, rfl, hcopy, hid⟩
    exact ⟨ld, ⟨hmem, hcopy, hid⟩, rfl⟩

theorem mem_toDrop {order : HashOrder} {body : Body} {l : LocalId} :
    l ∈ toDrop order body ↔ l ∈ dropEligible body ∧ l ∉ globallyMoved body := by
  simp [toDrop, order.mem]

theorem nodup_toDrop (order : HashOrder) (body : Body) : (toDrop order body).Nodup :=
  (order.nodup _).filter _

/-- A local that the function has to drop: its declared type is not `Copy`, it is neither the return
slot nor a parameter, and no operand of the body moves it. -/
structure Body.Owns (body : Body) (l : LocalId) : Prop where
  declared : ∃ ld ∈ body.locals, ld.id = l ∧ isCopy ld.ty = false ∧ body.paramCount < ld.id
  unmoved : ∀ p ∈ body.allPoints, l ∉ p.moveOperands

theorem Body.Owns.mem_toDrop {body : Body} (h : body.WellFormed) (order : HashOrder) {l : LocalId}
    (hl : body.Owns l) : l ∈ toDrop order body := by
  rw [Mir.mem_toDrop, mem_dropEligible, mem_globallyMoved h]
  refine ⟨hl.declared, ?_⟩
  rintro ⟨p, hp, hmem⟩
  exact hl.unmoved p hp (p.scheduledMoves_subset hmem)

/-! ## Drops along a path -/

/-- The locals dropped along a path, in order. -/
def Body.dropsOn (body : Body) (path : List BlockId) : List LocalId :=
  (body.points path).flatMap Point.drops

theorem Body.dropsOn_append (body : Body) (p q : List BlockId) :
    body.dropsOn (p ++ q) = body.dropsOn p ++ body.dropsOn q := by
  simp [dropsOn, points]

theorem Body.dropsOn_singleton {body : Body} {b : BlockId} {block : BasicBlock}
    (hb : body.blocks[b]? = some block) :
    body.dropsOn [b] = (Point.term block.terminator).drops := by
  have hstmts : (block.statements.map Point.stmt).flatMap Point.drops = [] := by
    simp [List.flatMap_map, Point.drops, Point.dropped]
  simp [dropsOn, points, hb, BasicBlock.points, List.flatMap_append, hstmts]

theorem drops_of_not_isDrop {t : Terminator} (h : ¬ t.IsDrop) : (Point.term t).drops = [] := by
  cases t with
  | drop place target => exact absurd trivial h
  | _ => rfl

theorem ChainAt.dropsOn {B : Body} {target : BlockId} :
    ∀ {ids : List BlockId} {locals : List LocalId}, ChainAt B.blocks target ids locals →
      B.dropsOn ids = locals := by
  intro ids
  induction ids with
  | nil =>
    intro locals h
    cases locals with
    | nil => rfl
    | cons l locals => exact h.elim
  | cons b ids ih =>
    intro locals h
    cases locals with
    | nil => exact h.elim
    | cons l locals =>
      obtain ⟨⟨span, hb⟩, h⟩ := h
      rw [← List.singleton_append, Body.dropsOn_append, Body.dropsOn_singleton hb, ih h]
      rfl

namespace Scheduled

variable {body B : Body} {locals : List LocalId} {done : List BlockId}
  {chain : BlockId → List BlockId}

theorem dropsOn_originals (h : Scheduled body locals done chain B) (hfree : body.DropFree) :
    ∀ {path : List BlockId}, (∀ b ∈ path, b < body.blocks.length) → B.dropsOn path = [] := by
  intro path
  induction path with
  | nil => exact fun _ => rfl
  | cons b path ih =>
    intro hlt
    have hblock := List.getElem?_eq_getElem (hlt b List.mem_cons_self)
    have hnodrop := hfree.of_getElem? hblock
    rw [← List.singleton_append, Body.dropsOn_append, ih fun c hc => hlt c (List.mem_cons_of_mem _ hc),
      Body.dropsOn_singleton (h.original b _ hblock)]
    simp [drops_of_not_isDrop (mt Terminator.isDrop_retarget.1 hnodrop)]

theorem dropsOn_chain (h : Scheduled body locals done chain B)
    (hdone : ∀ R, R ∈ done ↔ body.ReturnsAt R) {R : BlockId} (hR : body.ReturnsAt R) :
    B.dropsOn (chain R) = locals :=
  (h.chains R ((hdone R).2 hR)).dropsOn

/-- What is dropped on a path: the beginning of the list of locals. -/
theorem dropsOn_prefix (h : Scheduled body locals done chain B) (hrange : body.TargetsInRange)
    (hfree : body.DropFree) (hdone : ∀ R, R ∈ done ↔ body.ReturnsAt R) {path : List BlockId}
    (hp : B.IsPath path) : B.dropsOn path <+: locals := by
  obtain ⟨p, hpath, hshape⟩ := h.path_shapes hrange hdone hp
  have hnone : B.dropsOn p = [] := h.dropsOn_originals hfree hpath.2.2
  rcases hshape with ⟨rfl, -⟩ | ⟨last, R, pre, suf, -, -, hR, hc, rfl | ⟨rfl, rfl⟩⟩
  · rw [hnone]
    exact List.nil_prefix
  · have hchain := h.dropsOn_chain hdone hR
    rw [hc, Body.dropsOn_append] at hchain
    rw [Body.dropsOn_append, hnone, List.nil_append]
    exact ⟨_, hchain⟩
  · have hchain := h.dropsOn_chain hdone hR
    rw [hc, List.append_nil] at hchain
    have hlast : B.dropsOn [R] = [] := by
      refine h.dropsOn_originals hfree fun b hb => ?_
      rw [List.mem_singleton.1 hb]
      exact hR.lt
    rw [Body.dropsOn_append, Body.dropsOn_append, hnone, hchain, hlast, List.append_nil]
    exact List.prefix_rfl

theorem dropsOn_return (h : Scheduled body locals done chain B) (hrange : body.TargetsInRange)
    (hfree : body.DropFree) (hdone : ∀ R, R ∈ done ↔ body.ReturnsAt R) {path : List BlockId}
    {R : BlockId} (hp : B.IsPath path) (hlast : path.getLast? = some R) (hR : B.ReturnsAt R) :
    body.ReturnsAt 0 ∨ B.dropsOn path = locals := by
  obtain ⟨p, hpath, hshape⟩ := h.path_shapes hrange hdone hp
  have hnone : B.dropsOn p = [] := h.dropsOn_originals hfree hpath.2.2
  rcases hshape with ⟨rfl, hnochain⟩ | ⟨last, R', pre, suf, hplast, hsucc, hR', hc, rfl | ⟨rfl, rfl⟩⟩
  · have hRlt := hpath.2.2 R (List.mem_of_getLast? hlast)
    have hret := (h.returnsAt_iff hRlt).1 hR
    cases path with
    | nil => cases hlast
    | cons e path =>
      obtain rfl : e = 0 := by simpa using hpath.1
      rcases List.eq_nil_or_concat path with rfl | ⟨path, b, rfl⟩
      · obtain rfl : 0 = R := by simpa using hlast
        exact .inl hret
      · rw [List.concat_eq_append, ← List.cons_append, List.getLast?_concat] at hlast
        obtain rfl : b = R := Option.some.inj hlast
        have hlen := (h.chains b ((hdone b).2 hret)).length_eq
        rw [hnochain b (by simp)] at hlen
        rw [hnone, List.length_eq_zero_iff.1 hlen.symm]
        exact .inr rfl
  · by_cases hnil : pre = []
    · subst hnil
      rw [List.append_nil, hplast, Option.some.injEq] at hlast
      subst hlast
      have hRlt := hpath.2.2 last (List.mem_of_getLast? hplast)
      rw [((h.returnsAt_iff hRlt).1 hR).successors] at hsucc
      cases hsucc
    · rw [List.getLast?_append_of_ne_nil _ hnil] at hlast
      have hmem : R ∈ chain R' := by
        rw [hc]
        exact List.mem_append_left _ (List.mem_of_getLast? hlast)
      exact absurd hR.successors (h.successors_ne_nil hmem)
  · have hRR : R' = R := by simpa using hlast
    subst hRR
    have hchain := h.dropsOn_chain hdone hR'
    rw [hc, List.append_nil] at hchain
    have hlast' : B.dropsOn [R'] = [] := by
      refine h.dropsOn_originals hfree fun b hb => ?_
      rw [List.mem_singleton.1 hb]
      exact hR'.lt
    rw [Body.dropsOn_append, Body.dropsOn_append, hnone, hchain, hlast', List.append_nil]
    exact .inr rfl

end Scheduled

/-- On every path of `B` from block 0 to a return block, each owned local of `body` is dropped
exactly once, and no local is dropped twice. -/
def DropsExactlyOnce (body B : Body) : Prop :=
  ∀ path R, B.IsPath path → path.getLast? = some R → B.ReturnsAt R →
    (∀ l, body.Owns l → (B.dropsOn path).count l = 1) ∧ (B.dropsOn path).Nodup

/-- **Exactly-once drop.** The schedule drops every owned local exactly once on every path to a
return block, unless the entry block returns and there is an owned local. -/
theorem computeDropSchedule_exactlyOnce_iff (order : HashOrder) (body : Body)
    (hwf : body.WellFormed) (hfree : body.DropFree) (fuel : Nat) (B : Body)
    (h : computeDropSchedule order body fuel = some (B, .ok ())) :
    DropsExactlyOnce body B ↔ ¬ (body.ReturnsAt 0 ∧ ∃ l, body.Owns l) := by
  rw [computeDropSchedule_eq h]
  obtain ⟨chain, done, hdone, hsched⟩ := insertDrops_scheduled order hwf hfree
  constructor
  · rintro honce ⟨h0, l, hl⟩
    have hR : (insertDrops order body).ReturnsAt 0 := (hsched.returnsAt_iff h0.lt).2 h0
    have hpath : (insertDrops order body).IsPath [0] := by
      refine ⟨rfl, List.isChain_singleton _, fun b hb => ?_⟩
      rw [List.mem_singleton.1 hb]
      exact hR.lt
    obtain ⟨hcount, -⟩ := honce [0] 0 hpath rfl hR
    have hnone : (insertDrops order body).dropsOn [0] = [] := by
      refine hsched.dropsOn_originals hfree fun b hb => ?_
      rw [List.mem_singleton.1 hb]
      exact h0.lt
    have hone := hcount l hl
    rw [hnone] at hone
    cases hone
  · intro hcond path R hp hlast hR
    have hnodup : ((insertDrops order body).dropsOn path).Nodup :=
      (nodup_toDrop order body).sublist
        (hsched.dropsOn_prefix hwf.targets hfree hdone hp).sublist
    refine ⟨fun l hl => ?_, hnodup⟩
    rcases hsched.dropsOn_return hwf.targets hfree hdone hp hlast hR with h0 | hall
    · exact absurd ⟨h0, l, hl⟩ hcond
    · rw [hall]
      exact List.count_eq_one_of_mem (nodup_toDrop order body) (hl.mem_toDrop hwf order)

theorem stringLoop_exactlyOnce :
    DropsExactlyOnce stringLoop (insertDrops .ascending stringLoop) := by
  have hschedule : computeDropSchedule .ascending stringLoop 8 =
      some (insertDrops .ascending stringLoop, .ok ()) := rfl
  refine (computeDropSchedule_exactlyOnce_iff .ascending stringLoop (by decide) (by decide) 8 _
    hschedule).2 ?_
  rintro ⟨⟨block, hblock, hret⟩, -⟩
  obtain rfl := Option.some.inj hblock
  cases hret

/-- `fn f(): let s = "x"; return 1`: the entry block returns. -/
def returnEntry : Body where
  defId := 0
  name := "return_entry"
  locals := [⟨0, "_return", .none, true, .synthetic, none⟩, ⟨1, "s", .str, true, .synthetic, none⟩]
  blocks := [⟨0,
    [⟨.assign (.ofLocal 1) (.use (.constant (.str "x"))), .synthetic⟩,
     ⟨.assign (.ofLocal 0) (.use (.constant (.int 1))), .synthetic⟩], .ret, .synthetic⟩]
  returnLocal := 0
  paramCount := 0
  span := .synthetic

/-- The schedule of a body whose entry block returns leaves its string undropped. -/
theorem returnEntry_leaks : returnEntry.WellFormed ∧ returnEntry.DropFree ∧
    computeDropSchedule .ascending returnEntry 4 =
      some (insertDrops .ascending returnEntry, .ok ()) ∧
    ¬ DropsExactlyOnce returnEntry (insertDrops .ascending returnEntry) := by
  refine ⟨by decide, by decide, rfl, fun honce => ?_⟩
  have howns : returnEntry.Owns 1 := by
    refine ⟨⟨⟨1, "s", .str, true, .synthetic, none⟩, ?_, rfl, rfl, ?_⟩, by decide⟩
    · simp [returnEntry]
    · decide
  have hpath : (insertDrops .ascending returnEntry).IsPath [0] := by
    refine ⟨rfl, List.isChain_singleton _, fun b hb => ?_⟩
    rw [List.mem_singleton.1 hb]
    decide
  have hcount := (honce [0] 0 hpath rfl ⟨_, rfl, rfl⟩).1 1 howns
  have hnone : (insertDrops .ascending returnEntry).dropsOn [0] = [] := rfl
  rw [hnone] at hcount
  cases hcount

end Cobrust.Mir
