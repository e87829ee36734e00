import Cobrust.Mir.DropOnce

/-!
# The order of the drops, and a second run

Two things that the pass is said to keep: the drops before a return are in reverse declaration order, whatever order
the hash set has, and a second run changes nothing.

* `drop_order_iff`: the first holds of the bodies that have at most one local to drop, or no return.
* `drop_again_iff`: the second holds of the bodies that have no local to drop, or no return.
-/

namespace Cobrust.Mir

/-- The locals that get a drop before each return. -/
def droppable (body : Body) : Finset LocalId :=
  dropEligible body \ globallyMoved body

variable {order order' : HashOrder} {body B : Body} {locals : List LocalId} {R : BlockId}

theorem mem_toDrop_iff {l : LocalId} : l ∈ toDrop order body ↔ l ∈ droppable body := by
  rw [mem_toDrop, droppable, Finset.mem_sdiff]

theorem toFinset_toDrop (order : HashOrder) (body : Body) : (toDrop order body).toFinset = droppable body := by
  ext l
  rw [List.mem_toFinset, mem_toDrop_iff]

theorem length_toDrop (order : HashOrder) (body : Body) : (toDrop order body).length = (droppable body).card := by
  rw [← toFinset_toDrop order, List.toFinset_card_of_nodup (nodup_toDrop order body)]

/-- Without two locals to drop there is one order only. -/
theorem toDrop_eq (h : (droppable body).card ≤ 1) (order order' : HashOrder) :
    toDrop order body = toDrop order' body := by
  rcases Nat.le_one_iff_eq_zero_or_eq_one.1 h with h | h
  · rw [List.length_eq_zero_iff.1 ((length_toDrop order body).trans h),
      List.length_eq_zero_iff.1 ((length_toDrop order' body).trans h)]
  · obtain ⟨l, hl⟩ := List.length_eq_one_iff.1 ((length_toDrop order body).trans h)
    obtain ⟨l', hl'⟩ := List.length_eq_one_iff.1 ((length_toDrop order' body).trans h)
    have hmem : l ∈ droppable body := mem_toDrop_iff.1 (by rw [hl]; exact List.mem_cons_self)
    rw [← mem_toDrop_iff, hl'] at hmem
    rw [hl, hl', List.mem_singleton.1 hmem]

theorem insertDrops_of_toDrop (h : toDrop order body = []) : insertDrops order body = body := by
  unfold insertDrops
  rw [h]
  exact List.foldl_fixed' (fun _ => rfl) _

theorem insertDrops_of_returnBlocks (h : returnBlocks body = []) : insertDrops order body = body := by
  unfold insertDrops
  rw [h]
  rfl

/-! ## Reverse declaration order -/

/-- Every drop chain of the schedule drops its locals in reverse declaration order. -/
def LastInFirstOut (order : HashOrder) (body : Body) : Prop :=
  ∀ R ids locals, R ∈ returnBlocks body → (∀ b ∈ ids, body.blocks.length ≤ b) →
    ChainAt (insertDrops order body).blocks R ids locals → locals.Pairwise (· > ·)

/-- The blocks from `n` on drop a local and go on to a block before `n`. -/
def DropsOnce (n : Nat) (B : Body) : Prop :=
  ∀ b block, n ≤ b → B.blocks[b]? = some block → ∃ place target, block.terminator = .drop place target ∧ target < n

theorem DropsOnce.insertChain {n : Nat} {l : LocalId} (h : DropsOnce n B) (hn : n ≤ B.blocks.length) (hR : R < n) :
    DropsOnce n (insertChain [l] B R) := by
  obtain ⟨hlen, hold, hchain⟩ := insertChain_round (B := B) [l] (hR.trans_le hn)
  intro b block hb hblock
  by_cases hlt : b < B.blocks.length
  · obtain ⟨place, target, hterm, htarget⟩ := h b _ hb (List.getElem?_eq_getElem hlt)
    rw [hold b _ (List.getElem?_eq_getElem hlt)] at hblock
    cases hblock
    refine ⟨place, target, ?_, htarget⟩
    unfold redirect
    split
    · exact hterm
    · show rewireTerminator _ _ _ = _
      rw [hterm]
      rfl
  · have hb' : b = B.blocks.length := by
      have hlast := (List.getElem?_eq_some_iff.1 hblock).1
      rw [hlen] at hlast
      exact Nat.le_antisymm (Nat.lt_succ_iff.1 hlast) (Nat.not_lt.1 hlt)
    obtain ⟨⟨span, hget⟩, -⟩ := hchain
    subst hb'
    obtain rfl := Option.some.inj (hblock.symm.trans hget)
    exact ⟨_, R, rfl, hR⟩

/-- Chains of one block cannot be joined to longer ones. -/
theorem DropsOnce.length_le {n : Nat} {ids : List BlockId} (h : DropsOnce n B) (hids : ∀ b ∈ ids, n ≤ b)
    (hchain : ChainAt B.blocks R ids locals) : locals.length ≤ 1 := by
  match ids, locals, hchain with
  | [], [], _ => exact Nat.zero_le _
  | [_], [_], _ => exact Nat.le_refl _
  | b :: c :: ids, l :: locals, hchain =>
    obtain ⟨⟨span, hget⟩, -⟩ := hchain
    obtain ⟨place, target, hterm, hlt⟩ := h b _ (hids b List.mem_cons_self) hget
    obtain rfl : c = target := (Terminator.drop.inj hterm).2
    exact absurd hlt (Nat.not_lt.2 (hids c (List.mem_cons_of_mem _ List.mem_cons_self)))

theorem dropsOnce_foldl {n : Nat} {l : LocalId} :
    ∀ (rets : List BlockId) (B : Body), DropsOnce n B → n ≤ B.blocks.length → (∀ R ∈ rets, R < n) →
      DropsOnce n (rets.foldl (Mir.insertChain [l]) B) := by
  intro rets
  induction rets with
  | nil => exact fun B h _ _ => h
  | cons R rets ih =>
    intro B h hn hrets
    have hR := hrets R List.mem_cons_self
    have hlen := (insertChain_round (B := B) [l] (hR.trans_le hn)).1
    exact ih _ (h.insertChain hn hR) (hlen ▸ hn.trans (Nat.le_add_right _ _))
      fun R' hR' => hrets R' (List.mem_cons_of_mem _ hR')

theorem returnBlocks_lt (h : body.WellFormed) (hR : R ∈ returnBlocks body) : R < body.blocks.length := by
  obtain ⟨block, hblock, -⟩ := (mem_returnBlocks h).1 hR
  exact (List.getElem?_eq_some_iff.1 hblock).1

theorem lastInFirstOut_of_card (h : body.WellFormed) (hcard : (droppable body).card ≤ 1) (order : HashOrder) :
    LastInFirstOut order body := by
  intro R ids locals _ hids hchain
  have hnew : DropsOnce body.blocks.length (insertDrops order body) := by
    have hstart : DropsOnce body.blocks.length body := fun b block hb hblock =>
      absurd (List.getElem?_eq_some_iff.1 hblock).1 (Nat.not_lt.2 hb)
    rcases Nat.le_one_iff_eq_zero_or_eq_one.1 hcard with hcard | hcard
    · rw [insertDrops_of_toDrop (List.length_eq_zero_iff.1 ((length_toDrop order body).trans hcard))]
      exact hstart
    · obtain ⟨l, hl⟩ := List.length_eq_one_iff.1 ((length_toDrop order body).trans hcard)
      unfold insertDrops
      rw [hl]
      exact dropsOnce_foldl _ _ hstart (Nat.le_refl _) fun R hR => returnBlocks_lt h hR
  have hlen := hnew.length_le hids hchain
  match locals, hlen with
  | [], _ => exact .nil
  | [_], _ => exact List.pairwise_singleton _ _

/-- The blocks of the insertion loop only grow in number. -/
theorem length_foldl_insertChain (locals : List LocalId) {n : Nat} :
    ∀ (rets : List BlockId) (B : Body), n ≤ B.blocks.length → (∀ R ∈ rets, R < n) →
      n ≤ (rets.foldl (insertChain locals) B).blocks.length := by
  intro rets
  induction rets with
  | nil => exact fun B hn _ => hn
  | cons R rets ih =>
    intro B hn hrets
    have hlen := (insertChain_round (B := B) locals ((hrets R List.mem_cons_self).trans_le hn)).1
    exact ih _ (hlen ▸ hn.trans (Nat.le_add_right _ _)) fun R' hR' => hrets R' (List.mem_cons_of_mem _ hR')

/-- The chain of the last return block is in the schedule as it was made. -/
theorem exists_chainAt (h : body.WellFormed) (hret : returnBlocks body ≠ []) (order : HashOrder) :
    ∃ R ∈ returnBlocks body, ∃ ids, (∀ b ∈ ids, body.blocks.length ≤ b) ∧
      ChainAt (insertDrops order body).blocks R ids (toDrop order body) := by
  obtain ⟨rets, R, hrets⟩ : ∃ rets R, returnBlocks body = rets ++ [R] :=
    ⟨_, _, (List.dropLast_append_getLast hret).symm⟩
  have hlt : ∀ R' ∈ rets ++ [R], R' < body.blocks.length := fun R' hR' => returnBlocks_lt h (hrets ▸ hR')
  have hle := length_foldl_insertChain (toDrop order body) rets body (Nat.le_refl _)
    fun R' hR' => hlt R' (List.mem_append_left _ hR')
  obtain ⟨-, -, hchain⟩ := insertChain_round (toDrop order body)
    ((hlt R (List.mem_append_right _ List.mem_cons_self)).trans_le hle)
  have hdrops : insertDrops order body =
      insertChain (toDrop order body) (rets.foldl (insertChain (toDrop order body)) body) R := by
    unfold insertDrops
    rw [hrets, List.foldl_append]
    rfl
  rw [hdrops]
  exact ⟨R, hrets ▸ List.mem_append_right _ List.mem_cons_self, _, fun b hb => hle.trans (mem_chainIds.1 hb).1, hchain⟩

/-- The ascending order hands out two locals in the order of their declarations. -/
theorem ascending_toDrop (body : Body) : (toDrop .ascending body).Pairwise (· < ·) :=
  (List.pairwise_lt_range.filter _).filter _

theorem not_lastInFirstOut (h : body.WellFormed) (hret : returnBlocks body ≠ []) (hcard : 1 < (droppable body).card) :
    ¬ LastInFirstOut .ascending body := by
  intro hlifo
  obtain ⟨R, hR, ids, hids, hchain⟩ := exists_chainAt h hret .ascending
  have hdesc := hlifo R ids _ hR hids hchain
  have hasc := ascending_toDrop body
  rw [← length_toDrop .ascending] at hcard
  match toDrop .ascending body, hcard, hdesc, hasc with
  | l :: m :: locals, _, hdesc, hasc =>
    have hgt : m < l := (List.pairwise_cons.1 hdesc).1 m List.mem_cons_self
    have hlt : l < m := (List.pairwise_cons.1 hasc).1 m List.mem_cons_self
    exact absurd hgt (Nat.lt_asymm hlt)

/-- **The drop order.** The chains of every hash order are in reverse declaration order, and so the same, just for the
bodies that have no return or at most one local to drop. -/
theorem drop_order_iff (body : Body) (h : body.WellFormed) :
    ((∀ order, LastInFirstOut order body) ∧ ∀ order order', insertDrops order body = insertDrops order' body) ↔
      returnBlocks body = [] ∨ (droppable body).card ≤ 1 := by
  constructor
  · rintro ⟨hlifo, -⟩
    by_contra hnot
    obtain ⟨hret, hcard⟩ := not_or.1 hnot
    exact not_lastInFirstOut h hret (Nat.not_le.1 hcard) (hlifo .ascending)
  · rintro (hret | hcard)
    · refine ⟨fun order R _ _ hR => ?_, fun order order' => ?_⟩
      · rw [hret] at hR
        exact absurd hR List.not_mem_nil
      · rw [insertDrops_of_returnBlocks hret, insertDrops_of_returnBlocks hret]
    · refine ⟨fun order => lastInFirstOut_of_card h hcard order, fun order order' => ?_⟩
      unfold insertDrops
      rw [toDrop_eq hcard order order']

theorem drop_order_stringLoop : (∀ order, LastInFirstOut order stringLoop) ∧
    ∀ order order', insertDrops order stringLoop = insertDrops order' stringLoop :=
  (drop_order_iff stringLoop (by decide)).2 (.inr (by decide))

/-- `let s = "a"; let t = "b"; return` behind a jump: two strings to drop. -/
def twoStrings : Body where
  defId := 0
  name := "two_strings"
  locals := [⟨0, "_return", .none, true, .synthetic, none⟩, ⟨1, "s", .str, true, .synthetic, none⟩,
    ⟨2, "t", .str, true, .synthetic, none⟩]
  blocks := [
    ⟨0, [⟨.assign (.ofLocal 1) (.use (.constant (.str "a"))), .synthetic⟩,
      ⟨.assign (.ofLocal 2) (.use (.constant (.str "b"))), .synthetic⟩], .goto 1, .synthetic⟩,
    ⟨1, [], .ret, .synthetic⟩]
  returnLocal := 0
  paramCount := 0
  span := .synthetic

/-- The schedule drops `s` before `t` when the hash set hands them out so. -/
theorem twoStrings_first_in_first_out : twoStrings.WellFormed ∧ ¬ LastInFirstOut .ascending twoStrings := by
  refine ⟨by decide, fun hlifo => ?_⟩
  have hchain : ChainAt (insertDrops .ascending twoStrings).blocks 1 [3, 2] [1, 2] :=
    ⟨⟨.synthetic, rfl⟩, ⟨.synthetic, rfl⟩, trivial⟩
  exact absurd (hlifo 1 [3, 2] [1, 2] (by decide) (by decide) hchain) (by decide)

/-! ## A second run -/

/-- `B'` has the locals and the returns of `B`, and moves nothing else. -/
structure Body.GrowsTo (B B' : Body) : Prop where
  locals : B'.locals = B.locals
  paramCount : B'.paramCount = B.paramCount
  returns : returnBlocks B' = returnBlocks B
  moved : globallyMoved B' ⊆ globallyMoved B
  length : B.blocks.length ≤ B'.blocks.length

theorem Body.GrowsTo.refl (B : Body) : B.GrowsTo B :=
  ⟨rfl, rfl, rfl, Finset.Subset.refl _, Nat.le_refl _⟩

theorem Body.GrowsTo.trans {A B C : Body} (h : A.GrowsTo B) (h' : B.GrowsTo C) : A.GrowsTo C where
  locals := h'.locals.trans h.locals
  paramCount := h'.paramCount.trans h.paramCount
  returns := h'.returns.trans h.returns
  moved := h'.moved.trans h.moved
  length := h.length.trans h'.length

theorem Body.GrowsTo.droppable {B B' : Body} (h : B.GrowsTo B') : droppable B ⊆ droppable B' := by
  have heligible : dropEligible B' = dropEligible B := by
    unfold dropEligible
    rw [h.locals, h.paramCount]
  unfold Mir.droppable
  rw [heligible]
  exact Finset.sdiff_subset_sdiff (Finset.Subset.refl _) h.moved

theorem growsTo_pushDrop (l : LocalId) (B : Body) (tail : BlockId) : B.GrowsTo (pushDrop l (B, tail)).1 where
  locals := rfl
  paramCount := rfl
  returns := by
    simp [pushDrop, returnBlocks]
  moved := by
    intro m hm
    obtain ⟨id, hid, hm⟩ := Finset.mem_biUnion.1 hm
    have htable : movedOutPerBlock (pushDrop l (B, tail)).1 =
        Function.update (movedOutPerBlock B) B.blocks.length ∅ := by
      simp [movedOutPerBlock, pushDrop, movedInBlock]
    rw [htable] at hm
    have hne : id ≠ B.blocks.length := by
      rintro rfl
      rw [Function.update_self] at hm
      exact absurd hm (Finset.notMem_empty m)
    rw [Function.update_of_ne hne] at hm
    refine Finset.mem_biUnion.2 ⟨id, ?_, hm⟩
    simp only [pushDrop, List.map_append, List.mem_toFinset, List.mem_append] at hid ⊢
    exact hid.resolve_right fun h => hne (List.mem_singleton.1 h)
  length := by
    simp [pushDrop]

theorem growsTo_foldr_pushDrop (locals : List LocalId) (B : Body) (target : BlockId) :
    B.GrowsTo (locals.foldr pushDrop (B, target)).1 := by
  induction locals with
  | nil => exact .refl B
  | cons l locals ih => exact ih.trans (growsTo_pushDrop l _ _)

/-- Rewiring keeps a block's id, its moves and whether it returns. -/
theorem movedInBlock_redirect (R head : BlockId) (block : BasicBlock) :
    movedInBlock (redirect R head block) = movedInBlock block := by
  unfold redirect
  split
  · rfl
  · cases hterm : block.terminator <;> simp [movedInBlock, rewireTerminator, hterm]

theorem id_redirect (R head : BlockId) (block : BasicBlock) : (redirect R head block).id = block.id := by
  unfold redirect
  split <;> rfl

theorem ret_redirect (R head : BlockId) (block : BasicBlock) :
    (redirect R head block).terminator = .ret ↔ block.terminator = .ret := by
  unfold redirect
  split
  · rfl
  · cases hterm : block.terminator <;> simp [rewireTerminator]

theorem growsTo_rewirePredecessors (B : Body) (R head : BlockId) : B.GrowsTo (rewirePredecessors B R head) := by
  unfold rewirePredecessors
  split
  · exact .refl B
  · have hblocks : (B.blocks.map fun block => if block.id = R then block
        else { block with terminator := rewireTerminator block.terminator R head }) = B.blocks.map (redirect R head) := rfl
    rw [hblocks]
    refine ⟨rfl, rfl, ?_, ?_, by rw [List.length_map]⟩
    · unfold returnBlocks
      rw [List.filterMap_map]
      refine List.filterMap_congr fun block _ => ?_
      have hret := ret_redirect R head block
      rw [Function.comp_apply, id_redirect]
      cases hterm : block.terminator <;> cases hterm' : (redirect R head block).terminator <;> simp_all
    · have hids : ((B.blocks.map (redirect R head)).map BasicBlock.id) = B.blocks.map BasicBlock.id := by
        rw [List.map_map]
        exact List.map_congr_left fun block _ => id_redirect R head block
      have htable : movedOutPerBlock { B with blocks := B.blocks.map (redirect R head) } = movedOutPerBlock B := by
        unfold movedOutPerBlock
        rw [List.foldl_map]
        simp only [id_redirect, movedInBlock_redirect]
      unfold globallyMoved
      rw [hids, htable]

theorem growsTo_insertChain (locals : List LocalId) (B : Body) (R : BlockId) : B.GrowsTo (insertChain locals B R) := by
  unfold insertChain buildDropChain
  cases hempty : locals.isEmpty with
  | true => exact .refl B
  | false => exact (growsTo_foldr_pushDrop locals B R).trans (growsTo_rewirePredecessors _ _ _)

theorem growsTo_foldl_insertChain (locals : List LocalId) :
    ∀ (rets : List BlockId) (B : Body), B.GrowsTo (rets.foldl (insertChain locals) B) := by
  intro rets
  induction rets with
  | nil => exact .refl
  | cons R rets ih => exact fun B => (growsTo_insertChain locals B R).trans (ih _)

theorem growsTo_insertDrops (order : HashOrder) (body : Body) : body.GrowsTo (insertDrops order body) :=
  growsTo_foldl_insertChain _ _ _

/-- With a return and a local to drop the schedule adds a block. -/
theorem length_insertDrops_lt (hret : returnBlocks body ≠ []) (hdrop : droppable body ≠ ∅) (order : HashOrder) :
    body.blocks.length < (insertDrops order body).blocks.length := by
  obtain ⟨l, hl⟩ := Finset.nonempty_iff_ne_empty.2 hdrop
  obtain ⟨R, rets, hrets⟩ := List.exists_cons_of_ne_nil hret
  have hne : toDrop order body ≠ [] := List.ne_nil_of_mem (mem_toDrop_iff.2 hl)
  unfold insertDrops
  rw [hrets, List.foldl_cons]
  refine Nat.lt_of_lt_of_le ?_ (growsTo_foldl_insertChain _ _ _).length
  unfold insertChain buildDropChain
  have hempty : (toDrop order body).isEmpty = false := List.isEmpty_eq_false_iff.2 hne
  simp only [hempty, Bool.false_eq_true, if_false]
  refine Nat.lt_of_lt_of_le ?_ (growsTo_rewirePredecessors _ _ _).length
  obtain ⟨new, hlen, hfold, -⟩ := foldr_pushDrop body R (toDrop order body)
  rw [hfold, List.length_append, hlen]
  exact Nat.lt_add_of_pos_right (List.length_pos_of_ne_nil hne)

/-- **A second run.** It succeeds and leaves the body as it is just for the bodies without a return or without a local
to drop. -/
theorem drop_again_iff (order order' : HashOrder) (body b' : Body) (fuel : Nat)
    (h : computeDropSchedule order body fuel = some (b', .ok ())) :
    (∃ fuel', computeDropSchedule order' b' fuel' = some (b', .ok ())) ↔
      returnBlocks body = [] ∨ droppable body = ∅ := by
  have hb' := computeDropSchedule_eq h
  constructor
  · rintro ⟨fuel', hagain⟩
    have hsame : b' = insertDrops order' b' := computeDropSchedule_eq hagain
    by_contra hnot
    obtain ⟨hret, hdrop⟩ := not_or.1 hnot
    have hgrows : body.GrowsTo b' := hb' ▸ growsTo_insertDrops order body
    have hret' : returnBlocks b' ≠ [] := by rwa [hgrows.returns]
    have hlt := length_insertDrops_lt hret'
      (fun hempty => hdrop (Finset.subset_empty.1 (hempty ▸ hgrows.droppable))) order'
    rw [← hsame] at hlt
    exact Nat.lt_irrefl _ hlt
  · intro hcond
    have hsame : ∀ order, insertDrops order body = body := by
      intro order
      rcases hcond with hret | hdrop
      · exact insertDrops_of_returnBlocks hret
      · refine insertDrops_of_toDrop (List.length_eq_zero_iff.1 ?_)
        rw [length_toDrop, hdrop]
        rfl
    rw [hsame order] at hb'
    subst hb'
    refine ⟨fuel, ?_⟩
    unfold computeDropSchedule at h ⊢
    rw [hsame order] at h
    rw [hsame order']
    exact h

/-- A body that only returns. -/
def emptyReturn : Body :=
  { stringLoop with locals := [⟨0, "_return", .none, true, .synthetic, none⟩], blocks := [⟨0, [], .ret, .synthetic⟩] }

theorem drop_again_emptyReturn :
    ∃ fuel', computeDropSchedule .ascending emptyReturn fuel' = some (emptyReturn, .ok ()) :=
  (drop_again_iff .ascending .ascending emptyReturn emptyReturn 4 rfl).2 (.inr (by decide))

/-- The second run over a scheduled loop inserts the drop of `s` once more. -/
theorem stringLoop_dropped_again :
    computeDropSchedule .ascending stringLoop 8 = some (insertDrops .ascending stringLoop, .ok ()) ∧
      ¬ ∃ fuel', computeDropSchedule .ascending (insertDrops .ascending stringLoop) fuel' =
        some (insertDrops .ascending stringLoop, .ok ()) := by
  refine ⟨rfl, fun ⟨fuel', hagain⟩ => ?_⟩
  have hlen := congrArg (fun B => B.blocks.length) (computeDropSchedule_eq hagain)
  exact absurd hlen (by decide)

end Cobrust.Mir
