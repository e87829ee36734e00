import Cobrust.Dataflow.Subdivision
import Cobrust.Mir.Drop

/-!
# The shape of a scheduled body

The insertion loop of `compute_drop_schedule` appends one chain of drop blocks for each return block
and redirects the edges that enter it to the head of its chain. `Scheduled` is the invariant of the
loop, relative to the body before it and the return blocks treated so far: `insertChain` treats one
more (`Scheduled.insertChain`), so the result has a chain for every return block
(`insertDrops_scheduled`).
-/

namespace Cobrust.Mir

open Dataflow

/-! ## Redirecting edges -/

/-- Redirect the edges of a terminator. -/
def Terminator.retarget (σ : BlockId → BlockId) : Terminator → Terminator
  | goto t => goto (σ t)
  | switchInt operand cases otherwise =>
    switchInt operand (cases.map fun c => (c.1, σ c.2)) (σ otherwise)
  | call func args destination target unwind =>
    call func args destination (σ target) (unwind.map σ)
  | drop place target => drop place (σ target)
  | assert cond expected msg target => assert cond expected msg (σ target)
  | ret => ret
  | unreachable => unreachable

def Terminator.IsDrop : Terminator → Prop
  | drop _ _ => True
  | _ => False

instance (t : Terminator) : Decidable t.IsDrop := by
  cases t <;> unfold Terminator.IsDrop <;> infer_instance

/-- No block drops anything. -/
def Body.DropFree (body : Body) : Prop :=
  ∀ block ∈ body.blocks, ¬ block.terminator.IsDrop

instance (body : Body) : Decidable body.DropFree :=
  inferInstanceAs (Decidable (∀ block ∈ body.blocks, ¬ block.terminator.IsDrop))

theorem Body.DropFree.of_getElem? {body : Body} (h : body.DropFree) {b : BlockId}
    {block : BasicBlock} (hb : body.blocks[b]? = some block) : ¬ block.terminator.IsDrop :=
  h block (List.mem_of_getElem? hb)

namespace Terminator

@[simp] theorem retarget_id (t : Terminator) : t.retarget (fun b => b) = t := by
  cases t <;> simp [retarget]

theorem retarget_retarget (σ τ : BlockId → BlockId) (t : Terminator) :
    (t.retarget σ).retarget τ = t.retarget fun b => τ (σ b) := by
  cases t <;> simp [retarget, Function.comp_def]

@[simp] theorem successors_retarget (σ : BlockId → BlockId) (t : Terminator) :
    (t.retarget σ).successors = t.successors.map σ := by
  cases t with
  | call func args destination target unwind => cases unwind <;> simp [retarget, successors]
  | switchInt operand cases otherwise => simp [retarget, successors]
  | _ => simp [retarget, successors]

@[simp] theorem retarget_ret_iff {σ : BlockId → BlockId} {t : Terminator} :
    t.retarget σ = ret ↔ t = ret := by
  cases t <;> simp [retarget]

theorem isDrop_retarget {σ : BlockId → BlockId} {t : Terminator} :
    (t.retarget σ).IsDrop ↔ t.IsDrop := by
  cases t <;> simp [retarget, IsDrop]

end Terminator

theorem rewireTerminator_eq {term : Terminator} {source dest : BlockId} (h : ¬ term.IsDrop) :
    rewireTerminator term source dest =
      term.retarget fun b => if b = source then dest else b := by
  cases term with
  | drop place target => exact absurd trivial h
  | _ => rfl

theorem rewireTerminator_self (term : Terminator) (b : BlockId) :
    rewireTerminator term b b = term := by
  by_cases h : term.IsDrop
  · cases term with
    | drop place target => rfl
    | _ => exact h.elim
  · have hid : (fun c : BlockId => if c = b then b else c) = fun c => c := by
      funext c
      split
      · next hc => exact hc.symm
      · rfl
    rw [rewireTerminator_eq h, hid, Terminator.retarget_id]

/-! ## Chains of drop blocks -/

/-- The blocks `ids` drop the locals in turn and go on to `target`. -/
def ChainAt (blocks : List BasicBlock) (target : BlockId) : List BlockId → List LocalId → Prop
  | [], [] => True
  | b :: ids, l :: locals =>
    (∃ span, blocks[b]? = some ⟨b, [], .drop (.ofLocal l) (ids.headD target), span⟩) ∧
      ChainAt blocks target ids locals
  | _, _ => False

theorem ChainAt.congr {blocks blocks' : List BasicBlock} {target : BlockId} :
    ∀ {ids : List BlockId} {locals : List LocalId},
      (∀ b ∈ ids, ∀ l t span, blocks[b]? = some ⟨b, [], .drop (.ofLocal l) t, span⟩ →
        blocks'[b]? = some ⟨b, [], .drop (.ofLocal l) t, span⟩) →
      ChainAt blocks target ids locals → ChainAt blocks' target ids locals := by
  intro ids
  induction ids with
  | nil => intro locals _ h; cases locals <;> exact h
  | cons b ids ih =>
    intro locals hb h
    cases locals with
    | nil => exact h
    | cons l locals =>
      obtain ⟨⟨span, hspan⟩, h⟩ := h
      exact ⟨⟨span, hb b List.mem_cons_self _ _ _ hspan⟩,
        ih (fun c hc => hb c (List.mem_cons_of_mem _ hc)) h⟩

/-- The ids of a chain of `k` blocks made when the body has `n` blocks, from head to tail. -/
def chainIds (n k : Nat) : List BlockId := (List.range' n k).reverse

@[simp] theorem mem_chainIds {n k b : Nat} : b ∈ chainIds n k ↔ n ≤ b ∧ b < n + k := by
  simp [chainIds, List.mem_range'_1]

theorem chainIds_succ (n k : Nat) : chainIds n (k + 1) = (n + k) :: chainIds n k := by
  simp [chainIds, List.range'_1_concat]

theorem nodup_chainIds (n k : Nat) : (chainIds n k).Nodup :=
  List.nodup_reverse.2 List.nodup_range'

theorem foldr_pushDrop (body : Body) (target : BlockId) (locals : List LocalId) :
    ∃ new : List BasicBlock, new.length = locals.length ∧
      locals.foldr pushDrop (body, target) = ({ body with blocks := body.blocks ++ new },
        (chainIds body.blocks.length locals.length).headD target) ∧
      ChainAt (body.blocks ++ new) target (chainIds body.blocks.length locals.length) locals := by
  induction locals with
  | nil => exact ⟨[], rfl, by simp [chainIds], trivial⟩
  | cons l locals ih =>
    obtain ⟨new, hlen, hfold, hchain⟩ := ih
    let tail := (chainIds body.blocks.length locals.length).headD target
    let head := body.blocks.length + locals.length
    let block : BasicBlock := ⟨head, [], .drop (.ofLocal l) tail, body.span⟩
    refine ⟨new ++ [block], by simp [hlen], ?_, ?_⟩
    · rw [List.foldr_cons, hfold, List.length_cons, chainIds_succ]
      simp [pushDrop, hlen, block, head, tail]
    · rw [List.length_cons, chainIds_succ, ← List.append_assoc]
      have hlen' : (body.blocks ++ new).length = head := by simp [head, hlen]
      refine ⟨⟨body.span, ?_⟩, ?_⟩
      · rw [List.getElem?_append_right (by omega)]
        simp [hlen', head, block, tail]
      · refine hchain.congr fun b _ l t span hb => ?_
        have hlt := (List.getElem?_eq_some_iff.1 hb).1
        rw [List.getElem?_append_left hlt, hb]

theorem ChainAt.block {blocks : List BasicBlock} {target : BlockId} :
    ∀ {pre suf : List BlockId} {b : BlockId} {locals : List LocalId},
      ChainAt blocks target (pre ++ b :: suf) locals →
      ∃ l ∈ locals, ∃ span,
        blocks[b]? = some ⟨b, [], .drop (.ofLocal l) (suf.headD target), span⟩ := by
  intro pre
  induction pre with
  | nil =>
    intro suf b locals h
    cases locals with
    | nil => exact h.elim
    | cons l locals =>
      obtain ⟨⟨span, hspan⟩, -⟩ := h
      exact ⟨l, List.mem_cons_self, span, hspan⟩
  | cons c pre ih =>
    intro suf b locals h
    cases locals with
    | nil => exact h.elim
    | cons l locals =>
      obtain ⟨k, hk, hspan⟩ := ih h.2
      exact ⟨k, List.mem_cons_of_mem _ hk, hspan⟩

theorem ChainAt.id_of_mem {blocks : List BasicBlock} {target : BlockId} {ids : List BlockId}
    {locals : List LocalId} (h : ChainAt blocks target ids locals) {b : BlockId} (hb : b ∈ ids)
    {block : BasicBlock} (hblock : blocks[b]? = some block) : block.id = b := by
  obtain ⟨pre, suf, rfl⟩ := List.append_of_mem hb
  obtain ⟨l, -, span, hget⟩ := h.block
  rw [hget, Option.some.injEq] at hblock
  rw [← hblock]

theorem ChainAt.length_eq {blocks : List BasicBlock} {target : BlockId} :
    ∀ {ids : List BlockId} {locals : List LocalId}, ChainAt blocks target ids locals →
      ids.length = locals.length := by
  intro ids
  induction ids with
  | nil =>
    intro locals h
    cases locals with
    | nil => rfl
    | cons l locals => exact h.elim
  | cons b ids ih =>
    intro locals h
    cases locals with
    | nil => exact h.elim
    | cons l locals => rw [List.length_cons, List.length_cons, ih h.2]

/-- The edges of a block to `R` now enter `head`; `R` itself is left alone. -/
def redirect (R head : BlockId) (block : BasicBlock) : BasicBlock :=
  if block.id = R then block
  else { block with terminator := rewireTerminator block.terminator R head }

/-- What one round of the insertion loop makes of a body: a new chain at the end, and every old block
with its edges to `R` redirected to the head of the chain. -/
theorem insertChain_round {B : Body} {R : BlockId} (locals : List LocalId)
    (hR : R < B.blocks.length) :
    (insertChain locals B R).blocks.length = B.blocks.length + locals.length ∧
    (∀ (b : BlockId) (block : BasicBlock), B.blocks[b]? = some block →
      (insertChain locals B R).blocks[b]? = some
        (redirect R ((chainIds B.blocks.length locals.length).headD R) block)) ∧
    ChainAt (insertChain locals B R).blocks R (chainIds B.blocks.length locals.length) locals := by
  cases locals with
  | nil =>
    refine ⟨rfl, fun b block hb => ?_, trivial⟩
    have hhead : (chainIds B.blocks.length ([] : List LocalId).length).headD R = R := rfl
    rw [hhead, redirect, rewireTerminator_self, ite_self]
    exact hb
  | cons l ls =>
    obtain ⟨new, hlen, hfold, hnew⟩ := foldr_pushDrop B R (l :: ls)
    let head := (chainIds B.blocks.length (l :: ls).length).headD R
    have hhead : head = B.blocks.length + ls.length := by
      simp only [head, List.length_cons, chainIds_succ, List.headD_cons]
    have hne : R ≠ head := by
      rw [hhead]
      exact Nat.ne_of_lt (Nat.lt_add_right _ hR)
    have hblocks : (insertChain (l :: ls) B R).blocks =
        (B.blocks ++ new).map (redirect R head) := by
      simp only [insertChain, buildDropChain, List.isEmpty_cons, Bool.false_eq_true, if_false,
        hfold, rewirePredecessors]
      rw [if_neg hne]
      rfl
    rw [hblocks]
    refine ⟨by simp [hlen], fun b block hb => ?_, hnew.congr fun b hb c t span hget => ?_⟩
    · have hlt := (List.getElem?_eq_some_iff.1 hb).1
      rw [List.getElem?_map, List.getElem?_append_left hlt, hb, Option.map_some]
    · have hbR : b ≠ R := Nat.ne_of_gt (Nat.lt_of_lt_of_le hR (mem_chainIds.1 hb).1)
      rw [List.getElem?_map, hget, Option.map_some, redirect]
      simp only [if_neg hbR]
      rfl

/-- The chains of the blocks of `done` share out the ids from `n` to `m`. -/
structure ChainTable (n m : Nat) (done : List Nat) (chain : Nat → List Nat) : Prop where
  unchained : ∀ R, R ∉ done → chain R = []
  inserted : ∀ R, ∀ b ∈ chain R, n ≤ b ∧ b < m
  covered : ∀ b, n ≤ b → b < m → ∃ R ∈ done, b ∈ chain R
  nodup : ∀ R, (chain R).Nodup
  disjoint : ∀ R R' b, b ∈ chain R → b ∈ chain R' → R = R'

theorem chainTable_nil (n : Nat) : ChainTable n n [] fun _ => [] where
  unchained := fun _ _ => rfl
  inserted := by simp
  covered := by
    intro b h₁ h₂
    omega
  nodup := by simp
  disjoint := by simp

theorem ChainTable.update {n m : Nat} {done : List Nat} {chain : Nat → List Nat}
    (h : ChainTable n m done chain) (hle : n ≤ m) {R : Nat} (hR : R ∉ done) (k : Nat) :
    ChainTable n (m + k) (R :: done) (Function.update chain R (chainIds m k)) where
  unchained := by
    intro R' hR'
    have hne : R' ≠ R := fun e => hR' (by simp [e])
    rw [Function.update_of_ne hne]
    exact h.unchained R' fun hd => hR' (List.mem_cons_of_mem _ hd)
  inserted := by
    intro R' b hb
    by_cases hne : R' = R
    · subst hne
      rw [Function.update_self, mem_chainIds] at hb
      omega
    · rw [Function.update_of_ne hne] at hb
      have hold := h.inserted R' b hb
      omega
  covered := by
    intro b h₁ h₂
    rcases Nat.lt_or_ge b m with hb | hb
    · obtain ⟨R', hR', hmem⟩ := h.covered b h₁ hb
      have hne : R' ≠ R := fun e => hR (e ▸ hR')
      exact ⟨R', List.mem_cons_of_mem _ hR', by rwa [Function.update_of_ne hne]⟩
    · refine ⟨R, List.mem_cons_self, ?_⟩
      rw [Function.update_self, mem_chainIds]
      exact ⟨hb, h₂⟩
  nodup := by
    intro R'
    by_cases hne : R' = R
    · subst hne
      rw [Function.update_self]
      exact nodup_chainIds m k
    · rw [Function.update_of_ne hne]
      exact h.nodup R'
  disjoint := by
    intro R₁ R₂ b h₁ h₂
    have hfresh : ∀ R', b ∈ chain R' → b ∉ chainIds m k := by
      intro R' hb hmem
      have hlt := (h.inserted R' b hb).2
      have hge := (mem_chainIds.1 hmem).1
      omega
    by_cases e₁ : R₁ = R <;> by_cases e₂ : R₂ = R
    · rw [e₁, e₂]
    · rw [e₁, Function.update_self] at h₁
      rw [Function.update_of_ne e₂] at h₂
      exact absurd h₁ (hfresh R₂ h₂)
    · rw [e₂, Function.update_self] at h₂
      rw [Function.update_of_ne e₁] at h₁
      exact absurd h₂ (hfresh R₁ h₁)
    · rw [Function.update_of_ne e₁] at h₁
      rw [Function.update_of_ne e₂] at h₂
      exact h.disjoint R₁ R₂ b h₁ h₂

/-- `B` is the body `body` with a chain of drops in front of each block of `done`. -/
structure Scheduled (body : Body) (locals : List LocalId) (done : List BlockId)
    (chain : BlockId → List BlockId) (B : Body) : Prop where
  length_le : body.blocks.length ≤ B.blocks.length
  ids : ∀ (b : BlockId) (block : BasicBlock), B.blocks[b]? = some block → block.id = b
  original : ∀ (b : BlockId) (block : BasicBlock), body.blocks[b]? = some block →
    B.blocks[b]? = some { block with terminator := block.terminator.retarget (enter chain) }
  chains : ∀ R ∈ done, ChainAt B.blocks R (chain R) locals
  table : ChainTable body.blocks.length B.blocks.length done chain

theorem scheduled_start {body : Body} (h : body.WellFormed) (locals : List LocalId) :
    Scheduled body locals [] (fun _ => []) body where
  length_le := le_rfl
  ids := h.ids
  original := by
    intro b block hb
    have hid : enter (fun _ => []) = fun b : BlockId => b := rfl
    rw [hb, hid, Terminator.retarget_id]
  chains := by simp
  table := chainTable_nil _

/-- The rerouted terminators of one more round are those of the larger chain table. -/
theorem enter_update {chain : Nat → List Nat} {R n k m : Nat} (hR : chain R = [])
    (hlt : R < n) (hchain : ∀ t, ∀ b ∈ chain t, n ≤ b) :
    (fun t => if enter chain t = R then (chainIds m k).headD R else enter chain t) =
      enter (Function.update chain R (chainIds m k)) := by
  funext t
  by_cases ht : t = R
  · subst ht
    simp [enter, hR]
  · have hne : enter chain t ≠ R := by
      unfold enter
      cases hc : chain t with
      | nil => simpa using ht
      | cons b ids =>
        have hb : n ≤ b := hchain t b (by simp [hc])
        intro e
        rw [List.headD_cons] at e
        rw [e] at hb
        omega
    rw [if_neg hne]
    simp [enter, Function.update_of_ne ht]

theorem Scheduled.insertChain {body B : Body} {locals : List LocalId} {done : List BlockId}
    {chain : BlockId → List BlockId} (h : Scheduled body locals done chain B)
    (hfree : body.DropFree) {R : BlockId} {block : BasicBlock}
    (hblock : body.blocks[R]? = some block) (hret : block.terminator = .ret) (hR : R ∉ done) :
    Scheduled body locals (R :: done)
      (Function.update chain R (chainIds B.blocks.length locals.length))
      (insertChain locals B R) := by
  have hRlt : R < body.blocks.length := (List.getElem?_eq_some_iff.1 hblock).1
  have hle := h.length_le
  obtain ⟨hlen, hold, hnew⟩ := insertChain_round locals (Nat.lt_of_lt_of_le hRlt hle)
  refine ⟨by omega, fun b c hc => ?_, fun b c hc => ?_, fun R' hR' => ?_, ?_⟩
  · rcases Nat.lt_or_ge b B.blocks.length with hb | hb
    · have hget := List.getElem?_eq_getElem hb
      rw [hold b _ hget, Option.some.injEq] at hc
      have hid := h.ids b _ hget
      rw [← hc, redirect]
      split
      · exact hid
      · exact hid
    · have hlt := (List.getElem?_eq_some_iff.1 hc).1
      refine hnew.id_of_mem ?_ hc
      rw [mem_chainIds]
      omega
  · rw [hold b _ (h.original b c hc), redirect]
    have hid : c.id = b :=
      h.ids b { c with terminator := c.terminator.retarget (enter chain) } (h.original b c hc)
    simp only [hid]
    by_cases hbR : b = R
    · subst hbR
      rw [hblock, Option.some.injEq] at hc
      subst hc
      simp [hret, Terminator.retarget]
    · have hnodrop := hfree.of_getElem? hc
      rw [if_neg hbR, rewireTerminator_eq (mt Terminator.isDrop_retarget.1 hnodrop),
        Terminator.retarget_retarget,
        enter_update (h.table.unchained R hR) hRlt fun t b hb => (h.table.inserted t b hb).1]
  · by_cases hRR : R' = R
    · subst hRR
      rw [Function.update_self]
      exact hnew
    · rw [Function.update_of_ne hRR]
      have hdone : R' ∈ done := (List.mem_cons.1 hR').resolve_left hRR
      refine (h.chains R' hdone).congr fun b hb c t span hget => ?_
      have hbR : b ≠ R := Nat.ne_of_gt (Nat.lt_of_lt_of_le hRlt (h.table.inserted R' b hb).1)
      rw [hold b _ hget, redirect]
      simp only [if_neg hbR]
      rfl
  · rw [hlen]
    exact h.table.update hle hR _

theorem mem_returnBlocks {body : Body} (h : body.WellFormed) {R : BlockId} :
    R ∈ returnBlocks body ↔ ∃ block, body.blocks[R]? = some block ∧ block.terminator = .ret := by
  unfold returnBlocks
  rw [List.mem_filterMap]
  constructor
  · rintro ⟨block, hmem, hret⟩
    obtain ⟨b, hb⟩ := List.getElem?_of_mem hmem
    have hid := h.ids b block hb
    cases ht : block.terminator with
    | ret =>
      simp only [ht, Option.some.injEq] at hret
      exact ⟨block, by rw [← hret, hid]; exact hb, ht⟩
    | _ => simp [ht] at hret
  · rintro ⟨block, hb, hret⟩
    exact ⟨block, List.mem_of_getElem? hb, by simp [hret, h.ids R block hb]⟩

theorem nodup_returnBlocks {body : Body} (h : body.WellFormed) : (returnBlocks body).Nodup := by
  have hids : (body.blocks.map BasicBlock.id).Nodup := by
    rw [(Body.wellFormed_iff.1 h).1]
    exact List.nodup_range
  refine hids.sublist ?_
  rw [← List.filterMap_eq_map]
  unfold returnBlocks
  generalize body.blocks = blocks
  induction blocks with
  | nil => exact .slnil
  | cons block blocks ih =>
    rw [List.filterMap_cons_some (f := some ∘ BasicBlock.id) rfl]
    cases ht : block.terminator with
    | ret =>
      rw [List.filterMap_cons_some (b := block.id) (by simp [ht])]
      exact ih.cons_cons _
    | _ =>
      rw [List.filterMap_cons_none (by simp [ht])]
      exact ih.cons _

theorem foldl_insertChain {body : Body} {locals : List LocalId} (hfree : body.DropFree) :
    ∀ (rets : List BlockId) {done : List BlockId} {chain : BlockId → List BlockId} {B : Body},
      (∀ R ∈ rets, ∃ block, body.blocks[R]? = some block ∧ block.terminator = .ret) →
      rets.Nodup → (∀ R ∈ rets, R ∉ done) → Scheduled body locals done chain B →
      ∃ chain' done', (∀ R, R ∈ done' ↔ R ∈ done ∨ R ∈ rets) ∧
        Scheduled body locals done' chain' (rets.foldl (insertChain locals) B) := by
  intro rets
  induction rets with
  | nil =>
    intro done chain B _ _ _ h
    exact ⟨chain, done, by simp, h⟩
  | cons R rets ih =>
    intro done chain B hrets hnodup hnew h
    obtain ⟨block, hblock, hret⟩ := hrets R List.mem_cons_self
    have hround := h.insertChain hfree hblock hret (hnew R List.mem_cons_self)
    obtain ⟨hR, hnodup⟩ := List.nodup_cons.1 hnodup
    have hnew' : ∀ R' ∈ rets, R' ∉ R :: done := by
      intro R' hR' hmem
      rcases List.mem_cons.1 hmem with rfl | hmem
      · exact hR hR'
      · exact hnew R' (List.mem_cons_of_mem _ hR') hmem
    obtain ⟨chain', done', hdone, hsched⟩ := ih
      (fun R' hR' => hrets R' (List.mem_cons_of_mem _ hR')) hnodup hnew' hround
    refine ⟨chain', done', fun R' => ?_, hsched⟩
    rw [hdone, List.mem_cons, List.mem_cons]
    tauto

/-- A return block of the body. -/
def Body.ReturnsAt (body : Body) (R : BlockId) : Prop :=
  ∃ block, body.blocks[R]? = some block ∧ block.terminator = .ret

/-- After the insertion loop every return block has its chain. -/
theorem insertDrops_scheduled (order : HashOrder) {body : Body} (h : body.WellFormed)
    (hfree : body.DropFree) : ∃ chain done, (∀ R, R ∈ done ↔ body.ReturnsAt R) ∧
      Scheduled body (toDrop order body) done chain (insertDrops order body) := by
  obtain ⟨chain, done, hdone, hsched⟩ := foldl_insertChain hfree (returnBlocks body)
    (fun R hR => (mem_returnBlocks h).1 hR) (nodup_returnBlocks h) (by simp)
    (scheduled_start h (toDrop order body))
  refine ⟨chain, done, fun R => ?_, hsched⟩
  rw [hdone, mem_returnBlocks h]
  simp [Body.ReturnsAt]

end Cobrust.Mir
