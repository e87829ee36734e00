import Cobrust.Mir.DropShape
import Mathlib.Order.Lattice.Nat

/-!
# Drop insertion preserves the control flow

A scheduled body subdivides the edges of the original one (`Scheduled.subdivision`), so its paths are
the original paths with a drop chain in front of each return block that they enter
(`computeDropSchedule_simulates`).
-/

namespace Cobrust.Mir

open Dataflow

/-! ## Paths -/

/-- A finite path from block 0 that cannot be continued. -/
def Body.IsMaximal (body : Body) (path : List BlockId) : Prop :=
  body.IsPath path ∧ ∀ b, path.getLast? = some b → body.successors b = []

def Body.IsInfinitePath (body : Body) (s : Nat → BlockId) : Prop :=
  s 0 = 0 ∧ ∀ k, s (k + 1) ∈ body.successors (s k)

/-- The blocks of a path that the original body already has. -/
def Body.originals (body : Body) (path : List BlockId) : List BlockId :=
  path.filter fun b => decide (b < body.blocks.length)

theorem Body.IsPath.ne_nil {body : Body} {path : List BlockId} (h : body.IsPath path) :
    path ≠ [] := by
  intro e
  have hhead := h.1
  simp [e] at hhead

theorem Body.IsPath.zero_lt {body : Body} {path : List BlockId} (h : body.IsPath path) :
    0 < body.blocks.length :=
  h.2.2 0 (List.mem_of_mem_head? h.1)

theorem Body.ReturnsAt.successors {body : Body} {R : BlockId} (h : body.ReturnsAt R) :
    body.successors R = [] := by
  obtain ⟨block, hblock, hret⟩ := h
  rw [Body.successors_eq hblock, hret]
  rfl

theorem Body.ReturnsAt.lt {body : Body} {R : BlockId} (h : body.ReturnsAt R) :
    R < body.blocks.length := by
  obtain ⟨block, hblock, -⟩ := h
  exact (List.getElem?_eq_some_iff.1 hblock).1

namespace Scheduled

variable {body B : Body} {locals : List LocalId} {done : List BlockId}
  {chain : BlockId → List BlockId}

theorem done_of_mem_chain (h : Scheduled body locals done chain B) {R b : BlockId}
    (hb : b ∈ chain R) : R ∈ done := by
  by_contra hR
  rw [h.table.unchained R hR] at hb
  cases hb

theorem chain_block (h : Scheduled body locals done chain B) {R b : BlockId}
    {pre suf : List BlockId} (hc : chain R = pre ++ b :: suf) :
    ∃ l ∈ locals, ∃ span,
      B.blocks[b]? = some ⟨b, [], .drop (.ofLocal l) (suf.headD R), span⟩ := by
  have hR : R ∈ done := h.done_of_mem_chain (b := b) (by simp [hc])
  have hchain := h.chains R hR
  rw [hc] at hchain
  exact hchain.block

theorem subdivision (h : Scheduled body locals done chain B) (hrange : body.TargetsInRange) :
    Subdivision body.successors B.successors chain (· < body.blocks.length) where
  succ_old := by
    intro b hb
    have hblock := List.getElem?_eq_getElem hb
    rw [Body.successors_eq hblock, Body.successors_eq (h.original b _ hblock),
      Terminator.successors_retarget]
  closed := fun b _ t ht => hrange b t ht
  succ_chain := by
    intro t pre b suf hc
    obtain ⟨l, -, span, hblock⟩ := h.chain_block hc
    rw [Body.successors_eq hblock]
    rfl
  fresh := fun t b hb => Nat.not_lt.2 (h.table.inserted t b hb).1

theorem returnsAt_iff (h : Scheduled body locals done chain B) {R : BlockId}
    (hR : R < body.blocks.length) : B.ReturnsAt R ↔ body.ReturnsAt R := by
  have hblock := List.getElem?_eq_getElem hR
  have hblock' := h.original R _ hblock
  constructor
  · rintro ⟨block, hget, hret⟩
    rw [hblock', Option.some.injEq] at hget
    subst hget
    exact ⟨_, hblock, Terminator.retarget_ret_iff.1 hret⟩
  · rintro ⟨block, hget, hret⟩
    rw [hblock, Option.some.injEq] at hget
    subst hget
    exact ⟨_, hblock', Terminator.retarget_ret_iff.2 hret⟩

/-- The two readings of a path of the scheduled body. -/
theorem path_cases (h : Scheduled body locals done chain B) (hrange : body.TargetsInRange)
    {path : List BlockId} (hp : B.IsPath path) (hne : 0 < body.blocks.length) :
    ∃ p pre suf last R, body.IsPath p ∧ p.getLast? = some last ∧ path = expand chain p ++ pre ∧
      (pre ≠ [] → R ∈ body.successors last ∧ chain R = pre ++ suf) := by
  have hsub := h.subdivision hrange
  obtain ⟨p, pre, suf, last, R, hhead, hlast, hchain, hpath, hpre⟩ :=
    hsub.exists_expand (e := 0) hne path hp.1 hp.2.1
  refine ⟨p, pre, suf, last, R, ⟨hhead, hchain, ?_⟩, hlast, hpath, hpre⟩
  cases p with
  | nil => cases hhead
  | cons e p =>
    obtain rfl : e = 0 := by simpa using hhead
    exact hsub.old_of_isChain hne hchain

theorem originals_expand_self (h : Scheduled body locals done chain B)
    (hrange : body.TargetsInRange) {p : List BlockId} (hp : body.IsPath p) :
    body.originals (expand chain p) = p :=
  (h.subdivision hrange).filter_expand hp.2.2

theorem originals_expand (h : Scheduled body locals done chain B) (hrange : body.TargetsInRange)
    {p pre suf : List BlockId} {R : BlockId} (hp : body.IsPath p)
    (hpre : pre ≠ [] → chain R = pre ++ suf) : body.originals (expand chain p ++ pre) = p := by
  have hself := h.originals_expand_self hrange hp
  unfold Body.originals at hself ⊢
  rw [List.filter_append, hself]
  by_cases hnil : pre = []
  · simp [hnil]
  · rw [(h.subdivision hrange).filter_chain (hpre hnil), List.append_nil]

theorem isPath_expand (h : Scheduled body locals done chain B) (hrange : body.TargetsInRange)
    {p : List BlockId} (hp : body.IsPath p) : B.IsPath (expand chain p) := by
  refine ⟨by rw [head?_expand]; exact hp.1, ?_, ?_⟩
  · cases p with
    | nil => exact .nil
    | cons e p =>
      exact (h.subdivision hrange).isChain_expand (hp.2.2 e List.mem_cons_self) hp.2.1
  · intro b hb
    have hmem : b ∈ p ∨ ∃ c, b ∈ chain c := by
      cases p with
      | nil => simp [expand] at hb
      | cons e p =>
        simp only [expand, List.mem_cons, List.mem_flatMap, List.mem_append, List.not_mem_nil,
          or_false] at hb ⊢
        rcases hb with rfl | ⟨c, hc, hb | rfl⟩
        · exact .inl (.inl rfl)
        · exact .inr ⟨c, hb⟩
        · exact .inl (.inr hc)
    rcases hmem with hb | ⟨c, hb⟩
    · exact Nat.lt_of_lt_of_le (hp.2.2 b hb) h.length_le
    · exact (h.table.inserted c b hb).2

/-- A scheduled path that ends at an original block is an expansion. -/
theorem path_eq_expand (h : Scheduled body locals done chain B) (hrange : body.TargetsInRange)
    {path : List BlockId} (hp : B.IsPath path) (hne : 0 < body.blocks.length) {last : BlockId}
    (hlast : path.getLast? = some last) (hnodrop : ∀ R, last ∉ chain R) :
    ∃ p, body.IsPath p ∧ path = expand chain p ∧ p.getLast? = some last := by
  obtain ⟨p, pre, suf, last', R, hpath, -, rfl, hpre⟩ := h.path_cases hrange hp hne
  by_cases hnil : pre = []
  · subst hnil
    rw [List.append_nil] at hlast ⊢
    exact ⟨p, hpath, rfl, by rwa [getLast?_expand] at hlast⟩
  · rw [List.getLast?_append_of_ne_nil _ hnil] at hlast
    have hmem := List.mem_of_getLast? hlast
    exact absurd (show last ∈ chain R by rw [(hpre hnil).2]; exact List.mem_append_left _ hmem)
      (hnodrop R)

theorem zero_lt (h : Scheduled body locals done chain B)
    (hdone : ∀ R, R ∈ done ↔ body.ReturnsAt R) (hB : 0 < B.blocks.length) :
    0 < body.blocks.length := by
  by_contra hne
  obtain ⟨R, hR, -⟩ := h.table.covered 0 (by omega) hB
  have hlt := ((hdone R).1 hR).lt
  exact hne (Nat.zero_lt_of_lt hlt)

/-- A path that enters no return block is its own expansion. -/
theorem expand_eq_self {path : List BlockId} (h : ∀ b ∈ path, chain b = []) :
    expand chain path = path := by
  cases path with
  | nil => rfl
  | cons e path =>
    have hrest : (path.flatMap fun c => chain c ++ [c]) = path := by
      have hpath : ∀ b ∈ path, chain b = [] := fun b hb => h b (List.mem_cons_of_mem _ hb)
      clear h
      induction path with
      | nil => rfl
      | cons c path ih =>
        rw [List.flatMap_cons, hpath c List.mem_cons_self,
          ih fun b hb => hpath b (List.mem_cons_of_mem _ hb)]
        rfl
    simp [expand, hrest]

/-- Before its last block an original path meets no return block, hence no chain. -/
theorem chain_of_mem_init (h : Scheduled body locals done chain B)
    (hdone : ∀ R, R ∈ done ↔ body.ReturnsAt R) {p : List BlockId} {last : BlockId}
    (hp : body.IsPath (p ++ [last])) : ∀ b ∈ p, chain b = [] := by
  intro b hb
  apply h.table.unchained
  intro hR
  obtain ⟨pre, suf, rfl⟩ := List.append_of_mem hb
  have hchain := hp.2.1
  rw [List.append_assoc, List.cons_append] at hchain
  have hnone := ((hdone b).1 hR).successors
  cases suf with
  | nil =>
    have hedge := (List.isChain_append_cons_cons.1 hchain).2.1
    rw [hnone] at hedge
    cases hedge
  | cons c suf =>
    have hedge := (List.isChain_append_cons_cons.1 hchain).2.1
    rw [hnone] at hedge
    cases hedge

/-- The shape of a path of the scheduled body: an original path, or an original path that goes on into
the chain of a return block, and possibly through it to the return block. -/
theorem path_shapes (h : Scheduled body locals done chain B) (hrange : body.TargetsInRange)
    (hdone : ∀ R, R ∈ done ↔ body.ReturnsAt R) {path : List BlockId} (hp : B.IsPath path) :
    ∃ p, body.IsPath p ∧ ((path = p ∧ ∀ b ∈ p.tail, chain b = []) ∨
      ∃ last R pre suf, p.getLast? = some last ∧ R ∈ body.successors last ∧ body.ReturnsAt R ∧
        chain R = pre ++ suf ∧ (path = p ++ pre ∨ suf = [] ∧ path = p ++ (pre ++ [R]))) := by
  obtain ⟨q, pre, suf, last, R, hq, hlast, rfl, hpre⟩ :=
    h.path_cases hrange hp (h.zero_lt hdone hp.zero_lt)
  obtain ⟨p, rfl⟩ : ∃ p, q = p ++ [last] := ⟨_, (List.dropLast_append_getLast? last hlast).symm⟩
  have hinit := h.chain_of_mem_init hdone hq
  by_cases hnil : pre = []
  · subst hnil
    rw [List.append_nil]
    rcases List.eq_nil_or_concat p with rfl | ⟨p', b, hpeq⟩
    · exact ⟨[last], hq, .inl ⟨rfl, by simp⟩⟩
    · rw [List.concat_eq_append] at hpeq
      have hpne : p ≠ [] := by simp [hpeq]
      by_cases hc : chain last = []
      · refine ⟨p ++ [last], hq, .inl ⟨expand_eq_self fun b hb => ?_, fun b hb => ?_⟩⟩
        · rcases List.mem_append.1 hb with hb | hb
          · exact hinit b hb
          · rw [List.mem_singleton.1 hb, hc]
        · rcases List.mem_append.1 (List.mem_of_mem_tail hb) with hb | hb
          · exact hinit b hb
          · rw [List.mem_singleton.1 hb, hc]
      · have hret : body.ReturnsAt last := by
          rw [← hdone]
          by_contra hnot
          exact hc (h.table.unchained last hnot)
        have hedge : last ∈ body.successors b :=
          (List.isChain_append.1 hq.2.1).2.2 b (by simp [hpeq]) last (by simp)
        have hpath : body.IsPath p := by
          refine ⟨?_, (List.isChain_append.1 hq.2.1).1, fun c hc => hq.2.2 c (by simp [hc])⟩
          have hhead := hq.1
          rwa [List.head?_append_of_ne_nil _ hpne] at hhead
        refine ⟨p, hpath, .inr ⟨b, last, chain last, [], by simp [hpeq], hedge, hret, by simp,
          .inr ⟨rfl, ?_⟩⟩⟩
        rw [expand_concat hpne, expand_eq_self hinit]
  · obtain ⟨hsucc, hc⟩ := hpre hnil
    have hret : body.ReturnsAt R := by
      rw [← hdone]
      by_contra hnot
      rw [h.table.unchained R hnot] at hc
      exact hnil (List.append_eq_nil_iff.1 hc.symm).1
    have hall : ∀ b ∈ p ++ [last], chain b = [] := by
      intro b hb
      rcases List.mem_append.1 hb with hb | hb
      · exact hinit b hb
      · rw [List.mem_singleton.1 hb]
        apply h.table.unchained
        intro hmem
        rw [((hdone last).1 hmem).successors] at hsucc
        cases hsucc
    refine ⟨p ++ [last], hq, .inr ⟨last, R, pre, suf, hlast, hsucc, hret, hc, .inl ?_⟩⟩
    rw [expand_eq_self hall]

theorem successors_ne_nil (h : Scheduled body locals done chain B) {R b : BlockId}
    (hb : b ∈ chain R) : B.successors b ≠ [] := by
  obtain ⟨pre, suf, hc⟩ := List.append_of_mem hb
  obtain ⟨l, -, span, hblock⟩ := h.chain_block hc
  rw [Body.successors_eq hblock]
  simp [Terminator.successors]

end Scheduled

/-! ## The simulation -/

/-- `B` behaves as `body`, with a chain of drops of `locals` in front of each return block. -/
structure DropSimulation (body : Body) (locals : List LocalId) (chain : BlockId → List BlockId)
    (B : Body) : Prop where
  /-- An original block keeps its id and its statements, and its terminator up to its targets. -/
  block : ∀ (b : BlockId) (block : BasicBlock), body.blocks[b]? = some block →
    ∃ block', B.blocks[b]? = some block' ∧ block'.id = block.id ∧
      block'.statements = block.statements ∧
      block'.terminator = block.terminator.retarget (enter chain)
  /-- The other blocks are drop blocks. -/
  inserted : ∀ (b : BlockId) (block : BasicBlock), B.blocks[b]? = some block →
    body.blocks.length ≤ b → block.statements = [] ∧ block.terminator.IsDrop
  path : ∀ path, B.IsPath path → body.IsPath (body.originals path)
  maximal : ∀ path, B.IsMaximal path → body.IsMaximal (body.originals path)
  lift : ∀ path, body.IsPath path → ∃ path', B.IsPath path' ∧ body.originals path' = path
  liftMaximal : ∀ path, body.IsMaximal path →
    ∃ path', B.IsMaximal path' ∧ body.originals path' = path
  infinite : ∀ s, B.IsInfinitePath s ↔ body.IsInfinitePath s
  /-- The chain of a return block drops the locals in turn and ends at the block. -/
  chains : ∀ R, body.ReturnsAt R → ChainAt B.blocks R (chain R) locals
  fresh : ∀ R, ∀ b ∈ chain R, body.blocks.length ≤ b
  own : ∀ R R' b, b ∈ chain R → b ∈ chain R' → R = R'
  /-- An edge into a return block now enters its chain. -/
  rerouted : ∀ R b, body.ReturnsAt R → R ∈ body.successors b → enter chain R ∈ B.successors b
  /-- A return block is entered from the end of its chain only. -/
  entered : ∀ R b, body.ReturnsAt R → R ∈ B.successors b → locals ≠ [] →
    (chain R).getLast? = some b
  /-- A chain is entered at its head only, by the edges that entered the return block. -/
  chainEntered : ∀ R b c, c ∈ chain R → c ∈ B.successors b →
    b ∈ chain R ∨ (R ∈ body.successors b ∧ (chain R).head? = some c)

namespace Scheduled

variable {body B : Body} {locals : List LocalId} {done : List BlockId}
  {chain : BlockId → List BlockId}

theorem edge_cases (h : Scheduled body locals done chain B) (hrange : body.TargetsInRange)
    {b c : BlockId} (hc : c ∈ B.successors b) :
    (∃ t ∈ body.successors b, c = enter chain t) ∨
    (∃ R pre suf, chain R = pre ++ b :: suf ∧ c = suf.headD R) := by
  obtain ⟨block, hblock, -⟩ := Body.exists_block_of_mem_successors hc
  have hlt := (List.getElem?_eq_some_iff.1 hblock).1
  rcases Nat.lt_or_ge b body.blocks.length with hb | hb
  · rw [(h.subdivision hrange).succ_old b hb, List.mem_map] at hc
    obtain ⟨t, ht, rfl⟩ := hc
    exact .inl ⟨t, ht, rfl⟩
  · obtain ⟨R, -, hmem⟩ := h.table.covered b hb hlt
    obtain ⟨pre, suf, hR⟩ := List.append_of_mem hmem
    rw [(h.subdivision hrange).succ_chain R pre b suf hR, List.mem_singleton] at hc
    exact .inr ⟨R, pre, suf, hR, hc⟩

theorem not_mem_chain (h : Scheduled body locals done chain B) {b : BlockId}
    (hb : b < body.blocks.length) (R : BlockId) : b ∉ chain R :=
  fun hmem => Nat.not_lt.2 (h.table.inserted R b hmem).1 hb

theorem simulates (h : Scheduled body locals done chain B) (hrange : body.TargetsInRange)
    (hdone : ∀ R, R ∈ done ↔ body.ReturnsAt R) :
    DropSimulation body locals chain B where
  block := fun b block hb => ⟨_, h.original b block hb, rfl, rfl, rfl⟩
  inserted := by
    intro b block hblock hge
    obtain ⟨R, -, hmem⟩ := h.table.covered b hge (List.getElem?_eq_some_iff.1 hblock).1
    obtain ⟨pre, suf, hc⟩ := List.append_of_mem hmem
    obtain ⟨l, -, span, hget⟩ := h.chain_block hc
    rw [hblock, Option.some.injEq] at hget
    subst hget
    exact ⟨rfl, trivial⟩
  path := by
    intro path hp
    have hne := h.zero_lt hdone hp.zero_lt
    obtain ⟨p, pre, suf, last, R, hpath, -, rfl, hpre⟩ := h.path_cases hrange hp hne
    rwa [h.originals_expand hrange hpath fun hn => (hpre hn).2]
  maximal := by
    rintro path ⟨hp, hmax⟩
    have hne := h.zero_lt hdone hp.zero_lt
    obtain ⟨last, hlast⟩ : ∃ last, path.getLast? = some last :=
      ⟨_, List.getLast?_eq_getLast_of_ne_nil hp.ne_nil⟩
    have hnodrop : ∀ R, last ∉ chain R :=
      fun R hmem => h.successors_ne_nil hmem (hmax last hlast)
    obtain ⟨p, hpath, rfl, hplast⟩ := h.path_eq_expand hrange hp hne hlast hnodrop
    rw [h.originals_expand_self hrange hpath]
    refine ⟨hpath, fun b hb => ?_⟩
    obtain rfl : last = b := by simpa [hplast] using hb
    have hlt := hpath.2.2 last (List.mem_of_getLast? hplast)
    have hsucc := hmax last hlast
    rw [(h.subdivision hrange).succ_old last hlt, List.map_eq_nil_iff] at hsucc
    exact hsucc
  lift := by
    intro path hp
    exact ⟨expand chain path, h.isPath_expand hrange hp, h.originals_expand_self hrange hp⟩
  liftMaximal := by
    rintro path ⟨hp, hmax⟩
    refine ⟨expand chain path, ⟨h.isPath_expand hrange hp, fun b hb => ?_⟩,
      h.originals_expand_self hrange hp⟩
    rw [getLast?_expand] at hb
    have hlt := hp.2.2 b (List.mem_of_getLast? hb)
    rw [(h.subdivision hrange).succ_old b hlt, hmax b hb]
    rfl
  infinite := by
    intro s
    unfold Body.IsInfinitePath
    refine and_congr_right fun h0 => ?_
    rcases Nat.eq_zero_or_pos body.blocks.length with hzero | hne
    · have hdeadend : ∀ body : Body, ¬ 0 < body.blocks.length →
          ¬ ∀ k, s (k + 1) ∈ body.successors (s k) := by
        intro body hlt hs
        obtain ⟨block, hblock, -⟩ := Body.exists_block_of_mem_successors (hs 0)
        rw [h0] at hblock
        exact hlt (List.getElem?_eq_some_iff.1 hblock).1
      have hB : ¬ 0 < B.blocks.length := fun hlt => by
        have := h.zero_lt hdone hlt
        omega
      exact iff_of_false (hdeadend B hB) (hdeadend body (by omega))
    refine (h.subdivision hrange).infinite_iff (fun t ht => ?_) (by rw [h0]; exact hne)
    have hret : body.ReturnsAt t := by
      rw [← hdone]
      by_contra hnot
      exact ht (h.table.unchained t hnot)
    exact ⟨hret.lt, hret.successors⟩
  chains := fun R hR => h.chains R ((hdone R).2 hR)
  fresh := fun R b hb => (h.table.inserted R b hb).1
  own := h.table.disjoint
  rerouted := by
    intro R b _ hsucc
    obtain ⟨block, hblock, -⟩ := Body.exists_block_of_mem_successors hsucc
    rw [(h.subdivision hrange).succ_old b (List.getElem?_eq_some_iff.1 hblock).1]
    exact List.mem_map_of_mem hsucc
  entered := by
    intro R b hR hsucc hlocals
    rcases h.edge_cases hrange hsucc with ⟨t, ht, hRt⟩ | ⟨R', pre, suf, hc, hRt⟩
    · unfold enter at hRt
      cases hc : chain t with
      | nil =>
        rw [hc] at hRt
        have hlen := (h.chains R ((hdone R).2 hR)).length_eq
        have hRt' : R = t := hRt
        rw [hRt', hc] at hlen
        exact absurd (List.length_eq_zero_iff.1 hlen.symm) hlocals
      | cons c suf =>
        rw [hc] at hRt
        have hRt' : R = c := hRt
        exact absurd (show R ∈ chain t by simp [hc, hRt']) (h.not_mem_chain hR.lt t)
    · cases suf with
      | nil =>
        have hRt' : R = R' := hRt
        rw [hRt', hc]
        simp
      | cons c suf =>
        have hRt' : R = c := hRt
        exact absurd (show R ∈ chain R' by simp [hc, hRt']) (h.not_mem_chain hR.lt R')
  chainEntered := by
    intro R b c hmem hsucc
    have hge := (h.table.inserted R c hmem).1
    rcases h.edge_cases hrange hsucc with ⟨t, ht, hct⟩ | ⟨R', pre, suf, hc, hct⟩
    · unfold enter at hct
      cases hc : chain t with
      | nil =>
        rw [hc] at hct
        have hct' : c = t := hct
        rw [hct'] at hge
        exact absurd (hrange b t ht) (Nat.not_lt.2 hge)
      | cons d suf =>
        rw [hc] at hct
        have hct' : c = d := hct
        obtain rfl := h.table.disjoint R t c hmem (by simp [hc, hct'])
        exact .inr ⟨ht, by simp [hc, hct']⟩
    · cases suf with
      | nil =>
        have hct' : c = R' := hct
        have hR' : R' ∈ done := h.done_of_mem_chain (b := b) (by simp [hc])
        have hlt := ((hdone R').1 hR').lt
        rw [← hct'] at hlt
        exact absurd hlt (Nat.not_lt.2 hge)
      | cons d suf =>
        have hct' : c = d := hct
        obtain rfl := h.table.disjoint R R' c hmem (by simp [hc, hct'])
        exact .inl (by simp [hc])

end Scheduled

/-- What `compute_drop_schedule` leaves when it returns. -/
theorem computeDropSchedule_eq {order : HashOrder} {body B : Body} {fuel : Nat}
    {r : Except MirError Unit} (h : computeDropSchedule order body fuel = some (B, r)) :
    B = insertDrops order body := by
  unfold computeDropSchedule at h
  split at h
  · next hempty =>
    have hnil : body.blocks = [] := List.isEmpty_iff.1 hempty
    simp only [Option.some.injEq, Prod.mk.injEq] at h
    rw [← h.1]
    simp [insertDrops, returnBlocks, hnil]
  · obtain ⟨_, -, hr⟩ := Option.map_eq_some_iff.1 h
    exact (Prod.mk.inj hr).1.symm

/-- **Drop insertion preserves behaviour.** -/
theorem computeDropSchedule_simulates (order : HashOrder) (body : Body) (hwf : body.WellFormed)
    (hfree : body.DropFree) (fuel : Nat) (B : Body) (r : Except MirError Unit)
    (h : computeDropSchedule order body fuel = some (B, r)) :
    ∃ chain, DropSimulation body (toDrop order body) chain B := by
  obtain ⟨chain, done, hdone, hsched⟩ := insertDrops_scheduled order hwf hfree
  rw [computeDropSchedule_eq h]
  exact ⟨chain, hsched.simulates hwf.targets hdone⟩

/-- The hash order that hands out locals in ascending order. -/
def HashOrder.ascending : HashOrder where
  toList s := (List.range (s.sup id + 1)).filter fun l => decide (l ∈ s)
  nodup s := List.nodup_range.filter _
  mem s l := by
    simp only [List.mem_filter, List.mem_range, decide_eq_true_eq, and_iff_right_iff_imp]
    intro hl
    have hle : id l ≤ s.sup id := Finset.le_sup hl
    exact Nat.lt_succ_of_le hle

/-- A loop that assigns a string on each trip, with one way out. -/
def stringLoop : Body where
  defId := 0
  name := "string_loop"
  locals := [⟨0, "_return", .none, true, .synthetic, none⟩, ⟨1, "s", .str, true, .synthetic, none⟩]
  blocks := [
    ⟨0, [⟨.assign (.ofLocal 1) (.use (.constant (.str "a"))), .synthetic⟩],
      .switchInt (.constant (.bool true)) [(.bool true, 1)] 2, .synthetic⟩,
    ⟨1, [], .ret, .synthetic⟩,
    ⟨2, [], .goto 0, .synthetic⟩]
  returnLocal := 0
  paramCount := 0
  span := .synthetic

theorem stringLoop_simulates : ∃ chain, DropSimulation stringLoop [1] chain
    (insertDrops .ascending stringLoop) := by
  have hschedule : computeDropSchedule .ascending stringLoop 8 =
      some (insertDrops .ascending stringLoop, .ok ()) := rfl
  have hdrop : toDrop .ascending stringLoop = [1] := by decide
  rw [← hdrop]
  exact computeDropSchedule_simulates .ascending stringLoop (by decide) (by decide) 8 _ _ hschedule

end Cobrust.Mir
