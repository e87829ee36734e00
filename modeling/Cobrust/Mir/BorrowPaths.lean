import Cobrust.Dataflow.Worklist
import Cobrust.Mir.BorrowSpec
import Mathlib.Data.Finset.Card

/-!
# The borrow checker is the all-paths check of its transfer function

`borrowFlow` reads a body as a flow problem over the moved and dropped sets. The checks preserve
joins (`borrowFlow_joinPreserving`), and the loop of `borrow_check` refines the generic worklist
(`borrowLoop_refines`), so the loop returns, and it accepts exactly the bodies in which no path from
block 0 raises an error (`borrowCheck_iff_paths`).
-/

namespace Cobrust.Mir

open Dataflow
open Control (except_bind_ok)

/-! ## The checks preserve joins -/

/-- The join of two states with the same borrow stacks. -/
def BlockState.join (s t : BlockState) : BlockState :=
  ⟨s.moved ∪ t.moved, s.dropped ∪ t.dropped, s.borrows⟩

theorem BlockState.clear_join {s t : BlockState} {ls : List LocalId} :
    (s.join t).Clear ls ↔ s.Clear ls ∧ t.Clear ls := by
  simp only [Clear, join, Finset.mem_union, not_or]
  constructor
  · exact fun h => ⟨fun l hl => ⟨(h l hl).1.1, (h l hl).2.1⟩, fun l hl => ⟨(h l hl).1.2, (h l hl).2.2⟩⟩
  · exact fun h l hl => ⟨⟨(h.1 l hl).1, (h.2 l hl).1⟩, (h.1 l hl).2, (h.2 l hl).2⟩

/-- A check that accepts a join exactly when it accepts both sides, and then answers the join. -/
structure Distributes (f : BlockState → Except MirError BlockState) : Prop where
  borrows : ∀ {s t s' t'}, s.borrows = t.borrows → f s = .ok s' → f t = .ok t' →
    s'.borrows = t'.borrows
  join : ∀ {s t r}, s.borrows = t.borrows →
    (f (s.join t) = .ok r ↔ ∃ s' t', f s = .ok s' ∧ f t = .ok t' ∧ r = s'.join t')

namespace Distributes

/-- Every check in gen/kill form distributes over joins. -/
theorem of_spec {f : BlockState → Except MirError BlockState} {ls : List LocalId}
    {P : (LocalId → List BorrowKind) → Prop} {K : Finset LocalId → Finset LocalId}
    {D : Finset LocalId} {B : (LocalId → List BorrowKind) → LocalId → List BorrowKind}
    (hK : ∀ a b, K (a ∪ b) = K a ∪ K b)
    (hf : ∀ s r, f s = .ok r ↔
      s.Clear ls ∧ P s.borrows ∧ r = ⟨K s.moved, s.dropped ∪ D, B s.borrows⟩) :
    Distributes f where
  borrows := by
    intro s t s' t' hst hs' ht'
    obtain ⟨-, -, rfl⟩ := (hf s s').1 hs'
    obtain ⟨-, -, rfl⟩ := (hf t t').1 ht'
    simp only [hst]
  join := by
    intro s t r hst
    have hmeet : (⟨K (s.join t).moved, (s.join t).dropped ∪ D, B (s.join t).borrows⟩ :
        BlockState) = (⟨K s.moved, s.dropped ∪ D, B s.borrows⟩ : BlockState).join
          ⟨K t.moved, t.dropped ∪ D, B t.borrows⟩ := by
      simp only [BlockState.join, hK]
      rw [Finset.union_union_distrib_right]
    rw [hf, BlockState.clear_join]
    constructor
    · rintro ⟨⟨hs, ht⟩, hP, rfl⟩
      refine ⟨_, _, (hf s _).2 ⟨hs, hP, rfl⟩, (hf t _).2 ⟨ht, ?_, rfl⟩, hmeet⟩
      rw [← hst]
      exact hP
    · rintro ⟨s', t', hs', ht', rfl⟩
      obtain ⟨hs, hP, rfl⟩ := (hf s _).1 hs'
      obtain ⟨ht, -, rfl⟩ := (hf t _).1 ht'
      exact ⟨⟨hs, ht⟩, hP, hmeet.symm⟩

theorem bind {f g : BlockState → Except MirError BlockState} (hf : Distributes f)
    (hg : Distributes g) : Distributes (fun s => f s >>= g) where
  borrows := by
    intro s t s' t' hst hs' ht'
    obtain ⟨s₁, hs₁, hs₂⟩ := except_bind_ok.1 hs'
    obtain ⟨t₁, ht₁, ht₂⟩ := except_bind_ok.1 ht'
    exact hg.borrows (hf.borrows hst hs₁ ht₁) hs₂ ht₂
  join := by
    intro s t r hst
    simp only [except_bind_ok]
    constructor
    · rintro ⟨u, hu, hr⟩
      obtain ⟨s₁, t₁, hs₁, ht₁, rfl⟩ := (hf.join hst).1 hu
      obtain ⟨s₂, t₂, hs₂, ht₂, rfl⟩ := (hg.join (hf.borrows hst hs₁ ht₁)).1 hr
      exact ⟨s₂, t₂, ⟨s₁, hs₁, hs₂⟩, ⟨t₁, ht₁, ht₂⟩, rfl⟩
    · rintro ⟨s₂, t₂, ⟨s₁, hs₁, hs₂⟩, ⟨t₁, ht₁, ht₂⟩, rfl⟩
      exact ⟨s₁.join t₁, (hf.join hst).2 ⟨s₁, t₁, hs₁, ht₁, rfl⟩,
        (hg.join (hf.borrows hst hs₁ ht₁)).2 ⟨s₂, t₂, hs₂, ht₂, rfl⟩⟩

theorem ok : Distributes .ok where
  borrows := by
    intro s t s' t' hst hs' ht'
    cases hs'
    cases ht'
    exact hst
  join := by
    intro s t r _
    simp [eq_comm]

end Distributes

theorem checkStatement_distributes (stmt : Statement) : Distributes (checkStatement stmt) := by
  obtain ⟨kind, span⟩ := stmt
  cases kind with
  | assign place rvalue =>
    refine Distributes.of_spec (D := ∅) (P := fun b => rvalue.borrowOk b)
      (K := fun m => m.erase place.localId ∪ rvalue.movedOut.toFinset)
      (B := fun b => rvalue.pushed b) (fun a b => ?_)
      (fun s r => by rw [checkAssign_ok, Finset.union_empty])
    rw [Finset.erase_union_distrib, Finset.union_union_distrib_right]
  | storageLive _ => exact .ok
  | storageDead _ => exact .ok
  | nop => exact .ok

theorem checkStatements_distributes (stmts : List Statement) :
    Distributes (checkStatements stmts) := by
  induction stmts with
  | nil => exact .ok
  | cons stmt stmts ih => exact (checkStatement_distributes stmt).bind ih

theorem checkTerminator_distributes (term : Terminator) : Distributes (checkTerminator term) := by
  refine Distributes.of_spec (K := fun m => term.movedAfter m) (B := id) (P := fun _ => term.argsOk)
    (fun a b => ?_) (fun s r => checkTerminator_ok)
  cases term with
  | call _ args destination _ _ =>
    simp only [Terminator.movedAfter]
    rw [Finset.union_union_distrib_right, Finset.erase_union_distrib]
  | _ => rfl

/-- The data-flow problem that `borrow_check` solves. -/
def borrowFlow (body : Body) : Flow BlockId Facts MirError where
  entry := 0
  init := (∅, ∅)
  transfer b facts :=
    match body.blocks[b]? with
    | some block => checkBlock block facts
    | none => .ok facts
  succ := body.successors

variable {body : Body}

theorem borrowFlow_transfer {b : BlockId} {block : BasicBlock} (hb : body.blocks[b]? = some block)
    (facts : Facts) : (borrowFlow body).transfer b facts = checkBlock block facts := by
  simp [borrowFlow, hb]

theorem checkBlock_sup_ok (block : BasicBlock) (a b c : Facts) :
    checkBlock block (a ⊔ b) = .ok c ↔ ∃ a' b', checkBlock block a = .ok a' ∧
      checkBlock block b = .ok b' ∧ c = a' ⊔ b' := by
  have hdist := (checkStatements_distributes block.statements).bind
    (checkTerminator_distributes block.terminator)
  have hfacts : ∀ f r : Facts, checkBlock block f = .ok r ↔
      ∃ s, (checkStatements block.statements ⟨f.1, f.2, fun _ => []⟩ >>=
        checkTerminator block.terminator) = .ok s ∧ r = (s.moved, s.dropped) := by
    intro f r
    simp only [checkBlock, except_bind_ok, Except.ok.injEq]
    constructor
    · rintro ⟨s₁, h₁, s₂, h₂, rfl⟩
      exact ⟨s₂, ⟨s₁, h₁, h₂⟩, rfl⟩
    · rintro ⟨s₂, ⟨s₁, h₁, h₂⟩, rfl⟩
      exact ⟨s₁, h₁, s₂, h₂, rfl⟩
  simp only [hfacts]
  constructor
  · rintro ⟨s, hs, rfl⟩
    obtain ⟨s', t', hs', ht', rfl⟩ := (hdist.join (s := ⟨a.1, a.2, fun _ => []⟩)
      (t := ⟨b.1, b.2, fun _ => []⟩) rfl).1 hs
    exact ⟨_, _, ⟨s', hs', rfl⟩, ⟨t', ht', rfl⟩, rfl⟩
  · rintro ⟨_, _, ⟨s', hs', rfl⟩, ⟨t', ht', rfl⟩, rfl⟩
    exact ⟨s'.join t', (hdist.join (s := ⟨a.1, a.2, fun _ => []⟩)
      (t := ⟨b.1, b.2, fun _ => []⟩) rfl).2 ⟨s', t', hs', ht', rfl⟩, rfl⟩

theorem borrowFlow_joinPreserving (body : Body) : (borrowFlow body).JoinPreserving := by
  refine ⟨fun n a b c => ?_⟩
  cases hn : body.blocks[n]? with
  | some block =>
    simp only [borrowFlow_transfer hn]
    exact checkBlock_sup_ok block a b c
  | none => simp [borrowFlow, hn, eq_comm]

theorem checkPath_eq_walk (body : Body) :
    ∀ (path : List BlockId) (facts : Facts), (∀ b ∈ path, b < body.blocks.length) →
      checkPath body path facts = (borrowFlow body).walk facts path := by
  intro path
  induction path with
  | nil => exact fun _ _ => rfl
  | cons b path ih =>
    intro facts hlt
    obtain ⟨block, hb⟩ : ∃ block, body.blocks[b]? = some block :=
      ⟨_, List.getElem?_eq_getElem (hlt b List.mem_cons_self)⟩
    simp only [checkPath, hb, Flow.walk, borrowFlow_transfer hb]
    cases hc : checkBlock block facts with
    | error e => rfl
    | ok facts => exact ih facts fun c hc => hlt c (List.mem_cons_of_mem _ hc)

theorem isPath_iff (h : body.TargetsInRange) (hne : 0 < body.blocks.length) {path : List BlockId} :
    body.IsPath path ↔ (borrowFlow body).IsPath path := by
  constructor
  · exact fun hp => ⟨hp.1, hp.2.1⟩
  · rintro ⟨hhead, hchain⟩
    refine ⟨hhead, hchain, ?_⟩
    -- every block but the first is the target of an edge
    have hall : ∀ (b : BlockId) (path : List BlockId), b < body.blocks.length →
        (b :: path).IsChain (fun b c => c ∈ body.successors b) →
        ∀ c ∈ b :: path, c < body.blocks.length := by
      intro b path
      induction path generalizing b with
      | nil => simp
      | cons c path ih =>
        intro hb hchain
        obtain ⟨hc, hchain⟩ := List.isChain_cons_cons.1 hchain
        have hlt := h b c hc
        exact List.forall_mem_cons.2 ⟨hb, ih c hlt hchain⟩
    cases path with
    | nil => simp
    | cons b path =>
      obtain rfl : b = 0 := by simpa [borrowFlow] using hhead
      exact hall 0 path hne hchain

theorem pathsOk_iff (h : body.TargetsInRange) (hne : 0 < body.blocks.length) :
    (borrowFlow body).PathsOk ↔
      ∀ path, body.IsPath path → ∃ facts, checkPath body path (∅, ∅) = .ok facts := by
  refine forall_congr' fun path => ?_
  rw [isPath_iff h hne]
  refine imp_congr_right fun hp => ?_
  rw [checkPath_eq_walk body path _ ((isPath_iff h hne).2 hp).2.2]
  rfl

/-! ## The loop refines the worklist -/

/-- The worklist that a loop state stands for: a block has an entry once it was visited or queued. -/
def BorrowLoop.abs (st : BorrowLoop) : Worklist BlockId Facts where
  table b :=
    if b ∈ st.visited ∨ b ∈ st.work then some (st.entryMoved b, st.entryDropped b) else none
  work := st.work

/-- A block that was neither visited nor queued has empty entry sets. -/
def BorrowLoop.Tidy (st : BorrowLoop) : Prop :=
  ∀ b, b ∉ st.visited → b ∉ st.work → st.entryMoved b = ∅ ∧ st.entryDropped b = ∅

theorem BorrowLoop.Tidy.getD {st : BorrowLoop} (h : st.Tidy) (b : BlockId) :
    (st.abs.table b).getD ⊥ = (st.entryMoved b, st.entryDropped b) := by
  simp only [abs]
  by_cases hb : b ∈ st.visited ∨ b ∈ st.work
  · rw [if_pos hb]; rfl
  · rw [if_neg hb]
    obtain ⟨hm, hd⟩ := h b (fun hv => hb (.inl hv)) (fun hw => hb (.inr hw))
    rw [hm, hd]
    rfl

/-- The state after `propagateFacts`, with its test in the form the worklist uses. -/
theorem propagateFacts_eq (facts : Facts) (st : BorrowLoop) (s : BlockId) :
    propagateFacts facts st s =
      { st with
        entryMoved := Function.update st.entryMoved s (st.entryMoved s ∪ facts.1)
        entryDropped := Function.update st.entryDropped s (st.entryDropped s ∪ facts.2)
        work := if ¬facts ≤ (st.entryMoved s, st.entryDropped s) ∨ s ∉ st.visited then
          Worklist.push s st.work else st.work } := by
  have htest : (!decide (facts.1 ⊆ st.entryMoved s) || !decide (facts.2 ⊆ st.entryDropped s) ||
      !decide (s ∈ st.visited)) = true ↔
      ¬facts ≤ (st.entryMoved s, st.entryDropped s) ∨ s ∉ st.visited := by
    simp only [Bool.or_eq_true, Bool.not_eq_true', decide_eq_false_iff_not, Prod.le_def,
      not_and_or]
  have hstep : propagateFacts facts st s =
      let st' : BorrowLoop := { st with
        entryMoved := Function.update st.entryMoved s (st.entryMoved s ∪ facts.1)
        entryDropped := Function.update st.entryDropped s (st.entryDropped s ∪ facts.2) }
      if (!decide (facts.1 ⊆ st.entryMoved s) || !decide (facts.2 ⊆ st.entryDropped s) ||
          !decide (s ∈ st.visited)) = true then
        if s ∈ st.work then st' else { st' with work := s :: st.work }
      else st' := rfl
  rw [hstep]
  by_cases h : ¬facts ≤ (st.entryMoved s, st.entryDropped s) ∨ s ∉ st.visited
  · simp only [if_pos (htest.2 h), if_pos h, Worklist.push]
    split <;> rfl
  · simp only [if_neg (fun ht => h (htest.1 ht)), if_neg h]

theorem propagateFacts_tidy (facts : Facts) {st : BorrowLoop} (h : st.Tidy) (s : BlockId) :
    (propagateFacts facts st s).Tidy := by
  rw [propagateFacts_eq]
  intro b hv hw
  simp only at hv hw
  have hbs : b ≠ s := by
    rintro rfl
    rw [if_pos (.inr hv)] at hw
    exact hw (Worklist.mem_push.2 (.inl rfl))
  have hwork : b ∉ st.work := by
    intro hin
    split at hw
    · exact hw (Worklist.mem_push.2 (.inr hin))
    · exact hw hin
  simpa only [Function.update_of_ne hbs] using h b hv hwork

theorem propagateFacts_abs {facts : Facts} {st : BorrowLoop} (h : st.Tidy) (s : BlockId) :
    (propagateFacts facts st s).abs = Worklist.propagate facts st.abs s := by
  obtain ⟨e, u, hu, hle⟩ | ⟨e, hnew⟩ := Worklist.propagate_cases facts st.abs s
  · -- the entry of `s` already holds the facts
    have hus : u = (st.entryMoved s, st.entryDropped s) := by
      have hget := h.getD s
      rw [hu] at hget
      exact hget
    subst hus
    have hin : s ∈ st.visited ∨ s ∈ st.work := by
      by_contra hout
      simp [BorrowLoop.abs, hout] at hu
    have hm : st.entryMoved s ∪ facts.1 = st.entryMoved s := Finset.union_eq_left.2 hle.1
    have hd : st.entryDropped s ∪ facts.2 = st.entryDropped s := Finset.union_eq_left.2 hle.2
    have hpush : (if ¬facts ≤ (st.entryMoved s, st.entryDropped s) ∨ s ∉ st.visited then
        Worklist.push s st.work else st.work) = st.work := by
      split
      · next hc =>
        have hs : s ∈ st.work := hin.resolve_left (hc.resolve_left (not_not.2 hle))
        simp [Worklist.push, hs]
      · rfl
    rw [e, propagateFacts_eq, hm, hd, hpush, Function.update_eq_self, Function.update_eq_self]
  · -- the entry of `s` is new or grows
    have hpush : (if ¬facts ≤ (st.entryMoved s, st.entryDropped s) ∨ s ∉ st.visited then
        Worklist.push s st.work else st.work) = Worklist.push s st.work := by
      refine if_pos ?_
      rcases hnew with hnone | ⟨u, hu, hle⟩
      · right
        intro hv
        simp [BorrowLoop.abs, hv] at hnone
      · left
        have hget := h.getD s
        rw [hu, Option.getD_some] at hget
        rwa [← hget]
    rw [e, h.getD, propagateFacts_eq, hpush]
    simp only [BorrowLoop.abs, Worklist.mk.injEq, and_true]
    funext b
    by_cases hb : b = s
    · subst hb
      simp only [Function.update_self, Worklist.mem_push, true_or, or_true, if_true]
      rfl
    · simp only [Function.update_of_ne hb, Worklist.mem_push, hb, false_or]

theorem foldl_propagateFacts {facts : Facts} :
    ∀ (succs : List BlockId) {st : BorrowLoop}, st.Tidy →
      (succs.foldl (propagateFacts facts) st).Tidy ∧
      (succs.foldl (propagateFacts facts) st).abs =
        succs.foldl (Worklist.propagate facts) st.abs := by
  intro succs
  induction succs with
  | nil => exact fun h => ⟨h, rfl⟩
  | cons s succs ih =>
    intro st h
    obtain ⟨h₁, h₂⟩ := ih (propagateFacts_tidy facts h s)
    exact ⟨h₁, by rw [List.foldl_cons, h₂, propagateFacts_abs h, List.foldl_cons]⟩

/-- The queued blocks exist. -/
def BorrowLoop.InRange (body : Body) (st : BorrowLoop) : Prop :=
  ∀ b ∈ st.work, b < body.blocks.length

theorem foldl_inRange {facts : Facts} {succs : List BlockId}
    (hs : ∀ s ∈ succs, s < body.blocks.length) {st : BorrowLoop} (h : st.InRange body) :
    (succs.foldl (propagateFacts facts) st).InRange body := by
  induction succs generalizing st with
  | nil => exact h
  | cons s succs ih =>
    refine ih (fun c hc => hs c (List.mem_cons_of_mem _ hc)) ?_
    rw [propagateFacts_eq]
    intro b hb
    simp only at hb
    split at hb
    · rcases Worklist.mem_push.1 hb with rfl | hb
      · exact hs b List.mem_cons_self
      · exact h b hb
    · exact h b hb

/-- Taking a block off the queue and visiting it is one step of the generic worklist. -/
theorem visit_abs (facts : Facts) {st : BorrowLoop} {bid : BlockId} {work : List BlockId}
    (htidy : st.Tidy) (hw : st.work = bid :: work) (succs : List BlockId) :
    (succs.foldl (propagateFacts facts)
        { st with visited := insert bid st.visited, work := work }).Tidy ∧
      (succs.foldl (propagateFacts facts)
        { st with visited := insert bid st.visited, work := work }).abs =
        succs.foldl (Worklist.propagate facts) ⟨st.abs.table, work⟩ := by
  have habs : (⟨st.abs.table, work⟩ : Worklist BlockId Facts) =
      BorrowLoop.abs { st with visited := insert bid st.visited, work := work } := by
    simp only [BorrowLoop.abs, Worklist.mk.injEq, and_true]
    funext b
    refine if_congr ?_ rfl rfl
    simp only [hw, List.mem_cons, Finset.mem_insert]
    tauto
  have htidy' : BorrowLoop.Tidy { st with visited := insert bid st.visited, work := work } := by
    intro b hv hb
    simp only [Finset.mem_insert, not_or] at hv hb
    exact htidy b hv.2 (by simp [hw, hv.1, hb])
  rw [habs]
  exact foldl_propagateFacts succs htidy'

/-- What the loop of `borrow_check` returns is what the generic worklist returns on the flow problem
of the body. -/
theorem borrowLoop_eq_iterate :
    ∀ (fuel : Nat) {st : BorrowLoop} {r : Except MirError Unit}, st.Tidy →
      borrowLoop body fuel st = some r →
      ∃ r', Worklist.iterate (borrowFlow body) fuel st.abs = some r' ∧
        r = r'.map fun _ => () := by
  intro fuel
  induction fuel with
  | zero => intro st r _ h; cases h
  | succ fuel ih =>
    intro st r htidy h
    unfold borrowLoop at h
    unfold Worklist.iterate
    have hwork : st.abs.work = st.work := rfl
    rw [hwork]
    cases hw : st.work with
    | nil =>
      simp only [hw, Option.some.injEq] at h
      exact ⟨_, rfl, h.symm⟩
    | cons bid work =>
      simp only [hw] at h
      cases hb : body.blocks[bid]? with
      | none => simp [hb] at h
      | some block =>
        simp only [hb] at h
        simp only [htidy.getD, borrowFlow_transfer hb]
        cases hc : checkBlock block (st.entryMoved bid, st.entryDropped bid) with
        | error e =>
          simp only [hc, Option.some.injEq] at h
          exact ⟨_, rfl, h.symm⟩
        | ok facts =>
          simp only [hc] at h
          have hsucc : (borrowFlow body).succ bid = block.terminator.successors :=
            Body.successors_eq hb
          obtain ⟨h₁, h₂⟩ := visit_abs facts htidy hw block.terminator.successors
          simp only [hsucc, ← h₂]
          exact ih h₁ h

/-- The loop returns as soon as the generic worklist does, when no edge leaves the body. -/
theorem borrowLoop_isSome (hrange : body.TargetsInRange) :
    ∀ (fuel : Nat) {st : BorrowLoop}, st.Tidy → st.InRange body →
      (Worklist.iterate (borrowFlow body) fuel st.abs).isSome → (borrowLoop body fuel st).isSome := by
  intro fuel
  induction fuel with
  | zero => intro st _ _ h; cases h
  | succ fuel ih =>
    intro st htidy hin h
    unfold borrowLoop
    unfold Worklist.iterate at h
    have hwork : st.abs.work = st.work := rfl
    rw [hwork] at h
    cases hw : st.work with
    | nil => rfl
    | cons bid work =>
      obtain ⟨block, hb⟩ : ∃ block, body.blocks[bid]? = some block :=
        ⟨_, List.getElem?_eq_getElem (hin bid (by simp [hw]))⟩
      simp only [hw, htidy.getD, borrowFlow_transfer hb] at h
      simp only [hb]
      cases hc : checkBlock block (st.entryMoved bid, st.entryDropped bid) with
      | error e => rfl
      | ok facts =>
        simp only [hc] at h
        have hsucc : (borrowFlow body).succ bid = block.terminator.successors :=
          Body.successors_eq hb
        obtain ⟨h₁, h₂⟩ := visit_abs facts htidy hw block.terminator.successors
        rw [hsucc, ← h₂] at h
        have hin' : BorrowLoop.InRange body
            { st with visited := insert bid st.visited, work := work } :=
          fun b hb => hin b (by rw [hw]; exact List.mem_cons_of_mem _ hb)
        have hsuccs : ∀ s ∈ block.terminator.successors, s < body.blocks.length :=
          fun s hs => hrange bid s (by rw [Body.successors_eq hb]; exact hs)
        exact ih h₁ (foldl_inRange hsuccs hin') h

/-! ## Termination -/

/-- The locals that a block can add to the moved or dropped set. -/
def BasicBlock.effectLocals (block : BasicBlock) : Finset LocalId :=
  (block.statements.flatMap fun stmt =>
    match stmt.kind with
    | .assign _ rvalue => rvalue.movedOut
    | _ => []).toFinset ∪
  (block.terminator.operands.flatMap Operand.moveRoots).toFinset ∪ block.terminator.drops

theorem checkStatements_le {U : Finset LocalId} :
    ∀ (stmts : List Statement) {s r : BlockState},
      (∀ stmt ∈ stmts, ∀ place rvalue, stmt.kind = .assign place rvalue →
        rvalue.movedOut.toFinset ⊆ U) →
      checkStatements stmts s = .ok r → s.moved ⊆ U → r.moved ⊆ U ∧ r.dropped = s.dropped := by
  intro stmts
  induction stmts with
  | nil =>
    intro s r _ h hs
    cases h
    exact ⟨hs, rfl⟩
  | cons stmt stmts ih =>
    intro s r hU h hs
    obtain ⟨s₁, h₁, h₂⟩ := except_bind_ok.1 h
    have hstep : s₁.moved ⊆ U ∧ s₁.dropped = s.dropped := by
      obtain ⟨kind, span⟩ := stmt
      cases kind with
      | assign place rvalue =>
        obtain ⟨-, -, rfl⟩ := checkAssign_ok.1 h₁
        exact ⟨Finset.union_subset ((Finset.erase_subset _ _).trans hs)
          (hU _ List.mem_cons_self place rvalue rfl), rfl⟩
      | storageLive _ => cases h₁; exact ⟨hs, rfl⟩
      | storageDead _ => cases h₁; exact ⟨hs, rfl⟩
      | nop => cases h₁; exact ⟨hs, rfl⟩
    obtain ⟨hr, hd⟩ := ih (fun st hst => hU st (List.mem_cons_of_mem _ hst)) h₂ hstep.1
    exact ⟨hr, hd.trans hstep.2⟩

theorem checkBlock_le {block : BasicBlock} {U : Finset LocalId} (hU : block.effectLocals ⊆ U)
    {a b : Facts} (ha : a ≤ (U, U)) (h : checkBlock block a = .ok b) : b ≤ (U, U) := by
  simp only [BasicBlock.effectLocals, Finset.union_subset_iff] at hU
  obtain ⟨⟨hstmts, hargs⟩, hdrops⟩ := hU
  obtain ⟨s₁, h₁, h⟩ := except_bind_ok.1 h
  obtain ⟨s₂, h₂, h⟩ := except_bind_ok.1 h
  cases h
  obtain ⟨hm, hd⟩ := checkStatements_le (U := U) block.statements (fun stmt hstmt place rvalue hk => by
    refine Finset.Subset.trans (fun l hl => ?_) hstmts
    rw [List.mem_toFinset] at hl ⊢
    exact List.mem_flatMap.2 ⟨stmt, hstmt, by simpa only [hk] using hl⟩) h₁ ha.1
  obtain ⟨-, -, rfl⟩ := checkTerminator_ok.1 h₂
  refine ⟨?_, Finset.union_subset (by rw [hd]; exact ha.2) hdrops⟩
  cases hterm : block.terminator with
  | call func args destination target unwind =>
    rw [hterm] at hargs
    refine (Finset.erase_subset _ _).trans (Finset.union_subset hm (Finset.Subset.trans ?_ hargs))
    intro l hl
    simp only [Terminator.operands, List.flatMap_cons, List.toFinset_append, Finset.mem_union]
    exact .inr hl
  | _ => exact hm

/-- All locals that the blocks of a body can add to the moved or dropped set. -/
def Body.effectLocals (body : Body) : Finset LocalId :=
  (Finset.range body.blocks.length).biUnion fun b =>
    (body.blocks[b]?).elim ∅ BasicBlock.effectLocals

theorem Body.effectLocals_subset {b : BlockId} {block : BasicBlock}
    (h : body.blocks[b]? = some block) : block.effectLocals ⊆ body.effectLocals := by
  intro l hl
  have hlt : b < body.blocks.length := (List.getElem?_eq_some_iff.1 h).1
  exact Finset.mem_biUnion.2 ⟨b, Finset.mem_range.2 hlt, by simpa only [h, Option.elim] using hl⟩

/-- The arena of the borrow check: the blocks of the body and the locals that they can add. -/
def borrowArena (h : body.TargetsInRange) (hne : 0 < body.blocks.length) :
    Worklist.Arena (borrowFlow body) where
  nodes := Finset.range body.blocks.length
  bound := (body.effectLocals, body.effectLocals)
  rank f := f.1.card + f.2.card
  rank_strictMono := by
    intro a b hab
    rcases Prod.lt_iff.1 hab with ⟨h₁, h₂⟩ | ⟨h₁, h₂⟩
    · exact Nat.add_lt_add_of_lt_of_le (Finset.card_lt_card h₁) (Finset.card_le_card h₂)
    · exact Nat.add_lt_add_of_le_of_lt (Finset.card_le_card h₁) (Finset.card_lt_card h₂)
  entry_mem := Finset.mem_range.2 hne
  init_le := ⟨Finset.empty_subset _, Finset.empty_subset _⟩
  succ_mem := fun b _ c hc => Finset.mem_range.2 (h b c hc)
  transfer_le := by
    intro b hb f r hf hr
    obtain ⟨block, hblock⟩ : ∃ block, body.blocks[b]? = some block :=
      ⟨_, List.getElem?_eq_getElem (Finset.mem_range.1 hb)⟩
    rw [borrowFlow_transfer hblock] at hr
    exact checkBlock_le (Body.effectLocals_subset hblock) hf hr

theorem borrowLoopStart_abs (body : Body) :
    borrowLoopStart.abs = Worklist.start (borrowFlow body) := by
  have htable : borrowLoopStart.abs.table = (Worklist.start (borrowFlow body)).table := by
    funext b
    by_cases hb : b = 0 <;> simp [BorrowLoop.abs, borrowLoopStart, Worklist.start, borrowFlow, hb]
  have hwork : borrowLoopStart.abs.work = (Worklist.start (borrowFlow body)).work := rfl
  rw [Worklist.mk.injEq]
  exact ⟨htable, hwork⟩

theorem borrowLoopStart_tidy : borrowLoopStart.Tidy :=
  fun _ _ _ => ⟨rfl, rfl⟩

/-- Whatever `borrow_check` returns, it returns `Ok` exactly when no path raises an error. -/
theorem borrowCheck_ok_iff {fuel : Nat} {r : Except MirError Unit}
    (h : borrowCheck body fuel = some r) (hne : 0 < body.blocks.length) :
    r = .ok () ↔ (borrowFlow body).PathsOk := by
  have hnonempty : body.blocks.isEmpty = false := by
    rw [List.isEmpty_eq_false_iff]
    exact List.ne_nil_of_length_pos hne
  simp only [borrowCheck, hnonempty] at h
  obtain ⟨r', hr', rfl⟩ := borrowLoop_eq_iterate fuel borrowLoopStart_tidy h
  rw [borrowLoopStart_abs body] at hr'
  rw [← Worklist.iterate_sound (borrowFlow_joinPreserving body) fuel .start hr']
  cases r' with
  | ok T => exact ⟨fun _ => ⟨T, rfl⟩, fun _ => rfl⟩
  | error e => exact ⟨fun he => (by cases he), fun ⟨_, he⟩ => (by cases he)⟩

theorem borrowCheck_returns (h : body.TargetsInRange) :
    ∃ r fuel₀, ∀ fuel ≥ fuel₀, borrowCheck body fuel = some r := by
  rcases Nat.eq_zero_or_pos body.blocks.length with hzero | hne
  · exact ⟨.ok (), 0, fun fuel _ => by simp [borrowCheck, List.length_eq_zero_iff.1 hzero]⟩
  · obtain ⟨r, hr, -⟩ := Worklist.iterate_spec (borrowFlow_joinPreserving body)
      (borrowArena h hne)
    refine ⟨r.map fun _ => (), (borrowArena h hne).fuel, fun fuel hfuel => ?_⟩
    have hin : borrowLoopStart.InRange body := by
      intro b hb
      obtain rfl : b = 0 := by simpa [borrowLoopStart] using hb
      exact hne
    have hnonempty : body.blocks.isEmpty = false := by
      rw [List.isEmpty_eq_false_iff]
      exact List.ne_nil_of_length_pos hne
    have hiter : Worklist.iterate (borrowFlow body) fuel borrowLoopStart.abs = some r := by
      rw [borrowLoopStart_abs]
      exact hr fuel hfuel
    have hsome : (borrowLoop body fuel borrowLoopStart).isSome := by
      apply borrowLoop_isSome h fuel borrowLoopStart_tidy hin
      rw [hiter]
      rfl
    obtain ⟨r', hr'⟩ := Option.isSome_iff_exists.1 hsome
    obtain ⟨r'', hr'', rfl⟩ := borrowLoop_eq_iterate fuel borrowLoopStart_tidy hr'
    rw [hiter, Option.some.injEq] at hr''
    subst hr''
    simpa [borrowCheck, hnonempty] using hr'

/-- The borrow check accepts a body: with enough fuel it returns `Ok`. -/
def BorrowAccepts (body : Body) : Prop :=
  ∃ fuel, borrowCheck body fuel = some (.ok ())

theorem BorrowAccepts.checkPath_ok (h : BorrowAccepts body) {path : List BlockId}
    (hp : body.IsPath path) : ∃ facts, checkPath body path (∅, ∅) = .ok facts := by
  obtain ⟨fuel, h⟩ := h
  obtain ⟨hhead, hchain, hlt⟩ := hp
  have hne : 0 < body.blocks.length := hlt 0 (List.mem_of_mem_head? hhead)
  have hok := (borrowCheck_ok_iff h hne).1 rfl
  rw [checkPath_eq_walk body path _ hlt]
  exact hok path ⟨hhead, hchain⟩

/-- **The borrow check is the all-paths check of its transfer function.** For every body whose block
targets are in range it returns, and it returns `Ok` exactly when walking each finite path from
block 0 raises no error. -/
theorem borrowCheck_iff_paths (body : Body) (h : body.TargetsInRange) :
    ∃ r fuel₀, (∀ fuel ≥ fuel₀, borrowCheck body fuel = some r) ∧
      (r = .ok () ↔ ∀ path, body.IsPath path →
        ∃ facts, checkPath body path (∅, ∅) = .ok facts) := by
  obtain ⟨r, fuel₀, hr⟩ := borrowCheck_returns h
  have hlast := hr fuel₀ le_rfl
  refine ⟨r, fuel₀, hr, ?_⟩
  rcases Nat.eq_zero_or_pos body.blocks.length with hzero | hne
  · have hempty : borrowCheck body fuel₀ = some (.ok ()) := by
      simp [borrowCheck, List.length_eq_zero_iff.1 hzero]
    rw [hempty, Option.some.injEq] at hlast
    refine ⟨fun _ path hp => ?_, fun _ => hlast.symm⟩
    obtain ⟨hhead, -, hlt⟩ := hp
    have hpos : 0 < body.blocks.length := hlt 0 (List.mem_of_mem_head? hhead)
    omega
  · rw [borrowCheck_ok_iff hlast hne, pathsOk_iff h hne]

/-- A loop whose body moves local 1: the first trip is fine, the second one reads a moved local. -/
def moveLoop : Body where
  defId := 0
  name := "move_loop"
  locals := []
  blocks :=
    [⟨0, [⟨.assign (.ofLocal 2) (.use (.move (.ofLocal 1))), .synthetic⟩], .goto 0, .synthetic⟩]
  returnLocal := 0
  paramCount := 0
  span := .synthetic

theorem moveLoop_error_path : ∃ path, moveLoop.IsPath path ∧
    ∀ facts, checkPath moveLoop path (∅, ∅) ≠ .ok facts := by
  obtain ⟨r, fuel₀, hr, hiff⟩ := borrowCheck_iff_paths moveLoop (by decide)
  have herr : borrowCheck moveLoop (fuel₀ + 2) = some (.error (.readMoved 1 .synthetic)) := rfl
  rw [hr _ (by omega)] at herr
  by_contra hno
  push Not at hno
  have hok : r = .ok () := hiff.2 hno
  rw [hok] at herr
  cases herr

end Cobrust.Mir
