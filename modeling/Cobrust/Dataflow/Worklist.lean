import Cobrust.Dataflow.Flow
import Mathlib.Algebra.BigOperators.Group.Finset.Basic
import Mathlib.Algebra.Order.BigOperators.Group.Finset

/-!
# A worklist that computes all-paths facts

`Worklist.iterate` is the classical worklist over a `Flow`: pop a node, apply its transfer function
to the facts of the table, join the result into every successor, and enqueue a successor whose entry
is new or has grown unless it is queued already.

* `Worklist.Inv` is the loop invariant; `Inv.step` is its step lemma.
* `Worklist.potential` strictly decreases, so a bound on the facts and on the nodes gives a fuel
  that always suffices.
* `Worklist.iterate_spec`: the loop returns, and it returns without an error exactly when no path
  raises one.
-/

namespace Dataflow

universe u v w

variable {N : Type u} {L : Type v} {E : Type w}

/-- The facts known on entry to each node, and the nodes still to be processed. -/
structure Worklist (N : Type u) (L : Type v) where
  table : N → Option L
  work : List N

namespace Worklist

section Definitions

variable [DecidableEq N] [SemilatticeSup L] [OrderBot L] [DecidableLE L]

/-- Add a node to the worklist unless it is queued. -/
def push (m : N) (work : List N) : List N :=
  if m ∈ work then work else m :: work

/-- Join the facts `t` into the entry of `m`, and enqueue `m` when its entry is new or has grown. -/
def propagate (t : L) (W : Worklist N L) (m : N) : Worklist N L :=
  let u := (W.table m).getD ⊥
  if W.table m = none ∨ ¬t ≤ u then
    ⟨Function.update W.table m (some (u ⊔ t)), push m W.work⟩
  else W

/-- The worklist loop. `none` means that the fuel ran out. -/
def iterate (F : Flow N L E) : Nat → Worklist N L → Option (Except E (N → Option L))
  | 0, _ => none
  | fuel + 1, W =>
    match W.work with
    | [] => some (.ok W.table)
    | n :: work =>
      match F.transfer n ((W.table n).getD ⊥) with
      | .error e => some (.error e)
      | .ok t => iterate F fuel ((F.succ n).foldl (propagate t) ⟨W.table, work⟩)

/-- The initial worklist: the entry node alone, with its facts. -/
def start (F : Flow N L E) : Worklist N L :=
  ⟨fun n => if n = F.entry then some F.init else none, [F.entry]⟩

end Definitions

set_option linter.unusedSectionVars false

variable [DecidableEq N] [SemilatticeSup L] [OrderBot L] [DecidableLE L]

/-! ## One propagation -/

theorem mem_push {m k : N} {work : List N} : k ∈ push m work ↔ k = m ∨ k ∈ work := by
  unfold push
  split
  · next h => exact ⟨.inr, fun hk => hk.elim (fun e => e ▸ h) id⟩
  · simp

theorem length_push (m : N) (work : List N) : (push m work).length ≤ work.length + 1 := by
  unfold push
  split <;> simp

/-- What one propagation does to each entry: it is untouched, or it is the entry of `m`, now joined
with `t`, and `m` is queued. -/
theorem propagate_cases (t : L) (W : Worklist N L) (m : N) :
    (propagate t W m = W ∧ ∃ u, W.table m = some u ∧ t ≤ u) ∨
    (propagate t W m = ⟨Function.update W.table m (some ((W.table m).getD ⊥ ⊔ t)),
        push m W.work⟩ ∧
      (W.table m = none ∨ ∃ u, W.table m = some u ∧ ¬t ≤ u)) := by
  unfold propagate
  cases hm : W.table m with
  | none => right; simp
  | some u =>
    by_cases h : t ≤ u
    · left; simp [h]
    · right; simp [h]

theorem propagate_le (t : L) (W : Worklist N L) (m : N) {k : N} {u : L} (h : W.table k = some u) :
    ∃ u', (propagate t W m).table k = some u' ∧ u ≤ u' := by
  obtain ⟨e, -⟩ | ⟨e, -⟩ := propagate_cases t W m
  · exact ⟨u, by rw [e, h], le_rfl⟩
  · rw [e]
    by_cases hk : k = m
    · subst hk
      exact ⟨u ⊔ t, by simp [h], le_sup_left⟩
    · exact ⟨u, by simp [Function.update_of_ne hk, h], le_rfl⟩

theorem propagate_self (t : L) (W : Worklist N L) (m : N) :
    ∃ u, (propagate t W m).table m = some u ∧ t ≤ u := by
  obtain ⟨e, u, hu, hle⟩ | ⟨e, -⟩ := propagate_cases t W m
  · exact ⟨u, by rw [e, hu], hle⟩
  · exact ⟨(W.table m).getD ⊥ ⊔ t, by rw [e]; simp, le_sup_right⟩

theorem propagate_work (t : L) (W : Worklist N L) (m : N) {k : N} (h : k ∈ W.work) :
    k ∈ (propagate t W m).work := by
  obtain ⟨e, -⟩ | ⟨e, -⟩ := propagate_cases t W m
  · rwa [e]
  · rw [e]; exact mem_push.2 (.inr h)

/-- An entry that a propagation changes belongs to a queued node. -/
theorem propagate_changed (t : L) (W : Worklist N L) (m : N) {k : N}
    (h : (propagate t W m).table k ≠ W.table k) : k ∈ (propagate t W m).work := by
  obtain ⟨e, -⟩ | ⟨e, -⟩ := propagate_cases t W m
  · rw [e] at h; exact absurd rfl h
  · rw [e] at h ⊢
    by_cases hk : k = m
    · exact mem_push.2 (.inl hk)
    · simp [Function.update_of_ne hk] at h

/-- A property of entries that the joined facts have at `m`, and that joins keep, survives. -/
theorem propagate_entries {P : N → L → Prop} (hjoin : ∀ n a b, P n a → P n b → P n (a ⊔ b))
    {t : L} {W : Worklist N L} {m : N} (ht : P m t) (h : ∀ k u, W.table k = some u → P k u) :
    ∀ k u, (propagate t W m).table k = some u → P k u := by
  intro k u hk
  obtain ⟨e, -⟩ | ⟨e, -⟩ := propagate_cases t W m
  · rw [e] at hk; exact h k u hk
  · rw [e] at hk
    by_cases hkm : k = m
    · subst hkm
      simp only [Function.update_self, Option.some.injEq] at hk
      subst hk
      cases hW : W.table k with
      | none => simpa using ht
      | some u => exact hjoin _ _ _ (h k u hW) ht
    · exact h k u (by simpa [Function.update_of_ne hkm] using hk)

theorem propagate_queued (t : L) {W : Worklist N L} (m : N)
    (h : ∀ k ∈ W.work, (W.table k).isSome) :
    ∀ k ∈ (propagate t W m).work, ((propagate t W m).table k).isSome := by
  intro k hk
  obtain ⟨e, -⟩ | ⟨e, -⟩ := propagate_cases t W m
  · rw [e] at hk ⊢; exact h k hk
  · rw [e] at hk ⊢
    by_cases hkm : k = m
    · subst hkm; simp
    · simp only [Function.update_of_ne hkm]
      exact h k ((mem_push.1 hk).resolve_left hkm)

section Round

variable {t : L} {l : List N}

theorem foldl_le {W : Worklist N L} {k : N} {u : L} (h : W.table k = some u) :
    ∃ u', (l.foldl (propagate t) W).table k = some u' ∧ u ≤ u' := by
  induction l generalizing W u with
  | nil => exact ⟨u, h, le_rfl⟩
  | cons m l ih =>
    obtain ⟨u₁, h₁, hle₁⟩ := propagate_le t W m h
    obtain ⟨u₂, h₂, hle₂⟩ := ih h₁
    exact ⟨u₂, h₂, hle₁.trans hle₂⟩

theorem foldl_self {W : Worklist N L} {m : N} (hm : m ∈ l) :
    ∃ u, (l.foldl (propagate t) W).table m = some u ∧ t ≤ u := by
  induction l generalizing W with
  | nil => cases hm
  | cons k l ih =>
    rcases List.mem_cons.1 hm with rfl | hm
    · obtain ⟨u₁, h₁, hle₁⟩ := propagate_self t W m
      obtain ⟨u₂, h₂, hle₂⟩ := foldl_le (l := l) (t := t) h₁
      exact ⟨u₂, h₂, hle₁.trans hle₂⟩
    · exact ih hm

theorem foldl_work {W : Worklist N L} {k : N} (h : k ∈ W.work) :
    k ∈ (l.foldl (propagate t) W).work := by
  induction l generalizing W with
  | nil => exact h
  | cons m l ih => exact ih (propagate_work t W m h)

/-- A queued node was queued before, or is one of the nodes just propagated to. -/
theorem mem_foldl_work {W : Worklist N L} {k : N} (h : k ∈ (l.foldl (propagate t) W).work) :
    k ∈ l ∨ k ∈ W.work := by
  induction l generalizing W with
  | nil => exact .inr h
  | cons m l ih =>
    rcases ih h with hk | hk
    · exact .inl (List.mem_cons_of_mem _ hk)
    · obtain ⟨e, -⟩ | ⟨e, -⟩ := propagate_cases t W m
      · rw [e] at hk
        exact .inr hk
      · rw [e] at hk
        rcases mem_push.1 hk with rfl | hk
        · exact .inl List.mem_cons_self
        · exact .inr hk

theorem foldl_changed {W : Worklist N L} {k : N}
    (h : (l.foldl (propagate t) W).table k ≠ W.table k) :
    k ∈ (l.foldl (propagate t) W).work := by
  induction l generalizing W with
  | nil => exact absurd rfl h
  | cons m l ih =>
    by_cases hk : (propagate t W m).table k = W.table k
    · exact ih (by rw [hk]; exact h)
    · exact foldl_work (l := l) (t := t) (propagate_changed t W m hk)

theorem foldl_entries {P : N → L → Prop} (hjoin : ∀ n a b, P n a → P n b → P n (a ⊔ b))
    (ht : ∀ m ∈ l, P m t) {W : Worklist N L} (h : ∀ k u, W.table k = some u → P k u) :
    ∀ k u, (l.foldl (propagate t) W).table k = some u → P k u := by
  induction l generalizing W with
  | nil => exact h
  | cons m l ih =>
    exact ih (fun k hk => ht k (List.mem_cons_of_mem _ hk))
      (propagate_entries hjoin (ht m List.mem_cons_self) h)

theorem foldl_queued {W : Worklist N L} (h : ∀ k ∈ W.work, (W.table k).isSome) :
    ∀ k ∈ (l.foldl (propagate t) W).work, ((l.foldl (propagate t) W).table k).isSome := by
  induction l generalizing W with
  | nil => exact h
  | cons m l ih => exact ih (propagate_queued t m h)

end Round

variable {F : Flow N L E}

/-- The loop invariant: the entry is covered, every entry of the table is exhibited by paths, and a
node that is not queued is settled. -/
structure Inv (F : Flow N L E) (W : Worklist N L) : Prop where
  entry : ∃ t, W.table F.entry = some t ∧ F.init ≤ t
  exhibited : ∀ n t, W.table n = some t → F.Exhibited n t
  settled : ∀ n t, W.table n = some t → n ∉ W.work → F.Settled W.table n t
  queued : ∀ n ∈ W.work, (W.table n).isSome

namespace Inv

theorem start : Inv F (Worklist.start F) where
  entry := ⟨F.init, by simp [Worklist.start], le_rfl⟩
  exhibited n t h := by
    simp only [Worklist.start] at h
    split at h
    · next hn =>
      subst hn
      cases h
      exact Flow.Reaches.entry.exhibited
    · cases h
  settled n t h hn := by
    simp only [Worklist.start, List.mem_singleton] at h hn
    simp [hn] at h
  queued n hn := by
    simp only [Worklist.start, List.mem_singleton] at hn ⊢
    simp [hn]

theorem step (hF : F.JoinPreserving) {W : Worklist N L} (h : Inv F W) {n : N} {work : List N}
    (hwork : W.work = n :: work) {t : L} (ht : F.transfer n ((W.table n).getD ⊥) = .ok t) :
    Inv F ((F.succ n).foldl (propagate t) ⟨W.table, work⟩) := by
  obtain ⟨s, hs⟩ : ∃ s, W.table n = some s :=
    Option.isSome_iff_exists.1 (h.queued n (by simp [hwork]))
  simp only [hs, Option.getD_some] at ht
  have hex : ∀ m ∈ F.succ n, F.Exhibited m t := fun m hm => (h.exhibited n s hs).step hF ht hm
  refine ⟨?_, ?_, ?_, ?_⟩
  · obtain ⟨u, hu, hle⟩ := h.entry
    obtain ⟨u', hu', hle'⟩ := foldl_le (l := F.succ n) (t := t) (W := ⟨W.table, work⟩) hu
    exact ⟨u', hu', hle.trans hle'⟩
  · exact foldl_entries (fun _ _ _ => Flow.Exhibited.sup) hex h.exhibited
  · -- a settled node keeps its entry, and the entries of its successors only grow
    intro k u hk hkw
    have hkeep : (List.foldl (propagate t) ⟨W.table, work⟩ (F.succ n)).table k = W.table k :=
      not_not.1 fun hne => hkw (foldl_changed hne)
    have hkwork : k ∉ work := fun hin => hkw (foldl_work (W := ⟨W.table, work⟩) hin)
    rw [hkeep] at hk
    by_cases hkn : k = n
    · subst hkn
      rw [hs] at hk
      cases hk
      exact ⟨t, ht, fun m hm => foldl_self hm⟩
    · obtain ⟨t', ht', hsucc⟩ := h.settled k u hk (by simp [hwork, hkn, hkwork])
      refine ⟨t', ht', fun m hm => ?_⟩
      obtain ⟨v, hv, hle⟩ := hsucc m hm
      obtain ⟨v', hv', hle'⟩ := foldl_le (l := F.succ n) (t := t) (W := ⟨W.table, work⟩) hv
      exact ⟨v', hv', hle.trans hle'⟩
  · exact foldl_queued fun k hk => h.queued k (by simp [hwork, hk])

theorem isSolution {W : Worklist N L} (h : Inv F W) (hwork : W.work = []) :
    F.IsSolution W.table :=
  ⟨h.entry, fun n t hn => h.settled n t hn (by simp [hwork])⟩

end Inv

/-- Whatever the loop returns is right: no error if no path raises one, and an error only if some
path raises one. -/
theorem iterate_sound (hF : F.JoinPreserving) :
    ∀ (fuel : Nat) {W : Worklist N L} {r : Except E (N → Option L)}, Inv F W →
      iterate F fuel W = some r → ((∃ T, r = .ok T) ↔ F.PathsOk) := by
  intro fuel
  induction fuel with
  | zero => intro W r _ h; cases h
  | succ fuel ih =>
    intro W r hW h
    unfold iterate at h
    cases hwork : W.work with
    | nil =>
      simp only [hwork, Option.some.injEq] at h
      subst h
      exact ⟨fun _ => (hW.isSolution hwork).pathsOk hF, fun _ => ⟨_, rfl⟩⟩
    | cons n work =>
      simp only [hwork] at h
      cases ht : F.transfer n ((W.table n).getD ⊥) with
      | ok t =>
        simp only [ht] at h
        exact ih (hW.step hF hwork ht) h
      | error e =>
        simp only [ht, Option.some.injEq] at h
        subst h
        refine ⟨fun ⟨_, h⟩ => (by cases h), fun hok => ?_⟩
        obtain ⟨s, hs⟩ : ∃ s, W.table n = some s :=
          Option.isSome_iff_exists.1 (hW.queued n (by simp [hwork]))
        obtain ⟨t', ht'⟩ := (hW.exhibited n s hs).ok hF hok
        simp [hs, ht'] at ht

theorem iterate_mono {fuel fuel' : Nat} {W : Worklist N L} {r : Except E (N → Option L)}
    (h : iterate F fuel W = some r) (hle : fuel ≤ fuel') : iterate F fuel' W = some r := by
  induction fuel generalizing W fuel' with
  | zero => cases h
  | succ fuel ih =>
    obtain ⟨fuel', rfl⟩ : ∃ k, fuel' = k + 1 := ⟨fuel' - 1, by omega⟩
    unfold iterate at h ⊢
    cases hwork : W.work with
    | nil => simpa only [hwork] using h
    | cons n work =>
      simp only [hwork] at h ⊢
      cases ht : F.transfer n ((W.table n).getD ⊥) with
      | error e => simpa only [ht] using h
      | ok t =>
        simp only [ht] at h ⊢
        exact ih h (by omega)

/-! ## Termination -/

/-- A finite arena for the loop: finitely many nodes, facts below `bound`, and a strictly monotone
rank of the facts. -/
structure Arena (F : Flow N L E) where
  nodes : Finset N
  bound : L
  rank : L → Nat
  rank_strictMono : StrictMono rank
  entry_mem : F.entry ∈ nodes
  init_le : F.init ≤ bound
  succ_mem : ∀ n ∈ nodes, ∀ m ∈ F.succ n, m ∈ nodes
  transfer_le : ∀ n ∈ nodes, ∀ a b, a ≤ bound → F.transfer n a = .ok b → b ≤ bound

namespace Arena

variable (A : Arena F)

/-- How far the entry of a node can still climb. -/
def slack (o : Option L) : Nat :=
  match o with
  | none => A.rank A.bound + 1
  | some t => A.rank A.bound - A.rank t

/-- The measure of the loop: the room left in the table and the length of the worklist. -/
def potential (W : Worklist N L) : Nat :=
  (∑ n ∈ A.nodes, A.slack (W.table n)) + W.work.length

/-- All entries of the table lie in the arena. -/
def Within (W : Worklist N L) : Prop :=
  ∀ n t, W.table n = some t → n ∈ A.nodes ∧ t ≤ A.bound

/-- Fuel that suffices for the loop. -/
def fuel : Nat :=
  A.nodes.card * (A.rank A.bound + 1) + 2

theorem slack_sup_lt {o : Option L} {t : L} (ht : t ≤ A.bound) (ho : ∀ u, o = some u → u ≤ A.bound)
    (h : o = none ∨ ∃ u, o = some u ∧ ¬t ≤ u) :
    A.slack (some (o.getD ⊥ ⊔ t)) < A.slack o := by
  rcases h with rfl | ⟨u, rfl, hle⟩
  · simp only [slack, Option.getD_none, bot_sup_eq]
    omega
  · simp only [slack, Option.getD_some]
    have hlt : u < u ⊔ t := lt_of_le_of_ne le_sup_left fun e => hle (sup_eq_left.1 e.symm)
    have h₁ := A.rank_strictMono hlt
    have h₂ := A.rank_strictMono.monotone (sup_le (ho u rfl) ht)
    omega

/-- A propagation inside the arena does not raise the potential. -/
theorem potential_propagate {t : L} {W : Worklist N L} {m : N} (hW : A.Within W) (hm : m ∈ A.nodes)
    (ht : t ≤ A.bound) : A.potential (propagate t W m) ≤ A.potential W := by
  obtain ⟨e, -⟩ | ⟨e, h⟩ := propagate_cases t W m
  · rw [e]
  · rw [e]
    have hlt := A.slack_sup_lt ht (fun u hu => (hW m u hu).2) h
    have hsum : ∑ n ∈ A.nodes, A.slack (Function.update W.table m
          (some ((W.table m).getD ⊥ ⊔ t)) n) < ∑ n ∈ A.nodes, A.slack (W.table n) := by
      refine Finset.sum_lt_sum (fun n _ => ?_) ⟨m, hm, by simpa using hlt⟩
      by_cases hn : n = m
      · subst hn; simpa using hlt.le
      · simp [Function.update_of_ne hn]
    have hlen := length_push m W.work
    simp only [potential]
    omega

theorem within_propagate {t : L} {W : Worklist N L} {m : N} (hW : A.Within W) (hm : m ∈ A.nodes)
    (ht : t ≤ A.bound) : A.Within (propagate t W m) :=
  propagate_entries (P := fun n t => n ∈ A.nodes ∧ t ≤ A.bound)
    (fun _ _ _ ha hb => ⟨ha.1, sup_le ha.2 hb.2⟩) ⟨hm, ht⟩ hW

theorem foldl_arena {t : L} (ht : t ≤ A.bound) :
    ∀ (l : List N) {W : Worklist N L}, (∀ m ∈ l, m ∈ A.nodes) → A.Within W →
      A.Within (l.foldl (propagate t) W) ∧
        A.potential (l.foldl (propagate t) W) ≤ A.potential W := by
  intro l
  induction l with
  | nil => exact fun _ hW => ⟨hW, le_rfl⟩
  | cons m l ih =>
    intro W hms hW
    have hm : m ∈ A.nodes := hms m List.mem_cons_self
    obtain ⟨h₁, h₂⟩ := ih (fun k hk => hms k (List.mem_cons_of_mem _ hk))
      (A.within_propagate hW hm ht)
    exact ⟨h₁, h₂.trans (A.potential_propagate hW hm ht)⟩

/-- The loop returns as soon as the fuel exceeds the potential. -/
theorem iterate_isSome (hF : F.JoinPreserving) :
    ∀ (fuel : Nat) {W : Worklist N L}, Inv F W → A.Within W → A.potential W < fuel →
      (iterate F fuel W).isSome := by
  intro fuel
  induction fuel with
  | zero => intro W _ _ h; omega
  | succ fuel ih =>
    intro W hinv hW hpot
    unfold iterate
    cases hwork : W.work with
    | nil => rfl
    | cons n work =>
      simp only
      cases ht : F.transfer n ((W.table n).getD ⊥) with
      | error e => rfl
      | ok t =>
        simp only
        obtain ⟨s, hs⟩ : ∃ s, W.table n = some s :=
          Option.isSome_iff_exists.1 (hinv.queued n (by simp [hwork]))
        obtain ⟨hn, hsb⟩ := hW n s hs
        have htb : t ≤ A.bound := A.transfer_le n hn s t hsb (by simpa [hs] using ht)
        obtain ⟨hW', hpot'⟩ := A.foldl_arena htb (F.succ n) (W := ⟨W.table, work⟩)
          (A.succ_mem n hn) hW
        refine ih (hinv.step hF hwork ht) hW' (lt_of_le_of_lt hpot' ?_)
        simp only [potential, hwork, List.length_cons] at hpot ⊢
        omega

theorem potential_start : A.potential (Worklist.start F) < A.fuel := by
  have hsum : ∑ n ∈ A.nodes, A.slack ((Worklist.start F).table n) ≤
      A.nodes.card * (A.rank A.bound + 1) := by
    refine (Finset.sum_le_card_nsmul _ _ (A.rank A.bound + 1) fun n _ => ?_).trans_eq
      (Nat.nsmul_eq_mul _ _)
    cases (Worklist.start F).table n <;> simp only [slack] <;> omega
  simp only [potential, fuel, Worklist.start, List.length_singleton] at hsum ⊢
  omega

theorem within_start : A.Within (Worklist.start F) := by
  intro n t h
  simp only [Worklist.start] at h
  split at h
  · next hn =>
    subst hn
    cases h
    exact ⟨A.entry_mem, A.init_le⟩
  · cases h

end Arena

/-- **The worklist decides the all-paths question.** In a finite arena the loop returns, and it
returns without an error exactly when no path raises one. -/
theorem iterate_spec (hF : F.JoinPreserving) (A : Arena F) :
    ∃ r, (∀ fuel ≥ A.fuel, iterate F fuel (start F) = some r) ∧
      ((∃ T, r = .ok T) ↔ F.PathsOk) := by
  obtain ⟨r, hr⟩ := Option.isSome_iff_exists.1 (A.iterate_isSome hF A.fuel Inv.start A.within_start
    A.potential_start)
  exact ⟨r, fun fuel hfuel => iterate_mono hr hfuel, iterate_sound hF _ Inv.start hr⟩

end Worklist

end Dataflow
