import Mathlib.Order.SupClosed
import Mathlib.Data.List.Chain

/-!
# Forward data flow over a graph: paths and solutions

A `Flow` carries facts of a type `L` along the edges of a directed graph. A node transforms the
facts that enter it, or rejects them with an error. Two readings of such a problem are related
here:

* **All paths** (`Flow.PathsOk`): walking every finite path from the entry node, with the facts
  carried along the path, raises no error.
* **A table of facts** (`Flow.IsSolution`): one fact per node, closed under the transfer function.

For a transfer function that preserves joins (`Flow.JoinPreserving`) the two agree as soon as the
table holds nothing but joins of facts that some path exhibits (`Flow.Exhibited`).
-/

namespace Dataflow

universe u v w

/-- A forward flow problem: the entry node with its facts, the transfer function of each node and
the successors of each node. -/
structure Flow (N : Type u) (L : Type v) (E : Type w) where
  entry : N
  init : L
  transfer : N → L → Except E L
  succ : N → List N

namespace Flow

variable {N : Type u} {L : Type v} {E : Type w} (F : Flow N L E)

/-! ## Paths -/

/-- Carry facts along a sequence of nodes. -/
def walk : L → List N → Except E L
  | s, [] => .ok s
  | s, n :: path =>
    match F.transfer n s with
    | .ok s' => walk s' path
    | .error e => .error e

/-- A finite control-flow path that starts at the entry node. -/
def IsPath (path : List N) : Prop :=
  path.head? = some F.entry ∧ path.IsChain (fun n m => m ∈ F.succ n)

/-- No path raises an error. -/
def PathsOk : Prop :=
  ∀ path, F.IsPath path → ∃ s, F.walk F.init path = .ok s

/-- `s` enters the node `n` at the end of some path. -/
inductive Reaches : N → L → Prop
  | entry : Reaches F.entry F.init
  | step {n m : N} {s s' : L} (h : Reaches n s) (ht : F.transfer n s = .ok s')
      (hm : m ∈ F.succ n) : Reaches m s'

variable {F}

theorem walk_cons_ok {s r : L} {n : N} {path : List N} :
    F.walk s (n :: path) = .ok r ↔ ∃ s', F.transfer n s = .ok s' ∧ F.walk s' path = .ok r := by
  simp only [walk]
  cases F.transfer n s <;> simp

theorem walk_append_ok {s r : L} {p q : List N} :
    F.walk s (p ++ q) = .ok r ↔ ∃ s', F.walk s p = .ok s' ∧ F.walk s' q = .ok r := by
  induction p generalizing s with
  | nil => simp [walk]
  | cons n p ih =>
    simp only [List.cons_append, walk_cons_ok, ih]
    constructor
    · rintro ⟨a, ha, b, hb, hr⟩
      exact ⟨b, ⟨a, ha, hb⟩, hr⟩
    · rintro ⟨b, ⟨a, ha, hb⟩, hr⟩
      exact ⟨a, ha, b, hb, hr⟩

/-- The facts that enter a node are those some path carries up to it. -/
theorem Reaches.exists_path {n : N} {s : L} (h : F.Reaches n s) :
    ∃ pre, F.IsPath (pre ++ [n]) ∧ F.walk F.init pre = .ok s := by
  induction h with
  | entry => exact ⟨[], ⟨rfl, List.isChain_singleton _⟩, rfl⟩
  | @step n m s s' _ ht hm ih =>
    obtain ⟨pre, ⟨hhead, hchain⟩, hwalk⟩ := ih
    refine ⟨pre ++ [n], ⟨?_, ?_⟩, walk_append_ok.2 ⟨s, hwalk, walk_cons_ok.2 ⟨s', ht, rfl⟩⟩⟩
    · cases pre <;> simpa using hhead
    · rw [List.append_assoc]
      exact List.isChain_append_cons_cons.2 ⟨hchain, hm, List.isChain_singleton _⟩

theorem walk_ok_of_reaches (hok : ∀ n s, F.Reaches n s → ∃ s', F.transfer n s = .ok s') :
    ∀ (path : List N) (n : N) (s : L), F.Reaches n s →
      (n :: path).IsChain (fun n m => m ∈ F.succ n) → ∃ r, F.walk s (n :: path) = .ok r := by
  intro path
  induction path with
  | nil =>
    intro n s hr _
    obtain ⟨s', hs'⟩ := hok n s hr
    exact ⟨s', walk_cons_ok.2 ⟨s', hs', rfl⟩⟩
  | cons m path ih =>
    intro n s hr hchain
    obtain ⟨s', hs'⟩ := hok n s hr
    obtain ⟨hm, hchain⟩ := List.isChain_cons_cons.1 hchain
    obtain ⟨r, hwalk⟩ := ih m s' (hr.step hs' hm) hchain
    exact ⟨r, walk_cons_ok.2 ⟨s', hs', hwalk⟩⟩

/-- All paths are free of errors exactly when every node accepts the facts that reach it. -/
theorem pathsOk_iff_reaches :
    F.PathsOk ↔ ∀ n s, F.Reaches n s → ∃ s', F.transfer n s = .ok s' := by
  constructor
  · intro hok n s hr
    obtain ⟨pre, hpath, hwalk⟩ := hr.exists_path
    obtain ⟨r, hr'⟩ := hok _ hpath
    obtain ⟨s₁, h₁, h₂⟩ := walk_append_ok.1 hr'
    obtain rfl : s₁ = s := by rw [hwalk] at h₁; exact (Except.ok.inj h₁).symm
    obtain ⟨s', hs', -⟩ := walk_cons_ok.1 h₂
    exact ⟨s', hs'⟩
  · rintro hok path ⟨hhead, hchain⟩
    cases path with
    | nil => cases hhead
    | cons n path =>
      obtain rfl : n = F.entry := by simpa using hhead
      exact walk_ok_of_reaches hok path _ _ .entry hchain

section Solutions

variable [SemilatticeSup L]

variable (F) in
/-- The transfer functions preserve joins, and accept a join exactly when they accept both sides. -/
structure JoinPreserving : Prop where
  sup_ok : ∀ n a b c, F.transfer n (a ⊔ b) = .ok c ↔
    ∃ a' b', F.transfer n a = .ok a' ∧ F.transfer n b = .ok b' ∧ c = a' ⊔ b'

theorem JoinPreserving.mono (h : F.JoinPreserving) {n : N} {a b b' : L} (hab : a ≤ b)
    (hb : F.transfer n b = .ok b') : ∃ a', F.transfer n a = .ok a' ∧ a' ≤ b' := by
  rw [← sup_eq_right.2 hab] at hb
  obtain ⟨a', c', ha', -, rfl⟩ := (h.sup_ok n a b b').1 hb
  exact ⟨a', ha', le_sup_left⟩

/-- The node `n` with facts `t` is settled in the table `T`: it accepts `t`, and every successor
already holds what `n` hands on. -/
def Settled (F : Flow N L E) (T : N → Option L) (n : N) (t : L) : Prop :=
  ∃ t', F.transfer n t = .ok t' ∧ ∀ m ∈ F.succ n, ∃ u, T m = some u ∧ t' ≤ u

variable (F) in
/-- A table that covers the entry and in which every node is settled. -/
structure IsSolution (T : N → Option L) : Prop where
  entry : ∃ t, T F.entry = some t ∧ F.init ≤ t
  settled : ∀ n t, T n = some t → F.Settled T n t

/-- A solution bounds the facts of every path, and no path raises an error. -/
theorem IsSolution.bounds (hF : F.JoinPreserving) {T : N → Option L} (hT : F.IsSolution T) {n : N}
    {s : L} (h : F.Reaches n s) : ∃ t, T n = some t ∧ s ≤ t := by
  induction h with
  | entry => exact hT.entry
  | step _ ht hm ih =>
    obtain ⟨t, hTn, hst⟩ := ih
    obtain ⟨t', ht', hsucc⟩ := hT.settled _ _ hTn
    obtain ⟨s', hs', hle⟩ := hF.mono hst ht'
    obtain ⟨u, hu, hle'⟩ := hsucc _ hm
    rw [ht] at hs'
    cases hs'
    exact ⟨u, hu, hle.trans hle'⟩

theorem IsSolution.pathsOk (hF : F.JoinPreserving) {T : N → Option L} (hT : F.IsSolution T) :
    F.PathsOk := by
  refine pathsOk_iff_reaches.2 fun n s hr => ?_
  obtain ⟨t, hTn, hst⟩ := hT.bounds hF hr
  obtain ⟨t', ht', -⟩ := hT.settled n t hTn
  obtain ⟨s', hs', -⟩ := hF.mono hst ht'
  exact ⟨s', hs'⟩

/-- `t` is a join of facts that paths carry to `n`. -/
def Exhibited (F : Flow N L E) (n : N) (t : L) : Prop :=
  t ∈ supClosure {s | F.Reaches n s}

theorem Reaches.exhibited {n : N} {s : L} (h : F.Reaches n s) : F.Exhibited n s :=
  subset_supClosure h

theorem Exhibited.sup {n : N} {s t : L} (hs : F.Exhibited n s) (ht : F.Exhibited n t) :
    F.Exhibited n (s ⊔ t) :=
  supClosed_supClosure hs ht

/-- Induction on joins: a property of the reaching facts that joins preserve. -/
theorem Exhibited.induct {n : N} {t : L} (h : F.Exhibited n t) {P : L → Prop}
    (base : ∀ s, F.Reaches n s → P s) (join : ∀ a b, P a → P b → P (a ⊔ b)) : P t :=
  supClosure_min (t := {s | P s}) base (fun _ ha _ hb => join _ _ ha hb) h

/-- A node that accepts every fact reaching it accepts their joins, and hands on facts that paths
exhibit at its successors. -/
theorem Exhibited.step (hF : F.JoinPreserving) {n : N} {t t' : L} (h : F.Exhibited n t)
    (ht : F.transfer n t = .ok t') {m : N} (hm : m ∈ F.succ n) : F.Exhibited m t' := by
  refine h.induct (P := fun t => ∀ t', F.transfer n t = .ok t' → F.Exhibited m t') ?_ ?_ t' ht
  · intro s hs s' hs'
    exact (hs.step hs' hm).exhibited
  · intro a b ha hb c hc
    obtain ⟨a', b', ha', hb', rfl⟩ := (hF.sup_ok n a b c).1 hc
    exact (ha a' ha').sup (hb b' hb')

/-- A node that accepts every fact reaching it accepts their joins. -/
theorem Exhibited.ok (hF : F.JoinPreserving) (hok : F.PathsOk) {n : N} {t : L}
    (h : F.Exhibited n t) : ∃ t', F.transfer n t = .ok t' := by
  refine h.induct (P := fun t => ∃ t', F.transfer n t = .ok t') ?_ ?_
  · exact fun s hs => pathsOk_iff_reaches.1 hok n s hs
  · rintro a b ⟨a', ha'⟩ ⟨b', hb'⟩
    exact ⟨a' ⊔ b', (hF.sup_ok n a b _).2 ⟨a', b', ha', hb', rfl⟩⟩

end Solutions

end Flow

end Dataflow
