import Mathlib.Data.List.Chain
import Mathlib.Data.List.Infix

/-!
# Subdividing the edges of a graph

A graph is a successor function. In a subdivided graph every edge into a node `t` first runs through
the chain of fresh nodes of `t`, if `t` has one. Each path of the subdivided graph is the expansion
of a path of the original, possibly followed by the beginning of one more chain
(`Subdivision.exists_expand`), and each expansion is a path (`Subdivision.isChain_expand`), so
deleting the fresh nodes relates the paths of the two graphs. When only dead ends have chains, the
infinite paths of the two graphs are the same (`Subdivision.infinite_iff`).
-/

namespace Dataflow

universe u

variable {N : Type u}

/-- The first node on the way to `t`. -/
def enter (chain : N → List N) (t : N) : N := (chain t).headD t

/-- A path with the chain of each node but the first put in front of it. -/
def expand (chain : N → List N) : List N → List N
  | [] => []
  | b :: path => b :: path.flatMap fun c => chain c ++ [c]

theorem expand_concat {chain : N → List N} {path : List N} (h : path ≠ []) (c : N) :
    expand chain (path ++ [c]) = expand chain path ++ (chain c ++ [c]) := by
  cases path with
  | nil => exact absurd rfl h
  | cons b path => simp [expand]

theorem head?_expand (chain : N → List N) (path : List N) :
    (expand chain path).head? = path.head? := by
  cases path <;> rfl

theorem getLast?_expand (chain : N → List N) (path : List N) :
    (expand chain path).getLast? = path.getLast? := by
  rcases List.eq_nil_or_concat path with rfl | ⟨path, c, rfl⟩
  · rfl
  · rw [List.concat_eq_append]
    cases path with
    | nil => rfl
    | cons b path =>
      rw [expand_concat (by simp), ← List.append_assoc, List.getLast?_concat, List.getLast?_concat]

/-- `succ'` subdivides `succ`: the nodes in `old` are those of the original graph. -/
structure Subdivision (succ succ' : N → List N) (chain : N → List N) (old : N → Prop) : Prop where
  succ_old : ∀ b, old b → succ' b = (succ b).map (enter chain)
  closed : ∀ b, old b → ∀ t ∈ succ b, old t
  succ_chain : ∀ t pre b suf, chain t = pre ++ b :: suf → succ' b = [suf.headD t]
  fresh : ∀ t, ∀ b ∈ chain t, ¬ old b

namespace Subdivision

variable {succ succ' : N → List N} {chain : N → List N} {old : N → Prop}

theorem old_of_isChain (h : Subdivision succ succ' chain old) :
    ∀ {path : List N} {e : N}, old e → (e :: path).IsChain (fun b c => c ∈ succ b) →
      ∀ b ∈ e :: path, old b := by
  intro path
  induction path with
  | nil =>
    intro e he _ b hb
    rwa [List.mem_singleton.1 hb]
  | cons c path ih =>
    intro e he hchain b hb
    obtain ⟨hc, hchain⟩ := List.isChain_cons_cons.1 hchain
    rcases List.mem_cons.1 hb with rfl | hb
    · exact he
    · exact ih (h.closed e he c hc) hchain b hb

/-- From a node of the chain of `t` the path runs on to `t`. -/
theorem isChain_chain (h : Subdivision succ succ' chain old) {t : N} :
    ∀ {suf pre : List N} {b : N}, chain t = pre ++ b :: suf →
      (b :: suf ++ [t]).IsChain (fun b c => c ∈ succ' b) := by
  intro suf
  induction suf with
  | nil =>
    intro pre b hb
    have hsucc := h.succ_chain t pre b [] hb
    exact List.isChain_cons_cons.2 ⟨by simp [hsucc], List.isChain_singleton _⟩
  | cons c suf ih =>
    intro pre b hb
    have hsucc := h.succ_chain t pre b (c :: suf) hb
    have hc : chain t = (pre ++ [b]) ++ c :: suf := by simp [hb]
    have hrest := ih hc
    exact List.isChain_cons_cons.2 ⟨by simp [hsucc], hrest⟩

/-- An edge of the original graph is a path through the chain of its target. -/
theorem isChain_edge (h : Subdivision succ succ' chain old) {b t : N} (hb : old b)
    (ht : t ∈ succ b) : (b :: (chain t ++ [t])).IsChain (fun b c => c ∈ succ' b) := by
  have henter : enter chain t ∈ succ' b := by
    rw [h.succ_old b hb]
    exact List.mem_map_of_mem ht
  cases hc : chain t with
  | nil =>
    simp only [enter, hc, List.headD_nil] at henter
    exact List.isChain_cons_cons.2 ⟨henter, List.isChain_singleton _⟩
  | cons c suf =>
    simp only [enter, hc, List.headD_cons] at henter
    have hc' : chain t = [] ++ c :: suf := hc
    have hrest := h.isChain_chain hc'
    exact List.isChain_cons_cons.2 ⟨henter, hrest⟩

theorem isChain_expand (h : Subdivision succ succ' chain old) :
    ∀ {path : List N} {e : N}, old e → (e :: path).IsChain (fun b c => c ∈ succ b) →
      (expand chain (e :: path)).IsChain (fun b c => c ∈ succ' b) := by
  intro path
  induction path with
  | nil => exact fun _ _ => List.isChain_singleton _
  | cons c path ih =>
    intro e he hchain
    obtain ⟨hc, hchain⟩ := List.isChain_cons_cons.1 hchain
    have hedge := h.isChain_edge he hc
    have hrest := ih (h.closed e he c hc) hchain
    have hsplit : expand chain (e :: c :: path) =
        (e :: chain c) ++ expand chain (c :: path) := by
      simp [expand]
    rw [hsplit]
    rw [← List.cons_append] at hedge
    have happend := List.isChain_append.1 hedge
    refine List.isChain_append.2 ⟨happend.1, hrest, ?_⟩
    intro x hx y hy
    have hy' : y = c := by simpa [expand] using hy.symm
    subst hy'
    exact happend.2.2 x hx y (by simp)

/-- A path of the subdivided graph is an expansion followed by the beginning of a chain. -/
theorem exists_expand (h : Subdivision succ succ' chain old) {e : N} (he : old e) (path : List N)
    (hhead : path.head? = some e) (hchain : path.IsChain (fun b c => c ∈ succ' b)) :
    ∃ p pre suf last t, p.head? = some e ∧ p.getLast? = some last ∧
      p.IsChain (fun b c => c ∈ succ b) ∧ path = expand chain p ++ pre ∧
      (pre ≠ [] → t ∈ succ last ∧ chain t = pre ++ suf) := by
  induction path using List.reverseRecOn with
  | nil => cases hhead
  | append_singleton path c ih =>
    rcases List.eq_nil_or_concat path with rfl | ⟨path', b, hpath⟩
    · obtain rfl : c = e := by simpa using hhead
      exact ⟨[c], [], [], c, c, rfl, rfl, List.isChain_singleton _, rfl, fun hne => absurd rfl hne⟩
    · rw [List.concat_eq_append] at hpath
      have hne : path ≠ [] := by simp [hpath]
      obtain ⟨hold, -, hlink⟩ := List.isChain_append.1 hchain
      have hhead' : path.head? = some e := by
        rwa [List.head?_append_of_ne_nil _ hne] at hhead
      obtain ⟨p, pre, suf, last, t, hp, hlast, hsucc, hpathEq, hpre⟩ := ih hhead' hold
      have hpne : p ≠ [] := by
        intro e
        simp [e] at hp
      have hbc : c ∈ succ' b := hlink b (by simp [hpath]) c (by simp)
      have hmem : ∀ b ∈ p, old b := by
        cases p with
        | nil => exact absurd rfl hpne
        | cons e' p =>
          obtain rfl : e' = e := by simpa using hp
          exact h.old_of_isChain he hsucc
      -- one more edge of the original graph
      have hstep : ∀ t', t' ∈ succ last → (p ++ [t']).IsChain (fun b c => c ∈ succ b) := by
        intro t' ht'
        refine List.isChain_append.2 ⟨hsucc, List.isChain_singleton _, ?_⟩
        intro x hx y hy
        obtain rfl : last = x := by simpa [hlast] using hx
        obtain rfl : t' = y := by simpa using hy
        exact ht'
      have hhead_concat : ∀ t', (p ++ [t']).head? = some e := by
        intro t'
        rw [List.head?_append_of_ne_nil _ hpne, hp]
      cases pre with
      | nil =>
        rw [List.append_nil] at hpathEq
        have hb : b = last := by
          have hl : path.getLast? = some b := by simp [hpath]
          rw [hpathEq, getLast?_expand, hlast] at hl
          exact (Option.some.inj hl).symm
        subst hb
        have hbold : old b := hmem b (List.mem_of_getLast? hlast)
        rw [h.succ_old b hbold, List.mem_map] at hbc
        obtain ⟨t', ht', rfl⟩ := hbc
        cases hc : chain t' with
        | nil =>
          have henter : enter chain t' = t' := by simp [enter, hc]
          refine ⟨p ++ [t'], [], [], t', t', hhead_concat t', by simp, hstep t' ht', ?_,
            fun hne => absurd rfl hne⟩
          rw [henter, expand_concat hpne, hc, hpathEq]
          simp
        | cons c suf' =>
          have henter : enter chain t' = c := by simp [enter, hc]
          refine ⟨p, [c], suf', b, t', hp, hlast, hsucc, ?_, fun _ => ⟨ht', hc⟩⟩
          rw [henter, hpathEq]
      | cons d pre =>
        obtain ⟨ht, hchainEq⟩ := hpre (by simp)
        -- the last node of the path is the last of the partial chain
        obtain ⟨pre', hpre'⟩ : ∃ pre', d :: pre = pre' ++ [b] := by
          refine ⟨(d :: pre).dropLast, ?_⟩
          have hl : path.getLast? = some b := by simp [hpath]
          rw [hpathEq, List.getLast?_append_of_ne_nil _ (by simp)] at hl
          rw [← List.dropLast_append_getLast? b hl]
          simp
        have hbsucc := h.succ_chain t pre' b suf (by rw [hchainEq, hpre']; simp)
        rw [hbsucc, List.mem_singleton] at hbc
        cases suf with
        | nil =>
          have hct : c = t := hbc
          subst hct
          refine ⟨p ++ [c], [], [], c, c, hhead_concat c, by simp, hstep c ht, ?_,
            fun hne => absurd rfl hne⟩
          rw [expand_concat hpne, hchainEq, hpathEq]
          simp
        | cons f suf =>
          have hcf : c = f := hbc
          subst hcf
          refine ⟨p, d :: pre ++ [c], suf, last, t, hp, hlast, hsucc, ?_, fun _ => ⟨ht, ?_⟩⟩
          · rw [hpathEq]
            simp
          · rw [hchainEq]
            simp

section Filter

variable [DecidablePred old]

theorem filter_chain (h : Subdivision succ succ' chain old) {t : N} {pre suf : List N}
    (hc : chain t = pre ++ suf) : pre.filter (fun b => decide (old b)) = [] := by
  rw [List.filter_eq_nil_iff]
  intro b hb
  have hfresh := h.fresh t b (by simp [hc, hb])
  simpa using hfresh

/-- Deleting the fresh nodes of an expansion gives the path back. -/
theorem filter_expand (h : Subdivision succ succ' chain old) {path : List N}
    (hold : ∀ b ∈ path, old b) : (expand chain path).filter (fun b => decide (old b)) = path := by
  cases path with
  | nil => rfl
  | cons e path =>
    have hrest : (path.flatMap fun c => chain c ++ [c]).filter (fun b => decide (old b)) = path := by
      have hpath : ∀ b ∈ path, old b := fun b hb => hold b (List.mem_cons_of_mem _ hb)
      clear hold
      induction path with
      | nil => rfl
      | cons c path ih =>
        have hc : old c := hpath c List.mem_cons_self
        have hnil := h.filter_chain (List.append_nil (chain c)).symm
        rw [List.flatMap_cons, List.filter_append, List.filter_append, hnil,
          ih fun b hb => hpath b (List.mem_cons_of_mem _ hb)]
        simp [hc]
    have he : old e := hold e List.mem_cons_self
    simp [expand, he, hrest]

end Filter

/-- An infinite path that enters the chain of `t` comes to `t`. -/
theorem infinite_reaches (h : Subdivision succ succ' chain old) {s : Nat → N}
    (hs : ∀ k, s (k + 1) ∈ succ' (s k)) {t : N} :
    ∀ {suf pre : List N} {b : N} {k : Nat}, chain t = pre ++ b :: suf → s k = b →
      ∃ m, s m = t := by
  intro suf
  induction suf with
  | nil =>
    intro pre b k hb hk
    have hnext := hs k
    rw [hk, h.succ_chain t pre b [] hb] at hnext
    exact ⟨k + 1, by simpa using hnext⟩
  | cons c suf ih =>
    intro pre b k hb hk
    have hnext := hs k
    rw [hk, h.succ_chain t pre b (c :: suf) hb] at hnext
    have hnext' : s (k + 1) = c := by simpa using hnext
    have hc : chain t = (pre ++ [b]) ++ c :: suf := by simp [hb]
    exact ih hc hnext'

/-- When only dead ends have chains, an infinite path never meets a chain. -/
theorem infinite_iff (h : Subdivision succ succ' chain old)
    (hdead : ∀ t, chain t ≠ [] → old t ∧ succ t = []) {s : Nat → N} (h0 : old (s 0)) :
    (∀ k, s (k + 1) ∈ succ' (s k)) ↔ ∀ k, s (k + 1) ∈ succ (s k) := by
  constructor
  · intro hs
    have hstep : ∀ k, old (s k) → s (k + 1) ∈ succ (s k) := by
      intro k hk
      have hnext := hs k
      rw [h.succ_old _ hk, List.mem_map] at hnext
      obtain ⟨t, ht, hnext⟩ := hnext
      cases hc : chain t with
      | nil =>
        simp only [enter, hc, List.headD_nil] at hnext
        rwa [← hnext]
      | cons c suf =>
        simp only [enter, hc, List.headD_cons] at hnext
        obtain ⟨hold, hnone⟩ := hdead t (by simp [hc])
        have hc' : chain t = [] ++ c :: suf := hc
        obtain ⟨m, hm⟩ := h.infinite_reaches hs hc' hnext.symm
        have hlast := hs m
        rw [hm, h.succ_old t hold, hnone] at hlast
        cases hlast
    have hold : ∀ k, old (s k) := by
      intro k
      induction k with
      | zero => exact h0
      | succ k ih => exact h.closed _ ih _ (hstep k ih)
    exact fun k => hstep k (hold k)
  · intro hs
    have hold : ∀ k, old (s k) := by
      intro k
      induction k with
      | zero => exact h0
      | succ k ih => exact h.closed _ ih _ (hs k)
    intro k
    have hnil : chain (s (k + 1)) = [] := by
      by_contra hne
      have hlast := hs (k + 1)
      rw [(hdead _ hne).2] at hlast
      cases hlast
    rw [h.succ_old _ (hold k), List.mem_map]
    exact ⟨s (k + 1), hs k, by simp [enter, hnil]⟩

end Subdivision

end Dataflow
