import Cobrust.Graph.DepthFirst
import Mathlib.Data.List.Chain
import Mathlib.Logic.Relation
import Mathlib.Order.Basic

/-!
# Cycles found by a depth-first walk

A walk over a graph of nodes, each of which stands for itself. It stores nodes before it goes on to their successors
and returns early for those that are stored, yet no cycle hides behind a stored node.

* `search_exact`: a walk from a root ends, with a lasso if a cycle is reachable and else with the reachable nodes.
* `walk_nodes`: a walk over entries whose keys have the same keys below them is the walk over the keys.
-/

namespace Cobrust.Graph

open Store (Table)
open Relation (ReflTransGen TransGen)

namespace System

variable {κ ε ν χ : Type}

/-- The order in which the entries are given. -/
def given : VisitOrder κ ε :=
  fun _ entries => entries

theorem given_reorders : (given : VisitOrder κ ε).Reorders :=
  fun _ _ => .refl _

/-- A walk along edges that ends where it has been before. -/
structure Lasso (edge : κ → κ → Prop) (root : κ) (walk : List κ) : Prop where
  start : walk.head? = some root
  steps : walk.IsChain edge
  ends : ∃ way last, walk = way ++ [last] ∧ last ∈ way

/-- A node expands to its successors. -/
def nodes (succ : κ → List κ) (cycle : List κ → χ) : System κ κ Unit χ where
  key := id
  expand k := .ok ((), succ k)
  cycle := cycle

variable {succ : κ → List κ} {cycle : List κ → χ}

/-! ## Nodes -/

section Nodes

variable {root a b k : κ} {path pool : List κ} {fuel : Nat}

theorem nodes_determined (entries : List κ) : (nodes succ cycle).Determined entries := by
  rintro a b - - rfl
  rfl

theorem nodes_reach_singleton : (nodes succ cycle).Reach [a] b ↔ ReflTransGen (fun a b => b ∈ succ a) a b := by
  constructor
  · intro h
    induction h with
    | root h => rw [List.mem_singleton.1 h]
    | child _ hexpand hc ih =>
      cases hexpand
      exact ih.tail hc
  · intro h
    induction h with
    | refl => exact .self
    | tail _ hedge ih => exact ih.child rfl hedge

theorem nodes_reach : (nodes succ cycle).Reach (succ root) b ↔ TransGen (fun a b => b ∈ succ a) root b := by
  rw [Relation.TransGen.head'_iff]
  constructor
  · intro h
    obtain ⟨c, hc, h⟩ := h.split
    exact ⟨c, hc, nodes_reach_singleton.1 h⟩
  · rintro ⟨c, hc, h⟩
    exact Reach.append (.root hc) (nodes_reach_singleton.2 h)

theorem Unfolds.acyclic (h : (nodes succ cycle).Unfolds path k) (hb : ReflTransGen (fun a b => b ∈ succ a) k b) :
    ¬ TransGen (fun a b => b ∈ succ a) b b := by
  induction h with
  | @mk path k value children hkey hexpand hchildren ih =>
    cases hexpand
    rcases hb.cases_head with rfl | ⟨c, hc, hb⟩
    · intro hcycle
      obtain ⟨c, hc, hback⟩ := Relation.TransGen.head'_iff.1 hcycle
      exact (hchildren c hc).not_mem (nodes_reach_singleton.2 hback)
        (List.mem_append_right _ (List.mem_singleton_self _))
    · exact ih c hc hb

variable [DecidableEq κ]

theorem unfolds_of_acyclic (hpool : ∀ b, TransGen (fun a b => b ∈ succ a) root b → b ∈ pool)
    (hacyclic : ∀ b, ReflTransGen (fun a b => b ∈ succ a) root b → ¬ TransGen (fun a b => b ∈ succ a) b b)
    (hk : TransGen (fun a b => b ∈ succ a) root k)
    (hpath : ∀ b, ReflTransGen (fun a b => b ∈ succ a) k b → b ∉ path) : (nodes succ cycle).Unfolds path k := by
  induction hn : (pool.filter fun j => j ∉ path).length using Nat.strong_induction_on generalizing path k with
  | _ n ih =>
    subst hn
    refine .mk (hpath k .refl) rfl fun c hc => ?_
    have hlt := filter_length_lt (hpool k hk) (hpath k .refl)
    refine ih _ hlt (hk.tail hc) (fun b hb hmem => ?_) rfl
    rcases List.mem_append.1 hmem with hmem | hmem
    · exact hpath b (.head hc hb) hmem
    · -- an edge back to the node would close a cycle
      rw [List.mem_singleton.1 hmem] at hb
      exact hacyclic k hk.to_reflTransGen (Relation.TransGen.head'_iff.2 ⟨c, hc, hb⟩)

section Fold

variable {τ σ : Type} {step : Table κ ν → σ → Except τ (Table κ ν)} {es : List σ} {table : Table κ ν} {err : τ}

omit [DecidableEq κ] in
theorem foldlM_error (h : es.foldlM step table = .error err) : ∃ e ∈ es, ∃ t, step t e = .error err := by
  induction es generalizing table with
  | nil => cases h
  | cons e es ih =>
    rw [List.foldlM_cons] at h
    cases hfirst : step table e with
    | error err' =>
      rw [hfirst] at h
      cases h
      exact ⟨e, List.mem_cons_self, table, hfirst⟩
    | ok t =>
      rw [hfirst] at h
      obtain ⟨c, hc, t, hstep⟩ := ih h
      exact ⟨c, List.mem_cons_of_mem _ hc, t, hstep⟩

end Fold

variable {table : Table κ Unit} {err : Option χ}

/-- With fuel for the nodes that are not on the path, the only error is a lasso. -/
theorem walk_error (hpool : ∀ b, TransGen (fun a b => b ∈ succ a) root b → b ∈ pool)
    (hk : TransGen (fun a b => b ∈ succ a) root k) (hstart : path.head? = some root)
    (hsteps : (path ++ [k]).IsChain fun a b => b ∈ succ a)
    (hfuel : (pool.filter fun j => j ∉ path).length < fuel)
    (h : (nodes succ cycle).walk given fuel path table k = .error err) :
    ∃ p, err = some (cycle p) ∧ Lasso (fun a b => b ∈ succ a) root p := by
  induction fuel generalizing path table k with
  | zero => exact absurd hfuel (Nat.not_lt_zero _)
  | succ fuel ih =>
    have hstart' : (path ++ [k]).head? = some root := by
      rw [List.head?_append, hstart]
      rfl
    rw [walk] at h
    split at h
    · next hmem =>
      cases h
      exact ⟨path ++ [k], rfl, hstart', hsteps, path, k, rfl, hmem⟩
    · next hpath =>
      split at h
      · cases h
      · obtain ⟨c, hc, t, hstep⟩ := foldlM_error h
        have hlt := filter_length_lt (hpool k hk) hpath
        refine ih (hk.tail hc) hstart' ?_ (Nat.lt_of_lt_of_le hlt (Nat.le_of_lt_succ hfuel)) hstep
        refine List.isChain_append.2 ⟨hsteps, List.isChain_singleton c, ?_⟩
        intro x hx y hy
        rw [List.getLast?_append, List.getLast?_singleton] at hx
        cases hx
        cases hy
        exact hc

/-- The walk from a root. -/
def search (succ : κ → List κ) (cycle : List κ → χ) (fuel : Nat) (root : κ) : Except (Option χ) (Table κ Unit) :=
  (nodes succ cycle).walkAll given fuel [root] (succ root) Table.empty

theorem search_ok_acyclic (h : search succ cycle fuel root = .ok table)
    (hb : ReflTransGen (fun a b => b ∈ succ a) root b) : ¬ TransGen (fun a b => b ∈ succ a) b b := by
  have hunfolds := walkAll_unfolds given_reorders (nodes_determined _) h
  intro hcycle
  rcases hb.cases_head with rfl | ⟨c, hc, hb⟩
  · obtain ⟨c, hc, hback⟩ := Relation.TransGen.head'_iff.1 hcycle
    exact (hunfolds c hc).1.not_mem (nodes_reach_singleton.2 hback) (List.mem_singleton_self _)
  · exact (hunfolds c hc).1.acyclic hb hcycle

theorem search_ok_rows (h : search succ cycle fuel root = .ok table) (k : κ) :
    (table k).isSome ↔ TransGen (fun a b => b ∈ succ a) root k := by
  have hnodes : (nodes succ cycle).Reach (succ root) k ↔ TransGen (fun a b => b ∈ succ a) root k := nodes_reach
  rw [← hnodes, Option.isSome_iff_exists]
  constructor
  · rintro ⟨v, hv⟩
    obtain ⟨e, children, hreach, hkey, -⟩ := (walkAll_rows given_reorders (nodes_determined _) h k v).1 hv
    exact hkey ▸ hreach
  · intro hreach
    exact ⟨(), (walkAll_rows given_reorders (nodes_determined _) h k ()).2 ⟨k, succ k, hreach, rfl, rfl⟩⟩

/-- A walk from a root ends with a lasso if a cycle is reachable, and else with the nodes behind the root. -/
theorem search_exact (hpool : ∀ b, TransGen (fun a b => b ∈ succ a) root b → b ∈ pool) (hfuel : pool.length < fuel) :
    ((∃ b, ReflTransGen (fun a b => b ∈ succ a) root b ∧ TransGen (fun a b => b ∈ succ a) b b) →
      ∃ p, search succ cycle fuel root = .error (some (cycle p)) ∧ Lasso (fun a b => b ∈ succ a) root p) ∧
    ((¬ ∃ b, ReflTransGen (fun a b => b ∈ succ a) root b ∧ TransGen (fun a b => b ∈ succ a) b b) →
      ∃ table, search succ cycle fuel root = .ok table ∧
        ∀ k, (table k).isSome ↔ TransGen (fun a b => b ∈ succ a) root k) := by
  have hlen : (pool.filter fun j => j ∉ [root]).length < fuel :=
    Nat.lt_of_le_of_lt (List.length_filter_le _ _) hfuel
  constructor
  · rintro ⟨b, hb, hcycle⟩
    cases hsearch : search succ cycle fuel root with
    | ok table => exact absurd hcycle (search_ok_acyclic hsearch hb)
    | error err =>
      obtain ⟨c, hc, t, hstep⟩ := foldlM_error hsearch
      obtain ⟨p, rfl, hlasso⟩ := walk_error hpool (.single hc) rfl
        (List.isChain_cons_cons.2 ⟨hc, List.isChain_singleton c⟩) hlen hstep
      exact ⟨p, rfl, hlasso⟩
  · intro hnone
    have hacyclic : ∀ b, ReflTransGen (fun a b => b ∈ succ a) root b → ¬ TransGen (fun a b => b ∈ succ a) b b :=
      fun b hb hcycle => hnone ⟨b, hb, hcycle⟩
    obtain ⟨table, hsearch⟩ : ∃ table, search succ cycle fuel root = .ok table := by
      refine foldlM_total (fun c hc t => ?_) _
      have hreach : TransGen (fun a b => b ∈ succ a) root c := .single hc
      have hunfolds : (nodes succ cycle).Unfolds [root] c := by
        refine unfolds_of_acyclic hpool hacyclic hreach fun b hb hmem => ?_
        rw [List.mem_singleton.1 hmem] at hb
        exact hacyclic root .refl (hreach.trans_left hb)
      exact walk_of_unfolds given_reorders hunfolds
        (fun b hb => hpool b (hreach.trans_left (nodes_reach_singleton.1 hb))) hlen t
    exact ⟨table, hsearch, search_ok_rows hsearch⟩

end Nodes

/-! ## Entries that follow a graph of keys -/

section Follow

variable {sys : System κ ε ν χ} {entries : List ε} {root : κ} {path : List κ} {e : ε}

/-- The keys below a reachable entry are the successors of its key. An entry with the key of the root is a cycle
before it is expanded. -/
def Follows (sys : System κ ε ν χ) (entries : List ε) (root : κ) (succ : κ → List κ) : Prop :=
  ∀ e, sys.Reach entries e → sys.key e ≠ root →
    ∃ value children, sys.expand e = .ok (value, children) ∧ children.map sys.key = succ (sys.key e)

/-- The keys of a table. -/
def keysOf (table : Table κ ν) : Table κ Unit :=
  fun k => (table k).map fun _ => ()

theorem isSome_keysOf (table : Table κ ν) (k : κ) : (keysOf table k).isSome = (table k).isSome :=
  Option.isSome_map ..

theorem keysOf_insert [DecidableEq κ] (table : Table κ ν) (k : κ) (v : ν) :
    keysOf (table.insert k v) = (keysOf table).insert k () := by
  funext j
  by_cases hj : j = k
  · subst hj
    simp [keysOf, Table.insert]
  · simp [keysOf, Table.insert, hj]

theorem keysOf_empty : keysOf (Table.empty : Table κ ν) = Table.empty :=
  rfl

theorem foldlM_keysOf {step : Table κ ν → ε → Except (Option χ) (Table κ ν)}
    {step' : Table κ Unit → κ → Except (Option χ) (Table κ Unit)} {es : List ε}
    (hstep : ∀ e ∈ es, ∀ t, (step t e).map keysOf = step' (keysOf t) (sys.key e)) (table : Table κ ν) :
    (es.foldlM step table).map keysOf = (es.map sys.key).foldlM step' (keysOf table) := by
  induction es generalizing table with
  | nil => rfl
  | cons e es ih =>
    rw [List.map_cons, List.foldlM_cons, List.foldlM_cons, ← hstep e List.mem_cons_self table]
    cases step table e with
    | error err => rfl
    | ok t => exact ih (fun c hc => hstep c (List.mem_cons_of_mem _ hc)) t

variable [DecidableEq κ]

theorem walk_nodes (hfollows : Follows sys entries root succ) (he : sys.Reach entries e) (hroot : root ∈ path)
    (fuel : Nat) (table : Table κ ν) :
    (sys.walk given fuel path table e).map keysOf =
      (nodes succ sys.cycle).walk given fuel path (keysOf table) (sys.key e) := by
  induction fuel generalizing path table e with
  | zero => rfl
  | succ fuel ih =>
    have hkey : (nodes succ sys.cycle).key (sys.key e) = sys.key e := rfl
    rw [walk, walk, hkey, isSome_keysOf]
    by_cases hpath : sys.key e ∈ path
    · rw [if_pos hpath, if_pos hpath]
      rfl
    · rw [if_neg hpath, if_neg hpath]
      by_cases hstored : (table (sys.key e)).isSome = true
      · rw [if_pos hstored, if_pos hstored]
        rfl
      · have hne : sys.key e ≠ root := fun h => hpath (h ▸ hroot)
        obtain ⟨value, children, hexpand, hkeys⟩ := hfollows e he hne
        have hexpand' : (nodes succ sys.cycle).expand (sys.key e) = .ok ((), succ (sys.key e)) := rfl
        rw [if_neg hstored, if_neg hstored, hexpand, hexpand']
        simp only [given]
        rw [← hkeys, ← keysOf_insert table _ value]
        refine foldlM_keysOf (fun c hc t => ?_) _
        exact ih (he.child hexpand hc) (List.mem_append_left _ hroot) t

/-- What a walk over entries says is what the walk over their keys says. -/
theorem walkAll_nodes (hfollows : Follows sys entries root succ) (hentries : entries.map sys.key = succ root)
    (fuel : Nat) :
    (sys.walkAll given fuel [root] entries Table.empty).map keysOf = search succ sys.cycle fuel root := by
  unfold search walkAll
  simp only [given]
  rw [← hentries, ← keysOf_empty]
  exact foldlM_keysOf (fun c hc t => walk_nodes hfollows (.root hc) (List.mem_singleton_self _) fuel t) _

end Follow

end System

end Cobrust.Graph
