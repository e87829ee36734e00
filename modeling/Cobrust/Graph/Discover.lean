import Mathlib.Data.List.Nodup
import Mathlib.Data.List.Perm.Subperm
import Mathlib.Logic.Relation

/-!
# Breadth-first discovery

`Discover.walk` visits what can be reached from a root: it takes a vertex from the front of a queue,
keeps what the visit yields and queues the neighbours that have not been seen. On a finite graph
`Discover.order` has every reachable vertex exactly once and starts with the root
(`Discover.order_spec`).
-/

open Relation (ReflTransGen)

namespace Discover

variable {V B : Type} [DecidableEq V]

/-- Queue the vertices that have not been seen, and mark them as seen. -/
def enqueue : List V → List V × List V → List V × List V
  | [], state => state
  | v :: rest, (queue, seen) =>
    enqueue rest (if v ∈ seen then (queue, seen) else (queue ++ [v], seen ++ [v]))

/-- The loop; a visit gives a result and the neighbours. -/
def walk (visit : V → B × List V) : Nat → List V → List V → List B
  | 0, _, _ => []
  | _ + 1, [], _ => []
  | fuel + 1, v :: queue, seen =>
    let (queue, seen) := enqueue (visit v).2 (queue, seen)
    (visit v).1 :: walk visit fuel queue seen

/-- The vertices in the order of their discovery. -/
def order (succ : V → List V) (fuel : Nat) (root : V) : List V :=
  walk (fun v => (v, succ v)) fuel [root] [root]

theorem walk_eq_map (visit : V → B × List V) (fuel : Nat) (queue seen : List V) :
    walk visit fuel queue seen =
      (walk (fun v => (v, (visit v).2)) fuel queue seen).map fun v => (visit v).1 := by
  induction fuel generalizing queue seen with
  | zero => rfl
  | succ fuel ih =>
    cases queue with
    | nil => rfl
    | cons v queue =>
      rw [walk, walk, List.map_cons]
      exact congrArg _ (ih _ _)

/-- What `enqueue` adds to the queue and to the seen vertices. -/
theorem enqueue_spec (next queue seen : List V) :
    ∃ new, enqueue next (queue, seen) = (queue ++ new, seen ++ new) ∧ new.Nodup ∧
      (∀ v ∈ new, v ∈ next ∧ v ∉ seen) ∧ ∀ v ∈ next, v ∈ seen ++ new := by
  induction next generalizing queue seen with
  | nil => exact ⟨[], by simp [enqueue]⟩
  | cons v rest ih =>
    rw [enqueue]
    split
    · rename_i hv
      obtain ⟨new, he, hnd, hnew, hall⟩ := ih queue seen
      refine ⟨new, he, hnd, fun w hw => ?_, ?_⟩
      · exact ⟨List.mem_cons_of_mem v (hnew w hw).1, (hnew w hw).2⟩
      · exact List.forall_mem_cons.2 ⟨List.mem_append_left new hv, hall⟩
    · rename_i hv
      obtain ⟨new, he, hnd, hnew, hall⟩ := ih (queue ++ [v]) (seen ++ [v])
      refine ⟨v :: new, by simp [he], List.nodup_cons.2 ⟨fun h => ?_, hnd⟩, ?_, ?_⟩
      · exact (hnew v h).2 (by simp)
      · refine List.forall_mem_cons.2 ⟨⟨by simp, hv⟩, fun w hw => ?_⟩
        obtain ⟨hmem, hseen⟩ := hnew w hw
        exact ⟨List.mem_cons_of_mem v hmem, fun h => hseen (List.mem_append_left [v] h)⟩
      · refine List.forall_mem_cons.2 ⟨by simp, fun w hw => ?_⟩
        simpa using hall w hw

/-- The invariant of the loop: what has been seen is what has been visited and what is queued. -/
structure Inv (succ : V → List V) (root : V) (vertices done queue seen : List V) : Prop where
  split : seen = done ++ queue
  nodup : seen.Nodup
  reach : ∀ v ∈ seen, ReflTransGen (fun v w => w ∈ succ v) root v
  closed : ∀ v ∈ done, ∀ w ∈ succ v, w ∈ seen
  bounded : ∀ v ∈ seen, v ∈ vertices

variable {succ : V → List V} {root : V} {vertices done queue seen : List V}

theorem Inv.step {v : V} (h : Inv succ root vertices done (v :: queue) seen)
    (hclosed : ∀ v ∈ vertices, ∀ w ∈ succ v, w ∈ vertices) :
    ∃ new, enqueue (succ v) (queue, seen) = (queue ++ new, seen ++ new) ∧
      Inv succ root vertices (done ++ [v]) (queue ++ new) (seen ++ new) := by
  obtain ⟨new, he, hnd, hnew, hall⟩ := enqueue_spec (succ v) queue seen
  have hv : v ∈ seen := by simp [h.split]
  refine ⟨new, he, ?_, ?_, ?_, ?_, ?_⟩
  · simp [h.split]
  · refine List.nodup_append.2 ⟨h.nodup, hnd, ?_⟩
    rintro a ha b hb rfl
    exact (hnew a hb).2 ha
  · refine List.forall_mem_append.2 ⟨h.reach, fun w hw => ?_⟩
    exact (h.reach v hv).tail (hnew w hw).1
  · refine List.forall_mem_append.2 ⟨fun u hu w hw => ?_, List.forall_mem_singleton.2 hall⟩
    exact List.mem_append_left new (h.closed u hu w hw)
  · refine List.forall_mem_append.2 ⟨h.bounded, fun w hw => ?_⟩
    exact hclosed v (h.bounded v hv) w (hnew w hw).1

omit [DecidableEq V] in
theorem Inv.length_le (h : Inv succ root vertices done queue seen) :
    done.length + queue.length ≤ vertices.length := by
  have hlen := (List.subperm_of_subset h.nodup h.bounded).length_le
  rwa [h.split, List.length_append] at hlen

theorem Inv.run (h : Inv succ root vertices done queue seen)
    (hclosed : ∀ v ∈ vertices, ∀ w ∈ succ v, w ∈ vertices) {fuel : Nat}
    (hfuel : vertices.length ≤ done.length + fuel) :
    ∃ seen', done ++ walk (fun v => (v, succ v)) fuel queue seen = seen' ∧ seen <+: seen' ∧
      Inv succ root vertices seen' [] seen' := by
  induction fuel generalizing done queue seen with
  | zero =>
    obtain rfl : queue = [] := by
      have hlen := h.length_le
      exact List.length_eq_zero_iff.1 (by omega)
    refine ⟨seen, by simp [walk, h.split], List.prefix_refl seen, ?_⟩
    have hsplit := h.split
    rw [List.append_nil] at hsplit
    exact hsplit ▸ hsplit ▸ h
  | succ fuel ih =>
    cases queue with
    | nil =>
      refine ⟨seen, by simp [walk, h.split], List.prefix_refl seen, ?_⟩
      have hsplit := h.split
      rw [List.append_nil] at hsplit
      exact hsplit ▸ hsplit ▸ h
    | cons v queue =>
      obtain ⟨new, he, hinv⟩ := h.step hclosed
      have hlen : vertices.length ≤ (done ++ [v]).length + fuel := by
        simp only [List.length_append, List.length_singleton]
        omega
      obtain ⟨seen', hrun, hpre, hend⟩ := ih hinv hlen
      refine ⟨seen', ?_, (List.prefix_append seen new).trans hpre, hend⟩
      rw [walk, he, ← hrun, List.append_assoc]
      rfl

theorem order_spec (hclosed : ∀ v ∈ vertices, ∀ w ∈ succ v, w ∈ vertices) (hroot : root ∈ vertices)
    {fuel : Nat} (hfuel : vertices.length ≤ fuel) :
    (order succ fuel root).head? = some root ∧ (order succ fuel root).Nodup ∧
      ∀ v, v ∈ order succ fuel root ↔ ReflTransGen (fun v w => w ∈ succ v) root v := by
  have hstart : Inv succ root vertices [] [root] [root] :=
    { split := rfl
      nodup := List.nodup_singleton root
      reach := List.forall_mem_singleton.2 .refl
      closed := fun v hv => absurd hv List.not_mem_nil
      bounded := List.forall_mem_singleton.2 hroot }
  have hlen : vertices.length ≤ ([] : List V).length + fuel := by simpa using hfuel
  obtain ⟨seen, hrun, hpre, hinv⟩ := hstart.run hclosed hlen
  obtain rfl : order succ fuel root = seen := hrun
  refine ⟨?_, hinv.nodup, fun v => ⟨hinv.reach v, fun h => ?_⟩⟩
  · obtain ⟨rest, he⟩ := hpre
    rw [← he]
    rfl
  · induction h with
    | refl => exact hpre.subset (List.mem_singleton_self root)
    | tail _ hstep ih => exact hinv.closed _ ih _ hstep

end Discover
