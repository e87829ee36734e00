import Mathlib.Data.List.Basic
import Mathlib.Data.List.Induction
import Mathlib.Data.List.Nodup
import Mathlib.Order.Basic
import Mathlib.Order.Lattice

/-!
# Maps as rows

An ordered map, by the list of its rows with the keys in order. `sortRows` is the map of some rows; it does not
depend on their order when no key is there twice (`sortRows_perm`).

* `groupBy`: the elements of a list by their keys, each group in the order of the list.
* `firstMin`: the loop that keeps the first of the best elements.
-/

namespace Cobrust.Store

variable {κ ν : Type} [LinearOrder κ]

def insertRow (k : κ) (v : ν) : List (κ × ν) → List (κ × ν)
  | [] => [(k, v)]
  | row :: rows =>
    if k < row.1 then (k, v) :: row :: rows
    else if k = row.1 then (k, v) :: rows
    else row :: insertRow k v rows

def sortRows (rows : List (κ × ν)) : List (κ × ν) :=
  rows.foldr (fun row sorted => insertRow row.1 row.2 sorted) []

/-- Every key is smaller than those behind it. -/
def SortedRows (rows : List (κ × ν)) : Prop :=
  (rows.map Prod.fst).Pairwise (· < ·)

variable {k k' : κ} {v v' : ν} {row : κ × ν} {rows rows' : List (κ × ν)}

theorem sortedRows_cons : SortedRows (row :: rows) ↔ (∀ r ∈ rows, row.1 < r.1) ∧ SortedRows rows := by
  simp [SortedRows]

theorem mem_insertRow (h : row ∈ insertRow k v rows) : row = (k, v) ∨ row ∈ rows := by
  induction rows with
  | nil => exact .inl (List.mem_singleton.1 h)
  | cons r rows ih =>
    rw [insertRow] at h
    split_ifs at h
    · exact List.mem_cons.1 h
    · exact (List.mem_cons.1 h).imp_right (List.mem_cons_of_mem _)
    · rcases List.mem_cons.1 h with rfl | h
      · exact .inr List.mem_cons_self
      · exact (ih h).imp_right (List.mem_cons_of_mem _)

theorem sortedRows_insertRow (h : SortedRows rows) : SortedRows (insertRow k v rows) := by
  induction rows with
  | nil => simp [insertRow, SortedRows]
  | cons r rows ih =>
    obtain ⟨hr, hrows⟩ := sortedRows_cons.1 h
    rw [insertRow]
    split_ifs with hlt heq
    · refine sortedRows_cons.2 ⟨?_, h⟩
      intro r' hr'
      rcases List.mem_cons.1 hr' with rfl | hr'
      · exact hlt
      · exact hlt.trans (hr r' hr')
    · exact sortedRows_cons.2 ⟨fun r' hr' => heq ▸ hr r' hr', hrows⟩
    · refine sortedRows_cons.2 ⟨?_, ih hrows⟩
      intro r' hr'
      rcases mem_insertRow hr' with rfl | hr'
      · exact lt_of_le_of_ne (not_lt.1 hlt) (Ne.symm heq)
      · exact hr r' hr'

theorem sortedRows_sortRows (rows : List (κ × ν)) : SortedRows (sortRows rows) := by
  induction rows with
  | nil => exact List.Pairwise.nil
  | cons r rows ih => exact sortedRows_insertRow ih

theorem sortRows_of_sorted (h : SortedRows rows) : sortRows rows = rows := by
  induction rows with
  | nil => rfl
  | cons r rows ih =>
    obtain ⟨hr, hrows⟩ := sortedRows_cons.1 h
    rw [sortRows, List.foldr_cons]
    change insertRow r.1 r.2 (sortRows rows) = _
    rw [ih hrows]
    cases rows with
    | nil => rfl
    | cons r' rows => rw [insertRow, if_pos (hr r' List.mem_cons_self)]

/-! ## What a map holds -/

theorem lookup_row : (row :: rows).lookup k = if k = row.1 then some row.2 else rows.lookup k := by
  rw [List.lookup_cons]
  by_cases h : k = row.1
  · rw [if_pos h, beq_iff_eq.2 h]
  · rw [if_neg h, beq_eq_false_iff_ne.2 h]

theorem lookup_insertRow : (insertRow k v rows).lookup k' = if k' = k then some v else rows.lookup k' := by
  induction rows with
  | nil => exact lookup_row
  | cons r rows ih =>
    rw [insertRow]
    by_cases hlt : k < r.1
    · rw [if_pos hlt, lookup_row]
    · rw [if_neg hlt]
      by_cases heq : k = r.1
      · rw [if_pos heq, lookup_row, lookup_row]
        by_cases h : k' = k
        · rw [if_pos h, if_pos h]
        · rw [if_neg h, if_neg h, if_neg (heq ▸ h)]
      · rw [if_neg heq, lookup_row, lookup_row, ih]
        by_cases h : k' = r.1
        · rw [if_pos h, if_pos h, if_neg fun hk => heq (hk.symm.trans h)]
        · rw [if_neg h, if_neg h]

theorem lookup_sortRows (rows : List (κ × ν)) : (sortRows rows).lookup k = rows.lookup k := by
  induction rows with
  | nil => rfl
  | cons r rows ih =>
    rw [sortRows, List.foldr_cons, lookup_insertRow, lookup_row]
    exact if_congr Iff.rfl rfl ih

/-- Where no key is there twice, looking up finds the row. -/
theorem lookup_eq_some (h : (rows.map Prod.fst).Nodup) : rows.lookup k = some v ↔ (k, v) ∈ rows := by
  induction rows with
  | nil => simp
  | cons r rows ih =>
    rw [List.map_cons, List.nodup_cons] at h
    rw [lookup_row, List.mem_cons]
    by_cases hk : k = r.1
    · subst hk
      rw [if_pos rfl]
      constructor
      · intro hv
        cases hv
        exact .inl rfl
      · rintro (heq | hmem)
        · rw [← heq]
        · exact absurd (List.mem_map_of_mem hmem) h.1
    · rw [if_neg hk, ih h.2]
      refine ⟨.inr, fun hmem => hmem.resolve_left ?_⟩
      rintro rfl
      exact hk rfl

theorem SortedRows.nodup (h : SortedRows rows) : (rows.map Prod.fst).Nodup :=
  h.imp fun hlt => hlt.ne

theorem eq_of_lookup (h : SortedRows rows) (h' : SortedRows rows') (heq : ∀ k, rows.lookup k = rows'.lookup k) :
    rows = rows' := by
  have hperm : rows.Perm rows' := by
    refine (List.perm_ext_iff_of_nodup h.nodup.of_map h'.nodup.of_map).2 fun row => ?_
    rw [← lookup_eq_some h.nodup, ← lookup_eq_some h'.nodup, heq]
  have hlt (rows : List (κ × ν)) (h : SortedRows rows) : rows.Pairwise fun a b => a.1 < b.1 := List.pairwise_map.1 h
  exact hperm.eq_of_pairwise (fun a b _ _ hab hba => absurd hab hba.asymm) (hlt rows h) (hlt rows' h')

/-- The map of some rows does not depend on their order. -/
theorem sortRows_perm (h : rows.Perm rows') (hnodup : (rows.map Prod.fst).Nodup) : sortRows rows = sortRows rows' := by
  refine eq_of_lookup (sortedRows_sortRows _) (sortedRows_sortRows _) fun k => Option.ext fun v => ?_
  rw [lookup_sortRows, lookup_sortRows, lookup_eq_some hnodup, lookup_eq_some ((h.map _).nodup_iff.1 hnodup), h.mem_iff]

theorem sortRows_map {μ : Type} (f : ν → μ) (rows : List (κ × ν)) :
    sortRows (rows.map fun row => (row.1, f row.2)) = (sortRows rows).map fun row => (row.1, f row.2) := by
  have hinsert (k : κ) (v : ν) (rows : List (κ × ν)) :
      insertRow k (f v) (rows.map fun row => (row.1, f row.2)) = (insertRow k v rows).map fun row => (row.1, f row.2) := by
    induction rows with
    | nil => rfl
    | cons r rows ih =>
      rw [List.map_cons, insertRow, insertRow]
      split_ifs
      · rfl
      · rfl
      · rw [ih, List.map_cons]
  induction rows with
  | nil => rfl
  | cons r rows ih =>
    rw [List.map_cons, sortRows, List.foldr_cons]
    change insertRow r.1 (f r.2) (sortRows _) = _
    rw [ih, hinsert]
    rfl

theorem lookup_of_mem (h : SortedRows rows) (hmem : (k, v) ∈ rows) : rows.lookup k = some v :=
  (lookup_eq_some h.nodup).2 hmem

end Cobrust.Store

/-! ## Groups -/

namespace Cobrust.Store

variable {κ α β : Type} [LinearOrder κ]

/-- `entry(k).or_default().push(v)` -/
def pushGroup (k : κ) (v : β) : List (κ × List β) → List (κ × List β)
  | [] => [(k, [v])]
  | row :: groups => if k = row.1 then (row.1, row.2 ++ [v]) :: groups else row :: pushGroup k v groups

def groupBy (key : α → κ) (val : α → β) (l : List α) : List (κ × List β) :=
  l.foldl (fun groups x => pushGroup (key x) (val x) groups) []

variable {key : α → κ} {val : α → β} {k k' : κ} {v : β} {groups : List (κ × List β)}

theorem lookup_pushGroup : (pushGroup k v groups).lookup k' =
    if k' = k then some ((groups.lookup k).getD [] ++ [v]) else groups.lookup k' := by
  induction groups with
  | nil => exact lookup_row
  | cons row groups ih =>
    rw [pushGroup]
    by_cases hk : k = row.1
    · rw [if_pos hk, lookup_row, lookup_row, lookup_row, if_pos hk, hk]
      by_cases h : k' = row.1
      · rw [if_pos h, if_pos h]
        rfl
      · rw [if_neg h, if_neg h, if_neg h]
    · rw [if_neg hk, lookup_row, lookup_row, lookup_row, if_neg hk, ih]
      by_cases h : k' = row.1
      · rw [if_pos h, if_pos h, if_neg fun heq => hk (heq.symm.trans h)]
      · rw [if_neg h, if_neg h]

theorem mem_keys_pushGroup (h : k' ∈ (pushGroup k v groups).map Prod.fst) : k' = k ∨ k' ∈ groups.map Prod.fst := by
  induction groups with
  | nil => exact .inl (List.mem_singleton.1 h)
  | cons row groups ih =>
    rw [pushGroup] at h
    split_ifs at h with hk
    · exact .inr h
    · rw [List.map_cons, List.mem_cons] at h ⊢
      rcases h with h | h
      · exact .inr (.inl h)
      · exact (ih h).imp_right .inr

theorem nodup_pushGroup (h : (groups.map Prod.fst).Nodup) : ((pushGroup k v groups).map Prod.fst).Nodup := by
  induction groups with
  | nil => exact List.nodup_singleton k
  | cons row groups ih =>
    rw [pushGroup]
    split_ifs with hk
    · exact h
    · rw [List.map_cons, List.nodup_cons] at h ⊢
      refine ⟨fun hmem => ?_, ih h.2⟩
      rcases mem_keys_pushGroup hmem with heq | hmem
      · exact hk heq.symm
      · exact h.1 hmem

theorem groupBy_concat (l : List α) (x : α) :
    groupBy key val (l ++ [x]) = pushGroup (key x) (val x) (groupBy key val l) := by
  rw [groupBy, List.foldl_concat]
  rfl

theorem nodup_groupBy (l : List α) : ((groupBy key val l).map Prod.fst).Nodup := by
  induction l using List.reverseRecOn with
  | nil => exact List.nodup_nil
  | append_singleton l x ih =>
    rw [groupBy_concat]
    exact nodup_pushGroup ih

/-- The group of a key holds the elements with that key, in their order. -/
theorem lookup_groupBy (l : List α) : (groupBy key val l).lookup k =
    if l.filter (key · = k) = [] then none else some ((l.filter (key · = k)).map val) := by
  induction l using List.reverseRecOn with
  | nil => rfl
  | append_singleton l x ih =>
    rw [groupBy_concat, lookup_pushGroup, List.filter_append]
    by_cases hk : key x = k
    · subst hk
      rw [if_pos rfl, ih, List.filter_singleton, decide_eq_true rfl, cond_true,
        if_neg (List.append_ne_nil_of_right_ne_nil _ (List.cons_ne_nil x [])), List.map_append]
      split_ifs with hnil
      · rw [hnil]
        rfl
      · rfl
    · rw [if_neg (Ne.symm hk), ih, List.filter_singleton, decide_eq_false hk, cond_false, List.append_nil]

theorem mem_groupBy {l : List α} {vs : List β} :
    (k, vs) ∈ groupBy key val l ↔ l.filter (key · = k) ≠ [] ∧ vs = (l.filter (key · = k)).map val := by
  rw [← lookup_eq_some (nodup_groupBy l), lookup_groupBy]
  split_ifs with hnil
  · constructor
    · intro h
      cases h
    · exact fun h => absurd hnil h.1
  · rw [Option.some.injEq]
    exact ⟨fun h => ⟨hnil, h.symm⟩, fun h => h.2.symm⟩

def firstMin (f : α → Nat) (x : α) (l : List α) : α × Nat :=
  l.foldl (fun best y => if f y < best.2 then (y, f y) else best) (x, f x)

theorem firstMin_cons (f : α → Nat) (x y : α) (l : List α) :
    firstMin f x (y :: l) = if f y < f x then firstMin f y l else firstMin f x l := by
  rw [firstMin, List.foldl_cons]
  split_ifs <;> rfl

theorem firstMin_spec (f : α → Nat) (x : α) (l : List α) :
    (firstMin f x l).1 ∈ x :: l ∧ ∀ y ∈ x :: l, f (firstMin f x l).1 ≤ f y := by
  induction l generalizing x with
  | nil => exact ⟨List.mem_singleton.2 rfl, fun y hy => Nat.le_of_eq (congrArg f (List.mem_singleton.1 hy).symm)⟩
  | cons y l ih =>
    rw [firstMin_cons]
    split_ifs with hlt
    · obtain ⟨hmem, hmin⟩ := ih y
      refine ⟨List.mem_cons_of_mem _ hmem, fun z hz => ?_⟩
      rcases List.mem_cons.1 hz with rfl | hz
      · exact Nat.le_trans (hmin y List.mem_cons_self) (Nat.le_of_lt hlt)
      · exact hmin z hz
    · obtain ⟨hmem, hmin⟩ := ih x
      refine ⟨?_, fun z hz => ?_⟩
      · rcases List.mem_cons.1 hmem with h | h
        · rw [h]
          exact List.mem_cons_self
        · exact List.mem_cons_of_mem _ (List.mem_cons_of_mem _ h)
      · rcases List.mem_cons.1 hz with rfl | hz
        · exact hmin z List.mem_cons_self
        · rcases List.mem_cons.1 hz with rfl | hz
          · exact Nat.le_trans (hmin x List.mem_cons_self) (Nat.not_lt.1 hlt)
          · exact hmin z (List.mem_cons_of_mem _ hz)

/-- The first element stays unless a later one is better. -/
theorem firstMin_eq_self {f : α → Nat} {x : α} {l : List α} (h : ∀ y ∈ l, f x ≤ f y) : (firstMin f x l).1 = x := by
  induction l with
  | nil => rfl
  | cons y l ih =>
    rw [firstMin_cons, if_neg (Nat.not_lt.2 (h y List.mem_cons_self))]
    exact ih fun z hz => h z (List.mem_cons_of_mem _ hz)

theorem firstMin_map (f : β → Nat) (g : α → β) (x : α) (l : List α) :
    g (firstMin (fun y => f (g y)) x l).1 = (firstMin f (g x) (l.map g)).1 := by
  induction l generalizing x with
  | nil => rfl
  | cons y l ih =>
    rw [List.map_cons, firstMin_cons, firstMin_cons]
    split_ifs
    · exact ih y
    · exact ih x

end Cobrust.Store
