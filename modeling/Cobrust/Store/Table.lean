import Mathlib.Data.Option.Basic
import Mathlib.Logic.Function.Basic

/-!
# Tables that are put together from parts

A table is a partial function with finitely many updates applied to it. `IsUnion` says that the rows of a
table are those of a family of tables; the rules say when that survives the update of one part.
-/

namespace Cobrust.Store

abbrev Table (κ ν : Type) :=
  κ → Option ν

variable {κ ν ι : Type}

namespace Table

def empty : Table κ ν :=
  fun _ => none

def insert [DecidableEq κ] (t : Table κ ν) (k : κ) (v : ν) : Table κ ν :=
  Function.update t k (some v)

/-- The rows that satisfy `p`. -/
def retain (t : Table κ ν) (p : κ → ν → Bool) : Table κ ν :=
  fun k => (t k).filter (p k)

/-- The rows of `new`, and those of `old` for the other keys. -/
def shadow (new old : Table κ ν) : Table κ ν :=
  fun k => (new k).or (old k)

variable {t new old : Table κ ν} {p : κ → ν → Bool} {k : κ} {v : ν}

theorem insert_self [DecidableEq κ] (t : Table κ ν) (k : κ) (v : ν) : t.insert k v k = some v :=
  Function.update_self ..

theorem insert_of_ne [DecidableEq κ] {t : Table κ ν} {k k' : κ} {v : ν} (h : k' ≠ k) : t.insert k v k' = t k' :=
  Function.update_of_ne h ..

theorem retain_eq_some : t.retain p k = some v ↔ t k = some v ∧ p k v = true := by
  rw [retain, Option.filter_eq_some_iff]

theorem shadow_eq_some : shadow new old k = some v ↔ new k = some v ∨ new k = none ∧ old k = some v := by
  rw [shadow, Option.or_eq_some_iff]

theorem shadow_insert [DecidableEq κ] : shadow (new.insert k v) old = (shadow new old).insert k v := by
  funext j
  by_cases hj : j = k
  · subst hj
    simp [shadow, insert]
  · simp [shadow, insert, hj]

end Table

open Table

/-- The rows of `t` are the rows of the parts. -/
def IsUnion (t : Table κ ν) (parts : ι → Option (Table κ ν)) : Prop :=
  ∀ k v, t k = some v ↔ ∃ i part, parts i = some part ∧ part k = some v

namespace IsUnion

variable {t : Table κ ν} {parts : ι → Option (Table κ ν)} {i : ι} {part : Table κ ν}

theorem none : IsUnion (empty : Table κ ν) fun _ : ι => Option.none := by
  intro k v
  constructor
  · intro h
    cases h
  · rintro ⟨_, _, h, -⟩
    cases h

variable [DecidableEq ι]

/-- A part is replaced by one with all its keys and none of the other parts'. -/
theorem shadow (h : IsUnion t parts)
    (hcover : ∀ old, parts i = some old → ∀ k, (old k).isSome → (part k).isSome)
    (hapart : ∀ j other, j ≠ i → parts j = some other → ∀ k, (other k).isSome → part k = Option.none) :
    IsUnion (Table.shadow part t) (Function.update parts i (some part)) := by
  intro k v
  rw [shadow_eq_some]
  constructor
  · rintro (hpart | ⟨hnone, ht⟩)
    · exact ⟨i, part, Function.update_self .., hpart⟩
    · obtain ⟨j, other, hj, hv⟩ := (h k v).1 ht
      have hne : j ≠ i := by
        rintro rfl
        have hsome := hcover other hj k (by rw [hv]; rfl)
        rw [hnone] at hsome
        cases hsome
      exact ⟨j, other, by rw [Function.update_of_ne hne]; exact hj, hv⟩
  · rintro ⟨j, other, hj, hv⟩
    by_cases hne : j = i
    · subst hne
      rw [Function.update_self, Option.some.injEq] at hj
      subst hj
      exact .inl hv
    · rw [Function.update_of_ne hne] at hj
      exact .inr ⟨hapart j other hne hj k (by rw [hv]; rfl), (h k v).2 ⟨j, other, hj, hv⟩⟩

theorem remove {p : κ → ν → Bool} (h : IsUnion t parts)
    (hgone : ∀ old, parts i = some old → ∀ k v, old k = some v → p k v = false)
    (hkept : ∀ j other, j ≠ i → parts j = some other → ∀ k v, other k = some v → p k v = true) :
    IsUnion (t.retain p) (Function.update parts i Option.none) := by
  intro k v
  rw [retain_eq_some, h k v]
  constructor
  · rintro ⟨⟨j, other, hj, hv⟩, hp⟩
    have hne : j ≠ i := by
      rintro rfl
      rw [hgone other hj k v hv] at hp
      cases hp
    exact ⟨j, other, by rw [Function.update_of_ne hne]; exact hj, hv⟩
  · rintro ⟨j, other, hj, hv⟩
    have hne : j ≠ i := by
      rintro rfl
      rw [Function.update_self] at hj
      cases hj
    rw [Function.update_of_ne hne] at hj
    exact ⟨⟨j, other, hj, hv⟩, hkept j other hne hj k v hv⟩

omit [DecidableEq ι] in
/-- Every part keeps some of its rows, and the table keeps those. -/
theorem retain {p : κ → ν → Bool} {q : ι → κ → ν → Bool} (h : IsUnion t parts)
    (hagree : ∀ i part, parts i = some part → ∀ k v, part k = some v → p k v = q i k v) :
    IsUnion (t.retain p) fun i => (parts i).map fun part => part.retain (q i) := by
  intro k v
  rw [retain_eq_some, h k v]
  constructor
  · rintro ⟨⟨i, part, hi, hv⟩, hp⟩
    refine ⟨i, part.retain (q i), Option.map_eq_some_iff.2 ⟨part, hi, rfl⟩, retain_eq_some.2 ⟨hv, ?_⟩⟩
    rw [← hagree i part hi k v hv]
    exact hp
  · rintro ⟨i, part', hi, hv⟩
    obtain ⟨part, hpart, rfl⟩ := Option.map_eq_some_iff.1 hi
    obtain ⟨hv, hq⟩ := retain_eq_some.1 hv
    rw [← hagree i part hpart k v hv] at hq
    exact ⟨⟨i, part, hpart, hv⟩, hq⟩

end IsUnion

end Cobrust.Store
