import Mathlib.Algebra.Order.Group.Nat
import Mathlib.Data.List.Basic
import Mathlib.Data.List.Infix
import Mathlib.Data.List.MinMax
import Mathlib.Data.List.Nodup

/-!
# First encounters and first choices

The names of a list are numbered in the order in which they first occur. Two lists have the same numbers just when an
injective map takes one to the other. A map that keeps the order of insertion has its keys in this order.
-/

namespace Cobrust.Store

variable {α β : Type} [DecidableEq α] [DecidableEq β]

/-- The names seen so far and one more. -/
def see (seen : List α) (a : α) : List α :=
  if a ∈ seen then seen else seen ++ [a]

/-- The names of a list in the order of their first occurrences. -/
def firsts (names : List α) : List α :=
  names.foldl see []

/-- The position of a name among the first occurrences. -/
def numberIn (names : List α) (a : α) : Nat :=
  (firsts names).idxOf a

variable {seen names : List α} {a b : α}

theorem see_of_mem (h : a ∈ seen) : see seen a = seen :=
  if_pos h

theorem see_of_not_mem (h : a ∉ seen) : see seen a = seen ++ [a] :=
  if_neg h

theorem prefix_see (seen : List α) (a : α) : seen <+: see seen a := by
  by_cases h : a ∈ seen
  · rw [see_of_mem h]
  · rw [see_of_not_mem h]
    exact List.prefix_append ..

theorem mem_see : b ∈ see seen a ↔ b ∈ seen ∨ b = a := by
  by_cases h : a ∈ seen
  · rw [see_of_mem h]
    exact ⟨.inl, fun hb => hb.elim id (· ▸ h)⟩
  · simp [see_of_not_mem h]

theorem prefix_foldl_see (names seen : List α) : seen <+: names.foldl see seen := by
  induction names generalizing seen with
  | nil => exact List.prefix_rfl
  | cons a names ih => exact (prefix_see seen a).trans (ih _)

theorem mem_foldl_see : b ∈ names.foldl see seen ↔ b ∈ seen ∨ b ∈ names := by
  induction names generalizing seen with
  | nil => simp
  | cons a names ih => simp [ih, mem_see, or_assoc]

theorem mem_firsts : b ∈ firsts names ↔ b ∈ names := by
  simp [firsts, mem_foldl_see]

/-- The position of a name that is there stays the same when the list grows. -/
theorem idxOf_of_grows {xs ys : List α} (h : xs <+: ys) (ha : a ∈ xs) : ys.idxOf a = xs.idxOf a := by
  obtain ⟨zs, rfl⟩ := h
  exact List.idxOf_append_of_mem ha

theorem getElem?_numberIn (h : a ∈ names) : (firsts names)[numberIn names a]? = some a := by
  have hlt : numberIn names a < (firsts names).length := List.idxOf_lt_length_of_mem (mem_firsts.2 h)
  rw [List.getElem?_eq_getElem hlt]
  exact congrArg some (List.getElem_idxOf hlt)

theorem numberIn_injOn (ha : a ∈ names) (hb : b ∈ names) (h : numberIn names a = numberIn names b) : a = b := by
  have hget := getElem?_numberIn ha
  rw [h, getElem?_numberIn hb] at hget
  exact (Option.some.inj hget).symm

section Map

variable {f : α → β}

theorem see_map (hf : Function.Injective f) (seen : List α) (a : α) :
    (see seen a).map f = see (seen.map f) (f a) := by
  by_cases h : a ∈ seen
  · rw [see_of_mem h, see_of_mem (List.mem_map_of_mem h)]
  · rw [see_of_not_mem h, see_of_not_mem fun hmem => h ((List.mem_map_of_injective hf).1 hmem), List.map_append,
      List.map_singleton]

theorem foldl_see_map (hf : Function.Injective f) (names seen : List α) :
    (names.map f).foldl see (seen.map f) = (names.foldl see seen).map f := by
  induction names generalizing seen with
  | nil => rfl
  | cons a names ih => simpa [see_map hf] using ih (see seen a)

theorem idxOf_map (hf : Function.Injective f) (names : List α) (a : α) : (names.map f).idxOf (f a) = names.idxOf a := by
  induction names with
  | nil => rfl
  | cons b names ih =>
    by_cases h : b = a
    · simp [h]
    · rw [List.map_cons, List.idxOf_cons_ne _ (fun hfb => h (hf hfb)), List.idxOf_cons_ne _ h, ih]

theorem numberIn_map (hf : Function.Injective f) (names : List α) (a : α) :
    numberIn (names.map f) (f a) = numberIn names a := by
  have hfirsts : firsts (names.map f) = (firsts names).map f := foldl_see_map hf names []
  rw [numberIn, numberIn, hfirsts]
  exact idxOf_map hf _ a

end Map

/-- What is injective on the names of a list is so everywhere after a change elsewhere. -/
theorem exists_injective_extension {f : Nat → Nat} {names : List Nat}
    (h : ∀ a ∈ names, ∀ b ∈ names, f a = f b → a = b) :
    ∃ g : Nat → Nat, Function.Injective g ∧ ∀ a ∈ names, g a = f a := by
  -- names outside the list are sent past all values that the list has
  let bound := (names.map f).foldr max 0 + 1
  have hbound : ∀ a ∈ names, f a < bound := fun a ha =>
    Nat.lt_succ_of_le (List.le_max_of_le' 0 (List.mem_map_of_mem ha) le_rfl)
  refine ⟨fun a => if a ∈ names then f a else a + bound, fun a b hab => ?_, fun a ha => if_pos ha⟩
  by_cases ha : a ∈ names <;> by_cases hb : b ∈ names <;> simp only [ha, hb, if_true, if_false] at hab
  · exact h a ha b hb hab
  · have := hbound a ha
    omega
  · have := hbound b hb
    omega
  · omega

/-! ## Maps in the order of insertion -/

/-- A map as the list of its entries, in the order in which their keys were first inserted. -/
structure IndexMap (κ ν : Type) where
  entries : List (κ × ν)
  nodup : (entries.map Prod.fst).Nodup

/-- Put the value in the place of the key, or behind all entries. -/
def setEntry {κ ν : Type} [DecidableEq κ] (k : κ) (v : ν) : List (κ × ν) → List (κ × ν)
  | [] => [(k, v)]
  | e :: entries => if e.1 = k then (k, v) :: entries else e :: setEntry k v entries

/-- The value that was written last under a key. -/
def lastWritten {κ ν : Type} [DecidableEq κ] (writes : List (κ × ν)) (k : κ) : Option ν :=
  writes.reverse.lookup k

section entries

variable {κ ν : Type} [DecidableEq κ] {entries writes : List (κ × ν)} {k k' : κ} {v : ν}

theorem map_fst_setEntry : (setEntry k v entries).map Prod.fst = see (entries.map Prod.fst) k := by
  induction entries with
  | nil => rfl
  | cons e entries ih =>
    rw [setEntry]
    split
    · next h =>
      rw [List.map_cons, List.map_cons, h, see_of_mem List.mem_cons_self]
    · next h =>
      rw [List.map_cons, List.map_cons, ih]
      by_cases hmem : k ∈ entries.map Prod.fst
      · rw [see_of_mem hmem, see_of_mem (List.mem_cons_of_mem _ hmem)]
      · rw [see_of_not_mem hmem, see_of_not_mem (List.not_mem_cons_of_ne_of_not_mem (Ne.symm h) hmem)]
        rfl

theorem lookup_entry {e : κ × ν} : (e :: entries).lookup k = if k = e.1 then some e.2 else entries.lookup k := by
  rw [List.lookup_cons]
  by_cases h : k = e.1
  · rw [if_pos h, beq_iff_eq.2 h]
  · rw [if_neg h, beq_eq_false_iff_ne.2 h]

theorem lookup_setEntry : (setEntry k v entries).lookup k' = if k' = k then some v else entries.lookup k' := by
  induction entries with
  | nil => exact lookup_entry
  | cons e entries ih =>
    rw [setEntry]
    split
    · next he =>
      rw [lookup_entry, lookup_entry, he]
      by_cases h : k' = k
      · rw [if_pos h, if_pos h]
      · rw [if_neg h, if_neg h, if_neg h]
    · next he =>
      rw [lookup_entry, lookup_entry, ih]
      by_cases h : k' = e.1
      · rw [if_pos h, if_pos h, if_neg fun hk => he (h.symm.trans hk)]
      · rw [if_neg h, if_neg h]

theorem nodup_see {seen : List κ} (h : seen.Nodup) (a : κ) : (see seen a).Nodup := by
  by_cases ha : a ∈ seen
  · rwa [see_of_mem ha]
  · rw [see_of_not_mem ha]
    exact List.concat_eq_append ▸ List.Nodup.concat ha h

theorem firsts_concat (names : List κ) (a : κ) : firsts (names ++ [a]) = see (firsts names) a :=
  List.foldl_concat ..

theorem lastWritten_concat :
    lastWritten (writes ++ [(k, v)]) k' = if k' = k then some v else lastWritten writes k' := by
  rw [lastWritten, List.reverse_concat, lookup_entry]
  rfl

theorem isSome_lastWritten : (lastWritten writes k).isSome ↔ k ∈ writes.map Prod.fst := by
  rw [lastWritten, List.lookup_isSome_iff, List.mem_map]
  constructor
  · rintro ⟨w, hw, hk⟩
    exact ⟨w, List.mem_reverse.1 hw, (eq_of_beq hk).symm⟩
  · rintro ⟨w, hw, hk⟩
    exact ⟨w, List.mem_reverse.2 hw, beq_iff_eq.2 hk.symm⟩

end entries

namespace IndexMap

variable {κ ν : Type} [DecidableEq κ]

def empty : IndexMap κ ν where
  entries := []
  nodup := List.nodup_nil

def insert (m : IndexMap κ ν) (k : κ) (v : ν) : IndexMap κ ν where
  entries := setEntry k v m.entries
  nodup := by
    rw [map_fst_setEntry]
    exact nodup_see m.nodup k

def get (m : IndexMap κ ν) (k : κ) : Option ν :=
  m.entries.lookup k

def keys (m : IndexMap κ ν) : List κ :=
  m.entries.map Prod.fst

def containsKey (m : IndexMap κ ν) (k : κ) : Bool :=
  k ∈ m.keys

def len (m : IndexMap κ ν) : Nat :=
  m.entries.length

def isEmpty (m : IndexMap κ ν) : Bool :=
  m.entries.isEmpty

variable {m : IndexMap κ ν} {k k' : κ} {v : ν}

theorem keys_insert : (m.insert k v).keys = see m.keys k :=
  map_fst_setEntry

theorem get_insert : (m.insert k v).get k' = if k' = k then some v else m.get k' :=
  lookup_setEntry

omit [DecidableEq κ] in
theorem len_eq (m : IndexMap κ ν) : m.len = m.keys.length :=
  (List.length_map ..).symm

end IndexMap

end Cobrust.Store

/-!
## The first element with the most preferred key

Keys are listed from the most to the least preferred one. `preferred` asks for one key after the other and answers with
the first element that has it.
-/

namespace Cobrust.Store

variable {α κ : Type} [DecidableEq κ]

/-- The first element with the first key that any element has. -/
def preferred (key : α → κ) (order : List κ) (xs : List α) : Option α :=
  order.findSome? fun k => xs.find? fun a => key a = k

variable {key : α → κ} {order : List κ} {xs : List α} {a b : α}

theorem preferred_eq_none : preferred key order xs = none ↔ ∀ a ∈ xs, key a ∉ order := by
  simp only [preferred, List.findSome?_eq_none_iff, List.find?_eq_none, decide_eq_true_eq]
  constructor
  · intro h a ha hk
    exact h _ hk a ha rfl
  · rintro h k hk a ha rfl
    exact h a ha hk

/-- Where the key of the answer stands, and that no element has an earlier one. -/
theorem preferred_spec (h : preferred key order xs = some a) :
    a ∈ xs ∧ key a ∈ order ∧ ∀ b ∈ xs, order.idxOf (key a) ≤ order.idxOf (key b) := by
  induction order with
  | nil => simp [preferred] at h
  | cons k order ih =>
    unfold preferred at h
    rw [List.findSome?_cons] at h
    cases hfind : xs.find? (fun a => key a = k) with
    | some c =>
      simp only [hfind, Option.some.injEq] at h
      subst h
      have hkey : key c = k := by simpa using List.find?_some hfind
      refine ⟨List.mem_of_find?_eq_some hfind, by simp [hkey], ?_⟩
      intro b _
      simp [hkey]
    | none =>
      simp only [hfind] at h
      obtain ⟨hmem, hkey, hleast⟩ := ih h
      have hne : ∀ b ∈ xs, key b ≠ k := by simpa using hfind
      refine ⟨hmem, List.mem_cons_of_mem _ hkey, ?_⟩
      intro b hb
      rw [List.idxOf_cons_ne _ (hne a hmem).symm, List.idxOf_cons_ne _ (hne b hb).symm]
      exact Nat.succ_le_succ (hleast b hb)

end Cobrust.Store
