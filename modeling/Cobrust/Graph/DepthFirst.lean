import Cobrust.Store.Table
import Mathlib.Data.List.Basic
import Mathlib.Data.List.Perm.Basic

/-!
# Depth-first walks that remember what they have seen

A walk over entries that are expanded to a value and further entries. What an entry gives is stored under its
key, and an entry whose key is stored already is not expanded; a key that is on the path is a cycle.

* `walkAll_rows`: where entries with one key expand to the same, the table holds the entries that are reachable.
* `walkAll_order`: in that case the order of the visits does not matter.
* `exists_order_row`: for every reachable entry there is an order in which its value is the one that is stored.
-/

namespace Cobrust.Graph

open Store (Table)

/-- Entries `ε` with keys `κ`, which expand to a value `ν` and more entries, or fail with `χ`. -/
structure System (κ ε ν χ : Type) where
  key : ε → κ
  expand : ε → Except χ (ν × List ε)
  cycle : List κ → χ

/-- The order in which the entries behind a path are visited. -/
abbrev VisitOrder (κ ε : Type) := List κ → List ε → List ε

def VisitOrder.Reorders {κ ε : Type} (order : VisitOrder κ ε) : Prop :=
  ∀ path entries, (order path entries).Perm entries

namespace System

variable {κ ε ν χ : Type} (sys : System κ ε ν χ) (order : VisitOrder κ ε)

/-- The entries that the given ones lead to. -/
inductive Reach (entries : List ε) : ε → Prop
  | root {e : ε} (h : e ∈ entries) : Reach entries e
  | child {e c : ε} {value : ν} {children : List ε} (h : Reach entries e)
      (hexpand : sys.expand e = .ok (value, children)) (hc : c ∈ children) : Reach entries c

/-- Entries with one key expand to the same. -/
def Determined (entries : List ε) : Prop :=
  ∀ a b, sys.Reach entries a → sys.Reach entries b → sys.key a = sys.key b → sys.expand a = sys.expand b

/-- The walk of a tree of entries without a table: nothing fails, and no key is below itself. -/
inductive Unfolds : List κ → ε → Prop
  | mk {path : List κ} {e : ε} {value : ν} {children : List ε} (hkey : sys.key e ∉ path)
      (hexpand : sys.expand e = .ok (value, children))
      (hchildren : ∀ c ∈ children, Unfolds (path ++ [sys.key e]) c) : Unfolds path e

/-- One entry, with fuel for the length of the path; without fuel there is no error to tell. -/
def walk [DecidableEq κ] : Nat → List κ → Table κ ν → ε → Except (Option χ) (Table κ ν)
  | 0, _, _, _ => .error none
  | fuel + 1, path, table, e =>
    if sys.key e ∈ path then .error (some (sys.cycle (path ++ [sys.key e])))
    else if (table (sys.key e)).isSome then .ok table
    else
      match sys.expand e with
      | .error err => .error (some err)
      | .ok (value, entries) =>
        (order (path ++ [sys.key e]) entries).foldlM (walk fuel (path ++ [sys.key e]))
          (table.insert (sys.key e) value)

/-- The entries behind a path. -/
def walkAll [DecidableEq κ] (fuel : Nat) (path : List κ) (entries : List ε) (table : Table κ ν) :
    Except (Option χ) (Table κ ν) :=
  (order path entries).foldlM (walk sys order fuel path) table

variable {sys order} {entries : List ε} {path : List κ} {e b : ε} {value : ν} {children : List ε}

theorem Reach.trans {entries' : List ε} (h : sys.Reach entries' b)
    (hall : ∀ e ∈ entries', sys.Reach entries e) : sys.Reach entries b := by
  induction h with
  | root h => exact hall _ h
  | child _ hexpand hc ih => exact ih.child hexpand hc

theorem Reach.self : sys.Reach [e] e :=
  .root (List.mem_singleton_self _)

theorem Reach.append (h : sys.Reach entries e) (hb : sys.Reach [e] b) : sys.Reach entries b :=
  hb.trans fun c hc => by rwa [List.mem_singleton.1 hc]

theorem Reach.split (h : sys.Reach entries b) : ∃ e ∈ entries, sys.Reach [e] b := by
  induction h with
  | root h => exact ⟨_, h, .self⟩
  | child _ hexpand hc ih =>
    obtain ⟨e, he, h⟩ := ih
    exact ⟨e, he, h.child hexpand hc⟩

/-- What an entry leads to is the entry, or what one of its children leads to. -/
theorem reach_singleton (hexpand : sys.expand e = .ok (value, children)) :
    sys.Reach [e] b ↔ b = e ∨ ∃ c ∈ children, sys.Reach [c] b := by
  constructor
  · intro h
    induction h with
    | root h => exact .inl (List.mem_singleton.1 h)
    | child _ hexpand' hc ih =>
      rcases ih with rfl | ⟨c, hmem, h⟩
      · rw [hexpand] at hexpand'
        cases hexpand'
        exact .inr ⟨_, hc, .self⟩
      · exact .inr ⟨c, hmem, h.child hexpand' hc⟩
  · rintro (rfl | ⟨c, hc, h⟩)
    · exact .self
    · exact Reach.append (.child .self hexpand hc) h

theorem Unfolds.not_mem (h : sys.Unfolds path e) (hb : sys.Reach [e] b) : sys.key b ∉ path := by
  induction h with
  | mk hkey hexpand _ ih =>
    rcases (reach_singleton hexpand).1 hb with rfl | ⟨c, hc, hb⟩
    · exact hkey
    · exact fun hmem => ih c hc hb (List.mem_append_left _ hmem)

/-- An entry that unfolds does so behind every path that has none of the keys it leads to. -/
theorem Unfolds.move {path₀ : List κ} (h : sys.Unfolds path₀ e)
    (hpath : ∀ b, sys.Reach [e] b → sys.key b ∉ path) : sys.Unfolds path e := by
  induction h generalizing path with
  | mk hkey hexpand hchildren ih =>
    refine .mk (hpath _ .self) hexpand fun c hc => ih c hc fun b hb hmem => ?_
    rcases List.mem_append.1 hmem with hmem | hmem
    · exact hpath b ((reach_singleton hexpand).2 (.inr ⟨c, hc, hb⟩)) hmem
    · exact (hchildren c hc).not_mem hb (List.mem_append_right _ hmem)

theorem Unfolds.of_expand (h : sys.Unfolds path e) (hkey : sys.key b = sys.key e)
    (hexpand : sys.expand b = sys.expand e) : sys.Unfolds path b := by
  cases h with
  | mk hnot he hchildren =>
    refine .mk (hkey ▸ hnot) (hexpand.trans he) ?_
    rw [hkey]
    exact hchildren

theorem Unfolds.expand_ok (h : sys.Unfolds path e) : ∃ value children, sys.expand e = .ok (value, children) := by
  cases h with
  | mk _ hexpand _ => exact ⟨_, _, hexpand⟩

theorem Unfolds.descend (h : sys.Unfolds path e) (hb : sys.Reach [e] b) : ∃ path', sys.Unfolds path' b := by
  induction h with
  | mk hkey hexpand hchildren ih =>
    rcases (reach_singleton hexpand).1 hb with rfl | ⟨c, hc, hb⟩
    · exact ⟨_, .mk hkey hexpand hchildren⟩
    · exact ih c hc hb

variable [DecidableEq κ] {table table' : Table κ ν} {fuel : Nat}

/-! ## One walk -/

theorem walk_ok (h : sys.walk order (fuel + 1) path table e = .ok table') :
    sys.key e ∉ path ∧
      ((table (sys.key e)).isSome ∧ table' = table ∨
        table (sys.key e) = none ∧ ∃ value children, sys.expand e = .ok (value, children) ∧
          sys.walkAll order fuel (path ++ [sys.key e]) children (table.insert (sys.key e) value) = .ok table') := by
  rw [walk] at h
  split at h
  · cases h
  · next hpath =>
    refine ⟨hpath, ?_⟩
    split at h
    · next hsome =>
      cases h
      exact .inl ⟨hsome, rfl⟩
    · next hnone =>
      split at h
      · cases h
      · next value children hexpand =>
        exact .inr ⟨by simpa using hnone, value, children, hexpand, h⟩

/-- The rows of the one are rows of the other. -/
def Extends (table table' : Table κ ν) : Prop :=
  ∀ k v, table k = some v → table' k = some v

omit [DecidableEq κ] in
theorem Extends.trans {table'' : Table κ ν} (h : Extends table table') (h' : Extends table' table'') :
    Extends table table'' :=
  fun k v hv => h' k v (h k v hv)

omit [DecidableEq κ] in
theorem Extends.isSome {k : κ} (h : Extends table table') (hsome : (table k).isSome) : (table' k).isSome := by
  obtain ⟨v, hv⟩ := Option.isSome_iff_exists.1 hsome
  rw [h k v hv]
  rfl

theorem extends_insert {k : κ} {v : ν} (h : table k = none) : Extends table (table.insert k v) := by
  intro j w hw
  have hne : j ≠ k := by
    rintro rfl
    rw [h] at hw
    cases hw
  rw [Table.insert, Function.update_of_ne hne, hw]

section Fold

variable {step : Table κ ν → ε → Except (Option χ) (Table κ ν)} {es : List ε}

omit [DecidableEq κ] in
theorem foldlM_cons_ok (h : (e :: es).foldlM step table = .ok table') :
    ∃ t, step table e = .ok t ∧ es.foldlM step t = .ok table' := by
  rw [List.foldlM_cons] at h
  cases hfirst : step table e with
  | error err =>
    rw [hfirst] at h
    cases h
  | ok t =>
    rw [hfirst] at h
    exact ⟨t, rfl, h⟩

omit [DecidableEq κ] in
theorem foldlM_inv {P : Table κ ν → Prop} (hstep : ∀ e ∈ es, ∀ t t', P t → step t e = .ok t' → P t')
    (hP : P table) (h : es.foldlM step table = .ok table') : P table' := by
  induction es generalizing table with
  | nil =>
    cases h
    exact hP
  | cons e es ih =>
    obtain ⟨t, hfirst, h⟩ := foldlM_cons_ok h
    exact ih (fun c hc => hstep c (List.mem_cons_of_mem _ hc)) (hstep e List.mem_cons_self table t hP hfirst) h

omit [DecidableEq κ] in
theorem foldlM_extends (hstep : ∀ e t t', step t e = .ok t' → Extends t t')
    (h : es.foldlM step table = .ok table') : Extends table table' :=
  foldlM_inv (P := Extends table) (fun e _ t t' hP hstep' => hP.trans (hstep e t t' hstep'))
    (fun _ _ hv => hv) h

omit [DecidableEq κ] in
theorem foldlM_total (hstep : ∀ e ∈ es, ∀ t, ∃ t', step t e = .ok t') (table : Table κ ν) :
    ∃ table', es.foldlM step table = .ok table' := by
  induction es generalizing table with
  | nil => exact ⟨table, rfl⟩
  | cons e es ih =>
    obtain ⟨t, ht⟩ := hstep e List.mem_cons_self table
    obtain ⟨table', h⟩ := ih (fun c hc => hstep c (List.mem_cons_of_mem _ hc)) t
    refine ⟨table', ?_⟩
    rw [List.foldlM_cons, ht]
    exact h

end Fold

theorem walk_extends (h : sys.walk order fuel path table e = .ok table') : Extends table table' := by
  induction fuel generalizing path table table' e with
  | zero => cases h
  | succ fuel ih =>
    rcases (walk_ok h).2 with ⟨-, rfl⟩ | ⟨hnone, value, children, -, hall⟩
    · exact fun _ _ hv => hv
    · exact (extends_insert hnone).trans (foldlM_extends (fun c t t' hc => ih hc) hall)

/-- Every row is what a reachable entry of its key expands to. -/
def RowsFrom (sys : System κ ε ν χ) (entries : List ε) (table : Table κ ν) : Prop :=
  ∀ k v, table k = some v → ∃ e children, sys.Reach entries e ∧ sys.key e = k ∧ sys.expand e = .ok (v, children)

theorem walk_rowsFrom (horder : order.Reorders) (hreach : sys.Reach entries e) (hrows : RowsFrom sys entries table)
    (h : sys.walk order fuel path table e = .ok table') : RowsFrom sys entries table' := by
  induction fuel generalizing path table table' e with
  | zero => cases h
  | succ fuel ih =>
    rcases (walk_ok h).2 with ⟨-, rfl⟩ | ⟨hnone, value, children, hexpand, hall⟩
    · exact hrows
    · refine foldlM_inv (P := RowsFrom sys entries) (fun c hc t t' ht hstep => ?_) ?_ hall
      · exact ih (hreach.child hexpand ((horder _ _).subset hc)) ht hstep
      · intro k v hv
        by_cases hk : k = sys.key e
        · subst hk
          rw [Table.insert, Function.update_self, Option.some.injEq] at hv
          subst hv
          exact ⟨e, children, hreach, rfl, hexpand⟩
        · rw [Table.insert, Function.update_of_ne hk] at hv
          exact hrows k v hv

/-- The key is stored, and its entry is behind the walk. -/
def Done (path : List κ) (table : Table κ ν) (k : κ) : Prop :=
  (table k).isSome ∧ k ∉ path

/-- What is done unfolds, and so is done with all it leads to. -/
def Closed (sys : System κ ε ν χ) (entries : List ε) (path : List κ) (table : Table κ ν) : Prop :=
  ∀ k, Done path table k → ∃ e, sys.Reach entries e ∧ sys.key e = k ∧ (∃ path₀, sys.Unfolds path₀ e) ∧
    ∀ b, sys.Reach [e] b → Done path table (sys.key b)

omit [DecidableEq κ] in
theorem Done.mono {k : κ} (h : Done path table k) (hext : Extends table table') : Done path table' k :=
  ⟨hext.isSome h.1, h.2⟩

omit [DecidableEq κ] in
/-- Entries that expand to the same lead to the same keys. -/
theorem reach_of_expand {a : ε} (hkey : sys.key a = sys.key e) (hexpand : sys.expand a = sys.expand e)
    (hok : ∃ value children, sys.expand e = .ok (value, children)) (hb : sys.Reach [a] b) :
    ∃ b', sys.Reach [e] b' ∧ sys.key b' = sys.key b := by
  obtain ⟨value, children, he⟩ := hok
  rcases (reach_singleton (hexpand.trans he)).1 hb with rfl | ⟨c, hc, hb⟩
  · exact ⟨e, .self, hkey.symm⟩
  · exact ⟨b, (reach_singleton he).2 (.inr ⟨c, hc, hb⟩), rfl⟩

theorem foldlM_unfolds {es : List ε} (hclosed : Closed sys entries path table)
    (hstep : ∀ c ∈ es, ∀ t t', Closed sys entries path t → sys.walk order fuel path t c = .ok t' →
      Closed sys entries path t' ∧ sys.Unfolds path c ∧ ∀ b, sys.Reach [c] b → Done path t' (sys.key b))
    (h : es.foldlM (sys.walk order fuel path) table = .ok table') :
    Closed sys entries path table' ∧
      ∀ c ∈ es, sys.Unfolds path c ∧ ∀ b, sys.Reach [c] b → Done path table' (sys.key b) := by
  induction es generalizing table with
  | nil =>
    cases h
    exact ⟨hclosed, fun c hc => by cases hc⟩
  | cons e es ih =>
    obtain ⟨t, hfirst, htail⟩ := foldlM_cons_ok h
    obtain ⟨hclosed', hunfolds, hdone⟩ := hstep e List.mem_cons_self table t hclosed hfirst
    obtain ⟨hclosed', hrest⟩ := ih hclosed' (fun c hc => hstep c (List.mem_cons_of_mem _ hc)) htail
    refine ⟨hclosed', fun c hc => ?_⟩
    rcases List.mem_cons.1 hc with rfl | hc
    · have hext := foldlM_extends (fun c t t' hc => walk_extends hc) htail
      exact ⟨hunfolds, fun b hb => (hdone b hb).mono hext⟩
    · exact hrest c hc

/-- A successful walk of an entry shows that it unfolds, and stores all it leads to. -/
theorem walk_unfolds (horder : order.Reorders) (hdet : sys.Determined entries) (hreach : sys.Reach entries e)
    (hclosed : Closed sys entries path table) (h : sys.walk order fuel path table e = .ok table') :
    Closed sys entries path table' ∧ sys.Unfolds path e ∧
      ∀ b, sys.Reach [e] b → Done path table' (sys.key b) := by
  induction fuel generalizing path table table' e with
  | zero => cases h
  | succ fuel ih =>
    obtain ⟨hpath, h⟩ := walk_ok h
    rcases h with ⟨hsome, rfl⟩ | ⟨hnone, value, children, hexpand, hall⟩
    · -- the key is stored by an entry that expands to the same
      obtain ⟨e₀, hreach₀, hkey, ⟨path₀, hunfolds⟩, hdone⟩ := hclosed _ ⟨hsome, hpath⟩
      have hsame := hdet e e₀ hreach hreach₀ hkey.symm
      have hdone' : ∀ b, sys.Reach [e] b → Done path table' (sys.key b) := by
        intro b hb
        obtain ⟨b', hb', hkey'⟩ := reach_of_expand hkey.symm hsame hunfolds.expand_ok hb
        rw [← hkey']
        exact hdone b' hb'
      refine ⟨hclosed, ?_, hdone'⟩
      exact (hunfolds.of_expand hkey.symm hsame).move fun b hb => (hdone' b hb).2
    · have hclosed₁ : Closed sys entries (path ++ [sys.key e]) (table.insert (sys.key e) value) := by
        rintro k ⟨hk, hkpath⟩
        rw [List.mem_append, List.mem_singleton, not_or] at hkpath
        rw [Table.insert, Function.update_of_ne hkpath.2] at hk
        obtain ⟨e₀, hreach₀, hkey, hunfolds, hdone⟩ := hclosed k ⟨hk, hkpath.1⟩
        refine ⟨e₀, hreach₀, hkey, hunfolds, fun b hb => ?_⟩
        obtain ⟨hb, hbpath⟩ := hdone b hb
        have hne : sys.key b ≠ sys.key e := by
          intro heq
          rw [heq, hnone] at hb
          cases hb
        refine ⟨(extends_insert hnone).isSome hb, ?_⟩
        rw [List.mem_append, List.mem_singleton, not_or]
        exact ⟨hbpath, hne⟩
      obtain ⟨hclosed', hchildren⟩ := foldlM_unfolds hclosed₁
        (fun c hc t t' ht hstep => ih (hreach.child hexpand ((horder _ _).subset hc)) ht hstep) hall
      have hchild : ∀ c ∈ children, sys.Unfolds (path ++ [sys.key e]) c ∧
          ∀ b, sys.Reach [c] b → Done (path ++ [sys.key e]) table' (sys.key b) :=
        fun c hc => hchildren c ((horder _ _).symm.subset hc)
      have hunfolds : sys.Unfolds path e := .mk hpath hexpand fun c hc => (hchild c hc).1
      have hext := foldlM_extends (fun c t t' hc => walk_extends hc) hall
      have hdone : ∀ b, sys.Reach [e] b → Done path table' (sys.key b) := by
        intro b hb
        rcases (reach_singleton hexpand).1 hb with rfl | ⟨c, hc, hb⟩
        · exact ⟨hext.isSome (by simp [Table.insert]), hpath⟩
        · obtain ⟨hsome, hnot⟩ := (hchild c hc).2 b hb
          exact ⟨hsome, fun hmem => hnot (List.mem_append_left _ hmem)⟩
      refine ⟨?_, hunfolds, hdone⟩
      rintro k ⟨hk, hkpath⟩
      by_cases hke : k = sys.key e
      · exact ⟨e, hreach, hke.symm, ⟨path, hunfolds⟩, hdone⟩
      · have hkpath' : k ∉ path ++ [sys.key e] := by
          rw [List.mem_append, List.mem_singleton, not_or]
          exact ⟨hkpath, hke⟩
        obtain ⟨e₀, hreach₀, hkey, hunfolds₀, hdone₀⟩ := hclosed' k ⟨hk, hkpath'⟩
        refine ⟨e₀, hreach₀, hkey, hunfolds₀, fun b hb => ?_⟩
        obtain ⟨hsome, hnot⟩ := hdone₀ b hb
        exact ⟨hsome, fun hmem => hnot (List.mem_append_left _ hmem)⟩

omit [DecidableEq κ] in
theorem filter_length_lt [DecidableEq κ] {pool : List κ} {k : κ} (hk : k ∈ pool) (hpath : k ∉ path) :
    (pool.filter fun j => j ∉ path ++ [k]).length < (pool.filter fun j => j ∉ path).length := by
  have hsplit : (pool.filter fun j => j ∉ path ++ [k]) = (pool.filter fun j => j ∉ path).filter fun j => j ≠ k := by
    rw [List.filter_filter]
    congr 1
    funext j
    simp [not_or, and_comm]
  rw [hsplit]
  refine List.length_filter_lt_length_iff_exists.2 ⟨k, List.mem_filter.2 ⟨hk, by simpa using hpath⟩, by simp⟩

/-- With fuel for the keys that are not on the path, what unfolds is walked, whatever is stored. -/
theorem walk_of_unfolds {pool : List κ} (horder : order.Reorders) (h : sys.Unfolds path e)
    (hpool : ∀ b, sys.Reach [e] b → sys.key b ∈ pool)
    (hfuel : (pool.filter fun k => k ∉ path).length < fuel) (table : Table κ ν) :
    ∃ table', sys.walk order fuel path table e = .ok table' := by
  induction fuel generalizing path e table with
  | zero => exact absurd hfuel (Nat.not_lt_zero _)
  | succ fuel ih =>
    cases h with
    | mk hkey hexpand hchildren =>
      rw [walk, if_neg hkey]
      split
      · exact ⟨table, rfl⟩
      · rw [hexpand]
        refine foldlM_total (fun c hc t => ?_) _
        have hc := (horder _ _).subset hc
        refine ih (hchildren c hc) (fun b hb => hpool b ((reach_singleton hexpand).2 (.inr ⟨c, hc, hb⟩))) ?_ t
        have hlt := filter_length_lt (hpool e .self) hkey
        omega

section All

variable {root : κ} {pool : List κ} {order' : VisitOrder κ ε} {fuel' : Nat}

omit [DecidableEq κ] in
theorem closed_empty : Closed sys entries path Table.empty := by
  rintro k ⟨hk, -⟩
  cases hk

theorem walkAll_unfolds (horder : order.Reorders) (hdet : sys.Determined entries)
    (h : sys.walkAll order fuel path entries Table.empty = .ok table) :
    ∀ e ∈ entries, sys.Unfolds path e ∧ ∀ b, sys.Reach [e] b → (table (sys.key b)).isSome := by
  have hall := foldlM_unfolds closed_empty
    (fun c hc t t' ht hstep => walk_unfolds horder hdet (.root ((horder _ _).subset hc)) ht hstep) h
  intro e he
  obtain ⟨hunfolds, hdone⟩ := hall.2 e ((horder _ _).symm.subset he)
  exact ⟨hunfolds, fun b hb => (hdone b hb).1⟩

/-- The table of a successful walk holds what the reachable entries expand to. -/
theorem walkAll_rows (horder : order.Reorders) (hdet : sys.Determined entries)
    (h : sys.walkAll order fuel path entries Table.empty = .ok table) (k : κ) (v : ν) :
    table k = some v ↔ ∃ e children, sys.Reach entries e ∧ sys.key e = k ∧ sys.expand e = .ok (v, children) := by
  have hrows : RowsFrom sys entries table :=
    foldlM_inv (P := RowsFrom sys entries)
      (fun c hc t t' ht hstep => walk_rowsFrom horder (.root ((horder _ _).subset hc)) ht hstep)
      (fun _ _ hv => by cases hv) h
  refine ⟨hrows k v, ?_⟩
  rintro ⟨e, children, hreach, rfl, hexpand⟩
  obtain ⟨e₀, he₀, hbelow⟩ := hreach.split
  have hsome := (walkAll_unfolds horder hdet h e₀ he₀).2 e hbelow
  obtain ⟨w, hw⟩ := Option.isSome_iff_exists.1 hsome
  obtain ⟨a, children', ha, hkey, hexpand'⟩ := hrows _ w hw
  rw [hdet a e ha hreach hkey, hexpand] at hexpand'
  cases hexpand'
  exact hw

/-- If one order succeeds then every order does, with the same table. -/
theorem walkAll_order (horder : order.Reorders) (horder' : order'.Reorders) (hdet : sys.Determined entries)
    (hpool : ∀ b, sys.Reach entries b → sys.key b ∈ pool) (hfuel : pool.length < fuel')
    (h : sys.walkAll order fuel path entries Table.empty = .ok table) :
    sys.walkAll order' fuel' path entries Table.empty = .ok table := by
  have hunfolds := walkAll_unfolds horder hdet h
  obtain ⟨table', h'⟩ : ∃ table', sys.walkAll order' fuel' path entries Table.empty = .ok table' := by
    refine foldlM_total (fun c hc t => ?_) _
    have hc := (horder' _ _).subset hc
    have hlen := List.length_filter_le (fun k => decide (k ∉ path)) pool
    exact walk_of_unfolds horder' (hunfolds c hc).1 (fun b hb => hpool b (Reach.append (.root hc) hb)) (by omega) t
  rw [h']
  congr 1
  funext k
  apply Option.ext
  intro v
  rw [walkAll_rows horder' hdet h', walkAll_rows horder hdet h]

end All

/-! ## Orders that lead to an entry -/

section Chain

variable [DecidableEq ε]

/-- At each depth, the entry of the chain comes first. -/
def towards (chain : List ε) (start : Nat) : VisitOrder κ ε :=
  fun path entries =>
    match chain[path.length - start]? with
    | some e => if e ∈ entries then e :: entries.erase e else entries
    | none => entries

omit [DecidableEq κ] in
theorem towards_reorders (chain : List ε) (start : Nat) : (towards chain start : VisitOrder κ ε).Reorders := by
  intro path entries
  unfold towards
  split
  · split
    · next e he => exact (List.perm_cons_erase he).symm
    · exact .refl _
  · exact .refl _

/-- The entries on the way to one of them. -/
inductive Leads (sys : System κ ε ν χ) : List ε → List ε → ε → Prop
  | last {entries : List ε} {e : ε} (he : e ∈ entries) : Leads sys entries [e] e
  | cons {entries : List ε} {c e : ε} {value : ν} {children chain : List ε} (hc : c ∈ entries)
      (hexpand : sys.expand c = .ok (value, children)) (h : Leads sys children chain e) :
      Leads sys entries (c :: chain) e

omit [DecidableEq κ] [DecidableEq ε] in
theorem Leads.snoc {chain : List ε} (h : Leads sys entries chain e) (hexpand : sys.expand e = .ok (value, children))
    (hb : b ∈ children) : Leads sys entries (chain ++ [b]) b := by
  induction h with
  | last he => exact .cons he hexpand (.last hb)
  | cons hc hexpand' _ ih => exact .cons hc hexpand' (ih hexpand)

omit [DecidableEq κ] [DecidableEq ε] in
theorem exists_leads (h : sys.Reach entries e) : ∃ chain, Leads sys entries chain e := by
  induction h with
  | root h => exact ⟨_, .last h⟩
  | child _ hexpand hc ih =>
    obtain ⟨chain, h⟩ := ih
    exact ⟨_, h.snoc hexpand hc⟩

theorem first_step {start : Nat} {whole chain : List ε} (hc : e ∈ entries)
    (hchain : whole.drop (path.length - start) = e :: chain) (hfresh : ∀ k, (table k).isSome → k ∈ path)
    (hwalk : sys.walkAll (towards whole start) fuel path entries table = .ok table') :
    ∃ value children t, sys.expand e = .ok (value, children) ∧
      sys.walkAll (towards whole start) (fuel - 1) (path ++ [sys.key e]) children
        (table.insert (sys.key e) value) = .ok t ∧ Extends t table' := by
  have hhead : whole[path.length - start]? = some e := by
    rw [← List.head?_drop, hchain]
    rfl
  have horder : towards whole start path entries = e :: entries.erase e := by
    rw [towards, hhead]
    exact if_pos hc
  rw [walkAll, horder] at hwalk
  obtain ⟨t, hfirst, hrest⟩ := foldlM_cons_ok hwalk
  have hext := foldlM_extends (fun c t t' hc => walk_extends hc) hrest
  cases fuel with
  | zero => cases hfirst
  | succ fuel =>
    obtain ⟨hpath, ⟨hsome, -⟩ | ⟨-, value, children, hexpand, hall⟩⟩ := walk_ok hfirst
    · exact absurd (hfresh _ hsome) hpath
    · exact ⟨value, children, t, hexpand, hall, hext⟩

/-- A walk that follows a chain of fresh entries stores the value of its last one. -/
theorem row_of_leads {start : Nat} {whole chain : List ε} (h : Leads sys entries chain e)
    (hchain : whole.drop (path.length - start) = chain) (hstart : start ≤ path.length)
    (hfresh : ∀ k, (table k).isSome → k ∈ path)
    (hwalk : sys.walkAll (towards whole start) fuel path entries table = .ok table') :
    ∃ value children, sys.expand e = .ok (value, children) ∧ table' (sys.key e) = some value := by
  induction h generalizing path table table' fuel with
  | @last entries c hc =>
    obtain ⟨value, children, t, hexpand, hall, hrest⟩ := first_step hc hchain hfresh hwalk
    refine ⟨value, children, hexpand, hrest _ _ ?_⟩
    exact foldlM_extends (fun c t t' hc => walk_extends hc) hall _ _ (by simp [Table.insert])
  | @cons entries c e value children chain hc hexpand _ ih =>
    obtain ⟨value', children', t, hexpand', hall, hrest⟩ := first_step hc hchain hfresh hwalk
    rw [hexpand] at hexpand'
    cases hexpand'
    have hlen : (path ++ [sys.key c]).length - start = (path.length - start) + 1 := by
      rw [List.length_append, List.length_singleton]
      omega
    have hdrop : whole.drop ((path ++ [sys.key c]).length - start) = chain := by
      rw [hlen, ← List.drop_drop, hchain]
      rfl
    have hfresh' : ∀ k, (table.insert (sys.key c) value k).isSome → k ∈ path ++ [sys.key c] := by
      intro k hk
      rw [List.mem_append, List.mem_singleton]
      by_cases hkc : k = sys.key c
      · exact .inr hkc
      · rw [Table.insert, Function.update_of_ne hkc] at hk
        exact .inl (hfresh k hk)
    obtain ⟨v, cs, hv, hrow⟩ := ih hdrop (by rw [List.length_append]; omega) hfresh' hall
    exact ⟨v, cs, hv, hrest _ _ hrow⟩

/-- For every reachable entry there is an order in which its value is the one that is stored. -/
theorem exists_order_row (hreach : sys.Reach entries e) (path : List κ) (fuel : Nat) :
    ∃ order : VisitOrder κ ε, order.Reorders ∧ ∀ table,
      sys.walkAll order fuel path entries Table.empty = .ok table →
        ∃ value children, sys.expand e = .ok (value, children) ∧ table (sys.key e) = some value := by
  obtain ⟨chain, hchain⟩ := exists_leads hreach
  refine ⟨_, towards_reorders chain path.length, fun table hwalk => ?_⟩
  have hfresh : ∀ k, ((Table.empty : Table κ ν) k).isSome → k ∈ path := fun k hk => by cases hk
  exact row_of_leads hchain (by simp) (Nat.le_refl _) hfresh hwalk

end Chain

end System

end Cobrust.Graph
