import Mathlib.Data.List.Forall2
import Mathlib.Logic.Basic

/-!
# Programs that may stop

`Except ε`: the rules for a postcondition of a program that gives a value, or stops for a reason that is
allowed.
-/

namespace Cobrust.Control

variable {ε α β : Type} {allowed : ε → Prop} {post : α → Prop} {post' : β → Prop}

/-- The program gives a value with `post`, or stops for an allowed reason. -/
def Meets (allowed : ε → Prop) (post : α → Prop) : Except ε α → Prop
  | .ok a => post a
  | .error e => allowed e

@[simp] theorem meets_ok {a : α} : Meets allowed post (.ok a) ↔ post a :=
  Iff.rfl

@[simp] theorem meets_pure {a : α} : Meets allowed post (pure a) ↔ post a :=
  Iff.rfl

@[simp] theorem meets_error {e : ε} : Meets allowed post (.error e) ↔ allowed e :=
  Iff.rfl

@[simp] theorem meets_throw {e : ε} : Meets allowed post (throw e) ↔ allowed e :=
  Iff.rfl

theorem except_ok_bind (a : α) (f : α → Except ε β) : (Except.ok a >>= f) = f a :=
  rfl

/-- A successful run of `x >>= f` is a successful run of `x` followed by one of `f`. -/
theorem except_bind_ok {x : Except ε α} {f : α → Except ε β} {b : β} :
    (x >>= f) = .ok b ↔ ∃ a, x = .ok a ∧ f a = .ok b := by
  cases x with
  | error e =>
    constructor
    · intro h
      cases h
    · rintro ⟨_, h, -⟩
      cases h
  | ok a =>
    constructor
    · exact fun h => ⟨a, rfl, h⟩
    · rintro ⟨_, h, hf⟩
      cases h
      exact hf

namespace Meets

variable {x : Except ε α} {f : α → Except ε β}

theorem bind (hx : Meets allowed post x) (hf : ∀ a, post a → Meets allowed post' (f a)) :
    Meets allowed post' (x >>= f) := by
  cases x with
  | error e => exact hx
  | ok a => exact hf a hx

theorem mono {weaker : α → Prop} (hx : Meets allowed post x) (h : ∀ a, post a → weaker a) :
    Meets allowed weaker x := by
  cases x with
  | error e => exact hx
  | ok a => exact h a hx

theorem skip (hf : ∀ a, Meets (fun _ => True) post' (f a)) : Meets (fun _ => True) post' (x >>= f) := by
  cases x with
  | error e => trivial
  | ok a => exact hf a

theorem self (hx : Meets allowed post x) : Meets allowed (fun a => x = .ok a ∧ post a) x := by
  cases x with
  | error e => exact hx
  | ok a => exact ⟨rfl, hx⟩

end Meets

end Cobrust.Control

/-!
## Lists of programs

`List.mapM` in `Except`: what it returns, item by item, and when it returns. Before that, lists that are related item by
item.
-/

namespace Cobrust.Control

open List (Forall₂)

variable {α β ε : Type} {R S : α → β → Prop} {as : List α} {bs : List β}

theorem forall₂_and (h : Forall₂ R as bs) (h' : Forall₂ S as bs) : Forall₂ (fun a b => R a b ∧ S a b) as bs := by
  induction h with
  | nil => exact .nil
  | cons hab _ ih =>
    cases h' with
    | cons hab' h' => exact .cons ⟨hab, hab'⟩ (ih h')

theorem exists_right {a : α} (h : Forall₂ R as bs) (ha : a ∈ as) : ∃ b ∈ bs, R a b := by
  induction h with
  | nil => cases ha
  | cons hab _ ih =>
    rcases List.mem_cons.1 ha with rfl | ha
    · exact ⟨_, List.mem_cons_self, hab⟩
    · obtain ⟨b, hb, hr⟩ := ih ha
      exact ⟨b, List.mem_cons_of_mem _ hb, hr⟩

theorem exists_left {b : β} (h : Forall₂ R as bs) (hb : b ∈ bs) : ∃ a ∈ as, R a b := by
  obtain ⟨a, ha, hr⟩ := exists_right h.flip hb
  exact ⟨a, ha, hr⟩

variable {f : α → Except ε β}

theorem except_mapM_iff : as.mapM f = .ok bs ↔ Forall₂ (fun a b => f a = .ok b) as bs := by
  induction as generalizing bs with
  | nil =>
    rw [List.mapM_nil, List.forall₂_nil_left_iff]
    exact ⟨fun h => (Except.ok.inj h).symm, fun h => congrArg Except.ok h.symm⟩
  | cons a as ih =>
    rw [List.mapM_cons, List.forall₂_cons_left_iff]
    constructor
    · intro h
      obtain ⟨b, hb, h⟩ := except_bind_ok.1 h
      obtain ⟨bs, hbs, h⟩ := except_bind_ok.1 h
      exact ⟨b, bs, hb, ih.1 hbs, (Except.ok.inj h).symm⟩
    · rintro ⟨b, bs, hb, hbs, rfl⟩
      exact except_bind_ok.2 ⟨b, hb, except_bind_ok.2 ⟨bs, ih.2 hbs, rfl⟩⟩

theorem map_eq_of_mapM (h : as.mapM f = .ok bs) : as.map f = bs.map .ok := by
  rw [← List.forall₂_eq_eq_eq, List.forall₂_map_left_iff, List.forall₂_map_right_iff]
  exact except_mapM_iff.1 h

theorem exists_except_mapM (h : ∀ a ∈ as, ∃ b, f a = .ok b) : ∃ bs, as.mapM f = .ok bs := by
  induction as with
  | nil => exact ⟨[], rfl⟩
  | cons a as ih =>
    obtain ⟨b, hb⟩ := h a List.mem_cons_self
    obtain ⟨bs, hbs⟩ := ih fun a' ha' => h a' (List.mem_cons_of_mem _ ha')
    exact ⟨b :: bs, except_mapM_iff.2 (.cons hb (except_mapM_iff.1 hbs))⟩

end Cobrust.Control
