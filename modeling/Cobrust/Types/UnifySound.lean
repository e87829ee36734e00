import Cobrust.Types.UnifySpec

/-!
# Unification computes a most general unifier

A successful `unify` is a derivation of `Compares`, which works off a list of pairs: a variable is bound,
or a constructor is taken off and its components are compared. The variadic parts of two function types
are set aside, so the result is a unifier exactly where these parts agree in every solution of the
equations that have been solved.
-/

namespace Cobrust

open Unify (Acyclic Extends Solves)
open Ty (Within)

/-- `apply` returns `r`. -/
def Subst.Resolves (s : Subst) (t r : Ty) : Prop :=
  ∃ fuel, s.apply fuel t = some r

/-- `Compares s work eqs skipped s'`: working off the pairs of `work` from `s` succeeds with `s'`. The
equations `eqs` have been solved on the way, and the pairs `skipped` of variadic parts passed over. -/
inductive Compares : Subst → List (Ty × Ty) → List (Nat × Ty) → List (Option Ty × Option Ty) → Subst → Prop
  | nil {s} : Compares s [] [] [] s
  | never {s t₁ t₂ r₁ r₂ rest eqs skipped s'} :
      s.Resolves t₁ r₁ → s.Resolves t₂ r₂ → r₁ = .never ∨ r₂ = .never →
      Compares s rest eqs skipped s' → Compares s ((t₁, t₂) :: rest) eqs skipped s'
  | same {s t₁ t₂ v rest eqs skipped s'} :
      s.Resolves t₁ (.var v) → s.Resolves t₂ (.var v) →
      Compares s rest eqs skipped s' → Compares s ((t₁, t₂) :: rest) eqs skipped s'
  | left {s t₁ t₂ v other rest eqs skipped s'} :
      s.Resolves t₁ (.var v) → s.Resolves t₂ other → other ≠ .never → ¬ Within (.var v) other →
      Compares (s.extend v other) rest eqs skipped s' →
      Compares s ((t₁, t₂) :: rest) ((v, other) :: eqs) skipped s'
  | right {s t₁ t₂ v other rest eqs skipped s'} :
      s.Resolves t₁ other → s.Resolves t₂ (.var v) → ¬ other.IsVar → other ≠ .never →
      ¬ Within (.var v) other → Compares (s.extend v other) rest eqs skipped s' →
      Compares s ((t₁, t₂) :: rest) ((v, other) :: eqs) skipped s'
  | node {s t₁ t₂ r₁ r₂ rest eqs skipped s'} :
      s.Resolves t₁ r₁ → s.Resolves t₂ r₂ → ¬ r₁.IsVar → ¬ r₂.IsVar → r₁ ≠ .never → r₂ ≠ .never →
      r₁.shape = r₂.shape → Compares s (r₁.parts.zip r₂.parts ++ rest) eqs skipped s' →
      Compares s ((t₁, t₂) :: rest) eqs (r₁.variadics.zip r₂.variadics ++ skipped) s'

/-! ## The arms of the source -/

section Arms

open InferM

variable {unify : Ty → Ty → InferM Unit} {span : Span} {s s' : Subst}

theorem unifyZip_append {a b c d : List Ty} (h : a.length = c.length) :
    unifyZip unify (a ++ b) (c ++ d) s = some (.ok (), s') ↔
      ∃ s₁, unifyZip unify a c s = some (.ok (), s₁) ∧ unifyZip unify b d s₁ = some (.ok (), s') := by
  induction a generalizing c s with
  | nil =>
    obtain rfl := List.length_eq_zero_iff.1 h.symm
    simp [unifyZip, pure_eq_ok]
  | cons x xs ih =>
    cases c with
    | nil => cases h
    | cons y ys =>
      simp only [List.cons_append, unifyZip, bind_eq_ok, ih (Nat.succ.inj h)]
      constructor
      · rintro ⟨u, s₁, h₁, s₂, h₂, h₃⟩
        exact ⟨s₂, ⟨u, s₁, h₁, h₂⟩, h₃⟩
      · rintro ⟨s₂, ⟨u, s₁, h₁, h₂⟩, h₃⟩
        exact ⟨u, s₁, h₁, s₂, h₂, h₃⟩

theorem unifyZip_one {x y : Ty} :
    unifyZip unify [x] [y] s = some (.ok (), s') ↔ unify x y s = some (.ok (), s') := by
  simp only [unifyZip, bind_eq_ok, pure_eq_ok]
  constructor
  · rintro ⟨u, s₁, h, -, rfl⟩
    exact h
  · exact fun h => ⟨(), s', h, trivial, rfl⟩

theorem unifyNamed_eq {a b : List (String × Ty)} (h : a.length = b.length) :
    unifyNamed unify span a b s = some (.ok (), s') ↔ a.map Prod.fst = b.map Prod.fst ∧
      unifyZip unify (a.map Prod.snd) (b.map Prod.snd) s = some (.ok (), s') := by
  induction a generalizing b s with
  | nil =>
    obtain rfl := List.length_eq_zero_iff.1 h.symm
    simp [unifyNamed, unifyZip]
  | cons x xs ih =>
    cases b with
    | nil => cases h
    | cons y ys =>
      obtain ⟨n₁, x⟩ := x
      obtain ⟨n₂, y⟩ := y
      by_cases hn : n₁ = n₂
      · simp only [unifyNamed, unifyZip, List.map_cons, hn, ne_eq, not_true_eq_false, if_false,
          bind_eq_ok, ih (Nat.succ.inj h), List.cons.injEq, true_and]
        constructor
        · rintro ⟨u, s₁, h₁, hmap, h₂⟩
          exact ⟨hmap, u, s₁, h₁, h₂⟩
        · rintro ⟨hmap, u, s₁, h₁, h₂⟩
          exact ⟨u, s₁, h₁, hmap, h₂⟩
      · simp [unifyNamed, hn, throw_ne_ok]

theorem map_none_iff {a b : List Ty} :
    ((a.map fun _ => Ty.none) = b.map fun _ => Ty.none) ↔ a.length = b.length := by
  refine ⟨Ty.length_eq_of_map_none, fun h => ?_⟩
  rw [List.map_const', List.map_const', h]

theorem map_fields_iff {a b : List (String × Ty)} :
    ((a.map fun f => (f.1, Ty.none)) = b.map fun f => (f.1, Ty.none)) ↔
      a.map Prod.fst = b.map Prod.fst := by
  have hinj : Function.Injective fun n : String => (n, Ty.none) := fun _ _ h => (Prod.mk.inj h).1
  have hmap (l : List (String × Ty)) :
      (l.map fun f => (f.1, Ty.none)) = (l.map Prod.fst).map fun n => (n, Ty.none) := by
    rw [List.map_map]
    rfl
  rw [hmap, hmap, (List.map_injective_iff.2 hinj).eq_iff]

theorem shape_fn_iff {p₁ p₂ : List Ty} {n₁ n₂ : List (String × Ty)} {v₁ v₂ k₁ k₂ : Option Ty}
    {r₁ r₂ : Ty} : (Ty.fn p₁ n₁ v₁ k₁ r₁).shape = (Ty.fn p₂ n₂ v₂ k₂ r₂).shape ↔
      p₁.length = p₂.length ∧ n₁.length = n₂.length ∧ n₁.map Prod.fst = n₂.map Prod.fst := by
  simp only [Ty.shape, Ty.fn.injEq, map_none_iff, map_fields_iff, and_true]
  refine and_congr_right fun _ => ⟨fun h => ⟨?_, h⟩, And.right⟩
  simpa using congrArg List.length h

theorem unifyArms_fn {p₁ p₂ : List Ty} {n₁ n₂ : List (String × Ty)} {v₁ v₂ k₁ k₂ : Option Ty}
    {r₁ r₂ : Ty} :
    unifyArms unify span (.fn p₁ n₁ v₁ k₁ r₁) (.fn p₂ n₂ v₂ k₂ r₂) s = some (.ok (), s') ↔
      (p₁.length = p₂.length ∧ n₁.length = n₂.length ∧ n₁.map Prod.fst = n₂.map Prod.fst) ∧
      unifyZip unify (p₁ ++ n₁.map Prod.snd ++ [r₁]) (p₂ ++ n₂.map Prod.snd ++ [r₂]) s =
        some (.ok (), s') := by
  by_cases hp : p₁.length = p₂.length
  · by_cases hn : n₁.length = n₂.length
    · have hlen : (p₁ ++ n₁.map Prod.snd).length = (p₂ ++ n₂.map Prod.snd).length := by
        simp [hp, hn]
      rw [unifyZip_append hlen]
      simp only [unifyZip_append hp, unifyZip_one, hp, hn, true_and, unifyArms, ne_eq,
        not_true_eq_false, if_false, bind_eq_ok, unifyNamed_eq hn]
      constructor
      · rintro ⟨u, s₁, h₁, u', s₂, ⟨hmap, h₂⟩, h₃⟩
        exact ⟨hmap, s₂, ⟨s₁, h₁, h₂⟩, h₃⟩
      · rintro ⟨hmap, s₂, ⟨s₁, h₁, h₂⟩, h₃⟩
        exact ⟨(), s₁, h₁, (), s₂, ⟨hmap, h₂⟩, h₃⟩
    · simp [unifyArms, hp, hn, throw_ne_ok]
  · simp [unifyArms, hp, throw_ne_ok]

/-- Two types that are no variables: the constructors agree, and the components are compared. -/
theorem unifyArms_node {r₁ r₂ : Ty} (h₁ : ¬ r₁.IsVar) (h₂ : ¬ r₂.IsVar) (hn₁ : r₁ ≠ .never)
    (hn₂ : r₂ ≠ .never) : unifyArms unify span r₁ r₂ s = some (.ok (), s') ↔
      r₁.shape = r₂.shape ∧ unifyZip unify r₁.parts r₂.parts s = some (.ok (), s') := by
  cases r₁ <;> first | exact absurd trivial h₁ | exact absurd rfl hn₁ | skip
  all_goals cases r₂ <;> first
    | exact iff_of_false throw_ne_ok.1 (fun h => Ty.noConfusion h.1)
    | exact absurd trivial h₂
    | exact absurd rfl hn₂
    | exact (and_iff_right rfl).symm
    | skip
  case tuple.tuple a b =>
    simp only [Ty.shape, Ty.tuple.injEq, map_none_iff, unifyArms, Ty.parts]
    by_cases h : a.length = b.length <;> simp [h, mismatch, throw_ne_ok]
  case adt.adt id a id' b =>
    simp only [Ty.shape, Ty.adt.injEq, map_none_iff, unifyArms, Ty.parts]
    by_cases hid : id = id' <;> by_cases h : a.length = b.length <;>
      simp [hid, h, mismatch, throw_ne_ok]
  case alias.alias id a id' b =>
    simp only [Ty.shape, Ty.alias.injEq, map_none_iff, unifyArms, Ty.parts]
    by_cases hid : id = id' <;> by_cases h : a.length = b.length <;>
      simp [hid, h, mismatch, throw_ne_ok]
  case record.record a b =>
    simp only [Ty.shape, Ty.record.injEq, map_fields_iff, unifyArms, Ty.parts]
    by_cases h : a.map Prod.fst = b.map Prod.fst <;> simp [h, mismatch, throw_ne_ok]
  case list.list a b => exact unifyZip_one.symm.trans (and_iff_right rfl).symm
  case set.set a b => exact unifyZip_one.symm.trans (and_iff_right rfl).symm
  case ref.ref a b => exact unifyZip_one.symm.trans (and_iff_right rfl).symm
  case array.array a n b m =>
    by_cases h : n = m
    · simp [unifyArms, h, Ty.shape, Ty.parts, unifyZip_one]
    · simp [unifyArms, h, Ty.shape, throw_ne_ok]
  case dict.dict k v k' v' =>
    simp only [unifyArms, Ty.parts, bind_eq_ok, Ty.shape, true_and, unifyZip, pure_eq_ok]
    constructor
    · rintro ⟨u, s₁, h₁, h₂⟩
      exact ⟨u, s₁, h₁, (), s', h₂, rfl⟩
    · rintro ⟨u, s₁, h₁, u', s₂, h₂, rfl⟩
      exact ⟨u, s₁, h₁, h₂⟩
  case intN.intN a b =>
    by_cases h : a = b <;> simp [unifyArms, h, Ty.shape, Ty.parts, unifyZip, mismatch, throw_ne_ok]
  case generic.generic a b =>
    by_cases h : a = b <;> simp [unifyArms, h, Ty.shape, Ty.parts, unifyZip, mismatch, throw_ne_ok]
  case fn.fn => exact unifyArms_fn.trans (and_congr_left' shape_fn_iff.symm)

theorem bindVar_ok {v : Nat} {other : Ty} :
    bindVar v other span s = some (.ok (), s') ↔ ¬ Within (.var v) other ∧ s.extend v other = s' := by
  unfold bindVar
  by_cases h : Within (.var v) other
  · rw [if_pos ((Ty.mem_freeVars v other).2 h), throw_ne_ok]
    exact iff_of_false id fun hc => hc.1 h
  · rw [if_neg fun hm => h ((Ty.mem_freeVars v other).1 hm), modify_eq_ok, and_iff_right h]

/-- The arms of the source, one case for each rule of `Compares`. -/
theorem unifyArms_ok {r₁ r₂ : Ty} : unifyArms unify span r₁ r₂ s = some (.ok (), s') ↔
    ((r₁ = .never ∨ r₂ = .never) ∧ s = s') ∨
    (∃ v, r₁ = .var v ∧ r₂ = .var v ∧ s = s') ∨
    (∃ v, r₁ = .var v ∧ r₂ ≠ .never ∧ ¬ Within (.var v) r₂ ∧ s.extend v r₂ = s') ∨
    (∃ v, r₂ = .var v ∧ ¬ r₁.IsVar ∧ r₁ ≠ .never ∧ ¬ Within (.var v) r₁ ∧ s.extend v r₁ = s') ∨
    (¬ r₁.IsVar ∧ ¬ r₂.IsVar ∧ r₁ ≠ .never ∧ r₂ ≠ .never ∧ r₁.shape = r₂.shape ∧
      unifyZip unify r₁.parts r₂.parts s = some (.ok (), s')) := by
  by_cases hn₁ : r₁ = .never
  · subst hn₁
    have harm : unifyArms unify span .never r₂ s = some (.ok (), s') ↔ s = s' := by
      simp [unifyArms, pure_eq_ok]
    rw [harm]
    simp
  by_cases hn₂ : r₂ = .never
  · subst hn₂
    have harm : unifyArms unify span r₁ .never s = some (.ok (), s') ↔ s = s' := by
      cases r₁ <;> simp [unifyArms, pure_eq_ok]
    rw [harm]
    simp
  by_cases hv₁ : r₁.IsVar
  · cases r₁ with
    | var v =>
      by_cases heq : r₂ = .var v
      · subst heq
        simp [unifyArms, pure_eq_ok, Ty.within_var, Ty.IsVar]
      · have harm : unifyArms unify span (.var v) r₂ s = bindVar v r₂ span s := by
          cases r₂ with
          | never => exact absurd rfl hn₂
          | var w =>
            have hne : v ≠ w := fun e => heq (by rw [e])
            simp [unifyArms, hne]
          | _ => rfl
        rw [harm, bindVar_ok]
        simp [heq, hn₂, Ty.IsVar]
    | _ => exact hv₁.elim
  by_cases hv₂ : r₂.IsVar
  · cases r₂ with
    | var v =>
      have harm : unifyArms unify span r₁ (.var v) s = bindVar v r₁ span s := by
        cases r₁ with
        | never => exact absurd rfl hn₁
        | var w => exact absurd trivial hv₁
        | _ => rfl
      have hne (w : Nat) : r₁ ≠ .var w := by
        rintro rfl
        exact hv₁ trivial
      rw [harm, bindVar_ok]
      simp [hn₁, Ty.IsVar, hne]
    | _ => exact hv₂.elim
  have hne₁ (w : Nat) : r₁ ≠ .var w := by
    rintro rfl
    exact hv₁ trivial
  have hne₂ (w : Nat) : r₂ ≠ .var w := by
    rintro rfl
    exact hv₂ trivial
  rw [unifyArms_node hv₁ hv₂ hn₁ hn₂]
  simp [hn₁, hn₂, hv₁, hv₂, hne₁, hne₂]

end Arms

/-! ## What a derivation says -/

/-- A property of types that passes to components and survives substitution. -/
structure Hereditary (P : Ty → Prop) : Prop where
  var : ∀ v, P (.var v)
  part : ∀ {t p : Ty}, P t → p ∈ t.parts → P p
  bind : ∀ {t : Ty} {f : Nat → Ty}, P t → (∀ v, Within (.var v) t → P (f v)) → P (t.bind f)

/-- Every binding of `s` has the property `P`. -/
def Subst.All (P : Ty → Prop) (s : Subst) : Prop :=
  ∀ v t, s.get v = some t → P t

/-- No part of `t` is the bottom type. -/
def Ty.NeverFree (t : Ty) : Prop :=
  ¬ Within .never t

/-- No function type in `t` has a variadic part. -/
def Ty.VariadicFree (t : Ty) : Prop :=
  ∀ p, Within p t → ∀ q, some q ∉ p.variadics

theorem hereditary_neverFree : Hereditary Ty.NeverFree where
  var v hw := by cases Ty.within_var.1 hw
  part h hp hw := h (.part hp hw)
  bind {t _} h hf hw := by
    rcases (Ty.within_bind rfl rfl t).1 hw with ⟨v, hv, hw⟩ | ⟨-, hw⟩
    · exact hf v hv hw
    · exact h hw

theorem hereditary_variadicFree : Hereditary Ty.VariadicFree where
  var v p hw q hq := by
    obtain rfl := Ty.within_var.1 hw
    cases hq
  part h hp p hw := h p (.part hp hw)
  bind {t f} := by
    induction t using Ty.rec_parts with
    | var v => exact fun _ hf => hf v .refl
    | node t hv ih _ =>
      intro h hf p hw q hq
      have hnone (q : Ty) : some q ∉ (t.bind f).variadics := by
        rw [Ty.variadics_bind f hv]
        intro hq
        obtain ⟨o, ho, he⟩ := List.mem_map.1 hq
        obtain ⟨q', rfl, -⟩ := Option.map_eq_some_iff.1 he
        exact h t .refl q' ho
      cases hw with
      | refl => exact hnone q hq
      | variadic hm _ => exact hnone _ hm
      | part hm hw =>
        rw [Ty.parts_bind f hv] at hm
        obtain ⟨a, ha, rfl⟩ := List.mem_map.1 hm
        have hsub : a.VariadicFree := fun p hw => h p (.part ha hw)
        exact ih a ha hsub (fun v hw => hf v (.part ha hw)) p hw q hq

theorem Hereditary.closed {P : Ty → Prop} (hP : Hereditary P) {s : Subst} (hac : Acyclic s.get)
    (h : s.All P) (v : Nat) : P (s.closed hac v) := by
  induction v using (s.wellFounded hac).induction with
  | _ v ih =>
    cases hs : s.get v with
    | none =>
      rw [s.closed_of_none hac hs]
      exact hP.var v
    | some t =>
      rw [s.closed_of_some hac hs]
      exact hP.bind (h v t hs) fun w hw => ih w ⟨t, hs, hw⟩

section

variable {s : Subst} (hac : Acyclic s.get)

include hac

theorem Subst.Resolves.eq {t r : Ty} (h : s.Resolves t r) : r = t.bind (s.closed hac) := by
  obtain ⟨fuel, h⟩ := h
  exact s.apply_eq hac h

theorem Subst.resolves_closed (t : Ty) : s.Resolves t (t.bind (s.closed hac)) := by
  obtain ⟨n, hn⟩ := s.exists_apply hac t
  exact ⟨n, hn n (Nat.le_refl _)⟩

/-- A solution does not distinguish a type from what it resolves to. -/
theorem Subst.Resolves.bind_eq {t r : Ty} (h : s.Resolves t r) {θ : Nat → Ty} (hθ : Solves θ s.get) :
    r.bind θ = t.bind θ := by
  rw [h.eq hac]
  exact hθ.bind_closure (s.wellFounded hac) t

theorem Subst.Resolves.hereditary {P : Ty → Prop} (hP : Hereditary P) {t r : Ty} (h : s.Resolves t r)
    (hs : s.All P) (ht : P t) : P r := by
  rw [h.eq hac]
  exact hP.bind ht fun v _ => hP.closed hac hs v

theorem Subst.Resolves.unbound {t r : Ty} (h : s.Resolves t r) {w : Nat} (hw : Within (.var w) r) :
    s.get w = none := by
  rw [h.eq hac] at hw
  exact Unify.unbound_of_occurs_bind (s.wellFounded hac) hw

theorem acyclic_extend {t t' other : Ty} {v : Nat} (hv : s.Resolves t (.var v))
    (ho : s.Resolves t' other) (hocc : ¬ Within (.var v) other) : Acyclic (s.extend v other).get := by
  rw [Subst.get_extend]
  refine Unify.acyclic_update hac fun w hw => ⟨ho.unbound hac hw, ?_⟩
  rintro rfl
  exact hocc hw

theorem extends_extend {t other : Ty} {v : Nat} (hv : s.Resolves t (.var v)) :
    Extends s.get (s.extend v other).get := by
  rw [Subst.get_extend]
  exact Unify.extends_update (hv.unbound hac .refl)

omit hac in
theorem solves_extend_iff {θ : Nat → Ty} {v : Nat} {other : Ty} (hv : s.get v = none) :
    Solves θ (s.extend v other).get ↔ Solves θ s.get ∧ θ v = other.bind θ := by
  rw [Subst.get_extend]
  constructor
  · intro h
    refine ⟨h.of_extends (Unify.extends_update hv), h v other ?_⟩
    rw [Unify.update, if_pos rfl]
  · rintro ⟨h, hv⟩
    exact Unify.solves_update h hv

omit hac in
theorem all_extend {P : Ty → Prop} {v : Nat} {other : Ty} (hs : s.All P) (ho : P other) :
    (s.extend v other).All P := by
  intro w t hw
  rw [Subst.get_extend, Unify.update] at hw
  split at hw
  · obtain rfl := Option.some.inj hw
    exact ho
  · exact hs w t hw

end

/-- The two parts of a pair become equal. -/
def Agree (θ : Nat → Ty) (p : Option Ty × Option Ty) : Prop :=
  p.1.map (Ty.bind θ) = p.2.map (Ty.bind θ)

def SolvesAll (θ : Nat → Ty) (work : List (Ty × Ty)) : Prop :=
  ∀ p ∈ work, p.1.bind θ = p.2.bind θ

def SolvesEqs (θ : Nat → Ty) (eqs : List (Nat × Ty)) : Prop :=
  ∀ e ∈ eqs, θ e.1 = e.2.bind θ

theorem forall_zip_iff {α β : Type} {g : α → β} {a b : List α} (h : a.length = b.length) :
    (∀ p ∈ a.zip b, g p.1 = g p.2) ↔ a.map g = b.map g := by
  induction a generalizing b with
  | nil =>
    obtain rfl := List.length_eq_zero_iff.1 h.symm
    simp
  | cons x xs ih =>
    cases b with
    | nil => cases h
    | cons y ys =>
      rw [List.zip_cons_cons, List.forall_mem_cons, ih (Nat.succ.inj h), List.map_cons, List.map_cons,
        List.cons.injEq]

/-- Two constructors of one shape become equal when their components do. -/
theorem bind_node_iff {r₁ r₂ : Ty} {θ : Nat → Ty} (h₁ : ¬ r₁.IsVar) (h₂ : ¬ r₂.IsVar)
    (hs : r₁.shape = r₂.shape) : r₁.bind θ = r₂.bind θ ↔
      SolvesAll θ (r₁.parts.zip r₂.parts) ∧ ∀ p ∈ r₁.variadics.zip r₂.variadics, Agree θ p := by
  have hparts : SolvesAll θ (r₁.parts.zip r₂.parts) ↔ r₁.parts.map (Ty.bind θ) = r₂.parts.map (Ty.bind θ) :=
    forall_zip_iff (Ty.length_parts hs)
  have hvars : (∀ p ∈ r₁.variadics.zip r₂.variadics, Agree θ p) ↔
      r₁.variadics.map (Option.map (Ty.bind θ)) = r₂.variadics.map (Option.map (Ty.bind θ)) :=
    forall_zip_iff (Ty.length_variadics hs)
  rw [hparts, hvars]
  constructor
  · intro h
    have hp := congrArg Ty.parts h
    have hva := congrArg Ty.variadics h
    rw [Ty.parts_bind _ h₁, Ty.parts_bind _ h₂] at hp
    rw [Ty.variadics_bind _ h₁, Ty.variadics_bind _ h₂] at hva
    exact ⟨hp, hva⟩
  · rintro ⟨hp, hva⟩
    refine Ty.ext_parts ?_ ?_ ?_
    · rw [Ty.shape_bind _ h₁, Ty.shape_bind _ h₂, hs]
    · rw [Ty.parts_bind _ h₁, Ty.parts_bind _ h₂, hp]
    · rw [Ty.variadics_bind _ h₁, Ty.variadics_bind _ h₂, hva]

namespace Compares

variable {s s' : Subst} {work : List (Ty × Ty)} {eqs : List (Nat × Ty)}
  {skipped : List (Option Ty × Option Ty)}

theorem acyclic (h : Compares s work eqs skipped s') (hac : Acyclic s.get) : Acyclic s'.get := by
  induction h with
  | nil => exact hac
  | never _ _ _ _ ih => exact ih hac
  | same _ _ _ ih => exact ih hac
  | left hv ho _ hocc _ ih => exact ih (acyclic_extend hac hv ho hocc)
  | right ho hv _ _ hocc _ ih => exact ih (acyclic_extend hac hv ho hocc)
  | node _ _ _ _ _ _ _ _ ih => exact ih hac

theorem extension (h : Compares s work eqs skipped s') (hac : Acyclic s.get) :
    Extends s.get s'.get := by
  induction h with
  | nil => exact fun _ _ h => h
  | never _ _ _ _ ih => exact ih hac
  | same _ _ _ ih => exact ih hac
  | left hv ho _ hocc _ ih =>
    exact fun w t hw => ih (acyclic_extend hac hv ho hocc) w t (extends_extend hac hv w t hw)
  | right ho hv _ _ hocc _ ih =>
    exact fun w t hw => ih (acyclic_extend hac hv ho hocc) w t (extends_extend hac hv w t hw)
  | node _ _ _ _ _ _ _ _ ih => exact ih hac

/-- The solutions of the result are those of the start that solve the equations. -/
theorem solves_iff (h : Compares s work eqs skipped s') (hac : Acyclic s.get) (θ : Nat → Ty) :
    Solves θ s'.get ↔ Solves θ s.get ∧ SolvesEqs θ eqs := by
  induction h with
  | nil => simp [SolvesEqs]
  | never _ _ _ _ ih => exact ih hac
  | same _ _ _ ih => exact ih hac
  | left hv ho _ hocc _ ih =>
    rw [ih (acyclic_extend hac hv ho hocc), solves_extend_iff (hv.unbound hac .refl), and_assoc]
    simp [SolvesEqs]
  | right ho hv _ _ hocc _ ih =>
    rw [ih (acyclic_extend hac hv ho hocc), solves_extend_iff (hv.unbound hac .refl), and_assoc]
    simp [SolvesEqs]
  | node _ _ _ _ _ _ _ _ ih => exact ih hac

theorem solvesAll_cons {θ : Nat → Ty} {t₁ t₂ : Ty} {rest : List (Ty × Ty)} :
    SolvesAll θ ((t₁, t₂) :: rest) ↔ t₁.bind θ = t₂.bind θ ∧ SolvesAll θ rest := by
  simp [SolvesAll]

theorem solvesAll_append {θ : Nat → Ty} {a b : List (Ty × Ty)} :
    SolvesAll θ (a ++ b) ↔ SolvesAll θ a ∧ SolvesAll θ b :=
  List.forall_mem_append

/-- A solution of the start that makes every pair equal solves the equations, and the pairs that have
been skipped agree under it. -/
theorem complete (h : Compares s work eqs skipped s') (hac : Acyclic s.get) {θ : Nat → Ty}
    (hθ : Solves θ s.get) (hwork : SolvesAll θ work) : SolvesEqs θ eqs ∧ ∀ p ∈ skipped, Agree θ p := by
  induction h with
  | nil => exact ⟨by simp [SolvesEqs], by simp⟩
  | never _ _ _ _ ih => exact ih hac hθ (solvesAll_cons.1 hwork).2
  | same _ _ _ ih => exact ih hac hθ (solvesAll_cons.1 hwork).2
  | left hv ho _ hocc _ ih =>
    obtain ⟨heq, hrest⟩ := solvesAll_cons.1 hwork
    rw [← hv.bind_eq hac hθ, ← ho.bind_eq hac hθ] at heq
    obtain ⟨heqs, hsk⟩ := ih (acyclic_extend hac hv ho hocc)
      ((solves_extend_iff (hv.unbound hac .refl)).2 ⟨hθ, heq⟩) hrest
    exact ⟨List.forall_mem_cons.2 ⟨heq, heqs⟩, hsk⟩
  | right ho hv _ _ hocc _ ih =>
    obtain ⟨heq, hrest⟩ := solvesAll_cons.1 hwork
    rw [← hv.bind_eq hac hθ, ← ho.bind_eq hac hθ] at heq
    obtain ⟨heqs, hsk⟩ := ih (acyclic_extend hac hv ho hocc)
      ((solves_extend_iff (hv.unbound hac .refl)).2 ⟨hθ, heq.symm⟩) hrest
    exact ⟨List.forall_mem_cons.2 ⟨heq.symm, heqs⟩, hsk⟩
  | node h₁ h₂ hv₁ hv₂ _ _ hs _ ih =>
    obtain ⟨heq, hrest⟩ := solvesAll_cons.1 hwork
    rw [← h₁.bind_eq hac hθ, ← h₂.bind_eq hac hθ, bind_node_iff hv₁ hv₂ hs] at heq
    obtain ⟨heqs, hsk⟩ := ih hac hθ (solvesAll_append.2 ⟨heq.1, hrest⟩)
    exact ⟨heqs, List.forall_mem_append.2 ⟨heq.2, hsk⟩⟩

/-- Where the skipped pairs agree, a solution of the result makes every pair equal. -/
theorem sound (h : Compares s work eqs skipped s') (hac : Acyclic s.get) (hs : s.All Ty.NeverFree)
    (hwork : ∀ p ∈ work, p.1.NeverFree ∧ p.2.NeverFree) {θ : Nat → Ty} (hθ : Solves θ s'.get)
    (hskip : ∀ p ∈ skipped, Agree θ p) : SolvesAll θ work := by
  induction h with
  | nil => simp [SolvesAll]
  | never h₁ h₂ hn _ ih =>
    obtain ⟨⟨hw₁, hw₂⟩, -⟩ := List.forall_mem_cons.1 hwork
    rcases hn with rfl | rfl
    · exact absurd .refl (h₁.hereditary hac hereditary_neverFree hs hw₁)
    · exact absurd .refl (h₂.hereditary hac hereditary_neverFree hs hw₂)
  | same h₁ h₂ hrest ih =>
    have hθs := hθ.of_extends (hrest.extension hac)
    refine solvesAll_cons.2 ⟨?_, ih hac hs (List.forall_mem_cons.1 hwork).2 hθ hskip⟩
    rw [← h₁.bind_eq hac hθs, ← h₂.bind_eq hac hθs]
  | left hv ho _ hocc hrest ih =>
    have hac' := acyclic_extend hac hv ho hocc
    obtain ⟨⟨-, hw₂⟩, hwr⟩ := List.forall_mem_cons.1 hwork
    obtain ⟨hθs, heq⟩ := (solves_extend_iff (hv.unbound hac .refl)).1
      (hθ.of_extends (hrest.extension hac'))
    refine solvesAll_cons.2 ⟨?_, ih hac' (all_extend hs (ho.hereditary hac hereditary_neverFree hs hw₂)) hwr hθ hskip⟩
    rw [← hv.bind_eq hac hθs, ← ho.bind_eq hac hθs]
    exact heq
  | right ho hv _ _ hocc hrest ih =>
    have hac' := acyclic_extend hac hv ho hocc
    obtain ⟨⟨hw₁, -⟩, hwr⟩ := List.forall_mem_cons.1 hwork
    obtain ⟨hθs, heq⟩ := (solves_extend_iff (hv.unbound hac .refl)).1
      (hθ.of_extends (hrest.extension hac'))
    refine solvesAll_cons.2 ⟨?_, ih hac' (all_extend hs (ho.hereditary hac hereditary_neverFree hs hw₁)) hwr hθ hskip⟩
    rw [← hv.bind_eq hac hθs, ← ho.bind_eq hac hθs]
    exact heq.symm
  | node h₁ h₂ hv₁ hv₂ _ _ hsh hrest ih =>
    have hθs := hθ.of_extends (hrest.extension hac)
    obtain ⟨⟨hw₁, hw₂⟩, hwr⟩ := List.forall_mem_cons.1 hwork
    obtain ⟨hskip₁, hskip₂⟩ := List.forall_mem_append.1 hskip
    have hall := ih hac hs (List.forall_mem_append.2 ⟨fun p hp => ?_, hwr⟩) hθ hskip₂
    · obtain ⟨hparts, hr⟩ := solvesAll_append.1 hall
      refine solvesAll_cons.2 ⟨?_, hr⟩
      rw [← h₁.bind_eq hac hθs, ← h₂.bind_eq hac hθs]
      exact (bind_node_iff hv₁ hv₂ hsh).2 ⟨hparts, hskip₁⟩
    · obtain ⟨hp₁, hp₂⟩ := List.of_mem_zip hp
      exact ⟨hereditary_neverFree.part (h₁.hereditary hac hereditary_neverFree hs hw₁) hp₁,
        hereditary_neverFree.part (h₂.hereditary hac hereditary_neverFree hs hw₂) hp₂⟩

/-- Where no function type has a variadic part, none is passed over. -/
theorem skipped_eq_none (h : Compares s work eqs skipped s') (hac : Acyclic s.get)
    (hs : s.All Ty.VariadicFree) (hwork : ∀ p ∈ work, p.1.VariadicFree ∧ p.2.VariadicFree) :
    ∀ p ∈ skipped, p = (none, none) := by
  have hP := hereditary_variadicFree
  induction h with
  | nil => simp
  | never _ _ _ _ ih => exact ih hac hs (List.forall_mem_cons.1 hwork).2
  | same _ _ _ ih => exact ih hac hs (List.forall_mem_cons.1 hwork).2
  | left hv ho _ hocc _ ih =>
    obtain ⟨⟨-, hw₂⟩, hwr⟩ := List.forall_mem_cons.1 hwork
    exact ih (acyclic_extend hac hv ho hocc) (all_extend hs (ho.hereditary hac hP hs hw₂)) hwr
  | right ho hv _ _ hocc _ ih =>
    obtain ⟨⟨hw₁, -⟩, hwr⟩ := List.forall_mem_cons.1 hwork
    exact ih (acyclic_extend hac hv ho hocc) (all_extend hs (ho.hereditary hac hP hs hw₁)) hwr
  | node h₁ h₂ _ _ _ _ _ _ ih =>
    obtain ⟨⟨hw₁, hw₂⟩, hwr⟩ := List.forall_mem_cons.1 hwork
    have hr₁ := h₁.hereditary hac hP hs hw₁
    have hr₂ := h₂.hereditary hac hP hs hw₂
    refine List.forall_mem_append.2 ⟨?_, ih hac hs (List.forall_mem_append.2 ⟨?_, hwr⟩)⟩
    · rintro ⟨a, b⟩ hp
      obtain ⟨ha, hb⟩ := List.of_mem_zip hp
      cases a with
      | some a => exact absurd ha (hr₁ _ .refl a)
      | none =>
        cases b with
        | some b => exact absurd hb (hr₂ _ .refl b)
        | none => rfl
    · intro p hp
      obtain ⟨hp₁, hp₂⟩ := List.of_mem_zip hp
      exact ⟨hP.part hr₁ hp₁, hP.part hr₂ hp₂⟩

end Compares

/-! ## The function and the derivations -/

section Function

open InferM

variable {span : Span} {s s' : Subst}

theorem unify_succ {fuel : Nat} {t₁ t₂ : Ty} :
    unify span (fuel + 1) t₁ t₂ s = some (.ok (), s') ↔
      ∃ r₁ r₂, s.apply fuel t₁ = some r₁ ∧ s.apply fuel t₂ = some r₂ ∧
        unifyArms (unify span fuel) span r₁ r₂ s = some (.ok (), s') := by
  simp only [unify, bind_eq_ok, applyM_eq_ok]
  constructor
  · rintro ⟨r₁, _, ⟨h₁, rfl⟩, r₂, _, ⟨h₂, rfl⟩, h⟩
    exact ⟨r₁, r₂, h₁, h₂, h⟩
  · rintro ⟨r₁, r₂, h₁, h₂, h⟩
    exact ⟨r₁, s, ⟨h₁, rfl⟩, r₂, s, ⟨h₂, rfl⟩, h⟩

/-- A comparison that can be put before any further work. -/
def Prepends (s : Subst) (work : List (Ty × Ty)) (s₁ : Subst) : Prop :=
  ∃ eqs skipped, ∀ {rest eqs' skipped' s'}, Compares s₁ rest eqs' skipped' s' →
    Compares s (work ++ rest) (eqs ++ eqs') (skipped ++ skipped') s'

theorem prepends_zip {fuel : Nat}
    (ih : ∀ {t₁ t₂ s s₁}, unify span fuel t₁ t₂ s = some (.ok (), s₁) → Prepends s [(t₁, t₂)] s₁)
    {a b : List Ty} {s₁ : Subst} (h : unifyZip (unify span fuel) a b s = some (.ok (), s₁)) :
    Prepends s (a.zip b) s₁ := by
  induction a generalizing b s with
  | nil =>
    obtain ⟨-, rfl⟩ := pure_eq_ok.1 h
    exact ⟨[], [], id⟩
  | cons x xs ihxs =>
    cases b with
    | nil =>
      obtain ⟨-, rfl⟩ := pure_eq_ok.1 h
      exact ⟨[], [], id⟩
    | cons y ys =>
      obtain ⟨_, s₂, h₁, h₂⟩ := bind_eq_ok.1 h
      obtain ⟨eqs₁, sk₁, hp₁⟩ := ih h₁
      obtain ⟨eqs₂, sk₂, hp₂⟩ := ihxs h₂
      refine ⟨eqs₁ ++ eqs₂, sk₁ ++ sk₂, fun hrest => ?_⟩
      rw [List.append_assoc, List.append_assoc]
      exact hp₁ (hp₂ hrest)

theorem prepends_unify {fuel : Nat} {t₁ t₂ : Ty} {s₁ : Subst}
    (h : unify span fuel t₁ t₂ s = some (.ok (), s₁)) : Prepends s [(t₁, t₂)] s₁ := by
  induction fuel generalizing t₁ t₂ s s₁ with
  | zero => cases h
  | succ fuel ih =>
    obtain ⟨r₁, r₂, hr₁, hr₂, harms⟩ := unify_succ.1 h
    rcases unifyArms_ok.1 harms with ⟨hn, rfl⟩ | ⟨v, rfl, rfl, rfl⟩ | ⟨v, rfl, hn, hocc, rfl⟩ |
      ⟨v, rfl, hv, hn, hocc, rfl⟩ | ⟨hv₁, hv₂, hn₁, hn₂, hs, hzip⟩
    · exact ⟨[], [], fun hrest => .never ⟨fuel, hr₁⟩ ⟨fuel, hr₂⟩ hn hrest⟩
    · exact ⟨[], [], fun hrest => .same ⟨fuel, hr₁⟩ ⟨fuel, hr₂⟩ hrest⟩
    · exact ⟨[(v, r₂)], [], fun hrest => .left ⟨fuel, hr₁⟩ ⟨fuel, hr₂⟩ hn hocc hrest⟩
    · exact ⟨[(v, r₁)], [], fun hrest => .right ⟨fuel, hr₁⟩ ⟨fuel, hr₂⟩ hv hn hocc hrest⟩
    · obtain ⟨eqs, sk, hp⟩ := prepends_zip ih hzip
      refine ⟨eqs, r₁.variadics.zip r₂.variadics ++ sk, fun hrest => ?_⟩
      rw [List.append_assoc]
      exact .node ⟨fuel, hr₁⟩ ⟨fuel, hr₂⟩ hv₁ hv₂ hn₁ hn₂ hs (hp hrest)

theorem compares_of_unify {fuel : Nat} {t₁ t₂ : Ty}
    (h : unify span fuel t₁ t₂ s = some (.ok (), s')) :
    ∃ eqs skipped, Compares s [(t₁, t₂)] eqs skipped s' := by
  obtain ⟨eqs, sk, hp⟩ := prepends_unify h
  exact ⟨_, _, hp .nil⟩

/-- What the recursive calls do with less fuel they do with more. -/
theorem unify_mono {fuel fuel' : Nat} (hle : fuel ≤ fuel') {t₁ t₂ : Ty} (hac : Acyclic s.get)
    (h : unify span fuel t₁ t₂ s = some (.ok (), s')) :
    unify span fuel' t₁ t₂ s = some (.ok (), s') := by
  induction fuel generalizing fuel' t₁ t₂ s s' with
  | zero => cases h
  | succ fuel ih =>
    obtain ⟨k, rfl⟩ : ∃ k, fuel' = k + 1 := ⟨fuel' - 1, by omega⟩
    obtain ⟨r₁, r₂, hr₁, hr₂, harms⟩ := unify_succ.1 h
    refine unify_succ.2 ⟨r₁, r₂, s.apply_mono hac (by omega) hr₁, s.apply_mono hac (by omega) hr₂, ?_⟩
    -- the components, one call after the other
    have hzip {a b : List Ty} {s s' : Subst} (hac : Acyclic s.get)
        (h : unifyZip (unify span fuel) a b s = some (.ok (), s')) :
        unifyZip (unify span k) a b s = some (.ok (), s') := by
      induction a generalizing b s with
      | nil => exact h
      | cons x xs ihxs =>
        cases b with
        | nil => exact h
        | cons y ys =>
          obtain ⟨_, s₁, h₁, h₂⟩ := bind_eq_ok.1 h
          obtain ⟨_, _, hc⟩ := compares_of_unify h₁
          exact bind_eq_ok.2 ⟨(), s₁, ih (by omega) hac h₁, ihxs (hc.acyclic hac) h₂⟩
    rcases unifyArms_ok.1 harms with h | h | h | h | ⟨hv₁, hv₂, hn₁, hn₂, hs, h⟩
    · exact unifyArms_ok.2 (.inl h)
    · exact unifyArms_ok.2 (.inr (.inl h))
    · exact unifyArms_ok.2 (.inr (.inr (.inl h)))
    · exact unifyArms_ok.2 (.inr (.inr (.inr (.inl h))))
    · exact unifyArms_ok.2 (.inr (.inr (.inr (.inr ⟨hv₁, hv₂, hn₁, hn₂, hs, hzip hac h⟩))))

theorem unifyZip_mono {fuel fuel' : Nat} (hle : fuel ≤ fuel') {a b : List Ty} (hac : Acyclic s.get)
    (h : unifyZip (unify span fuel) a b s = some (.ok (), s')) :
    unifyZip (unify span fuel') a b s = some (.ok (), s') := by
  induction a generalizing b s with
  | nil => exact h
  | cons x xs ih =>
    cases b with
    | nil => exact h
    | cons y ys =>
      obtain ⟨_, s₁, h₁, h₂⟩ := bind_eq_ok.1 h
      obtain ⟨_, _, hc⟩ := compares_of_unify h₁
      exact bind_eq_ok.2 ⟨(), s₁, unify_mono hle hac h₁, ih (hc.acyclic hac) h₂⟩

/-- The arms on resolved types, from a head on to the rest of the work. -/
theorem unifyZip_cons {fuel n₁ n₂ : Nat} {t₁ t₂ r₁ r₂ : Ty} {xs ys : List Ty} {s₁ : Subst}
    (hac : Acyclic s.get) (hac₁ : Acyclic s₁.get) (h₁ : s.apply n₁ t₁ = some r₁)
    (h₂ : s.apply n₂ t₂ = some r₂)
    (harms : ∀ k, fuel ≤ k → unifyArms (unify span k) span r₁ r₂ s = some (.ok (), s₁))
    (hrest : unifyZip (unify span fuel) xs ys s₁ = some (.ok (), s')) :
    ∃ k, unifyZip (unify span k) (t₁ :: xs) (t₂ :: ys) s = some (.ok (), s') := by
  refine ⟨max fuel (max n₁ n₂) + 1, bind_eq_ok.2 ⟨(), s₁, unify_succ.2 ⟨r₁, r₂, ?_, ?_, ?_⟩, ?_⟩⟩
  · exact s.apply_mono hac (by omega) h₁
  · exact s.apply_mono hac (by omega) h₂
  · exact harms _ (by omega)
  · exact unifyZip_mono (by omega) hac₁ hrest

/-- A derivation is a successful run, with enough fuel. -/
theorem unify_of_compares {work : List (Ty × Ty)} {eqs : List (Nat × Ty)}
    {skipped : List (Option Ty × Option Ty)} (h : Compares s work eqs skipped s')
    (hac : Acyclic s.get) :
    ∃ fuel, unifyZip (unify span fuel) (work.map Prod.fst) (work.map Prod.snd) s =
      some (.ok (), s') := by
  induction h with
  | nil => exact ⟨0, rfl⟩
  | never h₁ h₂ hn _ ih =>
    obtain ⟨n₁, h₁⟩ := h₁
    obtain ⟨n₂, h₂⟩ := h₂
    obtain ⟨fuel, hrest⟩ := ih hac
    exact unifyZip_cons hac hac h₁ h₂ (fun k _ => unifyArms_ok.2 (.inl ⟨hn, rfl⟩)) hrest
  | same h₁ h₂ _ ih =>
    obtain ⟨n₁, h₁⟩ := h₁
    obtain ⟨n₂, h₂⟩ := h₂
    obtain ⟨fuel, hrest⟩ := ih hac
    exact unifyZip_cons hac hac h₁ h₂ (fun k _ => unifyArms_ok.2 (.inr (.inl ⟨_, rfl, rfl, rfl⟩))) hrest
  | left hv ho hn hocc _ ih =>
    have hac' := acyclic_extend hac hv ho hocc
    obtain ⟨n₁, h₁⟩ := hv
    obtain ⟨n₂, h₂⟩ := ho
    obtain ⟨fuel, hrest⟩ := ih hac'
    exact unifyZip_cons hac hac' h₁ h₂
      (fun k _ => unifyArms_ok.2 (.inr (.inr (.inl ⟨_, rfl, hn, hocc, rfl⟩)))) hrest
  | right ho hv hvar hn hocc _ ih =>
    have hac' := acyclic_extend hac hv ho hocc
    obtain ⟨n₁, h₁⟩ := ho
    obtain ⟨n₂, h₂⟩ := hv
    obtain ⟨fuel, hrest⟩ := ih hac'
    exact unifyZip_cons hac hac' h₁ h₂
      (fun k _ => unifyArms_ok.2 (.inr (.inr (.inr (.inl ⟨_, rfl, hvar, hn, hocc, rfl⟩))))) hrest
  | @node s t₁ t₂ r₁ r₂ rest _ _ _ h₁ h₂ hv₁ hv₂ hn₁ hn₂ hs _ ih =>
    obtain ⟨n₁, h₁⟩ := h₁
    obtain ⟨n₂, h₂⟩ := h₂
    obtain ⟨fuel, hrest⟩ := ih hac
    have hlen := Ty.length_parts hs
    rw [List.map_append, List.map_append, List.map_fst_zip (Nat.le_of_eq hlen),
      List.map_snd_zip (Nat.le_of_eq hlen.symm), unifyZip_append hlen] at hrest
    obtain ⟨s₁, hparts, hrest⟩ := hrest
    obtain ⟨_, _, hc⟩ := prepends_zip (fun h => prepends_unify h) hparts
    have hac₁ := (hc (.nil : Compares s₁ [] [] [] s₁)).acyclic hac
    refine unifyZip_cons hac hac₁ h₁ h₂ (fun k hk => ?_) hrest
    exact unifyArms_ok.2
      (.inr (.inr (.inr (.inr ⟨hv₁, hv₂, hn₁, hn₂, hs, unifyZip_mono hk hac hparts⟩))))

end Function

/-! ## Most general unifiers -/

/-- What a unifier of `t₁` and `t₂` from `s` has to be: acyclic, an extension of `s`, idempotent, equal
on both types, and such that every other solution factors through it. -/
structure UnifyCorrect (s : Subst) (t₁ t₂ : Ty) (s' : Subst) : Prop where
  acyclic : Acyclic s'.get
  extension : Extends s.get s'.get
  equal : ∃ r, s'.Resolves t₁ r ∧ s'.Resolves t₂ r
  idempotent : ∀ t r, s'.Resolves t r → s'.Resolves r r
  mostGeneral : ∀ θ, Solves θ s.get → t₁.bind θ = t₂.bind θ →
    ∃ ρ, ∀ t, ∃ r, s'.Resolves t r ∧ t.bind θ = r.bind ρ

/-- The variadic parts of the function types that are compared agree in every solution of the other
equations. -/
def VariadicsFollow (s : Subst) (t₁ t₂ : Ty) : Prop :=
  ∀ eqs skipped s', Compares s [(t₁, t₂)] eqs skipped s' →
    ∀ θ, Solves θ s.get → SolvesEqs θ eqs → ∀ p ∈ skipped, Agree θ p

theorem Compares.correct {s s' : Subst} {t₁ t₂ : Ty} {eqs : List (Nat × Ty)}
    {skipped : List (Option Ty × Option Ty)} (h : Compares s [(t₁, t₂)] eqs skipped s')
    (hac : Acyclic s.get) (hs : s.All Ty.NeverFree) (h₁ : t₁.NeverFree) (h₂ : t₂.NeverFree)
    (hskip : ∀ θ, Solves θ s.get → SolvesEqs θ eqs → ∀ p ∈ skipped, Agree θ p) :
    UnifyCorrect s t₁ t₂ s' := by
  have hac' := h.acyclic hac
  refine ⟨hac', h.extension hac, ⟨t₁.bind (s'.closed hac'), s'.resolves_closed hac' t₁, ?_⟩, ?_, ?_⟩
  · have hclosed := s'.solves_closed hac'
    obtain ⟨hθ, heqs⟩ := (h.solves_iff hac _).1 hclosed
    have hall := h.sound hac hs (List.forall_mem_singleton.2 ⟨h₁, h₂⟩) hclosed (hskip _ hθ heqs)
    have heq : t₁.bind (s'.closed hac') = t₂.bind (s'.closed hac') := hall (t₁, t₂) (by simp)
    rw [heq]
    exact s'.resolves_closed hac' t₂
  · rintro t r ⟨fuel, hr⟩
    exact ⟨fuel, s'.apply_idem hac' hr⟩
  · intro θ hθ heq
    obtain ⟨heqs, -⟩ := h.complete hac hθ (List.forall_mem_singleton.2 heq)
    have hsol := (h.solves_iff hac θ).2 ⟨hθ, heqs⟩
    refine ⟨θ, fun t => ⟨_, s'.resolves_closed hac' t, ?_⟩⟩
    exact (hsol.bind_closure (s'.wellFounded hac') t).symm

/-- A successful unification leaves a most general unifier exactly where the variadic parts that it
passes over follow from the rest. -/
theorem unify_correct_iff {s : Subst} {t₁ t₂ : Ty} (span : Span) (hac : Acyclic s.get)
    (hs : s.All Ty.NeverFree) (h₁ : t₁.NeverFree) (h₂ : t₂.NeverFree) :
    (∀ fuel s', unify span fuel t₁ t₂ s = some (.ok (), s') → UnifyCorrect s t₁ t₂ s') ↔
      VariadicsFollow s t₁ t₂ := by
  constructor
  · intro h eqs skipped s' hc θ hθ heqs
    obtain ⟨fuel, hrun⟩ : ∃ fuel, unifyZip (unify span fuel) [t₁] [t₂] s = some (.ok (), s') :=
      unify_of_compares hc hac
    have hcorrect := h fuel s' (unifyZip_one.1 hrun)
    obtain ⟨r, hr₁, hr₂⟩ := hcorrect.equal
    have hsol := (hc.solves_iff hac θ).2 ⟨hθ, heqs⟩
    refine (hc.complete hac hθ (List.forall_mem_singleton.2 ?_)).2
    rw [← hr₁.bind_eq hcorrect.acyclic hsol, ← hr₂.bind_eq hcorrect.acyclic hsol]
  · intro h fuel s' hrun
    obtain ⟨eqs, skipped, hc⟩ := compares_of_unify hrun
    exact hc.correct hac hs h₁ h₂ (h eqs skipped s' hc)

theorem variadicsFollow_of_variadicFree {s : Subst} {t₁ t₂ : Ty} (hac : Acyclic s.get)
    (hs : s.All Ty.VariadicFree) (h₁ : t₁.VariadicFree) (h₂ : t₂.VariadicFree) :
    VariadicsFollow s t₁ t₂ := by
  intro eqs skipped s' hc θ _ _ p hp
  rw [hc.skipped_eq_none hac hs (List.forall_mem_singleton.2 ⟨h₁, h₂⟩) p hp]
  rfl

theorem acyclic_new : Acyclic Subst.new.get := by
  intro v h
  obtain ⟨w, ⟨t, ht, -⟩, -⟩ := Relation.TransGen.head'_iff.1 h
  cases ht

theorem all_new (P : Ty → Prop) : Subst.new.All P := by
  intro v t ht
  cases ht

theorem Ty.neverFree_of_parts {t : Ty} (hne : t ≠ .never) (hva : t.variadics = [])
    (h : ∀ p ∈ t.parts, p.NeverFree) : t.NeverFree := by
  intro hw
  cases hw with
  | refl => exact hne rfl
  | part hm hw => exact h _ hm hw
  | variadic hm _ => simp [hva] at hm

theorem Ty.variadicFree_of_parts {t : Ty} (hva : t.variadics = []) (h : ∀ p ∈ t.parts, p.VariadicFree) :
    t.VariadicFree := by
  intro p hp q hq
  cases hp with
  | refl => simp [hva] at hq
  | part hm hw => exact h _ hm p hw q hq
  | variadic hm _ => simp [hva] at hm

theorem unify_list_correct : UnifyCorrect Subst.new (.list (.var 0)) (.list .int)
    (Subst.new.extend 0 .int) := by
  have hnever (t : Ty) (hne : t ≠ .never) (ht : t.parts = []) (hva : t.variadics = []) :
      (Ty.list t).NeverFree := by
    refine Ty.neverFree_of_parts (by simp) rfl (List.forall_mem_singleton.2 ?_)
    exact Ty.neverFree_of_parts hne hva (by simp [ht])
  have hfree (t : Ty) (ht : t.parts = []) (hva : t.variadics = []) : (Ty.list t).VariadicFree := by
    refine Ty.variadicFree_of_parts rfl (List.forall_mem_singleton.2 ?_)
    exact Ty.variadicFree_of_parts hva (by simp [ht])
  refine (unify_correct_iff (Span.point 0 0) acyclic_new (all_new _) (hnever _ (by simp) rfl rfl)
    (hnever _ (by simp) rfl rfl)).2 ?_ 3 _ rfl
  exact variadicsFollow_of_variadicFree acyclic_new (all_new _) (hfree _ rfl rfl) (hfree _ rfl rfl)

/-- The type of a function with one parameter and a rest parameter. -/
def restFn (positional rest : Ty) : Ty :=
  .fn [positional] [] (some rest) .none .none

theorem neverFree_restFn {positional rest : Ty} (h₁ : positional.NeverFree) (h₂ : rest.NeverFree) :
    (restFn positional rest).NeverFree := by
  intro hw
  cases hw with
  | part hm hw =>
    rcases List.mem_cons.1 hm with rfl | hm
    · exact h₁ hw
    · obtain rfl := List.mem_singleton.1 hm
      exact Ty.neverFree_of_parts (t := .none) (by simp) rfl (by simp [Ty.parts]) hw
  | variadic hm hw =>
    rcases List.mem_cons.1 hm with hm | hm
    · obtain rfl := Option.some.inj hm
      exact h₂ hw
    · cases List.mem_singleton.1 hm

/-- `fn(?0, *int) -> None` against `fn(bool, *str) -> None`: the call succeeds and binds the variable,
and the two types stay different. -/
theorem unify_variadic_differs :
    Acyclic Subst.new.get ∧ Subst.new.All Ty.NeverFree ∧ (restFn (.var 0) .int).NeverFree ∧
    (restFn .bool .str).NeverFree ∧
    unify (Span.point 0 0) 3 (restFn (.var 0) .int) (restFn .bool .str) Subst.new =
      some (.ok (), Subst.new.extend 0 .bool) ∧
    ¬ UnifyCorrect Subst.new (restFn (.var 0) .int) (restFn .bool .str) (Subst.new.extend 0 .bool) := by
  have hleaf (t : Ty) (hne : t ≠ .never) (ht : t.parts = []) (hva : t.variadics = []) : t.NeverFree :=
    Ty.neverFree_of_parts hne hva (by simp [ht])
  refine ⟨acyclic_new, all_new _, ?_, ?_, rfl, ?_⟩
  · exact neverFree_restFn (hereditary_neverFree.var 0) (hleaf _ (by simp) rfl rfl)
  · exact neverFree_restFn (hleaf _ (by simp) rfl rfl) (hleaf _ (by simp) rfl rfl)
  · intro h
    obtain ⟨r, h₁, h₂⟩ := h.equal
    have heq := (h₁.eq h.acyclic).symm.trans (h₂.eq h.acyclic)
    simp [restFn, Ty.bind, Ty.bindOption] at heq

end Cobrust
