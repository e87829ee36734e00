import Mathlib.Data.Fintype.Card
import Mathlib.Data.Set.Finite.Basic
import Mathlib.Logic.Relation

/-!
# Triangular substitutions

Terms with variables, given by their substitution operation (`Substitutive`), and finite maps from
variables to terms in which a binding may mention other bound variables (triangular substitutions). An
acyclic map has a closure, the substitution that chases every binding to its end; it is idempotent, and
every solution of the map factors through it.
-/

namespace Cobrust.Unify

open Relation (TransGen)

/-- Terms `T` over variables `V`. -/
class Substitutive (V : outParam Type) (T : Type) where
  var : V → T
  bind : (V → T) → T → T
  Occurs : V → T → Prop
  bind_var : ∀ f v, bind f (var v) = f v
  bind_bind : ∀ f g t, bind g (bind f t) = bind (fun v => bind g (f v)) t
  bind_congr : ∀ f g t, (∀ v, Occurs v t → f v = g v) → bind f t = bind g t
  bind_id : ∀ t, bind var t = t
  occurs_var : ∀ v w, Occurs w (var v) ↔ w = v
  occurs_bind : ∀ f w t, Occurs w (bind f t) ↔ ∃ v, Occurs v t ∧ Occurs w (f v)

export Substitutive (Occurs)

variable {V T : Type} [Substitutive V T]

open Substitutive

/-- A map from variables to terms, as an equation for each bound variable. -/
abbrev Bindings (V T : Type) := V → Option T

/-- `v` is bound to a term in which `w` occurs. -/
def Depends (s : Bindings V T) (w v : V) : Prop :=
  ∃ t, s v = some t ∧ Occurs w t

/-- No variable depends on itself, however many bindings lie in between. -/
def Acyclic (s : Bindings V T) : Prop :=
  ∀ v, ¬ TransGen (Depends s) v v

/-- `θ` satisfies every binding as an equation. -/
def Solves (θ : V → T) (s : Bindings V T) : Prop :=
  ∀ v t, s v = some t → θ v = bind θ t

/-- Every binding of `s` is one of `s'`. -/
def Extends (s s' : Bindings V T) : Prop :=
  ∀ v t, s v = some t → s' v = some t

theorem Solves.of_extends {θ : V → T} {s s' : Bindings V T} (h : Solves θ s') (he : Extends s s') :
    Solves θ s :=
  fun v t hv => h v t (he v t hv)

/-- The variables that a binding leads to have bindings themselves or none at all; a finite map has no
infinite descent. -/
theorem wellFounded_depends {s : Bindings V T} (hfin : {v | (s v).isSome}.Finite) (hac : Acyclic s) :
    WellFounded (Depends s) := by
  have hfree (w : V) (hw : (s w).isSome = false) : Acc (Depends s) w := by
    refine ⟨w, fun u hu => ?_⟩
    obtain ⟨t, ht, -⟩ := hu
    rw [ht] at hw
    cases hw
  have : Finite {v | (s v).isSome} := hfin
  let r : {v | (s v).isSome} → {v | (s v).isSome} → Prop := fun w v => TransGen (Depends s) w.1 v.1
  have : IsTrans _ r := ⟨fun _ _ _ h₁ h₂ => h₁.trans h₂⟩
  have : Std.Irrefl r := ⟨fun v h => hac v.1 h⟩
  have hwf : WellFounded r := Finite.wellFounded_of_trans_of_irrefl r
  have hbound (v : {v | (s v).isSome}) : Acc (Depends s) v.1 := by
    induction v using hwf.induction with
    | _ v ih =>
      refine ⟨v.1, fun w hw => ?_⟩
      cases hs : (s w).isSome with
      | false => exact hfree w hs
      | true => exact ih ⟨w, hs⟩ (.single hw)
  refine ⟨fun v => ?_⟩
  cases hs : (s v).isSome with
  | false => exact hfree v hs
  | true => exact hbound ⟨v, hs⟩

section Closure

variable {s : Bindings V T} (hwf : WellFounded (Depends s))

/-- Chase the binding of `v`, and those of the variables in it, to the end. -/
noncomputable def closure (hwf : WellFounded (Depends s)) : V → T :=
  open scoped Classical in
  hwf.fix fun v rec =>
    match h : s v with
    | none => var v
    | some t => bind (fun w => if hw : Occurs w t then rec w ⟨t, h, hw⟩ else var w) t

theorem closure_eq (v : V) :
    closure hwf v = match s v with
      | none => var v
      | some t => bind (closure hwf) t := by
  unfold closure
  rw [hwf.fix_eq]
  split
  · next h => simp [h]
  · next t h =>
    simp only [h]
    refine bind_congr _ _ t fun w hw => ?_
    rw [dif_pos hw]

theorem closure_of_none {v : V} (h : s v = none) : closure hwf v = var v := by
  rw [closure_eq, h]

theorem closure_of_some {v : V} {t : T} (h : s v = some t) : closure hwf v = bind (closure hwf) t := by
  rw [closure_eq, h]

theorem solves_closure : Solves (closure hwf) s :=
  fun _ _ h => closure_of_some hwf h

theorem unbound_of_occurs_closure {v w : V} (h : Occurs w (closure hwf v)) : s w = none := by
  induction v using hwf.induction with
  | _ v ih =>
    cases hs : s v with
    | none =>
      rw [closure_of_none hwf hs, occurs_var] at h
      rw [h, hs]
    | some t =>
      rw [closure_of_some hwf hs, occurs_bind] at h
      obtain ⟨u, hu, hw⟩ := h
      exact ih u ⟨t, hs, hu⟩ hw

theorem unbound_of_occurs_bind {t : T} {w : V} (h : Occurs w (bind (closure hwf) t)) : s w = none := by
  obtain ⟨v, -, hw⟩ := (occurs_bind _ _ _).1 h
  exact unbound_of_occurs_closure hwf hw

theorem bind_closure_of_unbound {t : T} (h : ∀ w, Occurs w t → s w = none) :
    bind (closure hwf) t = t := by
  conv_rhs => rw [← bind_id t]
  exact bind_congr _ _ t fun w hw => closure_of_none hwf (h w hw)

theorem bind_closure_idem (t : T) : bind (closure hwf) (bind (closure hwf) t) = bind (closure hwf) t :=
  bind_closure_of_unbound hwf fun _ => unbound_of_occurs_bind hwf

/-- A solution does not see whether bindings have been chased. -/
theorem Solves.closure {θ : V → T} (h : Solves θ s) (v : V) : bind θ (closure hwf v) = θ v := by
  induction v using hwf.induction with
  | _ v ih =>
    cases hs : s v with
    | none => rw [closure_of_none hwf hs, bind_var]
    | some t =>
      rw [closure_of_some hwf hs, bind_bind, h v t hs]
      exact bind_congr _ _ t fun w hw => ih w ⟨t, hs, hw⟩

theorem Solves.bind_closure {θ : V → T} (h : Solves θ s) (t : T) :
    bind θ (bind (Unify.closure hwf) t) = bind θ t := by
  rw [bind_bind]
  exact bind_congr _ _ t fun v _ => h.closure hwf v

end Closure

section Update

variable [DecidableEq V] {s : Bindings V T} {v : V} {t : T}

/-- `s` with `v` bound to `t`. -/
def update (s : Bindings V T) (v : V) (t : T) : Bindings V T :=
  fun w => if w = v then some t else s w

omit [Substitutive V T] in
theorem extends_update (hv : s v = none) : Extends s (update s v t) := by
  intro w u hw
  have hne : w ≠ v := fun e => by
    rw [e, hv] at hw
    cases hw
  rw [update, if_neg hne, hw]

theorem solves_update {θ : V → T} (hs : Solves θ s) (hv : θ v = bind θ t) : Solves θ (update s v t) := by
  intro w u hw
  unfold update at hw
  split at hw
  · next h =>
    obtain rfl := Option.some.inj hw
    rw [h, hv]
  · exact hs w u hw

/-- A free variable may be bound to a term over other free variables. -/
theorem acyclic_update (hac : Acyclic s) (ht : ∀ w, Occurs w t → s w = none ∧ w ≠ v) :
    Acyclic (update s v t) := by
  have hstep {w u : V} (h : Depends (update s v t) w u) (hw : (update s v t w).isSome) :
      Depends s w u := by
    obtain ⟨x, hx, hocc⟩ := h
    unfold update at hx
    split at hx
    · obtain rfl := Option.some.inj hx
      obtain ⟨hnone, hne⟩ := ht w hocc
      rw [update, if_neg hne, hnone] at hw
      cases hw
    · exact ⟨x, hx, hocc⟩
  have hbound {w u : V} (h : Depends (update s v t) w u) : (update s v t u).isSome := by
    obtain ⟨x, hx, -⟩ := h
    rw [hx]
    rfl
  -- along a cycle every variable is bound, and the variables of `t` are not
  have hold {w u : V} (h : TransGen (Depends (update s v t)) w u) (hw : (update s v t w).isSome) :
      TransGen (Depends s) w u := by
    induction h using TransGen.head_induction_on with
    | single h => exact .single (hstep h hw)
    | head h _ ih => exact .head (hstep h hw) (ih (hbound h))
  intro u hu
  obtain ⟨x, -, hx⟩ := TransGen.tail'_iff.1 hu
  exact hac u (hold hu (hbound hx))

end Update

end Cobrust.Unify
