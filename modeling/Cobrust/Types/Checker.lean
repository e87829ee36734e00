import Cobrust.Control.Program
import Cobrust.Store.Table
import Cobrust.Types.UnifySound

/-!
# What a check may do

The checker of `cobrust-types/src/check.rs` changes its substitution only by `unify`; it reads what it wants, and writes
to the rest of its context. So whatever a check does, it keeps the bindings that were there before.

* `Checker.grows`: a check extends the substitution, whether it succeeds or not.
-/

namespace Cobrust

open Unify (Acyclic Extends)
open Store (Table)
open Control (Program Handler)

/-- What type names stand for: the aliases, and the classes. -/
structure Names where
  aliasMap : Table String Ty
  classNames : Table String AdtId

/-- The context of the checker beside its substitution. -/
structure Fields where
  vars : Nat
  defTypes : Table DefId Ty
  names : Names

structure Ctx where
  subst : Subst
  fields : Fields

/-- What a check asks of its context. The errors of `fail` and `unify` end the check; `attempt` hands the error of a
unification back. -/
inductive Request : Type → Type where
  | apply (t : Ty) : Request Ty
  | unify (t₁ t₂ : Ty) (span : Span) : Request Unit
  | attempt (t₁ t₂ : Ty) (span : Span) : Request (Except TypeError Unit)
  | look : Request Ctx
  | change (f : Fields → Fields) : Request Unit
  | fail (e : TypeError) : Request Empty
  /-- `unreachable!`. -/
  | unreachable : Request Empty

abbrev Checker :=
  Program Request

/-- The answers, with fuel for `apply` and `unify`. -/
def answer (fuel : Nat) {β : Type} : Request β → Ctx → Option (Except TypeError β × Ctx)
  | .apply t, c => (c.subst.apply fuel t).map fun r => (.ok r, c)
  | .unify t₁ t₂ span, c => (unify span fuel t₁ t₂ c.subst).map fun p => (p.1, { c with subst := p.2 })
  | .attempt t₁ t₂ span, c => (unify span fuel t₁ t₂ c.subst).map fun p => (.ok p.1, { c with subst := p.2 })
  | .look, c => some (.ok c, c)
  | .change f, c => some (.ok (), { c with fields := f c.fields })
  | .fail e, c => some (.error e, c)
  | .unreachable, _ => none

def handler (fuel : Nat) : Handler Request TypeError Ctx :=
  ⟨answer fuel⟩

namespace Checker

variable {α β : Type}

def run (fuel : Nat) (x : Checker α) (c : Ctx) : Option (Except TypeError α × Ctx) :=
  Program.run (handler fuel) x c

def apply (t : Ty) : Checker Ty :=
  .request (.apply t)

def unifyTys (t₁ t₂ : Ty) (span : Span) : Checker Unit :=
  .request (.unify t₁ t₂ span)

def fail (e : TypeError) : Checker α :=
  .ask (.fail e) Empty.elim

def unreachable : Checker α :=
  .ask .unreachable Empty.elim

def getFields : Checker Fields := do
  let c ← .request .look
  return c.fields

def change (f : Fields → Fields) : Checker Unit :=
  .request (.change f)

def freshVar : Checker Ty := do
  let fields ← getFields
  change fun fields => { fields with vars := fields.vars + 1 }
  return .var fields.vars

def recordDef (d : DefId) (t : Ty) : Checker Unit :=
  change fun fields => { fields with defTypes := fields.defTypes.insert d t }

def lookupDef (d : DefId) : Checker (Option Ty) := do
  let fields ← getFields
  return fields.defTypes d

/-- A computation that only takes fresh variables. -/
def liftFresh (x : Names → StateM Nat α) : Checker α := do
  let fields ← getFields
  let (a, vars) := x fields.names fields.vars
  change fun fields => { fields with vars := vars }
  return a

/-- `expect_bool`. -/
def expectBool (t : Ty) (span : Span) : Checker Unit := do
  match ← apply t with
  | .bool => return ()
  | .var v => unifyTys .bool (.var v) span
  | other =>
    fail (.implicitTruthiness other span (some "change to `if x != 0:` (use `.is_some()` for Option)"))

end Checker

/-! ## Growth -/

/-- From an acyclic substitution to one with more bindings. -/
def Subst.Grows (s s' : Subst) : Prop :=
  Acyclic s.get → Acyclic s'.get ∧ Extends s.get s'.get

namespace Subst.Grows

variable {s s' s'' : Subst}

theorem refl (s : Subst) : s.Grows s :=
  fun hac => ⟨hac, fun _ _ h => h⟩

theorem trans (h : s.Grows s') (h' : s'.Grows s'') : s.Grows s'' := by
  intro hac
  obtain ⟨hac', hext⟩ := h hac
  obtain ⟨hac'', hext'⟩ := h' hac'
  exact ⟨hac'', fun v t hv => hext' v t (hext v t hv)⟩

end Subst.Grows

namespace InferM

variable {α β : Type}

def Grows (m : InferM α) : Prop :=
  ∀ s r s', m s = some (r, s') → s.Grows s'

theorem grows_pure (a : α) : Grows (pure a) := by
  rintro s r s' h
  cases h
  exact .refl s

theorem grows_throw (e : TypeError) : Grows (throw e : InferM α) := by
  rintro s r s' h
  cases h
  exact .refl s

theorem grows_bind {m : InferM α} {f : α → InferM β} (hm : Grows m) (hf : ∀ a, Grows (f a)) : Grows (m >>= f) := by
  intro s r s' h
  change (m s).bind (fun p => (ExceptT.bindCont f p.1) p.2) = _ at h
  cases hrun : m s with
  | none =>
    rw [hrun] at h
    cases h
  | some p =>
    obtain ⟨e | a, s₁⟩ := p
    · rw [hrun] at h
      cases h
      exact hm _ _ _ hrun
    · rw [hrun] at h
      exact (hm _ _ _ hrun).trans (hf a _ _ _ h)

theorem applyM_bind {fuel : Nat} {t : Ty} {f : Ty → InferM α} {s : Subst} :
    (applyM fuel t >>= f) s = (s.apply fuel t).bind fun r => f r s := by
  change ((s.apply fuel t).map fun r => (Except.ok r, s)).bind (fun p => (ExceptT.bindCont f p.1) p.2) = _
  cases s.apply fuel t <;> rfl

theorem grows_ite {p : Prop} [Decidable p] {m m' : InferM α} (hm : Grows m) (hm' : Grows m') :
    Grows (if p then m else m') := by
  split
  · exact hm
  · exact hm'

end InferM

section Unify

open InferM

variable {u : Ty → Ty → InferM Unit} {span : Span}

theorem grows_unifyZip (hu : ∀ t₁ t₂, Grows (u t₁ t₂)) (a b : List Ty) : Grows (unifyZip u a b) := by
  induction a generalizing b with
  | nil => exact grows_pure ()
  | cons x xs ih =>
    cases b with
    | nil => exact grows_pure ()
    | cons y ys => exact grows_bind (hu x y) fun _ => ih ys

theorem grows_unifyNamed (hu : ∀ t₁ t₂, Grows (u t₁ t₂)) (a b : List (String × Ty)) :
    Grows (unifyNamed u span a b) := by
  induction a generalizing b with
  | nil => exact grows_pure ()
  | cons x xs ih =>
    cases b with
    | nil => exact grows_pure ()
    | cons y ys =>
      have hrest := grows_bind (hu x.2 y.2) fun _ => ih ys
      unfold unifyNamed
      dsimp only
      split
      · exact grows_bind (grows_throw _) fun _ => hrest
      · exact hrest

theorem grows_bindVar {s s' : Subst} {t t' other : Ty} {v : Nat} {r : Except TypeError Unit}
    (hv : s.Resolves t (.var v)) (ho : s.Resolves t' other) (h : bindVar v other span s = some (r, s')) :
    s.Grows s' := by
  unfold bindVar at h
  split at h
  · exact grows_throw _ _ _ _ h
  · next hocc =>
    cases h
    exact fun hac => ⟨acyclic_extend hac hv ho fun hw => hocc ((Ty.mem_freeVars _ _).2 hw), extends_extend hac hv⟩

theorem grows_unifyArms (hu : ∀ t₁ t₂, Grows (u t₁ t₂)) {s s' : Subst} {t₁ t₂ r₁ r₂ : Ty}
    {r : Except TypeError Unit} (h₁ : s.Resolves t₁ r₁) (h₂ : s.Resolves t₂ r₂)
    (h : unifyArms u span r₁ r₂ s = some (r, s')) : s.Grows s' := by
  have hmismatch (t₁ t₂ : Ty) : Grows (mismatch t₁ t₂ span) := grows_throw _
  have hzip := grows_unifyZip hu
  have hnamed (a b : List (String × Ty)) : Grows (unifyNamed u span a b) := grows_unifyNamed hu a b
  unfold unifyArms at h
  split at h
  case h_3 =>
    split at h
    · exact grows_pure _ _ _ _ h
    · exact grows_bindVar h₁ h₂ h
  case h_4 => exact grows_bindVar h₁ h₂ h
  case h_5 => exact grows_bindVar h₂ h₁ h
  case h_21 =>
    have hparts (p₁ p₂ : List Ty) (n₁ n₂ : List (String × Ty)) (r₁ r₂ : Ty) :
        Grows (unifyZip u p₁ p₂ >>= fun _ => unifyNamed u span n₁ n₂ >>= fun _ => u r₁ r₂) :=
      grows_bind (hzip _ _) fun _ => grows_bind (hnamed _ _) fun _ => hu _ _
    refine grows_ite (grows_bind (grows_throw _) fun _ => ?_) ?_ _ _ _ h <;>
      exact grows_ite (grows_bind (grows_throw _) fun _ => hparts _ _ _ _ _ _) (hparts _ _ _ _ _ _)
  case h_19 => exact grows_bind (hu _ _) (fun _ => hu _ _) _ _ _ h
  all_goals first
    | exact grows_pure _ _ _ _ h
    | exact hu _ _ _ _ _ h
    | exact hmismatch _ _ _ _ _ h
    | exact grows_ite (grows_pure _) (hmismatch _ _) _ _ _ h
    | exact grows_ite (hmismatch _ _) (hzip _ _) _ _ _ h
    | exact grows_ite (grows_throw _) (hu _ _) _ _ _ h
    | exact grows_ite (grows_ite (hmismatch _ _) (hzip _ _)) (hmismatch _ _) _ _ _ h

/-- A unification extends the substitution, whether it succeeds or not. -/
theorem grows_unify (fuel : Nat) (t₁ t₂ : Ty) : Grows (Cobrust.unify span fuel t₁ t₂) := by
  induction fuel generalizing t₁ t₂ with
  | zero =>
    intro s r s' h
    cases h
  | succ fuel ih =>
    intro s r s' h
    rw [Cobrust.unify, applyM_bind] at h
    obtain ⟨r₁, h₁, h⟩ := Option.bind_eq_some_iff.1 h
    rw [applyM_bind] at h
    obtain ⟨r₂, h₂, h⟩ := Option.bind_eq_some_iff.1 h
    exact grows_unifyArms ih ⟨fuel, h₁⟩ ⟨fuel, h₂⟩ h

end Unify

namespace Checker

variable {α : Type} {fuel : Nat} {x : Checker α} {c c' : Ctx} {r : Except TypeError α}

theorem moves_handler (fuel : Nat) : (handler fuel).Moves fun c c' => c.subst.Grows c'.subst := by
  intro β request c c' answer h
  cases request with
  | apply t =>
    obtain ⟨r, -, heq⟩ := Option.map_eq_some_iff.1 h
    cases heq
    exact .refl _
  | unify t₁ t₂ span =>
    obtain ⟨p, hp, heq⟩ := Option.map_eq_some_iff.1 h
    cases heq
    exact grows_unify fuel t₁ t₂ _ _ _ hp
  | attempt t₁ t₂ span =>
    obtain ⟨p, hp, heq⟩ := Option.map_eq_some_iff.1 h
    cases heq
    exact grows_unify fuel t₁ t₂ _ _ _ hp
  | look =>
    cases h
    exact .refl _
  | change f =>
    cases h
    exact .refl _
  | fail e =>
    cases h
    exact .refl _
  | unreachable => cases h

theorem grows (h : run fuel x c = some (r, c')) : c.subst.Grows c'.subst :=
  Program.run_moves (R := fun c c' => c.subst.Grows c'.subst) (fun c => .refl c.subst) (fun h h' => h.trans h')
    (moves_handler fuel) h

variable {β : Type} {a : α} {b : β} {t t₁ t₂ : Ty} {span : Span}

theorem run_bind {f : α → Checker β} :
    run fuel (x >>= f) c = some (.ok b, c') ↔
      ∃ a c₁, run fuel x c = some (.ok a, c₁) ∧ run fuel (f a) c₁ = some (.ok b, c') :=
  Program.run_bind_ok

theorem run_pure {a' : α} : run fuel (pure a) c = some (.ok a', c') ↔ a' = a ∧ c' = c := by
  change some (Except.ok a, c) = _ ↔ _
  rw [Option.some.injEq, Prod.mk.injEq, Except.ok.injEq, eq_comm, eq_comm (a := c)]

theorem run_apply {t' : Ty} :
    run fuel (apply t) c = some (.ok t', c') ↔ c.subst.apply fuel t = some t' ∧ c' = c := by
  unfold run apply
  rw [Program.run_request]
  change (c.subst.apply fuel t).map (fun r => (Except.ok r, c)) = _ ↔ _
  rw [Option.map_eq_some_iff]
  constructor
  · rintro ⟨_, happly, heq⟩
    cases heq
    exact ⟨happly, rfl⟩
  · rintro ⟨happly, rfl⟩
    exact ⟨_, happly, rfl⟩

theorem run_unifyTys :
    run fuel (unifyTys t₁ t₂ span) c = some (.ok (), c') ↔
      ∃ s, Cobrust.unify span fuel t₁ t₂ c.subst = some (.ok (), s) ∧ c' = { c with subst := s } := by
  unfold run unifyTys
  rw [Program.run_request]
  change (Cobrust.unify span fuel t₁ t₂ c.subst).map (fun p => (p.1, { c with subst := p.2 })) = _ ↔ _
  rw [Option.map_eq_some_iff]
  constructor
  · rintro ⟨⟨_, s⟩, hunify, heq⟩
    cases heq
    exact ⟨s, hunify, rfl⟩
  · rintro ⟨s, hunify, rfl⟩
    exact ⟨_, hunify, rfl⟩

theorem run_fail {e : TypeError} : run fuel (fail e : Checker α) c = some (.error e, c) :=
  rfl

theorem not_run_fail {e : TypeError} : run fuel (fail e : Checker α) c ≠ some (.ok a, c') := by
  rw [run_fail]
  rintro ⟨⟩

end Checker

end Cobrust
