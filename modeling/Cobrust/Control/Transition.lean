import Mathlib.Logic.Basic

/-!
# Control and state

How control leaves a piece of code, and what programs do that thread a state.
-/

/-!
## How control leaves

A piece of code is the set of the exits that its paths have. Sequences, loops and protected blocks put such sets
together; a loop may go round any number of times.
-/

namespace Cobrust.Control

/-- How a path leaves a piece of code; a return has a value or none. -/
inductive Exit where
  | falls
  | returns (value : Bool)
  | raises
  | breaks
  | continues
  deriving DecidableEq, Repr

namespace Exit

/-- Out of the whole function. -/
def leaves : Exit → Bool
  | returns _ | raises => true
  | _ => false

def all : List Exit :=
  [falls, returns true, returns false, raises, breaks, continues]

theorem mem_all (e : Exit) : e ∈ all := by
  cases e with
  | returns value => cases value <;> decide
  | _ => decide

end Exit

abbrev Exits :=
  Exit → Prop

namespace Exits

variable {enter done : Prop} {a b body els handlers last : Exits} {e : Exit}

/-- Go on where the first part falls through. -/
def andThen (a b : Exits) : Exits :=
  fun e => (a e ∧ e ≠ .falls) ∨ (a .falls ∧ b e)

/-- A loop that can be entered and can be done, and what follows where it is done. -/
inductive Loop (enter done : Prop) (body els : Exits) : Exits
  | done {e : Exit} : done → els e → Loop enter done body els e
  | again {e e' : Exit} : enter → body e → e = .falls ∨ e = .continues → Loop enter done body els e' →
      Loop enter done body els e'
  | broken : enter → body .breaks → Loop enter done body els .falls
  | left {e : Exit} : enter → body e → e.leaves = true → Loop enter done body els e

/-- A loop is left where it is done, by a break, or out of the function. -/
theorem loop_iff :
    Loop enter done body els e ↔
      (done ∧ els e) ∨ (enter ∧ ((e = .falls ∧ body .breaks) ∨ (e.leaves = true ∧ body e))) := by
  constructor
  · intro h
    induction h with
    | done hdone hels => exact .inl ⟨hdone, hels⟩
    | again _ _ _ _ ih => exact ih
    | broken henter hbody => exact .inr ⟨henter, .inl ⟨rfl, hbody⟩⟩
    | left henter hbody hleaves => exact .inr ⟨henter, .inr ⟨hleaves, hbody⟩⟩
  · rintro (⟨hdone, hels⟩ | ⟨henter, ⟨rfl, hbody⟩ | ⟨hleaves, hbody⟩⟩)
    · exact .done hdone hels
    · exact .broken henter hbody
    · exact .left henter hbody hleaves

/-- A block with handlers for what it raises, and with what follows where it falls through. -/
def guarded (body handlers els : Exits) : Exits :=
  fun e => body.andThen els e ∨ (body .raises ∧ handlers e)

/-- A last part that every path goes through, and that may leave in its own way. -/
def finish (a last : Exits) : Exits :=
  fun e => (a e ∧ last .falls) ∨ ((∃ e', a e') ∧ last e ∧ e ≠ .falls)

end Exits

end Cobrust.Control

/-!
## What a program does to its state

Programs that thread a state and may stop with an error: `StateT σ (Except ε)`. A successful run of a
sequence splits into successful runs of its parts, and a preorder on states that every part respects is
respected by the whole.
-/

namespace Cobrust.Control

variable {σ ε α β : Type}

/-- A successful run of `m >>= f` is a successful run of `m` followed by one of `f`. -/
theorem bind_eq_ok {m : StateT σ (Except ε) α} {f : α → StateT σ (Except ε) β} {s s' : σ} {b : β} :
    (m >>= f) s = .ok (b, s') ↔ ∃ a s₁, m s = .ok (a, s₁) ∧ f a s₁ = .ok (b, s') := by
  change Except.bind (m s) (fun p => f p.1 p.2) = .ok (b, s') ↔ _
  cases hm : m s with
  | error e => simp [Except.bind]
  | ok p =>
    obtain ⟨a, s₁⟩ := p
    constructor
    · exact fun h => ⟨a, s₁, rfl, h⟩
    · rintro ⟨_, _, e, h⟩
      cases e
      exact h

theorem pure_eq_ok {a b : α} {s s' : σ} :
    (pure a : StateT σ (Except ε) α) s = .ok (b, s') ↔ a = b ∧ s = s' := by
  change Except.ok (a, s) = .ok (b, s') ↔ _
  simp

theorem get_eq_ok {b s s' : σ} :
    (get : StateT σ (Except ε) σ) s = .ok (b, s') ↔ s = b ∧ s = s' := by
  change Except.ok (s, s) = .ok (b, s') ↔ _
  simp

theorem modify_eq_ok {f : σ → σ} {u : PUnit} {s s' : σ} :
    (modify f : StateT σ (Except ε) PUnit) s = .ok (u, s') ↔ f s = s' := by
  change Except.ok (PUnit.unit, f s) = .ok (u, s') ↔ _
  simp

theorem throw_eq_ok {e : ε} {a : α} {s s' : σ} :
    (throw e : StateT σ (Except ε) α) s = .ok (a, s') ↔ False := by
  change Except.error e = .ok (a, s') ↔ False
  simp

/-- Every successful run of `m` relates the state before to the state after. -/
def Steps (R : σ → σ → Prop) (m : StateT σ (Except ε) α) : Prop :=
  ∀ s a s', m s = .ok (a, s') → R s s'

namespace Steps

variable {R : σ → σ → Prop} {m : StateT σ (Except ε) α} {f : α → StateT σ (Except ε) β}

theorem of_pure (refl : ∀ s, R s s) (a : α) : Steps R (pure a : StateT σ (Except ε) α) := by
  intro s b s' h
  obtain ⟨-, rfl⟩ := pure_eq_ok.1 h
  exact refl s

theorem of_bind (trans : ∀ {s₁ s₂ s₃}, R s₁ s₂ → R s₂ s₃ → R s₁ s₃) (hm : Steps R m)
    (hf : ∀ a, Steps R (f a)) : Steps R (m >>= f) := by
  intro s b s' h
  obtain ⟨a, s₁, h₁, h₂⟩ := bind_eq_ok.1 h
  exact trans (hm s a s₁ h₁) (hf a s₁ b s' h₂)

theorem of_throw (e : ε) : Steps R (throw e : StateT σ (Except ε) α) := by
  intro s a s' h
  exact (throw_eq_ok.1 h).elim

theorem of_get (refl : ∀ s, R s s) : Steps R (get : StateT σ (Except ε) σ) := by
  intro s b s' h
  obtain ⟨-, rfl⟩ := get_eq_ok.1 h
  exact refl s

theorem of_modify {g : σ → σ} (h : ∀ s, R s (g s)) :
    Steps R (modify g : StateT σ (Except ε) PUnit) := by
  intro s u s' hg
  rw [← modify_eq_ok.1 hg]
  exact h s

theorem mono {R' : σ → σ → Prop} (hm : Steps R m) (hR : ∀ s s', R s s' → R' s s') : Steps R' m :=
  fun s a s' h => hR s s' (hm s a s' h)

end Steps

end Cobrust.Control
