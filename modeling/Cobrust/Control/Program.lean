import Mathlib.Logic.Basic

/-!
# Programs over requests

What a computation may do is a type of requests, and a program is what it asks for, one request after the other. A
handler answers requests from a state. What every answer preserves is preserved by every program.
-/

namespace Cobrust.Control

/-- A value, or a request and what to do with its answer. -/
inductive Program (ρ : Type → Type) (α : Type) : Type 1 where
  | done (a : α)
  | ask {β : Type} (request : ρ β) (next : β → Program ρ α)

/-- The answers from a state: out of fuel, an error, or a value. -/
structure Handler (ρ : Type → Type) (ε σ : Type) where
  answer {β : Type} (r : ρ β) (s : σ) : Option (Except ε β × σ)

/-- The handler moves along a relation. -/
def Handler.Moves {ρ : Type → Type} {ε σ : Type} (h : Handler ρ ε σ) (R : σ → σ → Prop) : Prop :=
  ∀ {β : Type} (r : ρ β) {s s' : σ} {answer : Except ε β}, h.answer r s = some (answer, s') → R s s'

namespace Program

variable {ρ : Type → Type} {ε σ α β γ : Type}

protected def bind : Program ρ α → (α → Program ρ β) → Program ρ β
  | done a, f => f a
  | ask request next, f => ask request fun answer => (next answer).bind f

instance : Monad (Program ρ) where
  pure := done
  bind := Program.bind

/-- Just one request. -/
def request (r : ρ α) : Program ρ α :=
  ask r done

theorem done_bind (a : α) (f : α → Program ρ β) : (done a >>= f) = f a :=
  rfl

theorem ask_bind (r : ρ γ) (next : γ → Program ρ α) (f : α → Program ρ β) :
    (ask r next >>= f) = ask r fun answer => next answer >>= f :=
  rfl

theorem bind_done (x : Program ρ α) : (x >>= done) = x := by
  induction x with
  | done a => rfl
  | ask r next ih => exact congrArg (ask r) (funext ih)

theorem bind_assoc' (x : Program ρ α) (f : α → Program ρ β) (g : β → Program ρ γ) :
    (x >>= f >>= g) = x >>= fun a => f a >>= g := by
  induction x with
  | done a => rfl
  | ask r next ih => exact congrArg (ask r) (funext ih)

instance : LawfulMonad (Program ρ) := LawfulMonad.mk' _ bind_done done_bind bind_assoc'

/-- Go on behind an answer. -/
def andThen (f : α → σ → Option (Except ε β × σ)) : Except ε α × σ → Option (Except ε β × σ)
  | (.ok a, s) => f a s
  | (.error e, s) => some (.error e, s)

def run (h : Handler ρ ε σ) : Program ρ α → σ → Option (Except ε α × σ)
  | done a, s => some (.ok a, s)
  | ask r next, s => (h.answer r s).bind (andThen fun answer => run h (next answer))

variable {h : Handler ρ ε σ} {s s' s'' : σ}

@[simp]
theorem run_pure (a : α) : run h (pure a) s = some (.ok a, s) :=
  rfl

theorem run_ask (r : ρ γ) (next : γ → Program ρ α) :
    run h (ask r next) s = (h.answer r s).bind (andThen fun answer => run h (next answer)) :=
  rfl

theorem run_bind (x : Program ρ α) (f : α → Program ρ β) :
    run h (x >>= f) s = (run h x s).bind (andThen fun a => run h (f a)) := by
  induction x generalizing s with
  | done a => rfl
  | ask r next ih =>
    rw [ask_bind, run_ask, run_ask]
    cases h.answer r s with
    | none => rfl
    | some p =>
      obtain ⟨_ | answer, s'⟩ := p
      · rfl
      · exact ih answer

theorem run_request (r : ρ α) : run h (request r) s = h.answer r s := by
  change (h.answer r s).bind (andThen fun answer => run h (done answer)) = _
  cases h.answer r s with
  | none => rfl
  | some p => obtain ⟨_ | answer, s'⟩ := p <;> rfl

theorem run_bind_ok {x : Program ρ α} {f : α → Program ρ β} {b : β} :
    run h (x >>= f) s = some (.ok b, s') ↔
      ∃ a s₁, run h x s = some (.ok a, s₁) ∧ run h (f a) s₁ = some (.ok b, s') := by
  rw [run_bind]
  cases run h x s with
  | none => simp
  | some p =>
    obtain ⟨e | a, s₁⟩ := p
    · simp [andThen]
    · constructor
      · exact fun hrest => ⟨a, s₁, rfl, hrest⟩
      · rintro ⟨_, _, hrun, hrest⟩
        cases hrun
        exact hrest

/-- The program asks only what is allowed. -/
inductive Asks (P : ∀ β : Type, ρ β → Prop) : Program ρ α → Prop
  | done (a : α) : Asks P (done a)
  | ask {β : Type} {r : ρ β} {next : β → Program ρ α} : P β r → (∀ answer, Asks P (next answer)) → Asks P (ask r next)

variable {P : ∀ β : Type, ρ β → Prop}

theorem asks_request {r : ρ α} (h : P α r) : Asks P (request r) :=
  .ask h .done

theorem asks_bind {x : Program ρ α} {f : α → Program ρ β} (hx : Asks P x) (hf : ∀ a, Asks P (f a)) :
    Asks P (x >>= f) := by
  induction hx with
  | done a => exact hf a
  | ask hr _ ih => exact .ask hr ih

/-- A program moves along what the requests that it asks move along. -/
theorem run_moves_of_asks {R : σ → σ → Prop} (hrefl : ∀ s, R s s) (htrans : ∀ {a b c}, R a b → R b c → R a c)
    (hh : ∀ {β : Type} (r : ρ β) {s s' : σ} {answer : Except ε β}, P β r → h.answer r s = some (answer, s') → R s s')
    {x : Program ρ α} (hx : Asks P x) {result : Except ε α} (hrun : run h x s = some (result, s')) : R s s' := by
  induction hx generalizing s with
  | done a =>
    cases hrun
    exact hrefl _
  | @ask _ r next hr _ ih =>
    rw [run_ask] at hrun
    cases hanswer : h.answer r s with
    | none =>
      rw [hanswer] at hrun
      cases hrun
    | some p =>
      rw [hanswer] at hrun
      obtain ⟨e | answer, s₁⟩ := p
      · cases hrun
        exact hh r hr hanswer
      · exact htrans (hh r hr hanswer) (ih answer hrun)

theorem asks_all (x : Program ρ α) : Asks (fun _ _ => True) x := by
  induction x with
  | done a => exact .done a
  | ask r next ih => exact .ask trivial ih

/-- A program moves along every relation that all requests move along. -/
theorem run_moves {R : σ → σ → Prop} (hrefl : ∀ s, R s s) (htrans : ∀ {a b c}, R a b → R b c → R a c)
    (hh : h.Moves R) {x : Program ρ α} {result : Except ε α} (hrun : run h x s = some (result, s')) : R s s' :=
  run_moves_of_asks hrefl htrans (fun {_} r {_ _ _} _ h => hh r h) (asks_all x) hrun

end Program

end Cobrust.Control
