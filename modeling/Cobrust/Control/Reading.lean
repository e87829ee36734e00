/-!
# Programs that read through an input

A program over a state that holds an input and a place in it. `Reads` says of a program that it keeps what
is good about the state, that it never turns back, and for which of its results it has gone on. The bound
in it is what may be left of the input at the start, so that a recursion behind a token that was read
has a smaller one, and a loop whose turns all go on has turns enough.
-/

namespace Cobrust.Control

variable {σ ε α β γ : Type}

/-- What a turn of a loop ends with. -/
inductive Turn (β γ : Type) where
  | again (state : β)
  | done (result : γ)

/-- The turn is followed by another one. -/
def Turn.GoesOn : Turn β γ → Prop
  | .again _ => True
  | .done _ => False

/-- A loop of at most `n` turns. Between two turns `mark` sees the states around the first of them. -/
def loop (spent : ε) (mark : σ → σ → σ) (body : β → EStateM ε σ (Turn β γ)) : Nat → β → EStateM ε σ γ
  | 0, _ => throw spent
  | n + 1, b => fun s =>
    match body b s with
    | .ok (.again b') s' => loop spent mark body n b' (mark s s')
    | .ok (.done c) s' => .ok c s'
    | .error e s' => .error e s'

/-- A program between two changes of the state that take effect however it ends. -/
def between (before after : σ → σ) (m : EStateM ε σ α) : EStateM ε σ α := fun s =>
  match m (before s) with
  | .ok a s' => .ok a (after s')
  | .error e s' => .error e (after s')

/-! ## Going on -/

/-- The states of a run, what is left of its input, and the errors it may end with. -/
structure Reading (σ ε : Type) where
  Good : σ → Prop
  left : σ → Nat
  Allowed : ε → Prop

/-- A run that started with `l` left ended in a good state with no more left, and with less for a result
that `Q` holds of. -/
def Ends (R : Reading σ ε) (l : Nat) (Q : α → Prop) : EStateM.Result ε σ α → Prop
  | .ok a s => R.Good s ∧ R.left s ≤ l ∧ (Q a → R.left s < l)
  | .error e s => R.Good s ∧ R.left s ≤ l ∧ R.Allowed e

/-- What the program does from a good state that `P` holds of and that has at most `r` left. -/
def Reads (R : Reading σ ε) (P : σ → Prop) (r : Nat) (Q : α → Prop) (m : EStateM ε σ α) : Prop :=
  ∀ s, R.Good s → P s → R.left s ≤ r → Ends R (R.left s) Q (m s)

/-- The program never turns back. -/
def Fed (R : Reading σ ε) (r : Nat) (m : EStateM ε σ α) : Prop :=
  Reads R (fun _ => True) r (fun _ => False) m

/-- The program goes on whenever it succeeds. -/
def Eats (R : Reading σ ε) (r : Nat) (m : EStateM ε σ α) : Prop :=
  Reads R (fun _ => True) r (fun _ => True) m

variable {R : Reading σ ε} {P : σ → Prop} {Q : α → Prop} {r : Nat} {m : EStateM ε σ α}

theorem bind_of_ok {f : α → EStateM ε σ β} {a : α} {s s' : σ} (h : m s = .ok a s') : (m >>= f) s = f a s' := by
  simp only [Bind.bind, EStateM.bind, h]

theorem bind_of_error {f : α → EStateM ε σ β} {e : ε} {s s' : σ} (h : m s = .error e s') :
    (m >>= f) s = .error e s' := by
  simp only [Bind.bind, EStateM.bind, h]

theorem Ends.mono {l l' : Nat} {Q' : α → Prop} {x : EStateM.Result ε σ α} (h : Ends R l Q x) (hl : l ≤ l')
    (hQ : ∀ a, Q' a → Q a) : Ends R l' Q' x := by
  cases x with
  | ok a s => exact ⟨h.1, Nat.le_trans h.2.1 hl, fun hq => Nat.lt_of_lt_of_le (h.2.2 (hQ a hq)) hl⟩
  | error e s => exact ⟨h.1, Nat.le_trans h.2.1 hl, h.2.2⟩

/-- A run that started with less has gone on for every result. -/
theorem Ends.gone {l l' : Nat} {Q' : α → Prop} {x : EStateM.Result ε σ α} (h : Ends R l Q x) (hl : l < l') :
    Ends R l' Q' x := by
  cases x with
  | ok a s => exact ⟨h.1, Nat.le_trans h.2.1 (Nat.le_of_lt hl), fun _ => Nat.lt_of_le_of_lt h.2.1 hl⟩
  | error e s => exact ⟨h.1, Nat.le_trans h.2.1 (Nat.le_of_lt hl), h.2.2⟩

theorem Reads.mono {P' : σ → Prop} {Q' : α → Prop} {r' : Nat} (h : Reads R P r Q m) (hP : ∀ s, P' s → P s)
    (hr : r' ≤ r) (hQ : ∀ a, Q' a → Q a) : Reads R P' r' Q' m :=
  fun s hs hs' hr' => (h s hs (hP s hs') (Nat.le_trans hr' hr)).mono (Nat.le_refl _) hQ

theorem Reads.fed (h : Reads R (fun _ => True) r Q m) : Fed R r m :=
  h.mono (fun _ _ => trivial) (Nat.le_refl r) fun _ => False.elim

theorem Eats.le {r' : Nat} (h : Eats R r m) (hr : r' ≤ r) : Eats R r' m :=
  h.mono (fun _ h => h) hr fun _ h => h

theorem Reads.pure {a : α} (hQ : ¬ Q a) : Reads R P r Q (Pure.pure a) :=
  fun _ hs _ _ => ⟨hs, Nat.le_refl _, fun h => (hQ h).elim⟩

theorem Fed.pure {a : α} : Fed R r (Pure.pure a) :=
  Reads.pure fun h => h

theorem Reads.throw {e : ε} (he : R.Allowed e) : Reads R P r Q (throw e) :=
  fun _ hs _ _ => ⟨hs, Nat.le_refl _, he⟩

theorem Reads.ite {c : Prop} [Decidable c] {m' : EStateM ε σ α} (h : c → Reads R P r Q m)
    (h' : ¬ c → Reads R P r Q m') : Reads R P r Q (if c then m else m') := by
  split
  · next hc => exact h hc
  · next hc => exact h' hc

/-- Behind a result with which the program has gone on, less is left. -/
theorem Reads.bind {f : α → EStateM ε σ β} {Q' : β → Prop} (hm : Reads R P r Q m)
    (hgone : ∀ a r', Q a → r' < r → Fed R r' (f a))
    (hstay : ∀ a, ¬ Q a → Reads R (fun _ => True) r Q' (f a)) : Reads R P r Q' (m >>= f) := by
  intro s hs hP hr
  have h := hm s hs hP hr
  cases hrun : m s with
  | error e s' =>
    rw [hrun] at h
    rw [bind_of_error hrun]
    exact h
  | ok a s' =>
    rw [hrun] at h
    rw [bind_of_ok hrun]
    obtain ⟨hgood, hle, hlt⟩ := h
    by_cases hq : Q a
    · exact (hgone a _ hq (Nat.lt_of_lt_of_le (hlt hq) hr) s' hgood trivial (Nat.le_refl _)).gone (hlt hq)
    · exact (hstay a hq s' hgood trivial (Nat.le_trans hle hr)).mono hle fun _ h => h

theorem Reads.throwBind {e : ε} {f : β → EStateM ε σ α} (he : R.Allowed e) :
    Reads R P r Q ((MonadExcept.throw e : EStateM ε σ β) >>= f) := by
  intro s hs _ _
  have hthrow : (MonadExcept.throw e : EStateM ε σ β) s = .error e s := rfl
  rw [bind_of_error hthrow]
  exact ⟨hs, Nat.le_refl _, he⟩

/-- A first step that goes on leaves less for the rest. -/
theorem Reads.first {f : α → EStateM ε σ β} {Q' : β → Prop} (hm : Reads R P r (fun _ => True) m)
    (hf : ∀ a r', r' < r → Fed R r' (f a)) : Reads R P r Q' (m >>= f) :=
  hm.bind (fun a r' _ hr => hf a r' hr) fun _ h => (h trivial).elim

/-- A step of which it does not matter whether it goes on. -/
theorem Reads.andThen {f : α → EStateM ε σ β} {Q' : β → Prop} (hm : Reads R P r Q m)
    (hf : ∀ a, Reads R (fun _ => True) r Q' (f a)) : Reads R P r Q' (m >>= f) :=
  (hm.mono (fun _ h => h) (Nat.le_refl r) fun _ => False.elim).bind (fun _ _ h => h.elim) fun a _ => hf a

/-- What a look at the state has found holds at the start of the rest. -/
theorem Reads.look {look : EStateM ε σ α} {S : α → σ → Prop} {f : α → EStateM ε σ β} {Q' : β → Prop}
    (hlook : ∀ s, R.Good s → ∃ a, look s = .ok a s ∧ S a s)
    (h : ∀ a, Reads R (fun s => P s ∧ S a s) r Q' (f a)) : Reads R P r Q' (look >>= f) := by
  intro s hs hP hr
  obtain ⟨a, ha, hS⟩ := hlook s hs
  rw [bind_of_ok ha]
  exact h a s hs ⟨hP, hS⟩ hr

/-- A program between two changes that touch neither what is good about a state nor what is left. -/
theorem Reads.between {before after : σ → σ} (hm : Reads R (fun _ => True) r Q m)
    (hbefore : ∀ s, R.Good s → R.Good (before s) ∧ R.left (before s) = R.left s)
    (hafter : ∀ s, R.Good s → R.Good (after s) ∧ R.left (after s) = R.left s) :
    Reads R P r Q (Control.between before after m) := by
  intro s hs _ hr
  obtain ⟨hgood, hleft⟩ := hbefore s hs
  have h := hm (before s) hgood trivial (Nat.le_trans (Nat.le_of_eq hleft) hr)
  rw [hleft] at h
  unfold Control.between
  cases hrun : m (before s) with
  | ok a s' =>
    rw [hrun] at h
    obtain ⟨hs', hle⟩ := hafter s' h.1
    exact ⟨hs', Nat.le_trans (Nat.le_of_eq hle) h.2.1,
      fun hq => Nat.lt_of_le_of_lt (Nat.le_of_eq hle) (h.2.2 hq)⟩
  | error e s' =>
    rw [hrun] at h
    obtain ⟨hs', hle⟩ := hafter s' h.1
    exact ⟨hs', Nat.le_trans (Nat.le_of_eq hle) h.2.1, h.2.2⟩

/-- A loop whose turns go on before they are followed by another one does not use up more turns than there
is left. -/
theorem Fed.loop {spent : ε} {mark : σ → σ → σ} {body : β → EStateM ε σ (Turn β γ)} {n : Nat} {b : β}
    (hbody : ∀ b, Reads R (fun _ => True) r Turn.GoesOn (body b))
    (hmark : ∀ s s', R.Good s → R.Good s' → R.left s' < R.left s →
      R.Good (mark s s') ∧ R.left (mark s s') = R.left s')
    (hn : r < n) : Fed R r (Control.loop spent mark body n b) := by
  induction n generalizing r b with
  | zero => exact absurd hn (Nat.not_lt_zero r)
  | succ n ih =>
    intro s hs _ hr
    have h := hbody b s hs trivial hr
    unfold Control.loop
    cases hrun : body b s with
    | error e s' =>
      rw [hrun] at h
      exact h
    | ok t s' =>
      rw [hrun] at h
      obtain ⟨hgood, hle, hlt⟩ := h
      cases t with
      | done c => exact ⟨hgood, hle, False.elim⟩
      | again b' =>
        have hgone := hlt trivial
        obtain ⟨hgood', hleft⟩ := hmark s s' hs hgood hgone
        have hless : R.left s' < n := by omega
        have hrest : Fed R (R.left s') (Control.loop spent mark body n b') :=
          ih (fun b => (hbody b).mono (fun _ h => h) (Nat.le_trans hle hr) fun _ h => h) hless
        exact (hrest (mark s s') hgood' trivial (Nat.le_of_eq hleft)).mono
          (Nat.le_trans (Nat.le_of_eq hleft) hle) fun _ h => h

end Cobrust.Control

/-!
## Success

`Gives` says of a program that it ends in a result from every state that a condition holds of. `Reaches` says of a
program that a loop follows that both get to a turn, with as many turns left as there were behind some first ones.
-/

namespace Cobrust.Control

variable {σ ε α β γ : Type} {P P' : σ → Prop} {m : EStateM ε σ α}

/-- From every state that `P` holds of the program ends in a result, and `Q` holds of it and the state then. -/
def Gives (P : σ → Prop) (m : EStateM ε σ α) (Q : α → σ → Prop) : Prop :=
  ∀ s, P s → ∃ a s', m s = .ok a s' ∧ Q a s'

variable {Q Q' : α → σ → Prop}

theorem Gives.mono (h : Gives P m Q) (hP : ∀ s, P' s → P s) (hQ : ∀ a s, Q a s → Q' a s) : Gives P' m Q' := by
  intro s hs
  obtain ⟨a, s', hm, hq⟩ := h s (hP s hs)
  exact ⟨a, s', hm, hQ a s' hq⟩

theorem Gives.pure {a : α} (h : ∀ s, P s → Q a s) : Gives P (Pure.pure a : EStateM ε σ α) Q :=
  fun s hs => ⟨a, s, rfl, h s hs⟩

theorem Gives.bind {f : α → EStateM ε σ β} {R : β → σ → Prop} (hm : Gives P m Q) (hf : ∀ a, Gives (Q a) (f a) R) :
    Gives P (m >>= f) R := by
  intro s hs
  obtain ⟨a, s', hm, hq⟩ := hm s hs
  obtain ⟨b, s'', hf, hr⟩ := hf a s' hq
  exact ⟨b, s'', (bind_of_ok hm).trans hf, hr⟩

theorem Gives.assuming {C : Prop} (h : C → Gives P m Q) : Gives (fun s => C ∧ P s) m Q :=
  fun s hs => h hs.1 s hs.2

theorem Gives.look {f : α → EStateM ε σ β} {R : β → σ → Prop} {S : α → Prop}
    (hm : ∀ s, P s → ∃ a, m s = .ok a s ∧ S a) (hf : ∀ a, S a → Gives P (f a) R) : Gives P (m >>= f) R := by
  intro s hs
  obtain ⟨a, hm, ha⟩ := hm s hs
  obtain ⟨b, s', hf, hr⟩ := hf a ha s hs
  exact ⟨b, s', (bind_of_ok hm).trans hf, hr⟩

theorem Gives.between {before after : σ → σ} (hm : Gives P' m Q') (hbefore : ∀ s, P s → P' (before s))
    (hafter : ∀ a s, Q' a s → Q a (after s)) : Gives P (between before after m) Q := by
  intro s hs
  obtain ⟨a, s', hm, hq⟩ := hm (before s) (hbefore s hs)
  refine ⟨a, after s', ?_, hafter a s' hq⟩
  rw [Control.between, hm]

/-! ## Loops behind a program -/

section Loops

variable {first : EStateM ε σ β} {spent : ε} {mark : σ → σ → σ} {body : β → EStateM ε σ (Turn β γ)} {c : Nat}
  {R R' : β → σ → Prop}

theorem loop_again {n : Nat} {b b' : β} {s s' : σ} (h : body b s = .ok (.again b') s') :
    loop spent mark body (n + 1) b s = loop spent mark body n b' (mark s s') := by
  simp only [loop, h]

theorem loop_done {n : Nat} {b : β} {r : γ} {s s' : σ} (h : body b s = .ok (.done r) s') :
    loop spent mark body (n + 1) b s = .ok r s' := by
  simp only [loop, h]

theorem Gives.loop {n : Nat} {b : β} {Q : γ → σ → Prop}
    (hbody : Gives P (body b) fun t s => ∃ r, t = .done r ∧ Q r s) : Gives P (loop spent mark body (n + 1) b) Q := by
  intro s hs
  obtain ⟨t, s', hturn, r, rfl, hq⟩ := hbody s hs
  exact ⟨r, s', loop_done hturn, hq⟩

/-- From `P`, behind `c` turns the loop is at one that `R` holds of, whatever number of turns is left. -/
def Reaches (first : EStateM ε σ β) (spent : ε) (mark : σ → σ → σ) (body : β → EStateM ε σ (Turn β γ)) (c : Nat)
    (P : σ → Prop) (R : β → σ → Prop) : Prop :=
  ∀ s, P s → ∃ b s', R b s' ∧ ∀ k, (first >>= loop spent mark body (c + k)) s = loop spent mark body k b s'

theorem Reaches.mono (h : Reaches first spent mark body c P R) (hP : ∀ s, P' s → P s)
    (hR : ∀ b s, R b s → R' b s) : Reaches first spent mark body c P' R' := by
  intro s hs
  obtain ⟨b, s', hr, hrun⟩ := h s (hP s hs)
  exact ⟨b, s', hR b s' hr, hrun⟩

theorem Reaches.start (h : Gives P first R) : Reaches first spent mark body 0 P R := by
  intro s hs
  obtain ⟨b, s', hfirst, hr⟩ := h s hs
  exact ⟨b, s', hr, fun k => by rw [bind_of_ok hfirst, Nat.zero_add]⟩

theorem Reaches.again (h : Reaches first spent mark body c P R)
    (hbody : ∀ b, Gives (R b) (body b) fun t s => ∃ b', t = .again b' ∧ R' b' s)
    (hmark : ∀ b s s', R' b s' → R' b (mark s s')) : Reaches first spent mark body (c + 1) P R' := by
  intro s hs
  obtain ⟨b, s', hr, hrun⟩ := h s hs
  obtain ⟨t, s'', hturn, b', rfl, hr'⟩ := hbody b s' hr
  refine ⟨b', mark s' s'', hmark b' s' s'' hr', fun k => ?_⟩
  rw [Nat.add_assoc, hrun, Nat.add_comm 1 k, loop_again hturn]

theorem Reaches.done {n : Nat} {Q : γ → σ → Prop} (h : Reaches first spent mark body c P R) (hn : c < n)
    (hbody : ∀ b, Gives (R b) (body b) fun t s => ∃ r, t = .done r ∧ Q r s) :
    Gives P (first >>= loop spent mark body n) Q := by
  intro s hs
  obtain ⟨b, s', hr, hrun⟩ := h s hs
  obtain ⟨t, s'', hturn, r, rfl, hq⟩ := hbody b s' hr
  obtain ⟨k, rfl⟩ := Nat.exists_eq_add_of_lt hn
  refine ⟨r, s'', ?_, hq⟩
  rw [Nat.add_assoc, hrun, loop_done hturn]

end Loops

end Cobrust.Control
