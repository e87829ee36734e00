import Mathlib.Data.List.Infix
import Mathlib.Logic.Basic

/-!
# Programs with a trace

Programs that act on a state, may stop with an error, and leave a trace of events, an error included. A silent program
leaves the state and the trace alone, so that to run it twice is to run it once.
-/

namespace Cobrust.Control

/-- What a program has become: its value or its error, the state, and the events. -/
def Traced (σ ε τ α : Type) : Type :=
  σ → Except ε α × σ × List τ

namespace Traced

variable {σ ε τ α β γ : Type}

/-- Go on after a first part. -/
def andThen (f : α → Traced σ ε τ β) : Except ε α × σ × List τ → Except ε β × σ × List τ
  | (.ok a, s, events) => ((f a s).1, (f a s).2.1, events ++ (f a s).2.2)
  | (.error e, s, events) => (.error e, s, events)

instance : Monad (Traced σ ε τ) where
  pure a s := (.ok a, s, [])
  bind x f s := andThen f (x s)

theorem pure_apply (a : α) (s : σ) : (pure a : Traced σ ε τ α) s = (.ok a, s, []) :=
  rfl

theorem bind_apply (x : Traced σ ε τ α) (f : α → Traced σ ε τ β) (s : σ) : (x >>= f) s = andThen f (x s) :=
  rfl

theorem pure_bind' (a : α) (f : α → Traced σ ε τ β) : (pure a >>= f) = f a := by
  funext s
  rw [bind_apply, pure_apply, andThen, List.nil_append]

theorem bind_pure' (x : Traced σ ε τ α) : (x >>= pure) = x := by
  funext s
  rw [bind_apply]
  obtain ⟨_ | a, s', events⟩ := x s
  · rfl
  · rw [andThen, pure_apply, List.append_nil]

theorem bind_assoc' (x : Traced σ ε τ α) (f : α → Traced σ ε τ β) (g : β → Traced σ ε τ γ) :
    (x >>= f >>= g) = x >>= fun a => f a >>= g := by
  funext s
  rw [bind_apply, bind_apply, bind_apply]
  obtain ⟨_ | a, s', events⟩ := x s
  · rfl
  · rcases hf : f a s' with ⟨_ | b, s'', events'⟩
    · simp only [andThen, bind_apply, hf]
    · simp only [andThen, bind_apply, hf, List.append_assoc]

instance : LawfulMonad (Traced σ ε τ) := LawfulMonad.mk' _ bind_pure' pure_bind' bind_assoc'

/-- Look at the state, without an event. -/
def look (f : σ → Except ε α) : Traced σ ε τ α :=
  fun s => (f s, s, [])

/-- Act on the state, without an event. -/
def act (f : σ → Except ε α × σ) : Traced σ ε τ α :=
  fun s => ((f s).1, (f s).2, [])

def emit (event : τ) : Traced σ ε τ Unit :=
  fun s => (.ok (), s, [event])

/-- The program leaves the state and the trace as they are. -/
def Silent (x : Traced σ ε τ α) : Prop :=
  ∀ s, (x s).2 = (s, [])

theorem silent_pure (a : α) : Silent (pure a : Traced σ ε τ α) :=
  fun _ => rfl

theorem silent_look (f : σ → Except ε α) : Silent (look f : Traced σ ε τ α) :=
  fun _ => rfl

theorem Silent.cases {x : Traced σ ε τ α} (h : Silent x) (s : σ) :
    (∃ a, x s = (.ok a, s, [])) ∨ ∃ e, x s = (.error e, s, []) := by
  have hs := h s
  rcases hx : x s with ⟨_ | a, s', events⟩
  all_goals
    rw [hx] at hs
    cases hs
  · exact Or.inr ⟨_, rfl⟩
  · exact Or.inl ⟨_, rfl⟩

theorem Silent.bind {x : Traced σ ε τ α} {f : α → Traced σ ε τ β} (h : Silent x) (hf : ∀ a, Silent (f a)) :
    Silent (x >>= f) := by
  intro s
  rw [bind_apply]
  rcases h.cases s with ⟨a, ha⟩ | ⟨e, he⟩
  · rw [ha, andThen, List.nil_append]
    exact hf a s
  · rw [he]
    rfl

theorem Silent.ite {c : Prop} [Decidable c] {x y : Traced σ ε τ α} (hx : Silent x) (hy : Silent y) :
    Silent (if c then x else y) := by
  split
  · exact hx
  · exact hy

theorem Silent.twice {x : Traced σ ε τ α} (h : Silent x) (k : α → α → Traced σ ε τ β) :
    (x >>= fun a => x >>= fun b => k a b) = x >>= fun a => k a a := by
  funext s
  rw [bind_apply, bind_apply]
  rcases h.cases s with ⟨a, ha⟩ | ⟨e, he⟩
  · rw [ha]
    simp only [andThen, List.nil_append, bind_apply, ha]
  · rw [he]
    rfl

/-! ## Traces -/

/-- The trace of a sequence is the trace of its parts, one after the other. -/
theorem trace_bind {x : Traced σ ε τ α} {f : α → Traced σ ε τ β} {s s' : σ} {a : α} {events : List τ}
    (h : x s = (.ok a, s', events)) : ((x >>= f) s).2.2 = events ++ (f a s').2.2 := by
  rw [bind_apply, h, andThen]

end Traced

end Cobrust.Control

/-!
## Logs

Programs whose state is a log that only grows, the last entry first. Two programs agree up to the events that are not
aligned: without such an event they do the same, and with one their logs are different for good.
-/

namespace Cobrust.Control.Traced

variable {ω ε τ α β : Type}

/-- The program adds to the log. -/
def Logs (x : Traced (List ω) ε τ α) : Prop :=
  ∀ log, log <:+ (x log).2.1

theorem logs_pure (a : α) : Logs (pure a : Traced (List ω) ε τ α) :=
  fun log => List.suffix_refl log

theorem Logs.bind {x : Traced (List ω) ε τ α} {f : α → Traced (List ω) ε τ β} (hx : Logs x) (hf : ∀ a, Logs (f a)) :
    Logs (x >>= f) := by
  intro log
  have hlog := hx log
  rw [bind_apply]
  rcases hxl : x log with ⟨e | a, log', events⟩
  all_goals rw [hxl] at hlog
  · exact hlog
  · exact hlog.trans (hf a log')

/-- The first run has an entry where the second one stops, or has another one. -/
def Differ (r r' : Except ε α × List ω × List τ) : Prop :=
  ∃ log entry, entry :: log <:+ r.2.1 ∧
    (((∃ e, r'.1 = .error e) ∧ r'.2.1 = log) ∨ ∃ entry', entry' ≠ entry ∧ entry' :: log <:+ r'.2.1)

theorem eq_of_suffix {entry entry' : ω} {log log' : List ω} (h : entry :: log <:+ log') (h' : entry' :: log <:+ log') :
    entry = entry' := by
  have heq : entry :: log = entry' :: log :=
    (List.suffix_of_suffix_length_le h h' le_rfl).eq_of_length rfl
  exact List.head_eq_of_cons_eq heq

theorem Differ.ne {r r' : Except ε α × List ω × List τ} (h : Differ r r') : r.2.1 ≠ r'.2.1 := by
  obtain ⟨log, entry, hentry, ⟨-, hlog⟩ | ⟨entry', hne, hentry'⟩⟩ := h
  · intro heq
    rw [heq, hlog] at hentry
    exact absurd hentry.length_le (Nat.not_succ_le_self _)
  · intro heq
    rw [heq] at hentry
    exact hne (eq_of_suffix hentry' hentry)

variable (aligned : τ → Prop)

/-- Without an event that is not aligned the programs do the same, and with one their logs differ. -/
def Agree (x y : Traced (List ω) ε τ α) : Prop :=
  ∀ log, ((∀ event ∈ (y log).2.2, aligned event) ∧ x log = y log) ∨
    ((∃ event ∈ (y log).2.2, ¬ aligned event) ∧ Differ (x log) (y log))

theorem agree_pure (a : α) : Agree aligned (pure a : Traced (List ω) ε τ α) (pure a) :=
  fun _ => .inl ⟨fun _ h => absurd h List.not_mem_nil, rfl⟩

variable {aligned}

theorem Differ.bind {r r' : Except ε α × List ω × List τ} {f g : α → Traced (List ω) ε τ β} (h : Differ r r')
    (hf : ∀ a, Logs (f a)) (hg : ∀ a, Logs (g a)) : Differ (andThen f r) (andThen g r') := by
  obtain ⟨log, entry, hentry, hother⟩ := h
  have hentry₁ : entry :: log <:+ (andThen f r).2.1 := by
    rcases r with ⟨e | a, log', events⟩
    · exact hentry
    · exact hentry.trans (hf a log')
  refine ⟨log, entry, hentry₁, ?_⟩
  rcases hother with ⟨⟨e, he⟩, hlog⟩ | ⟨entry', hne, hentry'⟩
  · obtain ⟨result, log', events⟩ := r'
    cases he
    exact .inl ⟨⟨e, rfl⟩, hlog⟩
  · refine .inr ⟨entry', hne, ?_⟩
    rcases r' with ⟨e | a, log', events⟩
    · exact hentry'
    · exact hentry'.trans (hg a log')

theorem mem_andThen {g : α → Traced (List ω) ε τ β} {r : Except ε α × List ω × List τ} {event : τ}
    (h : event ∈ r.2.2) : event ∈ (andThen g r).2.2 := by
  rcases r with ⟨e | a, log', events⟩
  · exact h
  · exact List.mem_append_left _ h

theorem Agree.bind {x y : Traced (List ω) ε τ α} {f g : α → Traced (List ω) ε τ β} (h : Agree aligned x y)
    (hfg : ∀ a, Agree aligned (f a) (g a)) (hf : ∀ a, Logs (f a)) (hg : ∀ a, Logs (g a)) :
    Agree aligned (x >>= f) (y >>= g) := by
  intro log
  rw [bind_apply, bind_apply]
  rcases h log with ⟨haligned, hsame⟩ | ⟨⟨event, hevent, hnot⟩, hdiffer⟩
  · rw [hsame]
    rcases hy : y log with ⟨e | a, log', events⟩
    all_goals rw [hy] at haligned
    · exact .inl ⟨haligned, rfl⟩
    · rcases hfg a log' with ⟨haligned', hsame'⟩ | ⟨⟨event, hevent, hnot⟩, hdiffer⟩
      · refine .inl ⟨List.forall_mem_append.2 ⟨haligned, haligned'⟩, ?_⟩
        simp only [andThen, hsame']
      · exact .inr ⟨⟨event, List.mem_append_right _ hevent, hnot⟩, hdiffer⟩
  · exact .inr ⟨⟨event, mem_andThen hevent, hnot⟩, hdiffer.bind hf hg⟩

/-- The logs are the same exactly when all events are aligned. -/
theorem Agree.log_eq_iff {x y : Traced (List ω) ε τ α} (h : Agree aligned x y) (log : List ω) :
    (x log).2.1 = (y log).2.1 ↔ ∀ event ∈ (y log).2.2, aligned event := by
  rcases h log with ⟨haligned, hsame⟩ | ⟨⟨event, hevent, hnot⟩, hdiffer⟩
  · exact ⟨fun _ => haligned, fun _ => by rw [hsame]⟩
  · exact ⟨fun heq => absurd heq hdiffer.ne, fun haligned => absurd (haligned event hevent) hnot⟩

end Cobrust.Control.Traced
