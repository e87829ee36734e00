import Cobrust.Translate.RepairLoop
import Mathlib.Data.List.Nodup

/-!
# Honest runs of the repair loop

* `Repairs` and `Runs`: what happens to one function and to the functions from an index on, as relations.
* `repairFunctions_runs`: the loop does what the relation says.
* `Repairs.complete` and `Runs.complete`: where no diagnostic is refused, every rejection that the emissions lead to
  happens.
* `run_honest_iff`: a run is honest exactly when the diagnostics of the functions it comes to stay apart.
-/

namespace Cobrust.Translate

namespace Pipeline

variable (s : Pipeline)

/-- The verdicts on an emission. -/
def verdicts (idx : Nat) (e : FunctionTranslation) (k : Nat) : List Event :=
  match s.behavior idx e k with
  | .Reject f => [.behavior idx e k (.Reject f)]
  | .Accept => [.behavior idx e k .Accept, .perf idx e k (s.perf idx e k)]

/-- What happens to function `idx` from an emission at an attempt on. -/
inductive Repairs (idx : Nat) : Nat → FunctionTranslation → List Event → Except TranslatorError FunctionTranslation →
    Prop
  | accept {k : Nat} {e : FunctionTranslation} (hnone : s.rejects idx e k = none) :
      Repairs idx k e (s.verdicts idx e k) (.ok e)
  | refused {k : Nat} {e : FunctionTranslation} {f : GateFailure} {err : String} (hf : s.rejects idx e k = some f)
      (hrefused : s.refuses (f.path s.library) = some err) : Repairs idx k e (s.verdicts idx e k) (.error (.Io err))
  | stop {k : Nat} {e : FunctionTranslation} {f : GateFailure} {err : TranslatorError} {tail : List Event}
      (hf : s.rejects idx e k = some f) (hwritten : s.refuses (f.path s.library) = none)
      (hstop : s.escalation_threshold ≤ k ∨ ∃ err', s.repaired idx e k f = .error err')
      (htail : tail = [] ∨ ∃ text, tail = [.write (reportPath s.library) text]) :
      Repairs idx k e (s.verdicts idx e k ++ .write (f.path s.library) (s.toml f) :: tail) (.error err)
  | again {k : Nat} {e e' : FunctionTranslation} {f : GateFailure} {rest : List Event}
      {res : Except TranslatorError FunctionTranslation} (hf : s.rejects idx e k = some f)
      (hwritten : s.refuses (f.path s.library) = none) (hk : k < s.escalation_threshold)
      (hrepaired : s.repaired idx e k f = .ok e') (hrest : Repairs idx (k + 1) e' rest res) :
      Repairs idx k e (s.verdicts idx e k ++ .write (f.path s.library) (s.toml f) :: rest) res

/-- What happens to the functions from index `idx` on. -/
inductive Runs : Nat → List FunctionTranslation → List Event → Except TranslatorError (List FunctionTranslation) → Prop
  | nil (idx : Nat) : Runs idx [] [] (.ok [])
  | stop {idx : Nat} {e : FunctionTranslation} {functions : List FunctionTranslation} {events : List Event}
      {err : TranslatorError} (hstop : s.Repairs idx 1 e events (.error err)) :
      Runs idx (e :: functions) events (.error err)
  | next {idx : Nat} {e e' : FunctionTranslation} {functions : List FunctionTranslation} {events rest : List Event}
      {res : Except TranslatorError (List FunctionTranslation)} (hnext : s.Repairs idx 1 e events (.ok e'))
      (hrest : Runs (idx + 1) functions rest res) :
      Runs idx (e :: functions) (events ++ rest) (res.map (e' :: ·))

variable {s}

/-! ## The loop and the relation -/

theorem behaviorRejections_append (a b : List Event) :
    behaviorRejections (a ++ b) = behaviorRejections a ++ behaviorRejections b :=
  List.filterMap_append

theorem behaviorRejections_nil : behaviorRejections [] = [] :=
  rfl

theorem behaviorRejections_write (path : Path) (text : String) (events : List Event) :
    behaviorRejections (.write path text :: events) = behaviorRejections events :=
  rfl

theorem verify_spec (idx : Nat) (e : FunctionTranslation) (k : Nat) (p : Progress) :
    ∃ b q, s.verify idx e k p = ((s.rejects idx e k).elim .Accept .Reject,
      { p with behavior_observed_reject := b, perf_observed_reject := q, events :=
          p.events ++ s.verdicts idx e k }) := by
  simp only [verify, rejects, verdicts]
  cases s.behavior idx e k with
  | Accept =>
    cases s.perf idx e k with
    | Accept => exact ⟨_, _, rfl⟩
    | Reject f => exact ⟨_, _, rfl⟩
  | Reject f => exact ⟨_, _, rfl⟩

theorem rejections_verdicts (idx : Nat) (e : FunctionTranslation) (k : Nat) :
    rejections (s.verdicts idx e k) = ((s.rejects idx e k).map fun f => (idx, k, f)).toList := by
  simp only [rejects, verdicts]
  cases s.behavior idx e k with
  | Accept => cases hp : s.perf idx e k <;> simp [rejections]
  | Reject f => simp [rejections]

/-- The behaviour rejections among the verdicts are those whose blob names the behaviour gate. -/
theorem behaviorRejections_verdicts (hnames : s.Names) (idx : Nat) (e : FunctionTranslation) (k : Nat) :
    behaviorRejections (s.verdicts idx e k) =
      ((s.rejects idx e k).filter fun f => f.failed_gate = .Behavior).toList := by
  simp only [rejects, verdicts]
  cases hb : s.behavior idx e k with
  | Accept =>
    cases hp : s.perf idx e k with
    | Accept => simp [behaviorRejections]
    | Reject f => simp [behaviorRejections, (hnames.perf idx e k f hp).2.1]
  | Reject f => simp [behaviorRejections, Option.filter, (hnames.behavior idx e k f hb).2.1]

theorem names_rejects (hnames : s.Names) {idx k : Nat} {e : FunctionTranslation} {f : GateFailure}
    (hf : s.rejects idx e k = some f) : f.function = e.name ∧ f.attempt = k + 1 := by
  simp only [rejects] at hf
  split at hf
  · next hb =>
    cases hf
    obtain ⟨hname, -, hattempt⟩ := hnames.behavior _ _ _ _ hb
    exact ⟨hname, hattempt⟩
  · split at hf
    · next hp =>
      cases hf
      obtain ⟨hname, -, hattempt⟩ := hnames.perf _ _ _ _ hp
      exact ⟨hname, hattempt⟩
    · cases hf

theorem set_same {l : List FunctionTranslation} {idx : Nat} {e : FunctionTranslation} (h : l[idx]? = some e) :
    l.set idx e = l := by
  obtain ⟨hlt, rfl⟩ := List.getElem?_eq_some_iff.mp h
  exact List.set_getElem_self hlt

theorem observe_eq (p : Progress) (f : GateFailure) : p.observe s f =
    { p with observed_divergences := p.observed_divergences ++
        ((some f).filter fun f => f.failed_gate = .Behavior).toList.map s.renderDivergence } := by
  unfold Progress.observe
  split
  · next h => simp [Option.filter, h]
  · next h => simp [Option.filter, h]

/-- What the inner loop leaves: the events, the divergences and, when it ends well, the emission it ends with. -/
def Leaves (idx k : Nat) (e : FunctionTranslation) (p : Progress) (out : Except TranslatorError Unit × Progress) :
    Prop :=
  ∃ events res, s.Repairs idx k e events res ∧ out.2.events = p.events ++ events ∧
    out.2.observed_divergences = p.observed_divergences ++ (behaviorRejections events).map s.renderDivergence ∧
    out.1 = res.map (fun _ => ()) ∧
    ∀ e', res = .ok e' → out.2.functions = p.functions.set idx e' ∧
      out.2.router_decision_ids = (p.functions.set idx e').map FunctionTranslation.router_decision_id

theorem leaves_again {idx k : Nat} {e e₁ : FunctionTranslation} {f : GateFailure} {p p₁ : Progress}
    {out : Except TranslatorError Unit × Progress} (hf : s.rejects idx e k = some f)
    (hwritten : s.refuses (f.path s.library) = none) (hk : k < s.escalation_threshold)
    (hrepaired : s.repaired idx e k f = .ok e₁) (h : Leaves (s := s) idx (k + 1) e₁ (p₁.replace idx e₁) out)
    (hfunctions : p₁.functions = p.functions)
    (hevents : p₁.events = p.events ++ (s.verdicts idx e k ++ [.write (f.path s.library) (s.toml f)]))
    (hdivergences : p₁.observed_divergences =
      p.observed_divergences ++ (behaviorRejections (s.verdicts idx e k)).map s.renderDivergence) :
    Leaves (s := s) idx k e p out := by
  obtain ⟨events, res, hrest, hevents', hdivergences', hres, hok⟩ := h
  refine ⟨_, res, .again hf hwritten hk hrepaired hrest, ?_, ?_, hres, ?_⟩
  · simpa [Progress.replace, hevents] using hevents'
  · simpa [Progress.replace, hdivergences, behaviorRejections_append, behaviorRejections_write] using hdivergences'
  · intro e' he'
    simpa [Progress.replace, hfunctions] using hok e' he'

theorem repairFunction_leaves (hnames : s.Names) (idx : Nat) : ∀ (attempt : Nat) (diagnostics : List GateFailure)
    (p : Progress) (e : FunctionTranslation), p.functions[idx]? = some e →
      p.router_decision_ids = p.functions.map FunctionTranslation.router_decision_id →
        Leaves (s := s) idx attempt e p (s.repairFunction idx attempt diagnostics p) := by
  intro attempt
  induction hn : s.escalation_threshold - attempt using Nat.strong_induction_on generalizing attempt with
  | _ n ih =>
    intro diagnostics p e he hids
    obtain ⟨b, q, hverify⟩ := verify_spec (s := s) idx e attempt p
    have hdivergences := behaviorRejections_verdicts hnames idx e attempt
    rw [repairFunction]
    cases hf : s.rejects idx e attempt with
    | none =>
      rw [hf, Option.elim_none] at hverify
      simp only [he, hverify]
      refine ⟨_, _, .accept hf, rfl, by simp [hdivergences, hf], rfl, ?_⟩
      rintro e' ⟨⟩
      simp [set_same he, hids]
    | some f =>
      rw [hf, Option.elim_some] at hverify
      rw [hf] at hdivergences
      simp only [he, hverify, observe_eq]
      cases hrefuses : s.refuses (f.path s.library) with
      | some err => exact ⟨_, _, .refused hf hrefuses, rfl, by rw [hdivergences], rfl, by rintro _ ⟨⟩⟩
      | none =>
        by_cases hk : s.escalation_threshold ≤ attempt
        · simp only [if_pos hk]
          cases hreport : s.refuses (reportPath s.library) with
          | some err =>
            exact ⟨_, _, .stop hf hrefuses (.inl hk) (.inl rfl), by simp [Progress.written],
              by simp [behaviorRejections_append, hdivergences, Progress.written, behaviorRejections_write,
                behaviorRejections_nil], rfl, by rintro _ ⟨⟩⟩
          | none =>
            exact ⟨_, _, .stop hf hrefuses (.inl hk)
                (.inr ⟨failureReport e.name f.failed_gate attempt (diagnostics ++ [f]), rfl⟩),
              by simp [Progress.written],
              by simp [behaviorRejections_append, hdivergences, Progress.written, behaviorRejections_write,
                behaviorRejections_nil], rfl, by rintro _ ⟨⟩⟩
        · simp only [if_neg hk]
          have hlt : idx < p.functions.length := (List.getElem?_eq_some_iff.mp he).1
          cases hrepaired : s.repaired idx e attempt f with
          | error err =>
            have hrepair : s.repairTranslation idx e.task { f with attempt := attempt + 1 } = .error err := hrepaired
            simp only [hrepair]
            exact ⟨_, _, .stop hf hrefuses (.inr ⟨err, hrepaired⟩) (.inl rfl), by simp [Progress.written],
              by simp [behaviorRejections_append, hdivergences, Progress.written, behaviorRejections_write,
                behaviorRejections_nil], rfl, by rintro _ ⟨⟩⟩
          | ok e₁ =>
            have hrepair : s.repairTranslation idx e.task { f with attempt := attempt + 1 } = .ok e₁ := hrepaired
            simp only [hrepair]
            refine leaves_again hf hrefuses (by omega) hrepaired
              (ih (s.escalation_threshold - (attempt + 1)) (by omega) (attempt + 1) rfl _ _ e₁ ?_ ?_) rfl ?_ ?_
            · simp [Progress.replace, Progress.written, hlt]
            · simp [Progress.replace, Progress.written, hids, List.map_set]
            · simp [Progress.written]
            · simp [Progress.written, hdivergences]

theorem repairFunctions_runs (hnames : s.Names) : ∀ (rest before : List FunctionTranslation) (p : Progress),
    p.functions = before ++ rest → p.router_decision_ids = p.functions.map FunctionTranslation.router_decision_id →
      ∃ events res, s.Runs before.length rest events res ∧
        (s.repairFunctions before.length rest.length p).2.events = p.events ++ events ∧
        (s.repairFunctions before.length rest.length p).2.observed_divergences =
          p.observed_divergences ++ (behaviorRejections events).map s.renderDivergence ∧
        (s.repairFunctions before.length rest.length p).1 = res.map (fun _ => ()) ∧
        ∀ functions, res = .ok functions →
          (s.repairFunctions before.length rest.length p).2.functions = before ++ functions ∧
          (s.repairFunctions before.length rest.length p).2.router_decision_ids =
            (before ++ functions).map FunctionTranslation.router_decision_id := by
  intro rest
  induction rest with
  | nil =>
    intro before p hfunctions hids
    refine ⟨[], _, .nil _, by simp [repairFunctions], by simp [repairFunctions, behaviorRejections_nil], rfl, ?_⟩
    rintro functions ⟨⟩
    simp [repairFunctions, hids, hfunctions]
  | cons e rest ih =>
    intro before p hfunctions hids
    obtain ⟨events, res, hrepairs, hevents, hdivergences, hres, hok⟩ :=
      repairFunction_leaves hnames before.length 1 [] p e (by simp [hfunctions]) hids
    rw [List.length_cons, repairFunctions]
    generalize s.repairFunction before.length 1 [] p = out at hevents hdivergences hres hok
    obtain ⟨out, p'⟩ := out
    cases res with
    | error err =>
      obtain rfl : out = .error err := hres
      exact ⟨events, _, .stop hrepairs, hevents, hdivergences, rfl, by rintro _ ⟨⟩⟩
    | ok e' =>
      obtain rfl : out = .ok () := hres
      obtain ⟨hfunctions', hids'⟩ := hok e' rfl
      have hsplit : p.functions.set before.length e' = before ++ [e'] ++ rest := by simp [hfunctions]
      obtain ⟨events', res', hruns, hevents', hdivergences', hres', hok'⟩ :=
        ih (before ++ [e']) p' (hfunctions'.trans hsplit) (hids'.trans (by rw [hfunctions', hsplit]))
      simp only [List.length_append, List.length_singleton] at hruns hevents' hdivergences' hres' hok'
      refine ⟨events ++ events', _, .next hrepairs hruns, ?_, ?_, ?_, ?_⟩
      · rw [hevents', hevents, List.append_assoc]
      · rw [hdivergences', hdivergences, behaviorRejections_append, List.map_append, List.append_assoc]
      · rw [hres']
        cases res' <;> rfl
      · intro functions hfns
        cases res' with
        | error err => cases hfns
        | ok functions' =>
          cases hfns
          simpa using hok' functions' rfl

/-! ## What holds of every run -/

theorem behaviorCalls_append (j : Nat) (a b : List Event) : behaviorCalls j (a ++ b) =
    behaviorCalls j a ++ behaviorCalls j b :=
  List.filterMap_append

theorem perfCalls_append (j : Nat) (a b : List Event) : perfCalls j (a ++ b) = perfCalls j a ++ perfCalls j b :=
  List.filterMap_append

theorem rejections_append (a b : List Event) : rejections (a ++ b) = rejections a ++ rejections b :=
  List.filterMap_append

theorem writes_append (a b : List Event) : writes (a ++ b) = writes a ++ writes b :=
  List.filterMap_append

theorem behaviorCalls_write (j : Nat) (path : Path) (text : String) (events : List Event) :
    behaviorCalls j (.write path text :: events) = behaviorCalls j events :=
  rfl

theorem perfCalls_write (j : Nat) (path : Path) (text : String) (events : List Event) :
    perfCalls j (.write path text :: events) = perfCalls j events :=
  rfl

theorem rejections_write (path : Path) (text : String) (events : List Event) :
    rejections (.write path text :: events) = rejections events :=
  rfl

theorem writes_write (path : Path) (text : String) (events : List Event) :
    writes (.write path text :: events) = (path, text) :: writes events :=
  rfl

theorem attempts_verdicts (idx j : Nat) (e : FunctionTranslation) (k : Nat) :
    (behaviorCalls j (s.verdicts idx e k)).map (fun c => c.2.1) = if idx = j then [k] else [] := by
  simp only [verdicts]
  split <;> by_cases h : idx = j <;> simp [behaviorCalls, h]

theorem perfCalls_verdicts {idx j : Nat} (e : FunctionTranslation) (k : Nat) (h : j ≠ idx) :
    perfCalls j (s.verdicts idx e k) = [] := by
  simp only [verdicts]
  split <;> simp [perfCalls, h.symm]

theorem writes_verdicts (idx : Nat) (e : FunctionTranslation) (k : Nat) : writes (s.verdicts idx e k) = [] := by
  simp only [verdicts]
  split <;> rfl

theorem accepted_verdicts {idx k : Nat} {e : FunctionTranslation} (h : s.rejects idx e k = none) :
    behaviorCalls idx (s.verdicts idx e k) = [(e, k, .Accept)] ∧
      perfCalls idx (s.verdicts idx e k) = [(e, k, .Accept)] := by
  simp only [rejects] at h
  simp only [verdicts]
  cases hb : s.behavior idx e k with
  | Reject f => simp [hb] at h
  | Accept =>
    cases hp : s.perf idx e k with
    | Reject f => simp [hb, hp] at h
    | Accept => simp [behaviorCalls, perfCalls]

/-- The report, if it is among the last events, changes nothing else. -/
theorem tail_cases {tail : List Event} (htail : tail = [] ∨ ∃ text, tail = [.write (reportPath s.library) text]) :
    (∀ j, behaviorCalls j tail = []) ∧ (∀ j, perfCalls j tail = []) ∧ rejections tail = [] := by
  rcases htail with rfl | ⟨text, rfl⟩
  · exact ⟨fun _ => rfl, fun _ => rfl, rfl⟩
  · exact ⟨fun _ => rfl, fun _ => rfl, rfl⟩

variable {idx k : Nat} {e : FunctionTranslation} {events : List Event} {res :
    Except TranslatorError FunctionTranslation}

theorem Repairs.attempts (h : s.Repairs idx k e events res) (hk : k ≤ s.escalation_threshold) :
    ∃ m, (behaviorCalls idx events).map (fun c => c.2.1) = List.range' k m ∧ k + m ≤ s.escalation_threshold + 1 := by
  induction h with
  | accept _ => exact ⟨1, by simp [attempts_verdicts], by omega⟩
  | refused _ _ => exact ⟨1, by simp [attempts_verdicts], by omega⟩
  | stop _ _ _ htail =>
    exact ⟨1, by simp [behaviorCalls_append, behaviorCalls_write, (tail_cases htail).1, attempts_verdicts], by omega⟩
  | again _ _ hlt _ _ ih =>
    obtain ⟨m, hm, hle⟩ := ih hlt
    refine ⟨m + 1, ?_, by omega⟩
    simp [behaviorCalls_append, behaviorCalls_write, attempts_verdicts, hm, List.range'_succ]

theorem Repairs.elsewhere (h : s.Repairs idx k e events res) {j : Nat} (hj : j ≠ idx) :
    behaviorCalls j events = [] ∧ perfCalls j events = [] := by
  have hverdicts (e : FunctionTranslation) (k : Nat) : behaviorCalls j (s.verdicts idx e k) = [] := by
    simpa [hj.symm] using attempts_verdicts (s := s) idx j e k
  induction h with
  | accept _ => exact ⟨hverdicts _ _, perfCalls_verdicts _ _ hj⟩
  | refused _ _ => exact ⟨hverdicts _ _, perfCalls_verdicts _ _ hj⟩
  | stop _ _ _ htail =>
    obtain ⟨hb, hp, -⟩ := tail_cases htail
    simp [behaviorCalls_append, behaviorCalls_write, perfCalls_append, perfCalls_write, hverdicts,
      perfCalls_verdicts _ _ hj, hb, hp]
  | again _ _ _ _ _ ih =>
    simp [behaviorCalls_append, behaviorCalls_write, perfCalls_append, perfCalls_write, hverdicts,
      perfCalls_verdicts _ _ hj, ih]

theorem Repairs.accepted {e' : FunctionTranslation} (h : s.Repairs idx k e events res) (hres : res = .ok e') :
    ∃ k', (behaviorCalls idx events).getLast? = some (e', k', .Accept) ∧
      (perfCalls idx events).getLast? = some (e', k', .Accept) := by
  induction h with
  | accept hnone =>
    cases hres
    obtain ⟨hb, hp⟩ := accepted_verdicts hnone
    exact ⟨_, by rw [hb]; rfl, by rw [hp]; rfl⟩
  | refused _ _ => cases hres
  | stop _ _ _ _ => cases hres
  | again _ _ _ _ _ ih =>
    obtain ⟨k', hb, hp⟩ := ih hres
    exact ⟨k', by simp [behaviorCalls_append, behaviorCalls_write, List.getLast?_append, hb],
      by simp [perfCalls_append, perfCalls_write, List.getLast?_append, hp]⟩

/-! ## Rejections and their diagnostics -/

/-- The order in which rejections happen: by function, then by attempt. -/
def Earlier (a b : Nat × Nat × GateFailure) : Prop :=
  a.1 < b.1 ∨ a.1 = b.1 ∧ a.2.1 < b.2.1

/-- No diagnostic of a rejection was refused. -/
def Unrefused (s : Pipeline) (events : List Event) : Prop :=
  ∀ r ∈ rejections events, s.refuses (r.2.2.path s.library) = none

/-- The write of the diagnostic of a rejection. -/
def diagnostic (s : Pipeline) (r : Nat × Nat × GateFailure) : Path × String :=
  (r.2.2.path s.library, s.toml r.2.2)

theorem rejections_of_some {f : GateFailure} (hf : s.rejects idx e k = some f) :
    rejections (s.verdicts idx e k) = [(idx, k, f)] := by
  rw [rejections_verdicts, hf]
  rfl

theorem rejections_of_none (hf : s.rejects idx e k = none) : rejections (s.verdicts idx e k) = [] := by
  rw [rejections_verdicts, hf]
  rfl

theorem Repairs.mem_rejections (h : s.Repairs idx k e events res) : ∀ r ∈ rejections events,
    r.1 = idx ∧ k ≤ r.2.1 ∧ ∃ e', s.Leads idx k e r.2.1 e' ∧ s.rejects idx e' r.2.1 = some r.2.2 := by
  induction h with
  | accept hnone => simp [rejections_of_none hnone]
  | refused hf _ =>
    simp only [rejections_of_some hf, List.mem_singleton]
    rintro r rfl
    exact ⟨rfl, le_rfl, _, .refl _ _, hf⟩
  | stop hf _ _ htail =>
    simp only [rejections_append, rejections_write, rejections_of_some hf, (tail_cases htail).2.2, List.append_nil,
      List.mem_singleton]
    rintro r rfl
    exact ⟨rfl, le_rfl, _, .refl _ _, hf⟩
  | again hf _ hk hrepaired _ ih =>
    simp only [rejections_append, rejections_write, rejections_of_some hf, List.singleton_append, List.mem_cons]
    rintro r (rfl | hr)
    · exact ⟨rfl, le_rfl, _, .refl _ _, hf⟩
    · obtain ⟨hidx, hle, e', hleads, hrejects⟩ := ih r hr
      exact ⟨hidx, by omega, e', .again hf hk hrepaired hleads, hrejects⟩

theorem Repairs.pairwise (h : s.Repairs idx k e events res) : (rejections events).Pairwise Earlier := by
  induction h with
  | accept hnone => simp [rejections_of_none hnone]
  | refused hf _ => simp [rejections_of_some hf]
  | stop hf _ _ htail => simp [rejections_append, rejections_write, rejections_of_some hf, (tail_cases htail).2.2]
  | again hf _ _ _ hrest ih =>
    simp only [rejections_append, rejections_write, rejections_of_some hf, List.singleton_append, List.pairwise_cons]
    refine ⟨fun r hr => ?_, ih⟩
    obtain ⟨hidx, hle, -⟩ := hrest.mem_rejections r hr
    exact .inr ⟨hidx.symm, hle⟩

theorem Repairs.escalated (h : s.Repairs idx k e events res) : ∀ r ∈ rejections events,
    s.escalation_threshold ≤ r.2.1 → ∃ err, res = .error err := by
  induction h with
  | accept hnone => simp [rejections_of_none hnone]
  | refused _ _ => exact fun _ _ _ => ⟨_, rfl⟩
  | stop _ _ _ _ => exact fun _ _ _ => ⟨_, rfl⟩
  | again hf _ hk _ _ ih =>
    simp only [rejections_append, rejections_write, rejections_of_some hf, List.singleton_append, List.mem_cons]
    rintro r (rfl | hr) hle
    · exact absurd hle (Nat.not_le.mpr hk)
    · exact ih r hr hle

/-- What is written besides the diagnostics is the report, and only in a run that fails. -/
theorem Repairs.writes_eq (h : s.Repairs idx k e events res) (hunrefused : Unrefused s events) :
    ∃ tail : List (Path × String), writes events = (rejections events).map (diagnostic s) ++ tail ∧
      (∀ w ∈ tail, w.1 = reportPath s.library) ∧ ∀ e', res = .ok e' → tail = [] := by
  induction h with
  | accept hnone => exact ⟨[], by simp [writes_verdicts, rejections_of_none hnone], by simp, fun _ _ => rfl⟩
  | refused hf hrefused =>
    have := hunrefused _ (by rw [rejections_of_some hf]; exact List.mem_singleton_self _)
    rw [hrefused] at this
    cases this
  | stop hf _ _ htail =>
    simp only [writes_append, writes_write, writes_verdicts, rejections_append, rejections_write, rejections_of_some hf,
      (tail_cases htail).2.2]
    refine ⟨writes _, rfl, ?_, by rintro _ ⟨⟩⟩
    rcases htail with rfl | ⟨text, rfl⟩
    · simp [writes]
    · simp [writes]
  | again hf _ _ _ _ ih =>
    have hrest := ih fun r hr => hunrefused r (by simp [rejections_append, rejections_write, hr])
    obtain ⟨tail, hwrites, htail, hok⟩ := hrest
    refine ⟨tail, ?_, htail, hok⟩
    simp [writes_append, writes_write, writes_verdicts, rejections_append, rejections_write, rejections_of_some hf,
        hwrites,
      diagnostic]

/-- Where no diagnostic is refused, every rejection that the emissions lead to happens. -/
theorem Repairs.complete (h : s.Repairs idx k e events res) (hunrefused : Unrefused s events) {k' : Nat}
    {e' : FunctionTranslation} (hleads : s.Leads idx k e k' e') :
    (∀ f, s.rejects idx e' k' = some f → (idx, k', f) ∈ rejections events) ∧
      (s.rejects idx e' k' = none → ∃ e₁, res = .ok e₁) := by
  induction h with
  | accept hnone =>
    cases hleads with
    | refl => exact ⟨fun f hf => by simp [hnone] at hf, fun _ => ⟨_, rfl⟩⟩
    | again hf => simp [hnone] at hf
  | refused hf hrefused =>
    have := hunrefused _ (by rw [rejections_of_some hf]; exact List.mem_singleton_self _)
    rw [hrefused] at this
    cases this
  | stop hf _ hstop _ =>
    cases hleads with
    | refl =>
      refine ⟨fun f' hf' => ?_, fun hnone => by simp [hf] at hnone⟩
      obtain rfl : _ = f' := Option.some.inj (hf.symm.trans hf')
      simp [rejections_append, rejections_of_some hf]
    | again hf' hk hrepaired _ =>
      obtain rfl := Option.some.inj (hf.symm.trans hf')
      rcases hstop with hle | ⟨err, herr⟩
      · exact absurd hle (Nat.not_le.mpr hk)
      · rw [hrepaired] at herr
        cases herr
  | again hf _ _ hrepaired _ ih =>
    cases hleads with
    | refl =>
      refine ⟨fun f' hf' => ?_, fun hnone => by simp [hf] at hnone⟩
      obtain rfl : _ = f' := Option.some.inj (hf.symm.trans hf')
      simp [rejections_append, rejections_of_some hf]
    | again hf' _ hrepaired' hleads =>
      obtain rfl := Option.some.inj (hf.symm.trans hf')
      obtain rfl := Except.ok.inj (hrepaired.symm.trans hrepaired')
      obtain ⟨hmem, hok⟩ :=
        ih (fun r hr => hunrefused r (by simp [rejections_append, rejections_write, hr])) hleads
      exact ⟨fun f hf => by simp [rejections_append, rejections_write, hmem f hf], hok⟩

theorem Repairs.converges {e' : FunctionTranslation} (h : s.Repairs idx k e events res) (hres : res = .ok e') :
    ∃ k' e₁, s.Leads idx k e k' e₁ ∧ s.rejects idx e₁ k' = none := by
  induction h with
  | accept hnone => exact ⟨_, _, .refl _ _, hnone⟩
  | refused _ _ => cases hres
  | stop _ _ _ _ => cases hres
  | again hf _ hk hrepaired _ ih =>
    obtain ⟨k', e₁, hleads, hnone⟩ := ih hres
    exact ⟨k', e₁, .again hf hk hrepaired hleads, hnone⟩

theorem verdicts_no_crate (idx : Nat) (e : FunctionTranslation) (k : Nat) :
    .crate ∉ s.verdicts idx e k ∧ .manifest ∉ s.verdicts idx e k := by
  simp only [verdicts]
  split <;> simp

theorem Repairs.no_crate (h : s.Repairs idx k e events res) : .crate ∉ events ∧ .manifest ∉ events := by
  induction h with
  | accept _ => exact verdicts_no_crate _ _ _
  | refused _ _ => exact verdicts_no_crate _ _ _
  | stop _ _ _ htail => rcases htail with rfl | ⟨text, rfl⟩ <;> simp [verdicts_no_crate]
  | again _ _ _ _ _ ih => simp [verdicts_no_crate, ih]

theorem Leads.rejects_first {k' : Nat} {e' : FunctionTranslation} {f : GateFailure} (h : s.Leads idx k e k' e')
    (hf : s.rejects idx e' k' = some f) : s.rejects idx e k ≠ none := by
  cases h with
  | refl => simp [hf]
  | again hf' => simp [hf']

theorem Leads.name (hnames : s.Names) {k' : Nat} {e' : FunctionTranslation} (h : s.Leads idx k e k' e') :
    e'.name = e.name := by
  induction h with
  | refl => rfl
  | again hf _ hrepaired _ ih =>
    rw [ih]
    simp only [repaired, repairTranslation] at hrepaired
    generalize s.dispatch idx _ = answer at hrepaired
    cases answer with
    | error err => cases hrepaired
    | ok a =>
      cases hrepaired
      exact (names_rejects hnames hf).1

/-! ## Runs over the functions -/

section runs

variable {functions : List FunctionTranslation} {out : Except TranslatorError (List FunctionTranslation)}

theorem Runs.behaviorCalls_before (h : s.Runs idx functions events out) {j : Nat} (hj : j < idx) :
    behaviorCalls j events = [] ∧ perfCalls j events = [] := by
  induction h with
  | nil _ => exact ⟨rfl, rfl⟩
  | stop hstop => exact hstop.elsewhere hj.ne
  | next hnext _ ih =>
    obtain ⟨hb, hp⟩ := hnext.elsewhere hj.ne
    obtain ⟨hb', hp'⟩ := ih (hj.trans (Nat.lt_succ_self _))
    simp [behaviorCalls_append, perfCalls_append, hb, hp, hb', hp']

theorem Runs.attempts (h : s.Runs idx functions events out) (hthreshold : 1 ≤ s.escalation_threshold) (j : Nat) :
    ∃ m ≤ s.escalation_threshold, (behaviorCalls j events).map (fun c => c.2.1) = List.range' 1 m := by
  induction h with
  | nil _ => exact ⟨0, by omega, rfl⟩
  | @stop idx e _ events err hstop =>
    by_cases hj : j = idx
    · obtain ⟨m, hm, hle⟩ := hstop.attempts hthreshold
      exact ⟨m, by omega, hj ▸ hm⟩
    · exact ⟨0, by omega, by rw [(hstop.elsewhere hj).1]; rfl⟩
  | @next idx e e' _ events rest res hnext hrest ih =>
    rw [behaviorCalls_append]
    by_cases hj : j = idx
    · obtain ⟨m, hm, hle⟩ := hnext.attempts hthreshold
      refine ⟨m, by omega, ?_⟩
      rw [(hrest.behaviorCalls_before (by omega)).1, List.append_nil]
      exact hj ▸ hm
    · rw [(hnext.elsewhere hj).1, List.nil_append]
      exact ih

theorem Runs.accepted (h : s.Runs idx functions events out) : ∀ emitted, out = .ok emitted →
    emitted.length = functions.length ∧ ∀ j e, emitted[j]? = some e →
      ∃ k, (behaviorCalls (idx + j) events).getLast? = some (e, k, .Accept) ∧
        (perfCalls (idx + j) events).getLast? = some (e, k, .Accept) := by
  induction h with
  | nil _ =>
    rintro emitted ⟨⟩
    exact ⟨rfl, by simp⟩
  | stop _ => rintro emitted ⟨⟩
  | @next idx e e' _ events rest res hnext hrest ih =>
    intro emitted hemitted
    cases res with
    | error err => cases hemitted
    | ok functions' =>
      cases hemitted
      obtain ⟨hlength, hlast⟩ := ih functions' rfl
      refine ⟨by simp [hlength], fun j e₁ he₁ => ?_⟩
      cases j with
      | zero =>
        obtain rfl : e' = e₁ := by simpa using he₁
        obtain ⟨k, hb, hp⟩ := hnext.accepted rfl
        obtain ⟨hb', hp'⟩ := hrest.behaviorCalls_before (Nat.lt_succ_self idx)
        exact ⟨k, by simpa [behaviorCalls_append, hb'] using hb, by simpa [perfCalls_append, hp'] using hp⟩
      | succ j =>
        obtain ⟨k, hb, hp⟩ := hlast j e₁ (by simpa using he₁)
        rw [Nat.add_assoc, Nat.add_comm 1 j] at hb hp
        exact ⟨k, by simp [behaviorCalls_append, List.getLast?_append, hb],
          by simp [perfCalls_append, List.getLast?_append, hp]⟩

/-- A rejection comes from an emission that the first one leads to, with every function before accepted. -/
theorem Runs.mem_rejections (h : s.Runs idx functions events out) : ∀ r ∈ rejections events,
    ∃ j e e', r.1 = idx + j ∧ functions[j]? = some e ∧ s.Leads r.1 1 e r.2.1 e' ∧ s.rejects r.1 e' r.2.1 = some r.2.2 ∧
      ∀ i < j, ∀ e₀, functions[i]? = some e₀ → s.Converges (idx + i) e₀ := by
  induction h with
  | nil _ => simp [rejections]
  | @stop idx e _ events err hstop =>
    intro r hr
    obtain ⟨rfl, -, e', hleads, hrejects⟩ := hstop.mem_rejections r hr
    exact ⟨0, e, e', rfl, rfl, hleads, hrejects, by simp⟩
  | @next idx e e' _ events rest res hnext hrest ih =>
    intro r hr
    rw [rejections_append, List.mem_append] at hr
    rcases hr with hr | hr
    · obtain ⟨rfl, -, e₁, hleads, hrejects⟩ := hnext.mem_rejections r hr
      exact ⟨0, e, e₁, rfl, rfl, hleads, hrejects, by simp⟩
    · obtain ⟨j, e₁, e₂, hidx, he₁, hleads, hrejects, hbefore⟩ := ih r hr
      refine ⟨j + 1, e₁, e₂, by omega, he₁, hleads, hrejects, fun i hi e₀ he₀ => ?_⟩
      cases i with
      | zero =>
        obtain rfl : e = e₀ := by simpa using he₀
        exact hnext.converges rfl
      | succ i =>
        have := hbefore i (by omega) e₀ he₀
        rwa [Nat.add_assoc, Nat.add_comm 1 i] at this

theorem Runs.pairwise (h : s.Runs idx functions events out) : (rejections events).Pairwise Earlier := by
  induction h with
  | nil _ => exact List.Pairwise.nil
  | stop hstop => exact hstop.pairwise
  | next hnext hrest ih =>
    rw [rejections_append, List.pairwise_append]
    refine ⟨hnext.pairwise, ih, fun a ha b hb => ?_⟩
    obtain ⟨hidx, -⟩ := hnext.mem_rejections a ha
    obtain ⟨j, -, -, hidx', -⟩ := hrest.mem_rejections b hb
    exact .inl (by omega)

theorem Runs.escalated (h : s.Runs idx functions events out) : ∀ r ∈ rejections events,
    s.escalation_threshold ≤ r.2.1 → ∃ err, out = .error err := by
  induction h with
  | nil _ => simp [rejections]
  | stop _ => exact fun _ _ _ => ⟨_, rfl⟩
  | next hnext _ ih =>
    intro r hr hle
    rw [rejections_append, List.mem_append] at hr
    rcases hr with hr | hr
    · obtain ⟨err, herr⟩ := hnext.escalated r hr hle
      cases herr
    · obtain ⟨err, rfl⟩ := ih r hr hle
      exact ⟨err, rfl⟩

theorem Runs.writes_eq (h : s.Runs idx functions events out) (hunrefused : Unrefused s events) :
    ∃ tail : List (Path × String), writes events = (rejections events).map (diagnostic s) ++ tail ∧
      ∀ w ∈ tail, w.1 = reportPath s.library := by
  induction h with
  | nil _ => exact ⟨[], rfl, by simp⟩
  | stop hstop =>
    obtain ⟨tail, hwrites, htail, -⟩ := hstop.writes_eq hunrefused
    exact ⟨tail, hwrites, htail⟩
  | next hnext _ ih =>
    obtain ⟨tail, hwrites, -, hok⟩ := hnext.writes_eq fun r hr => hunrefused r (by simp [rejections_append, hr])
    obtain ⟨tail', hwrites', htail'⟩ := ih fun r hr => hunrefused r (by simp [rejections_append, hr])
    obtain rfl := hok _ rfl
    exact ⟨tail', by simp [writes_append, rejections_append, hwrites, hwrites'], htail'⟩

/-- Where no diagnostic is refused, every rejection of a function that the run comes to happens. -/
theorem Runs.complete (h : s.Runs idx functions events out) (hunrefused : Unrefused s events) {j : Nat}
    {e e' : FunctionTranslation} {k : Nat} {f : GateFailure} (he : functions[j]? = some e)
    (hbefore : ∀ i < j, ∀ e₀, functions[i]? = some e₀ → s.Converges (idx + i) e₀)
    (hleads : s.Leads (idx + j) 1 e k e') (hf : s.rejects (idx + j) e' k = some f) :
    (idx + j, k, f) ∈ rejections events := by
  induction h generalizing j with
  | nil _ => simp at he
  | @stop idx e₁ _ events err hstop =>
    cases j with
    | zero =>
      obtain rfl : e₁ = e := by simpa using he
      exact (hstop.complete hunrefused hleads).1 f hf
    | succ j =>
      obtain ⟨k₁, e₂, hleads₁, hnone⟩ := hbefore 0 (Nat.succ_pos j) e₁ rfl
      obtain ⟨e₃, herr⟩ := (hstop.complete hunrefused hleads₁).2 hnone
      cases herr
  | @next idx e₁ e₂ _ events rest res hnext _ ih =>
    rw [rejections_append, List.mem_append]
    cases j with
    | zero =>
      obtain rfl : e₁ = e := by simpa using he
      exact .inl ((hnext.complete (fun r hr => hunrefused r (by simp [rejections_append, hr])) hleads).1 f hf)
    | succ j =>
      have hshift : idx + (j + 1) = idx + 1 + j := by omega
      rw [hshift] at hleads hf ⊢
      refine .inr (ih (fun r hr => hunrefused r (by simp [rejections_append, hr])) (by simpa using he) ?_ hleads hf)
      intro i hi e₀ he₀
      have := hbefore (i + 1) (by omega) e₀ (by simpa using he₀)
      rwa [Nat.add_assoc, Nat.add_comm 1 i]

theorem Runs.no_crate (h : s.Runs idx functions events out) : .crate ∉ events ∧ .manifest ∉ events := by
  induction h with
  | nil _ => simp
  | stop hstop => exact hstop.no_crate
  | next hnext _ ih => simp [hnext.no_crate, ih]

theorem Repairs.mem_writes (h : s.Repairs idx k e events res) : ∀ w ∈ writes events, w.1 = reportPath s.library ∨
    ∃ r ∈ rejections events, w.1 = r.2.2.path s.library ∧ s.refuses w.1 = none := by
  induction h with
  | accept _ => simp [writes_verdicts]
  | refused _ _ => simp [writes_verdicts]
  | @stop k e f _ _ hf hwritten _ htail =>
    intro w hw
    simp only [writes_append, writes_write, writes_verdicts, List.nil_append, List.mem_cons] at hw
    rcases hw with rfl | hw
    · exact .inr ⟨(idx, k, f), by simp [rejections_append, rejections_of_some hf], rfl, hwritten⟩
    · rcases htail with rfl | ⟨text, rfl⟩
      · cases hw
      · exact .inl (by simp [writes] at hw; simp [hw])
  | @again k e _ f _ _ hf hwritten _ _ _ ih =>
    intro w hw
    simp only [writes_append, writes_write, writes_verdicts, List.nil_append, List.mem_cons] at hw
    rcases hw with rfl | hw
    · exact .inr ⟨(idx, k, f), by simp [rejections_append, rejections_of_some hf], rfl, hwritten⟩
    · refine (ih w hw).imp_right ?_
      rintro ⟨r, hr, hpath⟩
      exact ⟨r, by simp [rejections_append, rejections_write, hr], hpath⟩

theorem Runs.mem_writes (h : s.Runs idx functions events out) : ∀ w ∈ writes events, w.1 = reportPath s.library ∨
    ∃ r ∈ rejections events, w.1 = r.2.2.path s.library ∧ s.refuses w.1 = none := by
  induction h with
  | nil _ => simp [writes]
  | stop hstop => exact hstop.mem_writes
  | next hnext _ ih =>
    intro w hw
    rw [writes_append, List.mem_append] at hw
    rw [rejections_append]
    rcases hw with hw | hw
    · exact (hnext.mem_writes w hw).imp_right (Exists.imp fun _ => And.imp_left (List.mem_append_left _))
    · exact (ih w hw).imp_right (Exists.imp fun _ => And.imp_left (List.mem_append_right _))

end runs

end Pipeline

theorem underscore_not_mem_digits (n : Nat) : '_' ∉ Nat.toDigits 10 n := fun h =>
  absurd (Text.isDigit_of_mem_toDigits h) (by decide)

/-- A file name gives back the attempt and the name as it was sanitised. -/
theorem fileName_inj {f g : GateFailure} (h : f.fileName = g.fileName) :
    sanitize f.function = sanitize g.function ∧ f.attempt = g.attempt := by
  simp only [GateFailure.fileName] at h
  have hdigits := List.append_cancel_right (String.ofList_injective h)
  have hcut (f : GateFailure) :
      Text.splitOnce '_' ((sanitize f.function).toList ++ "__".toList ++ Nat.toDigits 10 f.attempt).reverse =
      some ((Nat.toDigits 10 f.attempt).reverse, '_' :: (sanitize f.function).toList.reverse) := by
    have hrev : ((sanitize f.function).toList ++ "__".toList ++ Nat.toDigits 10 f.attempt).reverse =
        (Nat.toDigits 10 f.attempt).reverse ++ '_' :: '_' :: (sanitize f.function).toList.reverse := by simp
    rw [hrev]
    exact Text.splitOnce_append fun h => underscore_not_mem_digits f.attempt (List.mem_reverse.mp h)
  have hsplit := hcut f
  rw [hdigits, hcut g] at hsplit
  simp only [Option.some.injEq, Prod.mk.injEq, List.reverse_inj, List.cons.injEq, true_and] at hsplit
  refine ⟨String.toList_inj.mp hsplit.2.symm, ?_⟩
  have := congrArg Text.parseDigits hsplit.1.symm
  simpa [Text.parseDigits_toDigits] using this

theorem path_inj {library : String} {f g : GateFailure} (h : f.path library = g.path library) :
    sanitize f.function = sanitize g.function ∧ f.attempt = g.attempt := by
  simp only [GateFailure.path, List.cons.injEq, and_true, true_and] at h
  exact fileName_inj h

theorem path_ne_reportPath (library : String) (f : GateFailure) : f.path library ≠ reportPath library := by
  simp [GateFailure.path, reportPath]

theorem path_congr {library : String} {f g : GateFailure} (hname : sanitize f.function = sanitize g.function)
    (hattempt : f.attempt = g.attempt) : f.path library = g.path library := by
  simp only [GateFailure.path, GateFailure.fileName, hname, hattempt]

/-! ## Honest runs and names -/

section honest

open Pipeline

variable {s : Pipeline} {functions : List FunctionTranslation} {events : List Event}
  {out : Except TranslatorError (List FunctionTranslation)}

theorem runRepairLoop_runs (hnames : s.Names) (functions : List FunctionTranslation) :
    ∃ out, s.Runs 0 functions (runRepairLoop s functions).2 out ∧
      (∀ err, out = .error err → (runRepairLoop s functions).1 = .error err) ∧
      ∀ r, (runRepairLoop s functions).1 = .ok r → out = .ok r.functions ∧
        r.router_decision_ids = r.functions.map FunctionTranslation.router_decision_id ∧
        r.divergences = (behaviorRejections (runRepairLoop s functions).2).map s.renderDivergence := by
  obtain ⟨events, out, hruns, hevents, hdivergences, hout, hok⟩ :=
    repairFunctions_runs hnames functions [] (.start functions) rfl rfl
  simp only [List.length_nil, List.nil_append] at hruns hevents hdivergences hout hok
  simp only [runRepairLoop]
  generalize s.repairFunctions 0 functions.length (.start functions) = ended at hevents hdivergences hout hok
  obtain ⟨result, p⟩ := ended
  have hevents' : p.events = events := hevents
  subst hevents'
  refine ⟨out, ?_⟩
  cases out with
  | error err =>
    obtain rfl : result = .error err := hout
    refine ⟨hruns, ?_, by rintro r ⟨⟩⟩
    rintro err' ⟨⟩
    rfl
  | ok emitted =>
    obtain rfl : result = .ok () := hout
    obtain ⟨hfunctions, hids⟩ := hok emitted rfl
    have hdivergences' : p.observed_divergences = (behaviorRejections p.events).map s.renderDivergence := hdivergences
    refine ⟨hruns, by rintro err ⟨⟩, ?_⟩
    rintro r ⟨⟩
    exact ⟨congrArg Except.ok hfunctions.symm, hids.trans (by rw [hfunctions]), hdivergences'⟩

theorem translateWithVerifiers_of_error {err : TranslatorError} (h : (runRepairLoop s functions).1 = .error err) :
    translateWithVerifiers s functions = (.error err, (runRepairLoop s functions).2) := by
  rw [translateWithVerifiers]
  generalize runRepairLoop s functions = run at h
  obtain ⟨result, events⟩ := run
  obtain rfl : result = .error err := h
  rfl

/-- The rejections of a run, by the functions they are about. -/
theorem rejection_of_run (hnames : s.Names) (hruns : s.Runs 0 functions events out) {r : Nat × Nat × GateFailure}
    (hr : r ∈ rejections events) : ∃ e, functions[r.1]? = some e ∧ s.ComesTo functions r.1 ∧ s.rejects r.1 e 1 ≠ none ∧
      r.2.2.function = e.name ∧ r.2.2.attempt = r.2.1 + 1 ∧
      ∃ e', s.Leads r.1 1 e r.2.1 e' ∧ s.rejects r.1 e' r.2.1 = some r.2.2 := by
  obtain ⟨j, e, e', hidx, he, hleads, hrejects, hbefore⟩ := hruns.mem_rejections r hr
  simp only [Nat.zero_add] at hidx hbefore
  obtain ⟨hname, hattempt⟩ := names_rejects hnames hrejects
  exact ⟨e, hidx ▸ he, hidx ▸ hbefore, hleads.rejects_first hrejects, hname.trans (hleads.name hnames), hattempt,
    e', hleads, hrejects⟩

theorem paths_nodup (hnames : s.Names) (hruns : s.Runs 0 functions events out) (hapart : s.DiagnosticsApart functions) :
    ((rejections events).map fun r => r.2.2.path s.library).Nodup := by
  rw [List.Nodup, List.pairwise_map]
  refine hruns.pairwise.imp_of_mem fun {a b} ha hb hab heq => ?_
  obtain ⟨e, he, -, hfirst, hname, hattempt, -⟩ := rejection_of_run hnames hruns ha
  obtain ⟨e', he', hcomes, hfirst', hname', hattempt', -⟩ := rejection_of_run hnames hruns hb
  obtain ⟨hsanitized, hattempts⟩ := path_inj heq
  rcases hab with hlt | ⟨-, hlt⟩
  · exact hapart.names a.1 b.1 e e' hlt he he' hcomes hfirst hfirst' (by rw [← hname, ← hname', hsanitized])
  · omega

theorem lookup_of_nodup {l : List (Path × String)} (hnodup : (l.map Prod.fst).Nodup) {path : Path} {text : String}
    (h : (path, text) ∈ l) : l.lookup path = some text := by
  obtain ⟨before, after, rfl⟩ := List.append_of_mem h
  refine List.lookup_eq_some_iff.mpr ⟨before, after, rfl, fun w hw => ?_⟩
  rw [List.map_append, List.map_cons, List.nodup_append] at hnodup
  simpa using (hnodup.2.2 w.1 (List.mem_map_of_mem hw) path List.mem_cons_self).symm

theorem disk_diagnostic {tail : List (Path × String)} (hwrites : writes events =
    (rejections events).map (diagnostic s) ++ tail)
    (htail : ∀ w ∈ tail, w.1 = reportPath s.library)
    (hnodup : ((rejections events).map fun r => r.2.2.path s.library).Nodup) {r : Nat × Nat × GateFailure}
    (hr : r ∈ rejections events) : disk events (r.2.2.path s.library) = some (s.toml r.2.2) := by
  have hreport : tail.reverse.lookup (r.2.2.path s.library) = none := by
    rw [List.lookup_eq_none_iff]
    intro w hw
    rw [htail w (List.mem_reverse.mp hw)]
    simpa using path_ne_reportPath s.library r.2.2
  rw [disk, hwrites, List.reverse_append, List.lookup_append, hreport, Option.none_or]
  refine lookup_of_nodup ?_ ?_
  · rw [List.map_reverse, List.nodup_reverse, List.map_map]
    exact hnodup
  · rw [List.mem_reverse]
    exact List.mem_map_of_mem hr

theorem run_honest_of_apart (hnames : s.Names) (hthreshold : 1 ≤ s.escalation_threshold)
    (hapart : s.DiagnosticsApart functions) :
    RunHonest s functions (runRepairLoop s functions) (translateWithVerifiers s functions) := by
  obtain ⟨out, hruns, herror, hok⟩ := runRepairLoop_runs hnames functions
  have hunrefused : s.Unrefused (runRepairLoop s functions).2 := by
    intro r hr
    obtain ⟨e, he, hcomes, -, -, -, e', hleads, hrejects⟩ := rejection_of_run hnames hruns hr
    exact hapart.accepted r.1 e he hcomes r.2.1 e' r.2.2 hleads hrejects
  have hnodup := paths_nodup hnames hruns hapart
  obtain ⟨tail, hwrites, htail⟩ := hruns.writes_eq hunrefused
  constructor
  · intro r hr
    obtain ⟨hout, -, -⟩ := hok r hr
    simpa using hruns.accepted r.functions hout
  · exact hruns.attempts hthreshold
  · exact fun r hr => (hok r hr).2.2
  · exact hnodup
  · exact fun r hr => disk_diagnostic hwrites htail hnodup hr
  · exact fun r hr => (hok r hr).2.1
  · intro r hr hle
    obtain ⟨err, herr⟩ := hruns.escalated r hr hle
    rw [translateWithVerifiers_of_error (herror err herr)]
    exact ⟨⟨err, rfl⟩, hruns.no_crate⟩

theorem apart_of_run_honest (hnames : s.Names)
    (h : RunHonest s functions (runRepairLoop s functions) (translateWithVerifiers s functions)) :
    s.DiagnosticsApart functions := by
  obtain ⟨out, hruns, -, -⟩ := runRepairLoop_runs hnames functions
  have hunrefused : s.Unrefused (runRepairLoop s functions).2 := by
    intro r hr
    have hkept := h.diagnostics_kept r hr
    obtain ⟨later, earlier, hsplit, -⟩ := List.lookup_eq_some_iff.mp hkept
    have hmem : (r.2.2.path s.library, s.toml r.2.2) ∈ writes (runRepairLoop s functions).2 := by
      rw [← List.mem_reverse, hsplit]
      simp
    rcases hruns.mem_writes _ hmem with hreport | ⟨-, -, -, hwritten⟩
    · exact absurd hreport (path_ne_reportPath s.library r.2.2)
    · exact hwritten
  have hcomplete {j k : Nat} {e e' : FunctionTranslation} {f : GateFailure} (he : functions[j]? = some e)
      (hcomes : s.ComesTo functions j) (hleads : s.Leads j 1 e k e') (hf : s.rejects j e' k = some f) :
      (j, k, f) ∈ rejections (runRepairLoop s functions).2 := by
    have := hruns.complete (j := j) hunrefused he (fun i hi e₀ he₀ => by rw [Nat.zero_add]; exact hcomes i hi e₀ he₀)
      (by rw [Nat.zero_add]; exact hleads) (by rw [Nat.zero_add]; exact hf)
    rwa [Nat.zero_add] at this
  constructor
  · intro idx e he hcomes k e' f hleads hf
    exact hunrefused (idx, k, f) (hcomplete he hcomes hleads hf)
  · intro i j e e' hlt he he' hcomes hfirst hfirst' hsame
    obtain ⟨f, hf⟩ := Option.ne_none_iff_exists'.mp hfirst
    obtain ⟨g, hg⟩ := Option.ne_none_iff_exists'.mp hfirst'
    have hmem := hcomplete he (fun l hl => hcomes l (hl.trans hlt)) (.refl 1 e) hf
    have hmem' := hcomplete he' hcomes (.refl 1 e') hg
    obtain ⟨hname, hattempt⟩ := names_rejects hnames hf
    obtain ⟨hname', hattempt'⟩ := names_rejects hnames hg
    have hpath : f.path s.library = g.path s.library :=
      path_congr (by rw [hname, hname', hsame]) (hattempt.trans hattempt'.symm)
    have := List.inj_on_of_nodup_map h.diagnostics_apart hmem hmem' hpath
    simp only [Prod.mk.injEq] at this
    omega

end honest

/-- A run is honest exactly when the diagnostics of the rejected functions it comes to can be written and no two of
these functions have names that sanitise alike. -/
theorem run_honest_iff (s : Pipeline) (hnames : s.Names) (hthreshold : 1 ≤ s.escalation_threshold)
    (functions : List FunctionTranslation) :
    RunHonest s functions (runRepairLoop s functions) (translateWithVerifiers s functions) ↔
        s.DiagnosticsApart functions :=
  ⟨apart_of_run_honest hnames, run_honest_of_apart hnames hthreshold⟩

/-- Two functions of the names given. -/
def sampleFunctions (a b : String) : List FunctionTranslation :=
  [⟨a, "", "p", "m", false, "0", "", "translate"⟩, ⟨b, "", "p", "m", false, "0", "", "translate"⟩]

/-- Every function is rejected once and its repair is accepted. -/
def samplePipeline : Pipeline where
  library := "tomli"
  source_sha16 := ""
  escalation_threshold := 2
  behavior _ e k := if k = 1 then .Reject ⟨e.name, .Behavior, "", [], none, none, k + 1⟩ else .Accept
  perf _ _ _ := .Accept
  behavior_default := .Skip ""
  perf_default := .Skip ""
  dispatch _ _ := .ok ⟨"p", "m", false, "1", ""⟩
  refuses _ := none
  toml f := f.function
  debug t := t

theorem samplePipeline_names : samplePipeline.Names where
  behavior := by
    intro idx e k f h
    simp only [samplePipeline] at h
    split at h
    · cases h
      exact ⟨rfl, rfl, rfl⟩
    · cases h
  perf := by
    rintro idx e k f ⟨⟩

theorem run_honest_iff_apart :
    RunHonest samplePipeline (sampleFunctions "load" "loads")
        (runRepairLoop samplePipeline (sampleFunctions "load" "loads"))
      (translateWithVerifiers samplePipeline (sampleFunctions "load" "loads")) := by
  refine (run_honest_iff samplePipeline samplePipeline_names (by decide) _).mpr ⟨fun _ _ _ _ _ _ _ _ _ => rfl, ?_⟩
  intro i j e e' hlt he he'
  obtain ⟨rfl, rfl⟩ : i = 0 ∧ j = 1 := by
    have := (List.getElem?_eq_some_iff.mp he').1
    simp only [sampleFunctions, List.length_cons, List.length_nil] at this
    omega
  cases he
  cases he'
  intros
  decide

/-- Both rejected functions have their diagnostic in `a_b__2.toml`. -/
theorem shared_diagnostic :
    ¬ RunHonest samplePipeline (sampleFunctions "a.b" "a_b")
        (runRepairLoop samplePipeline (sampleFunctions "a.b" "a_b"))
      (translateWithVerifiers samplePipeline (sampleFunctions "a.b" "a_b")) := by
  intro h
  refine (apart_of_run_honest samplePipeline_names h).names 0 1 _ _ (by decide) rfl rfl ?_
    (by simp [Pipeline.rejects, samplePipeline])
    (by simp [Pipeline.rejects, samplePipeline]) (by decide)
  intro i hi e he
  obtain rfl : i = 0 := by omega
  refine ⟨2, _, .again rfl (by decide) rfl (.refl _ _), rfl⟩

end Cobrust.Translate
