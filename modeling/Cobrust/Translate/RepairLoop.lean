import Cobrust.Text.Split

/-!
# The repair loop

`run_repair_loop` and the end of `translate_with_verifiers` of `cobrust-translator/src/pipeline.rs`, with
`GateFailure::write` and the repair of `cobrust-translator/src/repair.rs`. The verdicts of both gates and what the
router answers to a repair are given for every function and attempt, and so is which writes the file system refuses.
The first emissions are those of `run_l1`, whose decision ids stand in the emissions. The text of a blob and the quoted
form of a string are parameters.

* `runRepairLoop`: the loop over the functions, with what happens in order.
* `RunHonest`: the emissions, the attempts, the divergences, the diagnostics and the decision ids are as they should be.
* `DiagnosticsApart`: the rejected functions that the loop comes to have names that stay different, and their
  diagnostics can be written.
-/

namespace Cobrust.Translate

inductive GateKind where
  | Build
  | Behavior
  | Perf
  deriving DecidableEq, Repr

def GateKind.asStr : GateKind → String
  | .Build => "l2_build"
  | .Behavior => "l2_behavior"
  | .Perf => "l2_perf"

structure GateFailure where
  function : String
  failed_gate : GateKind
  failure_summary : String
  failed_inputs : List String
  expected : Option String
  actual : Option String
  attempt : Nat
  deriving DecidableEq, Repr

inductive VerifierVerdict where
  | Accept
  | Reject (failure : GateFailure)
  deriving DecidableEq, Repr

inductive PerfVerdict where
  | Accept
  | Reject (failure : GateFailure)
  deriving DecidableEq, Repr

structure FunctionTranslation where
  name : String
  source_sha16 : String
  provider : String
  model : String
  cache_hit : Bool
  router_decision_id : String
  emitted_text : String
  task : String
  deriving DecidableEq, Repr

inductive GateOutcome where
  | Pass (detail : String)
  | Fail (reason : String)
  | Skip (reason : String)
  deriving DecidableEq, Repr

inductive TranslatorError where
  | EscalationExceeded (function : String) (attempts : Nat) (failed_gate : GateKind)
  | Io (message : String)
  | SyntheticMiss (task function : String)
  | Router (message : String)
  /-- An index that is out of range. -/
  | panic
  deriving DecidableEq, Repr

abbrev Path := List String

/-- What the router answers to a repair request. -/
structure RouterAnswer where
  provider : String
  model : String
  cache_hit : Bool
  decision_id : String
  text : String

/-- What the pipeline is run with and what it meets. -/
structure Pipeline where
  library : String
  source_sha16 : String
  escalation_threshold : Nat
  /-- The verdict on the emission of a function, given by its index, at an attempt. -/
  behavior : Nat → FunctionTranslation → Nat → VerifierVerdict
  perf : Nat → FunctionTranslation → Nat → PerfVerdict
  behavior_default : GateOutcome
  perf_default : GateOutcome
  dispatch : Nat → GateFailure → Except TranslatorError RouterAnswer
  /-- The error of the file system for a write to a path. -/
  refuses : Path → Option String
  /-- `toml::to_string_pretty` -/
  toml : GateFailure → String
  /-- The form of a string under `{:?}`. -/
  debug : String → String

inductive Event where
  | behavior (idx : Nat) (emission : FunctionTranslation) (attempt : Nat) (verdict : VerifierVerdict)
  | perf (idx : Nat) (emission : FunctionTranslation) (attempt : Nat) (verdict : PerfVerdict)
  | write (path : Path) (text : String)
  /-- `write_crate` -/
  | crate
  /-- The write of `PROVENANCE.toml`. -/
  | manifest
  deriving DecidableEq, Repr

/-! ## Names and texts -/

def sanitizeChar (c : Char) : Char :=
  if c.isAlphanum || c == '_' then c else '_'

def sanitize (name : String) : String :=
  String.ofList (name.toList.map sanitizeChar)

def GateFailure.fileName (f : GateFailure) : String :=
  String.ofList ((sanitize f.function).toList ++ "__".toList ++ Nat.toDigits 10 f.attempt ++ ".toml".toList)

/-- `<out_dir>/<library>/diagnostics/<function>__<attempt>.toml` -/
def GateFailure.path (library : String) (f : GateFailure) : Path :=
  [library, "diagnostics", f.fileName]

def sourceToCobra (source : String) : String :=
  if source = "numpy" then "coil"
  else if source = "sqlite3" then "den"
  else if source = "requests" then "strike"
  else if source = "msgpack" then "scale"
  else if source = "tomli" then "nest"
  else if source = "dateutil" then "molt"
  else if source = "click" then "hood"
  else source

def cobraCrateName (source : String) : String :=
  "cobrust-" ++ sourceToCobra source

def reportPath (library : String) : Path :=
  [cobraCrateName library, "failure_report.md"]

def displayNat (n : Nat) : String :=
  String.ofList (Nat.toDigits 10 n)

def reportDiagnostic (d : GateFailure) : String :=
  "### Attempt " ++ displayNat d.attempt ++ "\n\n" ++
  "- failed-gate: `" ++ d.failed_gate.asStr ++ "`\n" ++
  "- summary: " ++ d.failure_summary ++ "\n" ++
  (if d.failed_inputs = [] then ""
    else "- failed-inputs:\n" ++ String.join (d.failed_inputs.map fun i => "  - `" ++ i ++ "`\n")) ++
  (d.expected.elim "" fun e => "- expected: `" ++ e ++ "`\n") ++
  (d.actual.elim "" fun a => "- actual: `" ++ a ++ "`\n") ++ "\n"

/-- The text of `write_failure_report`. -/
def failureReport (function : String) (failed_gate : GateKind) (attempts : Nat) (diagnostics : List GateFailure) :
    String :=
  "# Translation failure report — `" ++ function ++ "`\n\n" ++
  "Escalation threshold hit: " ++ displayNat attempts ++ " repair attempts on gate `" ++ failed_gate.asStr ++
  "`.\n\n" ++
  "Per constitution §4.2 / ADR-0008 §3, the function is marked\n" ++
  "`@py_compat(none)` and removed from the gating set. Manual review\n" ++
  "required.\n\n" ++
  "## Per-attempt diagnostics\n\n" ++
  String.join (diagnostics.map reportDiagnostic)

def clip (s : String) : String :=
  let n := s.toList.length
  if n ≤ 120 then s else String.ofList (s.toList.take 120) ++ "…(" ++ displayNat (n - 120) ++ " more)"

def u32Max : Nat :=
  2 ^ 32 - 1

namespace Pipeline

variable (s : Pipeline)

def renderDivergence (f : GateFailure) : String :=
  f.function ++ ": input=" ++ s.debug (clip (f.failed_inputs.head?.getD "<none>")) ++
  " expected=" ++ s.debug (clip (f.expected.getD "<none>")) ++ " actual=" ++ s.debug (clip (f.actual.getD "<none>")) ++
  " (gate=" ++ f.failed_gate.asStr ++ ", re-dispatched as attempt " ++ displayNat f.attempt ++ ", repaired)"

/-- `repair_translation_with_task` -/
def repairTranslation (idx : Nat) (task : String) (f : GateFailure) : Except TranslatorError FunctionTranslation :=
  (s.dispatch idx f).map fun a =>
    { name := f.function
      source_sha16 := s.source_sha16
      provider := a.provider
      model := a.model
      cache_hit := a.cache_hit
      router_decision_id := a.decision_id
      emitted_text := a.text
      task }

/-! ## The loop -/

structure Progress where
  functions : List FunctionTranslation
  router_decision_ids : List String
  total_repair_attempts : Nat
  observed_divergences : List String
  behavior_observed_reject : Bool
  perf_observed_reject : Bool
  events : List Event

/-- Both gates: the merged verdict. -/
def verify (idx : Nat) (snapshot : FunctionTranslation) (attempt : Nat) (p : Progress) : VerifierVerdict × Progress :=
  match s.behavior idx snapshot attempt with
  | .Accept =>
    match s.perf idx snapshot attempt with
    | .Accept =>
      (.Accept, { p with events := p.events ++ [.behavior idx snapshot attempt .Accept,
          .perf idx snapshot attempt .Accept] })
    | .Reject f =>
      (.Reject f, { p with
        perf_observed_reject := true
        events := p.events ++ [.behavior idx snapshot attempt .Accept, .perf idx snapshot attempt (.Reject f)] })
  | .Reject f =>
    (.Reject f, { p with
      behavior_observed_reject := true
      events := p.events ++ [.behavior idx snapshot attempt (.Reject f)] })

def Progress.observe (p : Progress) (f : GateFailure) : Progress :=
  if f.failed_gate = .Behavior then
    { p with observed_divergences := p.observed_divergences ++ [s.renderDivergence f] }
  else p

def Progress.written (p : Progress) (path : Path) (text : String) : Progress :=
  { p with events := p.events ++ [.write path text] }

/-- The emission of function `idx` is replaced, and its decision id with it. -/
def Progress.replace (p : Progress) (idx : Nat) (new_translation : FunctionTranslation) : Progress :=
  { p with
    functions := p.functions.set idx new_translation
    router_decision_ids := p.router_decision_ids.set idx new_translation.router_decision_id }

/-- The inner loop: function `idx` from `attempt` on. -/
def repairFunction (idx attempt : Nat) (diagnostics : List GateFailure) (p : Progress) :
    Except TranslatorError Unit × Progress :=
  match p.functions[idx]? with
  | none => (.error .panic, p)
  | some snapshot =>
    match s.verify idx snapshot attempt p with
    | (.Accept, p) => (.ok (), p)
    | (.Reject failure, p) =>
      let p := p.observe s failure
      match s.refuses (failure.path s.library) with
      | some e => (.error (.Io e), p)
      | none =>
        let p := p.written (failure.path s.library) (s.toml failure)
        let diagnostics := diagnostics ++ [failure]
        let p := { p with total_repair_attempts := min (p.total_repair_attempts + 1) u32Max }
        if s.escalation_threshold ≤ attempt then
          match s.refuses (reportPath s.library) with
          | some e => (.error (.Io e), p)
          | none =>
            (.error (.EscalationExceeded snapshot.name attempt failure.failed_gate),
              p.written (reportPath s.library) (failureReport snapshot.name failure.failed_gate attempt diagnostics))
        else
          match s.repairTranslation idx snapshot.task { failure with attempt := attempt + 1 } with
          | .error e => (.error e, p)
          | .ok new_translation => repairFunction idx (attempt + 1) diagnostics (p.replace idx new_translation)
termination_by s.escalation_threshold - attempt

/-- The outer loop, with `remaining` functions from `idx` on. -/
def repairFunctions (idx : Nat) : (remaining : Nat) → Progress → Except TranslatorError Unit × Progress
  | 0, p => (.ok (), p)
  | remaining + 1, p =>
    match s.repairFunction idx 1 [] p with
    | (.error e, p) => (.error e, p)
    | (.ok (), p) => repairFunctions (idx + 1) remaining p

end Pipeline

def behaviorPassDetail (library : String) (repair_attempts : Nat) : String :=
  let suffix :=
    if 0 < repair_attempts then " (after " ++ displayNat repair_attempts ++ " repair-loop iterations)" else ""
  if library = "tomli" then "tests/tomli_downstream.rs + tests/tomli_fuzz.rs" ++ suffix
  else if library = "dateutil" then "tests/dateutil_downstream.rs + tests/dateutil_fuzz.rs" ++ suffix
  else if library = "msgpack" then "tests/msgpack_downstream.rs + tests/msgpack_fuzz.rs bytes-identical" ++ suffix
  else if library = "numpy" then
    "tests/numpy_differential.rs bytes-identical for int/bool, rtol=1e-12 for float; " ++
    "tests/numpy_fuzz.rs 4200 panic-free" ++ suffix
  else "verifier accepted" ++ suffix

def perfPassDetail (library : String) : String :=
  if library = "dateutil" then
    "per-library threshold per ADR-0008 §2; report at target/cobrust-bench/dateutil/<commit>/report.json"
  else if library = "msgpack" then
    "native-ext tier ≥ 0.70× per ADR-0010 §3; report at target/cobrust-bench/msgpack/<commit>/report.json"
  else "perf verifier accepted"

structure RepairLoopResult where
  functions : List FunctionTranslation
  router_decision_ids : List String
  repair_attempts : Nat
  behavior_outcome : GateOutcome
  perf_outcome : GateOutcome
  divergences : List String
  deriving DecidableEq, Repr

/-- The state in which the emissions of `run_l1` enter the loop. -/
def Pipeline.Progress.start (functions : List FunctionTranslation) : Pipeline.Progress :=
  { functions
    router_decision_ids := functions.map FunctionTranslation.router_decision_id
    total_repair_attempts := 0
    observed_divergences := []
    behavior_observed_reject := false
    perf_observed_reject := false
    events := [] }

def runRepairLoop (s : Pipeline) (functions : List FunctionTranslation) :
    Except TranslatorError RepairLoopResult × List Event :=
  match s.repairFunctions 0 functions.length (.start functions) with
  | (.error e, p) => (.error e, p.events)
  | (.ok (), p) =>
    (.ok {
      functions := p.functions
      router_decision_ids := p.router_decision_ids
      repair_attempts := p.total_repair_attempts
      behavior_outcome :=
        if p.behavior_observed_reject then .Pass (behaviorPassDetail s.library p.total_repair_attempts)
        else s.behavior_default
      perf_outcome := if p.perf_observed_reject then .Pass (perfPassDetail s.library) else s.perf_default
      divergences := p.observed_divergences }, p.events)

/-- `translate_with_verifiers` from the repair loop on. -/
def translateWithVerifiers (s : Pipeline) (functions : List FunctionTranslation) :
    Except TranslatorError RepairLoopResult × List Event :=
  match runRepairLoop s functions with
  | (.error e, events) => (.error e, events)
  | (.ok r, events) => (.ok r, events ++ [.crate, .manifest])

/-! ## Honest runs -/

def behaviorCalls (idx : Nat) (events : List Event) : List (FunctionTranslation × Nat × VerifierVerdict) :=
  events.filterMap fun
    | .behavior i emission attempt verdict => if i = idx then some (emission, attempt, verdict) else none
    | _ => none

def perfCalls (idx : Nat) (events : List Event) : List (FunctionTranslation × Nat × PerfVerdict) :=
  events.filterMap fun
    | .perf i emission attempt verdict => if i = idx then some (emission, attempt, verdict) else none
    | _ => none

/-- The rejections of both gates, with the function and the attempt. -/
def rejections (events : List Event) : List (Nat × Nat × GateFailure) :=
  events.filterMap fun
    | .behavior idx _ attempt (.Reject f) => some (idx, attempt, f)
    | .perf idx _ attempt (.Reject f) => some (idx, attempt, f)
    | _ => none

def behaviorRejections (events : List Event) : List GateFailure :=
  events.filterMap fun
    | .behavior _ _ _ (.Reject f) => some f
    | _ => none

def writes (events : List Event) : List (Path × String) :=
  events.filterMap fun
    | .write path text => some (path, text)
    | _ => none

/-- What a file holds in the end: the last text written to it. -/
def disk (events : List Event) (path : Path) : Option String :=
  (writes events).reverse.lookup path

/-- The verdicts name the function, the gate and the next attempt. -/
structure Pipeline.Names (s : Pipeline) : Prop where
  behavior : ∀ idx e k f, s.behavior idx e k = .Reject f →
    f.function = e.name ∧ f.failed_gate = .Behavior ∧ f.attempt = k + 1
  perf : ∀ idx e k f, s.perf idx e k = .Reject f → f.function = e.name ∧ f.failed_gate = .Perf ∧ f.attempt = k + 1

/-- A run of the repair loop, with the run of the pipeline around it, is as its manifest says. -/
structure RunHonest (s : Pipeline) (functions : List FunctionTranslation)
    (loop pipeline : Except TranslatorError RepairLoopResult × List Event) : Prop where
  accepted : ∀ r, loop.1 = .ok r → r.functions.length = functions.length ∧
    ∀ idx e, r.functions[idx]? = some e → ∃ k, (behaviorCalls idx loop.2).getLast? = some (e, k, .Accept) ∧
      (perfCalls idx loop.2).getLast? = some (e, k, .Accept)
  attempts : ∀ idx, ∃ m ≤ s.escalation_threshold, (behaviorCalls idx loop.2).map (fun c => c.2.1) = List.range' 1 m
  divergences : ∀ r, loop.1 = .ok r → r.divergences = (behaviorRejections loop.2).map s.renderDivergence
  diagnostics_apart : ((rejections loop.2).map fun r => r.2.2.path s.library).Nodup
  diagnostics_kept : ∀ r ∈ rejections loop.2, disk loop.2 (r.2.2.path s.library) = some (s.toml r.2.2)
  decision_ids : ∀ r, loop.1 = .ok r → r.router_decision_ids = r.functions.map FunctionTranslation.router_decision_id
  escalated : ∀ r ∈ rejections loop.2, s.escalation_threshold ≤ r.2.1 →
    (∃ e, pipeline.1 = .error e) ∧ .crate ∉ pipeline.2 ∧ .manifest ∉ pipeline.2

namespace Pipeline

variable (s : Pipeline)

/-- The rejection of an emission by the first gate that rejects it. -/
def rejects (idx : Nat) (e : FunctionTranslation) (k : Nat) : Option GateFailure :=
  match s.behavior idx e k with
  | .Reject f => some f
  | .Accept =>
    match s.perf idx e k with
    | .Reject f => some f
    | .Accept => none

def repaired (idx : Nat) (e : FunctionTranslation) (k : Nat) (f : GateFailure) :
    Except TranslatorError FunctionTranslation :=
  s.repairTranslation idx e.task { f with attempt := k + 1 }

/-- From emission `e` at attempt `k`, function `idx` is repaired to an emission at a later attempt. -/
inductive Leads (idx : Nat) : Nat → FunctionTranslation → Nat → FunctionTranslation → Prop
  | refl (k : Nat) (e : FunctionTranslation) : Leads idx k e k e
  | again {k k' : Nat} {e e₁ e' : FunctionTranslation} {f : GateFailure} (hf : s.rejects idx e k = some f)
      (hk : k < s.escalation_threshold) (hrepaired : s.repaired idx e k f = .ok e₁)
      (hleads : Leads idx (k + 1) e₁ k' e') : Leads idx k e k' e'

def Converges (idx : Nat) (e : FunctionTranslation) : Prop :=
  ∃ k e', s.Leads idx 1 e k e' ∧ s.rejects idx e' k = none

def ComesTo (functions : List FunctionTranslation) (idx : Nat) : Prop :=
  ∀ i < idx, ∀ e, functions[i]? = some e → s.Converges i e

/-- The diagnostics of the functions that the loop comes to can be written, each to a file of its own. -/
structure DiagnosticsApart (functions : List FunctionTranslation) : Prop where
  accepted : ∀ idx e, functions[idx]? = some e → s.ComesTo functions idx → ∀ k e' f, s.Leads idx 1 e k e' →
    s.rejects idx e' k = some f → s.refuses (f.path s.library) = none
  names : ∀ i j e e', i < j → functions[i]? = some e → functions[j]? = some e' → s.ComesTo functions j →
    s.rejects i e 1 ≠ none → s.rejects j e' 1 ≠ none → sanitize e.name ≠ sanitize e'.name

end Pipeline

end Cobrust.Translate
