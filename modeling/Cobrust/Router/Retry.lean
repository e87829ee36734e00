import Cobrust.Router.Consensus
import Mathlib.Algebra.GroupWithZero.Nat

/-!
# Ordered dispatch

`dispatch_ordered` and `try_provider` of `cobrust-llm-router/src/router.rs`, with the records of
`cobrust-llm-router/src/ledger.rs`. What every call of a provider comes to and how long it takes, what the cache
gives and takes, and the delay drawn for a retry are given; every write to the ledger succeeds. The latencies the
router keeps for another strategy are left out.

* `retryLoop`: the calls of one provider, with what happens in order.
* `DispatchAgrees`: the retries, the answer, the ledger and the errors agree.
* `Reached` and `AnswersAt`: the calls that the retries come to, in terms of the clock.
* `dispatch_agrees_iff`: they agree exactly when the first answer of a provider could be written to the cache.
-/

namespace Cobrust.Router

inductive LlmError where
  | Transport (s : String)
  | RateLimit (retry_after_ms : UInt64)
  | Server (status : UInt16) (body : String)
  | BadRequest (status : UInt16) (body : String)
  | Auth
  | Decode (s : String)
  | Stream (s : String)
  | Cancelled
  | Provider (code message : String)
  deriving DecidableEq, Repr

def LlmError.isTransient : LlmError → Bool
  | .Transport _ | .RateLimit _ | .Server _ _ | .Stream _ => true
  | _ => false

def LlmError.code : LlmError → String
  | .Transport _ => "transport"
  | .RateLimit _ => "rate-limit"
  | .Server _ _ => "server"
  | .BadRequest _ _ => "bad-request"
  | .Auth => "auth"
  | .Decode _ => "decode"
  | .Stream _ => "stream"
  | .Cancelled => "cancelled"
  | .Provider _ _ => "provider"

inductive ProviderKind where
  | Anthropic
  | Openai
  | Synthetic
  deriving DecidableEq, Repr

def TokenUsage.total (u : TokenUsage) : BitVec 32 :=
  BitVec.ofNat 32 (min (u.prompt_tokens.toNat + u.completion_tokens.toNat) (2 ^ 32 - 1))

inductive Outcome where
  | Ok
  | ErrorTransient
  | ErrorPermanent
  deriving DecidableEq, Repr

structure LedgerEntry where
  ts : String
  task : String
  provider : String
  provider_kind : Option ProviderKind
  model : String
  cache_key : String
  cache_hit : Bool
  prompt_tokens : BitVec 32
  completion_tokens : BitVec 32
  total_tokens : BitVec 32
  latency_ms : Nat
  attempt : Nat
  outcome : Outcome
  error_code : Option String
  consensus_group : Option String
  deriving DecidableEq, Repr

def LedgerEntry.ok (ts task provider : String) (provider_kind : Option ProviderKind) (model cache_key : String)
    (cache_hit : Bool) (usage : TokenUsage) (latency_ms attempt : Nat) (consensus_group : Option String) :
        LedgerEntry :=
  { ts, task, provider, provider_kind, model, cache_key, cache_hit,
    prompt_tokens := usage.prompt_tokens
    completion_tokens := usage.completion_tokens
    total_tokens := usage.total
    latency_ms, attempt
    outcome := .Ok
    error_code := none
    consensus_group }

def LedgerEntry.err (ts task provider : String) (provider_kind : Option ProviderKind) (model cache_key : String)
    (latency_ms attempt : Nat) (error_code : String) (transient : Bool) (consensus_group : Option String) :
        LedgerEntry :=
  { ts, task, provider, provider_kind, model, cache_key
    cache_hit := false
    prompt_tokens := 0
    completion_tokens := 0
    total_tokens := 0
    latency_ms, attempt
    outcome := if transient then .ErrorTransient else .ErrorPermanent
    error_code := some error_code
    consensus_group }

/-! ## One provider -/

structure RetryPolicy where
  max_attempts : UInt8
  max_total_ms : UInt64
  deriving DecidableEq, Repr

/-- `drawn` is what the draw of `gen_range` gives for this attempt. -/
def RetryPolicy.nextDelayMs (_ : RetryPolicy) (drawn : UInt64) : LlmError → Nat
  | .RateLimit retry_after_ms => if 0 < retry_after_ms.toNat then retry_after_ms.toNat else drawn.toNat
  | _ => drawn.toNat

/-- A call of a provider: what it comes to, and the times around it. -/
structure Call where
  outcome : Except LlmError CompletionResponse
  elapsed_ns : Nat
  ts : String
  /-- The time the record of the call takes. -/
  append_ns : Nat
  drawn : UInt64
  /-- The time from the end of the delay to the next call. -/
  late_ns : Nat

/-- What the dispatch meets at one provider of the list. -/
structure Meets where
  /-- `cache.get` -/
  read : Except String (Option CompletionResponse)
  read_ts : String
  calls : Nat → Call
  /-- `cache.put` -/
  write : Except String Unit

structure RouterHandle (F : Type) where
  /-- The registered providers, with their kinds. -/
  providers : String → Option ProviderKind
  /-- `CacheKey::compute(..).wire()` -/
  wire : String → CompletionRequest F → String
  retry : RetryPolicy

inductive Event (F : Type) where
  | hit (pm : ProviderModel) (response : CompletionResponse)
  | call (pm : ProviderModel) (request : CompletionRequest F) (outcome : Except LlmError CompletionResponse)
  | append (entry : LedgerEntry)
  | sleep (delay_ms : Nat)

/-- What stays the same while one provider is tried. -/
structure Trial (F : Type) where
  router : RouterHandle F
  task : String
  consensus_group : Option String
  pm : ProviderModel
  kind : ProviderKind
  request : CompletionRequest F
  meets : Meets

variable {F : Type}

def u32Max : Nat :=
  2 ^ 32 - 1

def u64Max : Nat :=
  2 ^ 64 - 1

def millis (ns : Nat) : Nat :=
  ns / 10 ^ 6

def u8SaturatingSucc (attempt : Nat) : Nat :=
  min (attempt + 1) 255

/-- The time since `total_start` when call `n`, begun at `clock`, has failed and is recorded. -/
def Meets.totalElapsedMs (meets : Meets) (n clock : Nat) : Nat :=
  min (millis (clock + (meets.calls n).elapsed_ns + (meets.calls n).append_ns)) u64Max

def Meets.delayMs (meets : Meets) (retry : RetryPolicy) (n clock : Nat) (err : LlmError) : Nat :=
  min (retry.nextDelayMs (meets.calls n).drawn err) (retry.max_total_ms.toNat - meets.totalElapsedMs n clock)

/-- The time at which the call after call `n` begins. -/
def Meets.nextClock (meets : Meets) (retry : RetryPolicy) (n clock : Nat) (err : LlmError) : Nat :=
  clock + (meets.calls n).elapsed_ns + (meets.calls n).append_ns + meets.delayMs retry n clock err * 10 ^ 6 +
    (meets.calls n).late_ns

/-- The delay before the next call: none if it is zero. -/
def pause (delay_ms : Nat) : List (Event F) :=
  if 0 < delay_ms then [.sleep delay_ms] else []

namespace Trial

variable (t : Trial F)

def key : String :=
  t.router.wire t.pm.provider t.request

def answer (response : CompletionResponse) (cache_hit : Bool) : RouterResponse :=
  { response, provider := t.pm.provider, cache_hit }

def latencyMs (n : Nat) : Nat :=
  min (millis (t.meets.calls n).elapsed_ns) u32Max

def okEntry (ts : String) (cache_hit : Bool) (resp : CompletionResponse) (latency_ms attempt : Nat) : LedgerEntry :=
  .ok ts t.task t.pm.provider (some t.kind) t.pm.model t.key cache_hit resp.usage latency_ms attempt t.consensus_group

def errEntry (n attempt : Nat) (err : LlmError) : LedgerEntry :=
  .err (t.meets.calls n).ts t.task t.pm.provider (some t.kind) t.pm.model t.key (t.latencyMs n) attempt err.code
    err.isTransient t.consensus_group

/-- The loop of `try_provider` at its call `n`, which begins at `clock`. -/
def retryLoop (attempt n clock : Nat) : Except LlmError RouterResponse × List (Event F) :=
  match (t.meets.calls n).outcome with
  | .ok resp =>
    match t.meets.write with
    | .error e => (.error (.Decode e), [.call t.pm t.request (.ok resp)])
    | .ok () =>
      (.ok (t.answer resp false),
        [.call t.pm t.request (.ok resp),
          .append (t.okEntry (t.meets.calls n).ts false resp (t.latencyMs n) attempt)])
  | .error err =>
    if !err.isTransient || t.router.retry.max_attempts.toNat ≤ attempt then
      (.error err, [.call t.pm t.request (.error err), .append (t.errEntry n attempt err)])
    else if t.router.retry.max_total_ms.toNat ≤ t.meets.totalElapsedMs n clock then
      (.error err, [.call t.pm t.request (.error err), .append (t.errEntry n attempt err)])
    else
      let delay := t.meets.delayMs t.router.retry n clock err
      let rest := retryLoop (u8SaturatingSucc attempt) (n + 1) (t.meets.nextClock t.router.retry n clock err)
      (rest.1, .call t.pm t.request (.error err) :: .append (t.errEntry n attempt err) ::
        (pause delay ++ rest.2))
termination_by t.router.retry.max_attempts.toNat - attempt
decreasing_by
  have := t.router.retry.max_attempts.toNat_lt
  simp only [u8SaturatingSucc] at *
  simp_all
  omega

end Trial

def tryProvider (router : RouterHandle F) (task : String) (req : CompletionRequest F) (consensus_group : Option String)
    (pm : ProviderModel) (meets : Meets) : Except LlmError RouterResponse × List (Event F) :=
  match router.providers pm.provider with
  | none => (.error (.Provider "unknown_provider" ("provider " ++ pm.provider ++ " not registered")), [])
  | some kind =>
    let t : Trial F := { router, task, consensus_group, pm, kind, request := { req with model := pm.model }, meets }
    match meets.read with
    | .error e => (.error (.Decode e), [])
    | .ok (some resp) => (.ok (t.answer resp true), [.hit pm resp, .append (t.okEntry meets.read_ts true resp 0 1)])
    | .ok none => t.retryLoop 1 0 0

/-- `RouterError::AllFailed` -/
structure AllFailed where
  errors : List (String × LlmError)
  deriving DecidableEq, Repr

/-- `dispatch_ordered`, with the errors so far. -/
def dispatchFrom (router : RouterHandle F) (task : String) (req : CompletionRequest F) (consensus_group : Option String)
    (errors : List (String × LlmError)) :
    List (ProviderModel × Meets) → Except AllFailed RouterResponse × List (Event F)
  | [] => (.error ⟨errors⟩, [])
  | (pm, meets) :: order =>
    let tried := tryProvider router task req consensus_group pm meets
    match tried.1 with
    | .ok resp => (.ok resp, tried.2)
    | .error err =>
      let rest := dispatchFrom router task req consensus_group (errors ++ [(pm.provider, err)]) order
      (rest.1, tried.2 ++ rest.2)

def dispatchOrdered (router : RouterHandle F) (task : String) (req : CompletionRequest F)
    (consensus_group : Option String) (order : List (ProviderModel × Meets)) :
    Except AllFailed RouterResponse × List (Event F) :=
  dispatchFrom router task req consensus_group [] order

/-! ## Agreement -/

def callsOf (events : List (Event F)) : List (Except LlmError CompletionResponse) :=
  events.filterMap fun
    | .call _ _ outcome => some outcome
    | _ => none

def ledgerOf (events : List (Event F)) : List LedgerEntry :=
  events.filterMap fun
    | .append entry => some entry
    | _ => none

def sleptMs (events : List (Event F)) : Nat :=
  (events.map fun
    | .sleep delay_ms => delay_ms
    | _ => 0).sum

/-- The calls that succeed and the cache hits, as responses of the router. -/
def answersOf (events : List (Event F)) : List RouterResponse :=
  events.filterMap fun
    | .hit pm response => some { response, provider := pm.provider, cache_hit := true }
    | .call pm _ (.ok response) => some { response, provider := pm.provider, cache_hit := false }
    | _ => none

/-- What a record says about the call it is for. -/
structure Receipt where
  provider : String
  model : String
  cache_hit : Bool
  attempt : Nat
  outcome : Outcome
  error_code : Option String
  usage : TokenUsage
  deriving DecidableEq, Repr

def LedgerEntry.receipt (e : LedgerEntry) : Receipt :=
  { provider := e.provider
    model := e.model
    cache_hit := e.cache_hit
    attempt := e.attempt
    outcome := e.outcome
    error_code := e.error_code
    usage := ⟨e.prompt_tokens, e.completion_tokens⟩ }

def ProviderModel.receipt (pm : ProviderModel) (attempt : Nat) : Except LlmError CompletionResponse → Receipt
  | .ok resp => ⟨pm.provider, pm.model, false, attempt, .Ok, none, resp.usage⟩
  | .error err =>
    ⟨pm.provider, pm.model, false, attempt, if err.isTransient then .ErrorTransient else .ErrorPermanent, some err.code,
      ⟨0, 0⟩⟩

/-- The records that are due for what happens at one provider, whose next call has the number `attempt`. -/
def due : Nat → List (Event F) → List Receipt
  | _, [] => []
  | attempt, .hit pm resp :: events => ⟨pm.provider, pm.model, true, 1, .Ok, none, resp.usage⟩ :: due attempt events
  | attempt, .call pm _ outcome :: events => pm.receipt attempt outcome :: due (attempt + 1) events
  | attempt, _ :: events => due attempt events

/-- What happens at one provider of the list follows the policy and is recorded. -/
structure TrialAgrees (retry : RetryPolicy) (req : CompletionRequest F) (pm : ProviderModel) (events : List (Event F)) :
    Prop where
  calls_own : ∀ pm' request outcome, Event.call pm' request outcome ∈ events →
    pm' = pm ∧ request = { req with model := pm.model }
  hits_own : ∀ pm' resp, Event.hit pm' resp ∈ events → pm' = pm
  attempts : (callsOf events).length ≤ max 1 retry.max_attempts.toNat
  transient : ∀ outcome ∈ (callsOf events).dropLast, ∃ err, outcome = .error err ∧ err.isTransient = true
  recorded : (ledgerOf events).map LedgerEntry.receipt = due 1 events
  slept : sleptMs events ≤ retry.max_total_ms.toNat

/-- The retries, the answer, the ledger and the errors of a dispatch agree. -/
structure DispatchAgrees (retry : RetryPolicy) (req : CompletionRequest F) (order : List ProviderModel)
    (result : Except AllFailed RouterResponse) (events : List (Event F)) : Prop where
  in_order : ∃ trials : List (List (Event F)), trials.length ≤ order.length ∧ events = trials.flatten ∧
    List.Forall₂ (TrialAgrees retry req) (order.take trials.length) trials
  answered : (answersOf events).head? = result.toOption
  failed : ∀ failed, result = .error failed → failed.errors.map Prod.fst = order.map ProviderModel.provider

/-- The time at which call `n` begins if every call before it is followed by another. -/
def Meets.clock (meets : Meets) (retry : RetryPolicy) : Nat → Nat
  | 0 => 0
  | n + 1 =>
    match (meets.calls n).outcome with
    | .ok _ => meets.clock retry n
    | .error err => meets.nextClock retry n (meets.clock retry n) err

/-- The calls before call `n` fail for the moment, with attempts and time left. -/
def Meets.Reached (meets : Meets) (retry : RetryPolicy) (n : Nat) : Prop :=
  ∀ k < n, (∃ err, (meets.calls k).outcome = .error err ∧ err.isTransient = true) ∧
    k + 1 < retry.max_attempts.toNat ∧ meets.totalElapsedMs k (meets.clock retry k) < retry.max_total_ms.toNat

def Meets.Answers (meets : Meets) (retry : RetryPolicy) : Prop :=
  ∃ n resp, meets.Reached retry n ∧ (meets.calls n).outcome = .ok resp

/-- The provider is registered, and the cache has nothing for the request. -/
def Misses (router : RouterHandle F) (pm : ProviderModel) (meets : Meets) : Prop :=
  (router.providers pm.provider).isSome ∧ meets.read = .ok none

def Hits (router : RouterHandle F) (pm : ProviderModel) (meets : Meets) : Prop :=
  (router.providers pm.provider).isSome ∧ ∃ resp, meets.read = .ok (some resp)

def Silent (router : RouterHandle F) (pm : ProviderModel) (meets : Meets) : Prop :=
  ¬ Hits router pm meets ∧ (Misses router pm meets → ¬ meets.Answers router.retry)

/-- If the first provider of the list that has an answer gives it by a call, the answer can be written to the cache. -/
def FirstAnswerKept (router : RouterHandle F) (order : List (ProviderModel × Meets)) : Prop :=
  ∀ earlier pm meets later, order = earlier ++ (pm, meets) :: later →
    (∀ e ∈ earlier, Silent router e.1 e.2) → Misses router pm meets → meets.Answers router.retry →
      meets.write = .ok ()

/-! ## The loop -/

@[simp] theorem callsOf_append (a b : List (Event F)) : callsOf (a ++ b) = callsOf a ++ callsOf b :=
  List.filterMap_append

@[simp] theorem ledgerOf_append (a b : List (Event F)) : ledgerOf (a ++ b) = ledgerOf a ++ ledgerOf b :=
  List.filterMap_append

@[simp] theorem answersOf_append (a b : List (Event F)) : answersOf (a ++ b) = answersOf a ++ answersOf b :=
  List.filterMap_append

@[simp] theorem sleptMs_append (a b : List (Event F)) : sleptMs (a ++ b) = sleptMs a + sleptMs b := by
  simp [sleptMs]

@[simp] theorem callsOf_pause (d : Nat) : callsOf (pause d : List (Event F)) = [] := by
  unfold pause; split <;> rfl

@[simp] theorem ledgerOf_pause (d : Nat) : ledgerOf (pause d : List (Event F)) = [] := by
  unfold pause; split <;> rfl

@[simp] theorem answersOf_pause (d : Nat) : answersOf (pause d : List (Event F)) = [] := by
  unfold pause; split <;> rfl

@[simp] theorem sleptMs_pause (d : Nat) : sleptMs (pause d : List (Event F)) = d := by
  unfold pause
  split
  · simp [sleptMs]
  · simp only [sleptMs, List.map_nil, List.sum_nil]; omega

@[simp] theorem due_pause_append (attempt d : Nat) (events : List (Event F)) :
    due attempt (pause d ++ events) = due attempt events := by
  unfold pause; split <;> rfl

section events

variable (pm : ProviderModel) (request : CompletionRequest F) (outcome : Except LlmError CompletionResponse)
  (entry : LedgerEntry) (events : List (Event F))

@[simp] theorem callsOf_nil : callsOf ([] : List (Event F)) = [] := rfl
@[simp] theorem callsOf_call : callsOf (.call pm request outcome :: events) = outcome :: callsOf events := rfl
@[simp] theorem callsOf_entry : callsOf (.append entry :: events) = callsOf events := rfl
@[simp] theorem ledgerOf_nil : ledgerOf ([] : List (Event F)) = [] := rfl
@[simp] theorem ledgerOf_call : ledgerOf (.call pm request outcome :: events) = ledgerOf events := rfl
@[simp] theorem ledgerOf_entry : ledgerOf (.append entry :: events) = entry :: ledgerOf events := rfl
@[simp] theorem sleptMs_nil : sleptMs ([] : List (Event F)) = 0 := rfl
@[simp] theorem answersOf_nil : answersOf ([] : List (Event F)) = [] := rfl
@[simp] theorem answersOf_entry : answersOf (.append entry :: events) = answersOf events := rfl
@[simp] theorem answersOf_error (err : LlmError) :
    answersOf (.call pm request (.error err) :: events) = answersOf events := rfl
@[simp] theorem answersOf_ok (resp : CompletionResponse) : answersOf (.call pm request (.ok resp) :: events) =
    { response := resp, provider := pm.provider, cache_hit := false } :: answersOf events := rfl

@[simp] theorem sleptMs_call : sleptMs (.call pm request outcome :: events) = sleptMs events := by
  simp [sleptMs]

@[simp] theorem sleptMs_entry : sleptMs (.append entry :: events) = sleptMs events := by
  simp [sleptMs]

end events

namespace Trial

variable {t : Trial F}

theorem retryLoop_own (attempt n clock : Nat) : ∀ e ∈ (t.retryLoop attempt n clock).2,
    (∃ outcome, e = .call t.pm t.request outcome) ∨ (∃ entry, e = .append entry) ∨ ∃ d, e = .sleep d := by
  fun_induction t.retryLoop attempt n clock with
  | case1 => simp
  | case2 => simp
  | case3 => simp
  | case4 => simp
  | case5 attempt n clock err herr hretry htime delay rest ih =>
    intro e he
    simp only [List.mem_cons, List.mem_append] at he
    rcases he with rfl | rfl | he | he
    · exact .inl ⟨_, rfl⟩
    · exact .inr (.inl ⟨_, rfl⟩)
    · unfold pause at he
      split at he <;> simp_all
    · exact ih e he

theorem retryLoop_attempts (attempt n clock : Nat) :
    (callsOf (t.retryLoop attempt n clock).2).length ≤ max 1 (t.router.retry.max_attempts.toNat + 1 - attempt) := by
  fun_induction t.retryLoop attempt n clock with
  | case1 => simp
  | case2 => simp
  | case3 => simp
  | case4 => simp
  | case5 attempt n clock err herr hretry htime delay rest ih =>
    have hmax := t.router.retry.max_attempts.toNat_lt
    simp only [Bool.or_eq_true, Bool.not_eq_true', decide_eq_true_eq, not_or, not_le] at hretry
    simp only [u8SaturatingSucc] at ih
    simp only [callsOf_call, callsOf_entry, callsOf_append, callsOf_pause, List.nil_append, List.length_cons]
    have hrest : (callsOf rest.2).length ≤ max 1 (t.router.retry.max_attempts.toNat + 1 - min (attempt + 1) 255) := ih
    omega

theorem callsOf_retryLoop_ne_nil (attempt n clock : Nat) : callsOf (t.retryLoop attempt n clock).2 ≠ [] := by
  fun_cases t.retryLoop attempt n clock <;> simp

theorem retryLoop_transient (attempt n clock : Nat) :
    ∀ outcome ∈ (callsOf (t.retryLoop attempt n clock).2).dropLast, ∃ err, outcome = .error err ∧ err.isTransient =
        true := by
  fun_induction t.retryLoop attempt n clock with
  | case1 => simp
  | case2 => simp
  | case3 => simp
  | case4 => simp
  | case5 attempt n clock err herr hretry htime delay rest ih =>
    intro outcome houtcome
    have hne : callsOf rest.2 ≠ [] := callsOf_retryLoop_ne_nil _ _ _
    simp only [callsOf_call, callsOf_entry, callsOf_append, callsOf_pause, List.nil_append,
      List.dropLast_cons_of_ne_nil hne, List.mem_cons] at houtcome
    rcases houtcome with rfl | houtcome
    · exact ⟨err, rfl, by simp_all⟩
    · exact ih outcome houtcome

/-- The delays so far lie within the time on the clock. -/
theorem retryLoop_slept (attempt n clock : Nat) : ∀ slept, slept * 10 ^ 6 ≤ clock →
    slept ≤ t.router.retry.max_total_ms.toNat →
      slept + sleptMs (t.retryLoop attempt n clock).2 ≤ t.router.retry.max_total_ms.toNat := by
  fun_induction t.retryLoop attempt n clock with
  | case1 => simp
  | case2 => simp
  | case3 => simp
  | case4 => simp
  | case5 attempt n clock err herr hretry htime delay rest ih =>
    intro slept hslept hle
    have helapsed : slept ≤ t.meets.totalElapsedMs n clock := by
      refine Nat.le_min.mpr ⟨(Nat.le_div_iff_mul_le (by decide)).mpr (by omega), ?_⟩
      exact hle.trans (Nat.le_sub_one_of_lt t.router.retry.max_total_ms.toNat_lt)
    have hdelay : delay ≤ t.router.retry.max_total_ms.toNat - t.meets.totalElapsedMs n clock := Nat.min_le_right _ _
    have hclock : (slept + delay) * 10 ^ 6 ≤ t.meets.nextClock t.router.retry n clock err := by
      calc (slept + delay) * 10 ^ 6 = slept * 10 ^ 6 + delay * 10 ^ 6 := Nat.add_mul _ _ _
        _ ≤ clock + delay * 10 ^ 6 := Nat.add_le_add_right hslept _
        _ ≤ clock + (t.meets.calls n).elapsed_ns + (t.meets.calls n).append_ns + delay * 10 ^ 6 :=
          Nat.add_le_add_right ((Nat.le_add_right _ _).trans (Nat.le_add_right _ _)) _
        _ ≤ t.meets.nextClock t.router.retry n clock err := Nat.le_add_right _ _
    have hrest : slept + delay + sleptMs rest.2 ≤ _ := ih (slept + delay) hclock (by omega)
    simp only [sleptMs_call, sleptMs_entry, sleptMs_append, sleptMs_pause]
    omega

/-- How the calls of a provider can end. -/
inductive Ends (t : Trial F) (attempt : Nat) : Except LlmError RouterResponse × List (Event F) → Prop
  | kept {out : Except LlmError RouterResponse × List (Event F)} (r : RouterResponse) (hanswers :
      t.meets.Answers t.router.retry)
      (hwrite : t.meets.write = .ok ()) (hresult : out.1 = .ok r) (hanswer : answersOf out.2 = [r])
      (hrecorded : (ledgerOf out.2).map LedgerEntry.receipt = due attempt out.2) : Ends t attempt out
  | lost {out : Except LlmError RouterResponse × List (Event F)} (hanswers : t.meets.Answers t.router.retry)
      (hwrite : t.meets.write ≠ .ok ()) (herror : ∃ err, out.1 = .error err)
      (hlost : (ledgerOf out.2).length < (due attempt out.2).length) : Ends t attempt out
  | silent {out : Except LlmError RouterResponse × List (Event F)} (hsilent : ¬ t.meets.Answers t.router.retry)
      (herror : ∃ err, out.1 = .error err) (hanswer : answersOf out.2 = [])
      (hrecorded : (ledgerOf out.2).map LedgerEntry.receipt = due attempt out.2) : Ends t attempt out

theorem receipt_okEntry (ts : String) (resp : CompletionResponse) (latency_ms attempt : Nat) :
    (t.okEntry ts false resp latency_ms attempt).receipt = t.pm.receipt attempt (.ok resp) :=
  rfl

theorem receipt_errEntry (n attempt : Nat) (err : LlmError) :
    (t.errEntry n attempt err).receipt = t.pm.receipt attempt (.error err) :=
  rfl

/-- A call that is come to and is not followed by another leaves no later call. -/
theorem not_answers {n : Nat} {err : LlmError} (hreached : t.meets.Reached t.router.retry n)
    (herr : (t.meets.calls n).outcome = .error err)
    (hlast : err.isTransient = true → n + 1 < t.router.retry.max_attempts.toNat →
      t.router.retry.max_total_ms.toNat ≤ t.meets.totalElapsedMs n (t.meets.clock t.router.retry n)) :
    ¬ t.meets.Answers t.router.retry := by
  rintro ⟨n', resp, hreached', hresp⟩
  rcases lt_trichotomy n' n with hlt | rfl | hlt
  · obtain ⟨⟨err', herr', -⟩, -⟩ := hreached n' hlt
    rw [hresp] at herr'
    cases herr'
  · rw [hresp] at herr
    cases herr
  · obtain ⟨⟨err', herr', htransient⟩, hattempts, htime⟩ := hreached' n hlt
    obtain rfl : err = err' := by rw [herr] at herr'; cases herr'; rfl
    exact absurd (hlast htransient hattempts) (Nat.not_le.mpr htime)

theorem retryLoop_ends (attempt n clock : Nat) (hattempt : attempt = n + 1)
    (hclock : clock = t.meets.clock t.router.retry n) (hreached : t.meets.Reached t.router.retry n) :
    t.Ends attempt (t.retryLoop attempt n clock) := by
  fun_induction t.retryLoop attempt n clock with
  | case1 attempt n clock resp hresp e hwrite =>
    exact .lost ⟨n, resp, hreached, hresp⟩ (by simp [hwrite]) ⟨_, rfl⟩ (by simp [due])
  | case2 attempt n clock resp hresp hwrite =>
    exact .kept _ ⟨n, resp, hreached, hresp⟩ hwrite rfl (by simp [Trial.answer]) (by simp [due, receipt_okEntry])
  | case3 attempt n clock err herr hstop =>
    refine .silent (not_answers hreached herr fun htransient hattempts => ?_) ⟨_, rfl⟩ (by simp)
      (by simp [due, receipt_errEntry])
    simp only [htransient, Bool.not_true, Bool.false_or, decide_eq_true_eq] at hstop
    omega
  | case4 attempt n clock err herr hretry htime =>
    exact .silent (not_answers hreached herr fun _ _ => hclock ▸ htime) ⟨_, rfl⟩ (by simp)
      (by simp [due, receipt_errEntry])
  | case5 attempt n clock err herr hretry htime delay rest ih =>
    simp only [Bool.or_eq_true, Bool.not_eq_true', decide_eq_true_eq, not_or, not_le, Bool.not_eq_false] at hretry htime
    obtain ⟨htransient, hattempts⟩ := hretry
    have hmax := t.router.retry.max_attempts.toNat_lt
    have hnext : u8SaturatingSucc attempt = attempt + 1 := by simp only [u8SaturatingSucc]; omega
    have hreached' : t.meets.Reached t.router.retry (n + 1) := by
      intro k hk
      rcases Nat.lt_succ_iff_lt_or_eq.mp hk with hk | rfl
      · exact hreached k hk
      · exact ⟨⟨err, herr, htransient⟩, by omega, hclock ▸ htime⟩
    have hrest : t.Ends (attempt + 1) rest := by
      have : t.Ends (u8SaturatingSucc attempt) rest :=
        ih (by omega) (by simp [Meets.clock, herr, hclock]) hreached'
      rwa [hnext] at this
    rcases hrest with ⟨r, hanswers, hwrite, hresult, hanswer, hrecorded⟩ | ⟨hanswers, hwrite, herror, hlost⟩ |
      ⟨hsilent, herror, hanswer, hrecorded⟩
    · exact .kept r hanswers hwrite hresult (by simp [hanswer]) (by simp [due, receipt_errEntry, hrecorded])
    · exact .lost hanswers hwrite herror (by simpa [due] using hlost)
    · exact .silent hsilent herror (by simp [hanswer]) (by simp [due, receipt_errEntry, hrecorded])

end Trial

variable {router : RouterHandle F} {task : String} {req : CompletionRequest F} {consensus_group : Option String}
  {pm : ProviderModel} {meets : Meets}

theorem due_length (events : List (Event F)) : ∀ attempt, (due attempt events).length = (due 1 events).length := by
  induction events with
  | nil => intro attempt; rfl
  | cons e events ih =>
    intro attempt
    cases e with
    | hit pm resp => simp [due, ih attempt]
    | call pm request outcome => simp [due, ih (attempt + 1), ih (1 + 1)]
    | append entry => simp [due, ih attempt]
    | sleep d => simp [due, ih attempt]

theorem length_due_append (a b : List (Event F)) : (due 1 (a ++ b)).length = (due 1 a).length + (due 1 b).length := by
  induction a with
  | nil => simp [due]
  | cons e a ih =>
    cases e with
    | hit pm resp => simp [due, ih]; omega
    | call pm request outcome => simp [due, due_length _ (1 + 1), ih]; omega
    | append entry => simp [due, ih]
    | sleep d => simp [due, ih]

theorem trialAgrees_nil : TrialAgrees router.retry req pm [] where
  calls_own := by simp
  hits_own := by simp
  attempts := by simp
  transient := by simp
  recorded := rfl
  slept := by simp

theorem trialAgrees_retryLoop (t : Trial F) (hrequest : t.request = { req with model := t.pm.model })
    (hrecorded : (ledgerOf (t.retryLoop 1 0 0).2).map LedgerEntry.receipt = due 1 (t.retryLoop 1 0 0).2) :
    TrialAgrees t.router.retry req t.pm (t.retryLoop 1 0 0).2 where
  calls_own := by
    intro pm' request outcome he
    rcases Trial.retryLoop_own 1 0 0 _ he with ⟨_, h⟩ | ⟨_, h⟩ | ⟨_, h⟩ <;> cases h
    exact ⟨rfl, hrequest⟩
  hits_own := by
    intro pm' resp he
    rcases Trial.retryLoop_own 1 0 0 _ he with ⟨_, h⟩ | ⟨_, h⟩ | ⟨_, h⟩ <;> cases h
  attempts := by simpa using Trial.retryLoop_attempts (t := t) 1 0 0
  transient := Trial.retryLoop_transient 1 0 0
  recorded := hrecorded
  slept := by simpa using Trial.retryLoop_slept (t := t) 1 0 0 0 (by simp) (by simp)

/-- How a trial ends, in terms of what is met at the provider. -/
inductive TrialEnds (router : RouterHandle F) (req : CompletionRequest F) (pm : ProviderModel) (meets : Meets) :
    Except LlmError RouterResponse × List (Event F) → Prop
  | kept {out : Except LlmError RouterResponse × List (Event F)} (r : RouterResponse) (hanswers :
      ¬ Silent router pm meets)
      (hwrite : Misses router pm meets → meets.write = .ok ()) (hresult : out.1 = .ok r) (hanswer : answersOf out.2 =
          [r])
      (hagrees : TrialAgrees router.retry req pm out.2) : TrialEnds router req pm meets out
  | lost {out : Except LlmError RouterResponse × List (Event F)} (hmisses : Misses router pm meets)
      (hanswers : meets.Answers router.retry) (hwrite : meets.write ≠ .ok ()) (herror : ∃ err, out.1 = .error err)
      (hlost : (ledgerOf out.2).length < (due 1 out.2).length) : TrialEnds router req pm meets out
  | silent {out : Except LlmError RouterResponse × List (Event F)} (hsilent : Silent router pm meets)
      (herror : ∃ err, out.1 = .error err) (hanswer : answersOf out.2 = [])
      (hagrees : TrialAgrees router.retry req pm out.2) : TrialEnds router req pm meets out

theorem tryProvider_ends (router : RouterHandle F) (task : String) (req : CompletionRequest F) (consensus_group :
    Option String)
    (pm : ProviderModel) (meets : Meets) :
    TrialEnds router req pm meets (tryProvider router task req consensus_group pm meets) := by
  unfold tryProvider
  cases hkind : router.providers pm.provider with
  | none =>
    have hnot : ¬ (router.providers pm.provider).isSome := by simp [hkind]
    exact .silent ⟨fun h => hnot h.1, fun h => absurd h.1 hnot⟩ ⟨_, rfl⟩ rfl trialAgrees_nil
  | some kind =>
    have hsome : (router.providers pm.provider).isSome := by simp [hkind]
    cases hread : meets.read with
    | error e =>
      refine .silent ⟨?_, ?_⟩ ⟨_, rfl⟩ rfl trialAgrees_nil
      · rintro ⟨-, resp, h⟩
        rw [hread] at h
        cases h
      · rintro ⟨-, h⟩
        rw [hread] at h
        cases h
    | ok found =>
      cases found with
      | some resp =>
        refine .kept _ (fun h => h.1 ⟨hsome, resp, hread⟩) ?_ rfl (by simp [answersOf, Trial.answer]) ?_
        · rintro ⟨-, h⟩
          rw [hread] at h
          cases h
        · constructor <;> simp [callsOf, ledgerOf, sleptMs, due, LedgerEntry.receipt, Trial.okEntry, LedgerEntry.ok]
      | none =>
        have hmisses : Misses router pm meets := ⟨hsome, hread⟩
        let t : Trial F := { router, task, consensus_group, pm, kind, request := { req with model := pm.model }, meets }
        have hends : t.Ends 1 (t.retryLoop 1 0 0) :=
          Trial.retryLoop_ends 1 0 0 rfl rfl fun k hk => absurd hk (Nat.not_lt_zero k)
        rcases hends with ⟨r, hanswers, hwrite, hresult, hanswer, hrecorded⟩ | ⟨hanswers, hwrite, herror, hlost⟩ |
          ⟨hsilent, herror, hanswer, hrecorded⟩
        · exact .kept r (fun h => h.2 hmisses hanswers) (fun _ =>
            hwrite) hresult hanswer (trialAgrees_retryLoop t rfl hrecorded)
        · exact .lost hmisses hanswers hwrite herror hlost
        · refine .silent ⟨?_, fun _ => hsilent⟩ herror hanswer (trialAgrees_retryLoop t rfl hrecorded)
          rintro ⟨-, resp, h⟩
          rw [hread] at h
          cases h

/-! ## The whole list -/

variable {order : List (ProviderModel × Meets)}

theorem firstAnswerKept_cons : FirstAnswerKept router ((pm, meets) :: order) ↔
    (Misses router pm meets → meets.Answers router.retry → meets.write = .ok ()) ∧
      (Silent router pm meets → FirstAnswerKept router order) := by
  constructor
  · intro h
    refine ⟨h [] pm meets order rfl (by simp), ?_⟩
    rintro hsilent earlier pm' meets' later rfl hearlier
    exact h ((pm, meets) :: earlier) pm' meets' later rfl (by
      rintro e (_ | ⟨_, he⟩)
      · exact hsilent
      · exact hearlier e he)
  · rintro ⟨hhead, htail⟩ earlier pm' meets' later heq hearlier
    cases earlier with
    | nil =>
      cases heq
      exact hhead
    | cons e earlier =>
      cases heq
      exact htail (hearlier _ List.mem_cons_self) earlier pm' meets' later rfl fun e he =>
        hearlier e (List.mem_cons_of_mem _ he)

theorem dispatchFrom_agrees (task : String) (req : CompletionRequest F) (consensus_group : Option String)
    (hkept : FirstAnswerKept router order) : ∀ errors,
    ∃ trials : List (List (Event F)), ∃ out, out = dispatchFrom router task req consensus_group errors order ∧
      trials.length ≤ order.length ∧ out.2 = trials.flatten ∧
      List.Forall₂ (TrialAgrees router.retry req) ((order.map Prod.fst).take trials.length) trials ∧
      (answersOf out.2).head? = out.1.toOption ∧
      ∀ failed, out.1 = .error failed →
        failed.errors.map Prod.fst = errors.map Prod.fst ++ (order.map Prod.fst).map ProviderModel.provider := by
  induction order with
  | nil =>
    intro errors
    exact ⟨[], _, rfl, by simp, rfl, by simp, rfl, by simp [dispatchFrom]⟩
  | cons entry order ih =>
    obtain ⟨pm, meets⟩ := entry
    intro errors
    rw [firstAnswerKept_cons] at hkept
    simp only [dispatchFrom]
    have hends := tryProvider_ends router task req consensus_group pm meets
    generalize tryProvider router task req consensus_group pm meets = tried at hends ⊢
    rcases hends with ⟨r, hanswers, hwrite, hresult, hanswer, hagrees⟩ | ⟨hmisses, hanswers, hwrite, herror, hlost⟩ |
      ⟨hsilent, ⟨err, herror⟩, hanswer, hagrees⟩
    · exact ⟨[tried.2], _, rfl, by simp, by simp [hresult], by simpa using hagrees,
        by simp [hresult, hanswer, Except.toOption], by simp [hresult]⟩
    · exact absurd (hkept.1 hmisses hanswers) hwrite
    · obtain ⟨trials, out, hout, hlength, hevents, htrials, hanswered, hfailed⟩ :=
        ih (hkept.2 hsilent) (errors ++ [(pm.provider, err)])
      refine ⟨tried.2 :: trials, _, rfl, ?_, ?_, ?_, ?_, ?_⟩
      · simpa using hlength
      · simp [herror, ← hout, hevents]
      · simpa using ⟨hagrees, htrials⟩
      · simp [herror, ← hout, hanswer, hanswered]
      · intro failed hf
        simp only [herror, ← hout] at hf
        simp [hfailed failed hf]

theorem length_ledger_le_trial (router : RouterHandle F) (task : String) (req : CompletionRequest F)
    (consensus_group : Option String)
    (pm : ProviderModel) (meets : Meets) :
    (ledgerOf (tryProvider router task req consensus_group pm meets).2).length ≤
      (due 1 (tryProvider router task req consensus_group pm meets).2).length := by
  rcases tryProvider_ends router task req consensus_group pm meets with ⟨r, -, -, -, -, hagrees⟩ | ⟨-, -, -, -,
      hlost⟩ | ⟨-, -, -, hagrees⟩
  · rw [← hagrees.recorded, List.length_map]
  · exact hlost.le
  · rw [← hagrees.recorded, List.length_map]

theorem length_ledger_le : ∀ errors,
    (ledgerOf (dispatchFrom router task req consensus_group errors order).2).length ≤
      (due 1 (dispatchFrom router task req consensus_group errors order).2).length := by
  induction order with
  | nil => intro errors; simp [dispatchFrom]
  | cons entry order ih =>
    obtain ⟨pm, meets⟩ := entry
    intro errors
    have htrial := length_ledger_le_trial router task req consensus_group pm meets
    simp only [dispatchFrom]
    split
    · exact htrial
    · simp only [ledgerOf_append, List.length_append, length_due_append]
      exact Nat.add_le_add htrial (ih _)

theorem length_ledger_lt (task : String) (req : CompletionRequest F) (consensus_group : Option String)
    (hlost : ¬ FirstAnswerKept router order) : ∀ errors,
    (ledgerOf (dispatchFrom router task req consensus_group errors order).2).length <
      (due 1 (dispatchFrom router task req consensus_group errors order).2).length := by
  induction order with
  | nil =>
    refine absurd ?_ hlost
    rintro earlier pm meets later heq
    simp at heq
  | cons entry order ih =>
    obtain ⟨pm, meets⟩ := entry
    intro errors
    have htrial := length_ledger_le_trial router task req consensus_group pm meets
    have hends := tryProvider_ends router task req consensus_group pm meets
    rw [firstAnswerKept_cons] at hlost
    simp only [dispatchFrom]
    generalize tryProvider router task req consensus_group pm meets = tried at hends htrial ⊢
    rcases hends with ⟨r, hanswers, hwrite, hresult, hanswer, hagrees⟩ | ⟨hmisses, hanswers, hwrite, ⟨err, herror⟩,
        hlt⟩ |
      ⟨hsilent, ⟨err, herror⟩, hanswer, hagrees⟩
    · exact absurd ⟨fun hmisses _ => hwrite hmisses, fun h => absurd h hanswers⟩ hlost
    · simp only [herror, ledgerOf_append, List.length_append, length_due_append]
      exact Nat.add_lt_add_of_lt_of_le hlt (length_ledger_le _)
    · simp only [herror, ledgerOf_append, List.length_append, length_due_append]
      refine Nat.add_lt_add_of_le_of_lt htrial (ih (fun h => hlost ⟨fun hmisses ha => absurd ha (hsilent.2 hmisses),
          fun _ => h⟩) _)

theorem length_ledger_of_trials {retry : RetryPolicy} {pms : List ProviderModel} {trials : List (List (Event F))}
    (h : List.Forall₂ (TrialAgrees retry req) pms trials) :
    (ledgerOf trials.flatten).length = (due 1 trials.flatten).length := by
  induction h with
  | nil => rfl
  | cons hagrees _ ih =>
    simp only [List.flatten_cons, ledgerOf_append, List.length_append, length_due_append, ih]
    rw [← hagrees.recorded, List.length_map]

theorem firstAnswerKept_of_agrees
    (h : DispatchAgrees router.retry req (order.map Prod.fst) (dispatchOrdered router task req consensus_group order).1
      (dispatchOrdered router task req consensus_group order).2) : FirstAnswerKept router order := by
  by_contra hlost
  obtain ⟨trials, -, hevents, htrials⟩ := h.in_order
  have hlt := length_ledger_lt task req consensus_group hlost []
  have hevents' : (dispatchFrom router task req consensus_group [] order).2 = trials.flatten := hevents
  rw [hevents', length_ledger_of_trials htrials] at hlt
  exact lt_irrefl _ hlt

/-- A dispatch is as it should be exactly when the first answer, if a provider gives it, can be written to the cache. -/
theorem dispatch_agrees_iff (router : RouterHandle F) (task : String) (req : CompletionRequest F)
    (consensus_group : Option String) (order : List (ProviderModel × Meets)) :
    DispatchAgrees router.retry req (order.map Prod.fst) (dispatchOrdered router task req consensus_group order).1
      (dispatchOrdered router task req consensus_group order).2 ↔ FirstAnswerKept router order := by
  refine ⟨firstAnswerKept_of_agrees, fun hkept => ?_⟩
  obtain ⟨trials, out, rfl, hlength, hevents, htrials, hanswered, hfailed⟩ :=
    dispatchFrom_agrees task req consensus_group hkept []
  exact ⟨⟨trials, by simpa using hlength, hevents, htrials⟩, hanswered, fun failed hf =>
      by simpa using hfailed failed hf⟩

def sampleRouter : RouterHandle Unit where
  providers _ := some .Synthetic
  wire provider _ := provider
  retry := ⟨5, 30000⟩

def sampleRequest : CompletionRequest Unit :=
  ⟨"", [], ⟨none, none, none, []⟩⟩

/-- A provider that answers at once, with a cache that takes the answer or does not. -/
def sampleMeets (write : Except String Unit) : Meets where
  read := .ok none
  read_ts := ""
  calls _ := ⟨.ok ⟨"answer", "m", 0, 0⟩, 0, "", 0, 0, 0⟩
  write

/-- The first answer cannot be written to the cache: its call is not recorded, and the second provider is called. -/
theorem unrecorded_call :
    ¬ DispatchAgrees sampleRouter.retry sampleRequest [⟨"a", "m"⟩, ⟨"b", "m"⟩]
      (dispatchOrdered sampleRouter "translate" sampleRequest none
        [(⟨"a", "m"⟩, sampleMeets (.error "disk full")), (⟨"b", "m"⟩, sampleMeets (.ok ()))]).1
      (dispatchOrdered sampleRouter "translate" sampleRequest none
        [(⟨"a", "m"⟩, sampleMeets (.error "disk full")), (⟨"b", "m"⟩, sampleMeets (.ok ()))]).2 := by
  intro h
  have hkept : FirstAnswerKept sampleRouter
      [(⟨"a", "m"⟩, sampleMeets (.error "disk full")), (⟨"b", "m"⟩, sampleMeets (.ok ()))] :=
    firstAnswerKept_of_agrees h
  have hwrite := hkept [] ⟨"a", "m"⟩ (sampleMeets (.error "disk full")) _ rfl (by simp) ⟨rfl, rfl⟩
    ⟨0, _, fun k hk => absurd hk (Nat.not_lt_zero k), rfl⟩
  cases hwrite

end Cobrust.Router
