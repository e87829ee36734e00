import Cobrust.Lsp.TokenDelta
import Cobrust.Text.Split
import Mathlib.Logic.Function.Basic

/-!
# The history of semantic token requests

`semantic_tokens_full` and `semantic_tokens_full_delta` of `cobrust-lsp/src/lib.rs`: handlers that share the documents, a
cache of the last data of each document, and a counter for result ids. A handler takes one lock after the other, and
handlers of any requests may run in between.

* `semanticTokens_reconstruct`: every delta is one against the data of its previous result id, and leads to the tokens of
  the document.
-/

namespace Cobrust.Lsp

open Function (update)

/-- `u64::MAX`. -/
def counterMax : Nat :=
  2 ^ 64 - 1

/-- `st-{counter}`. -/
def resultIdText (counter : Nat) : Text :=
  "st-".toList ++ Nat.toDigits 10 counter

inductive TokenRequest (Uri : Type) where
  | full (uri : Uri)
  | delta (uri : Uri) (previousResultId : Text)

def TokenRequest.uri : TokenRequest Uri → Uri
  | full uri => uri
  | delta uri _ => uri

/-- A handler between two locks: the document is read, the cache is looked up, an id is drawn, the cache is written. -/
inductive TokenStage (Source : Type) where
  | read (source : Source)
  | looked (source : Source) (cached : Option (Text × List SemanticToken))
  | numbered (source : Source) (cached : Option (Text × List SemanticToken)) (id : Text)
  | stored (source : Source) (cached : Option (Text × List SemanticToken)) (id : Text)

structure TokenTask (Uri Source : Type) where
  request : TokenRequest Uri
  stage : TokenStage Source

/-- A response that was sent, with the text that it is about. -/
structure TokenResponse (Uri Source : Type) where
  request : TokenRequest Uri
  source : Source
  resultId : Text
  answer : DeltaResult

structure TokenState (Uri Source : Type) where
  docs : Uri → Option Source
  cache : Uri → Option (Text × List SemanticToken)
  counter : Nat
  tasks : Nat → Option (TokenTask Uri Source)
  sent : List (TokenResponse Uri Source)

section History

variable {Uri Source : Type} (build : Source → List SemanticToken)

def TokenState.initial : TokenState Uri Source :=
  ⟨fun _ => none, fun _ => none, 0, fun _ => none, []⟩

/-- What a handler answers. -/
def tokenAnswer (request : TokenRequest Uri) (source : Source) (cached : Option (Text × List SemanticToken))
    (id : Text) : DeltaResult :=
  match request with
  | .full _ => .tokens id (build source)
  | .delta _ previousResultId => buildSemanticTokensDelta (build source) (some previousResultId) cached id

/-- `next_semantic_tokens_result_id`, which stays at the last number. -/
def nextCounter (counter : Nat) : Nat :=
  min (counter + 1) counterMax

def TokenState.setTask (st : TokenState Uri Source) (k : Nat) (task : Option (TokenTask Uri Source)) :
    TokenState Uri Source :=
  { st with tasks := update st.tasks k task }

/-! ## Which data an id stands for -/

namespace TokenStage

/-- The id and the data that a handler has looked up. -/
def cached : TokenStage Source → Option (Text × List SemanticToken)
  | read _ => none
  | looked _ cached => cached
  | numbered _ cached _ => cached
  | stored _ cached _ => cached

/-- The id that a handler has drawn, and the data for it. -/
def own : TokenStage Source → Option (Text × List SemanticToken)
  | read _ => none
  | looked _ _ => none
  | numbered source _ id => some (id, build source)
  | stored source _ id => some (id, build source)

end TokenStage

/-- An id stands for the data of a document in the cache, in a handler or in a response. -/
inductive Claims (st : TokenState Uri Source) : Text → Uri → List SemanticToken → Prop
  | cache {uri : Uri} {id : Text} {data : List SemanticToken} (h : st.cache uri = some (id, data)) :
      Claims st id uri data
  | cached {k : Nat} {task : TokenTask Uri Source} {id : Text} {data : List SemanticToken}
      (htask : st.tasks k = some task) (h : task.stage.cached = some (id, data)) : Claims st id task.request.uri data
  | own {k : Nat} {task : TokenTask Uri Source} {id : Text} {data : List SemanticToken}
      (htask : st.tasks k = some task) (h : task.stage.own build = some (id, data)) :
      Claims st id task.request.uri data
  | sent {r : TokenResponse Uri Source} (h : r ∈ st.sent) : Claims st r.resultId r.request.uri (build r.source)

section Claims

variable {build} {st st' : TokenState Uri Source} {k j : Nat} {t : Option (TokenTask Uri Source)}
  {task : TokenTask Uri Source} {id : Text} {uri : Uri} {data : List SemanticToken}

theorem tasks_setTask (h : (st.setTask k t).tasks j = some task) : t = some task ∨ st.tasks j = some task := by
  change update st.tasks k t j = some task at h
  by_cases hj : j = k
  · rw [hj, Function.update_self] at h
    exact .inl h
  · rw [Function.update_of_ne hj] at h
    exact .inr h

theorem claims_cached (htask : st.tasks k = some task) (huri : uri = task.request.uri)
    (h : task.stage.cached = some (id, data)) : Claims build st id uri data :=
  huri ▸ .cached htask h

theorem claims_own (htask : st.tasks k = some task) (huri : uri = task.request.uri)
    (h : task.stage.own build = some (id, data)) : Claims build st id uri data :=
  huri ▸ .own htask h

/-- After a change of one handler, ids stand for what they did, or for what the handler has. -/
theorem claims_setTask (h : Claims build (st.setTask k t) id uri data) :
    Claims build st id uri data ∨ ∃ task, t = some task ∧ uri = task.request.uri ∧
      (task.stage.cached = some (id, data) ∨ task.stage.own build = some (id, data)) := by
  cases h with
  | cache h => exact .inl (.cache h)
  | cached htask h =>
    rcases tasks_setTask htask with ht | hold
    · exact .inr ⟨_, ht, rfl, .inl h⟩
    · exact .inl (.cached hold h)
  | own htask h =>
    rcases tasks_setTask htask with ht | hold
    · exact .inr ⟨_, ht, rfl, .inr h⟩
    · exact .inl (.own hold h)
  | sent h => exact .inl (.sent h)

theorem claims_congr (h : Claims build st' id uri data) (hcache : st'.cache = st.cache) (htasks : st'.tasks = st.tasks)
    (hsent : st'.sent = st.sent) : Claims build st id uri data := by
  cases h with
  | cache h => exact .cache (hcache ▸ h)
  | cached htask h => exact .cached (htasks ▸ htask) h
  | own htask h => exact .own (htasks ▸ htask) h
  | sent h => exact .sent (hsent ▸ h)

theorem claims_send {r : TokenResponse Uri Source} (h : Claims build { st with sent := r :: st.sent } id uri data) :
    Claims build st id uri data ∨ id = r.resultId ∧ uri = r.request.uri ∧ data = build r.source := by
  cases h with
  | cache h => exact .inl (.cache h)
  | cached htask h => exact .inl (.cached htask h)
  | own htask h => exact .inl (.own htask h)
  | sent h =>
    rcases List.mem_cons.1 h with rfl | hold
    · exact .inr ⟨rfl, rfl, rfl⟩
    · exact .inl (.sent hold)

theorem claims_store [DecidableEq Uri] {uri' : Uri} {id' : Text} {data' : List SemanticToken}
    (h : Claims build { st with cache := update st.cache uri' (some (id', data')) } id uri data) :
    Claims build st id uri data ∨ id = id' ∧ uri = uri' ∧ data = data' := by
  cases h with
  | cache h =>
    change update st.cache uri' (some (id', data')) uri = some (id, data) at h
    by_cases huri : uri = uri'
    · rw [huri, Function.update_self] at h
      cases h
      exact .inr ⟨rfl, huri, rfl⟩
    · rw [Function.update_of_ne huri] at h
      exact .inl (.cache h)
  | cached htask h => exact .inl (.cached htask h)
  | own htask h => exact .inl (.own htask h)
  | sent h => exact .inl (.sent h)

end Claims

variable [DecidableEq Uri]

inductive TokenStep : TokenState Uri Source → TokenState Uri Source → Prop
  /-- A document is opened, changed or closed. -/
  | edit (st) (uri : Uri) (doc : Option Source) : TokenStep st { st with docs := update st.docs uri doc }
  | start (st) (k : Nat) (request : TokenRequest Uri) (source : Source) (hfree : st.tasks k = none)
      (hdoc : st.docs request.uri = some source) : TokenStep st (st.setTask k (some ⟨request, .read source⟩))
  | look (st) (k : Nat) (uri : Uri) (p : Text) (source : Source)
      (h : st.tasks k = some ⟨.delta uri p, .read source⟩) :
      TokenStep st (st.setTask k (some ⟨.delta uri p, .looked source (st.cache uri)⟩))
  | numberFull (st) (k : Nat) (uri : Uri) (source : Source) (h : st.tasks k = some ⟨.full uri, .read source⟩) :
      TokenStep st { st.setTask k (some ⟨.full uri, .numbered source none (resultIdText (nextCounter st.counter))⟩)
        with counter := nextCounter st.counter }
  | numberDelta (st) (k : Nat) (uri : Uri) (p : Text) (source : Source)
      (cached : Option (Text × List SemanticToken)) (h : st.tasks k = some ⟨.delta uri p, .looked source cached⟩) :
      TokenStep st { st.setTask k
          (some ⟨.delta uri p, .numbered source cached (resultIdText (nextCounter st.counter))⟩)
        with counter := nextCounter st.counter }
  | store (st) (k : Nat) (request : TokenRequest Uri) (source : Source)
      (cached : Option (Text × List SemanticToken)) (id : Text)
      (h : st.tasks k = some ⟨request, .numbered source cached id⟩) :
      TokenStep st { st.setTask k (some ⟨request, .stored source cached id⟩)
        with cache := update st.cache request.uri (some (id, build source)) }
  | send (st) (k : Nat) (request : TokenRequest Uri) (source : Source)
      (cached : Option (Text × List SemanticToken)) (id : Text)
      (h : st.tasks k = some ⟨request, .stored source cached id⟩) :
      TokenStep st { st.setTask k none
        with sent := ⟨request, source, id, tokenAnswer build request source cached id⟩ :: st.sent }

inductive TokenReachable : TokenState Uri Source → Prop
  | initial : TokenReachable .initial
  | step {st st' : TokenState Uri Source} (h : TokenReachable st) (hstep : TokenStep build st st') : TokenReachable st'

theorem nextCounter_of_lt {n : Nat} (h : nextCounter n < counterMax) : nextCounter n = n + 1 := by
  unfold nextCounter at h ⊢
  omega

section Steps

variable {build} {st st' : TokenState Uri Source}

/-- A step draws at most one id, which stands for data of its own. -/
theorem claims_step (h : TokenStep build st st') (hcounter : st'.counter < counterMax) :
    st.counter ≤ st'.counter ∧ ∃ uri₀ data₀, ∀ id uri data, Claims build st' id uri data →
      Claims build st id uri data ∨
        st'.counter = st.counter + 1 ∧ id = resultIdText (st.counter + 1) ∧ uri = uri₀ ∧ data = data₀ := by
  cases h with
  | edit uri doc => exact ⟨Nat.le_refl _, uri, [], fun _ _ _ h => .inl (claims_congr h rfl rfl rfl)⟩
  | start k request source hfree hdoc =>
    refine ⟨Nat.le_refl _, request.uri, [], fun id uri data h => .inl ?_⟩
    rcases claims_setTask h with hold | ⟨task, ht, -, hnone | hnone⟩
    · exact hold
    · cases ht
      cases hnone
    · cases ht
      cases hnone
  | look k uri p source htask =>
    refine ⟨Nat.le_refl _, uri, [], fun id uri' data h => .inl ?_⟩
    rcases claims_setTask h with hold | ⟨task, ht, huri, hcache | hnone⟩
    · exact hold
    · cases ht
      exact huri ▸ .cache hcache
    · cases ht
      cases hnone
  | numberFull k uri source htask =>
    have hnext := nextCounter_of_lt hcounter
    refine ⟨hnext ▸ Nat.le_succ _, uri, build source, fun id uri' data h => ?_⟩
    have htasks : Claims build (st.setTask k (some ⟨.full uri, .numbered source none _⟩)) id uri' data :=
      claims_congr h rfl rfl rfl
    rcases claims_setTask htasks with hold | ⟨task, ht, huri, hnone | hown⟩
    · exact .inl hold
    · cases ht
      cases hnone
    · cases ht
      cases hown
      exact .inr ⟨hnext, congrArg resultIdText hnext, huri, rfl⟩
  | numberDelta k uri p source cached htask =>
    have hnext := nextCounter_of_lt hcounter
    refine ⟨hnext ▸ Nat.le_succ _, uri, build source, fun id uri' data h => ?_⟩
    have htasks : Claims build (st.setTask k (some ⟨.delta uri p, .numbered source cached _⟩)) id uri' data :=
      claims_congr h rfl rfl rfl
    rcases claims_setTask htasks with hold | ⟨task, ht, huri, hcached | hown⟩
    · exact .inl hold
    · cases ht
      exact .inl (claims_cached htask huri hcached)
    · cases ht
      cases hown
      exact .inr ⟨hnext, congrArg resultIdText hnext, huri, rfl⟩
  | store k request source cached id htask =>
    refine ⟨Nat.le_refl _, request.uri, [], fun id' uri data h => .inl ?_⟩
    rcases claims_store h with h | ⟨rfl, rfl, rfl⟩
    · rcases claims_setTask h with hold | ⟨task, ht, huri, hcached | hown⟩
      · exact hold
      · cases ht
        exact claims_cached htask huri hcached
      · cases ht
        exact claims_own htask huri hown
    · exact .own htask rfl
  | send k request source cached id htask =>
    refine ⟨Nat.le_refl _, request.uri, [], fun id' uri data h => .inl ?_⟩
    rcases claims_send h with h | ⟨rfl, rfl, rfl⟩
    · rcases claims_setTask h with hold | ⟨task, ht, -⟩
      · exact hold
      · cases ht
    · exact .own htask rfl

theorem sent_step (h : TokenStep build st st') {r : TokenResponse Uri Source} (hr : r ∈ st'.sent) :
    r ∈ st.sent ∨ ∃ k cached, st.tasks k = some ⟨r.request, .stored r.source cached r.resultId⟩ ∧
      r.answer = tokenAnswer build r.request r.source cached r.resultId := by
  cases h with
  | send k request source cached id htask =>
    rcases List.mem_cons.1 hr with rfl | hold
    · exact .inr ⟨k, cached, htask, rfl⟩
    · exact .inl hold
  | _ => exact .inl hr

end Steps

/-! ## Runs -/

variable (st : TokenState Uri Source)

/-- A response holds the tokens of its document, or a delta against what its previous id stands for. -/
def Answered (r : TokenResponse Uri Source) : Prop :=
  r.answer = .tokens r.resultId (build r.source) ∨
    ∃ uri p data, r.request = .delta uri p ∧ r.answer = .delta r.resultId (tokenEdits data (build r.source)) ∧
      (∃ n, n ≤ st.counter ∧ p = resultIdText n) ∧
      ∀ uri' data', Claims build st p uri' data' → uri' = uri ∧ data' = data

structure TokenInv : Prop where
  drawn : ∀ id uri data, Claims build st id uri data → ∃ n, n ≤ st.counter ∧ id = resultIdText n
  agree : ∀ id uri data uri' data', Claims build st id uri data → Claims build st id uri' data' →
    uri = uri' ∧ data = data'
  answered : ∀ r ∈ st.sent, Answered build st r

section Runs

variable {build} {st st' : TokenState Uri Source} {r : TokenResponse Uri Source}

theorem resultIdText_inj {m n : Nat} (h : resultIdText m = resultIdText n) : m = n := by
  have hdigits := congrArg (Nat.ofDigitChars 10 · 0) (List.append_cancel_left h)
  simpa only [Nat.ofDigitChars_ten_toDigits] using hdigits

theorem claims_drawn (h : TokenStep build st st') (hcounter : st'.counter < counterMax) {n : Nat}
    (hn : n ≤ st.counter) {uri : Uri} {data : List SemanticToken} (hclaim : Claims build st' (resultIdText n) uri data) :
    Claims build st (resultIdText n) uri data := by
  obtain ⟨-, uri₀, data₀, hclaims⟩ := claims_step h hcounter
  rcases hclaims _ _ _ hclaim with hold | ⟨-, hid, -⟩
  · exact hold
  · have heq := resultIdText_inj hid
    omega

theorem Answered.mono (h : TokenStep build st st') (hcounter : st'.counter < counterMax) (hr : Answered build st r) :
    Answered build st' r := by
  rcases hr with hfull | ⟨uri, p, data, hrequest, hanswer, ⟨n, hn, rfl⟩, hclaims⟩
  · exact .inl hfull
  · refine .inr ⟨uri, _, data, hrequest, hanswer, ⟨n, hn.trans (claims_step h hcounter).1, rfl⟩, fun uri' data' h' => ?_⟩
    exact hclaims uri' data' (claims_drawn h hcounter hn h')

omit [DecidableEq Uri] in
/-- The answer of a handler is a delta only against the data that it looked up for the previous id. -/
theorem answered_task (hi : TokenInv build st) {k : Nat} {cached : Option (Text × List SemanticToken)}
    (htask : st.tasks k = some ⟨r.request, .stored r.source cached r.resultId⟩)
    (hanswer : r.answer = tokenAnswer build r.request r.source cached r.resultId) : Answered build st r := by
  cases hrequest : r.request with
  | full uri =>
    rw [hrequest] at hanswer
    exact .inl hanswer
  | delta uri p =>
    rw [hrequest] at hanswer htask
    cases cached with
    | none => exact .inl hanswer
    | some pair =>
      obtain ⟨id, data⟩ := pair
      by_cases hp : p = id
      · subst hp
        have hclaim : Claims build st p uri data := .cached htask rfl
        refine .inr ⟨uri, p, data, hrequest, ?_, hi.drawn _ _ _ hclaim, fun uri' data' h' => hi.agree _ _ _ _ _ h' hclaim⟩
        rw [hanswer, tokenAnswer, buildSemanticTokensDelta, if_pos rfl]
      · refine .inl ?_
        rw [hanswer, tokenAnswer, buildSemanticTokensDelta, if_neg hp]

omit [DecidableEq Uri] in
theorem tokenInv_initial : TokenInv build (.initial : TokenState Uri Source) where
  drawn id uri data h := by
    cases h with
    | cache h => cases h
    | cached htask _ => cases htask
    | own htask _ => cases htask
    | sent h => cases h
  agree id uri data uri' data' h _ := by
    cases h with
    | cache h => cases h
    | cached htask _ => cases htask
    | own htask _ => cases htask
    | sent h => cases h
  answered r hr := by cases hr

theorem TokenInv.step (hi : TokenInv build st) (h : TokenStep build st st') (hcounter : st'.counter < counterMax) :
    TokenInv build st' := by
  obtain ⟨hle, uri₀, data₀, hclaims⟩ := claims_step h hcounter
  have hfresh {uri : Uri} {data : List SemanticToken} : ¬ Claims build st (resultIdText (st.counter + 1)) uri data := by
    intro hclaim
    obtain ⟨n, hn, hid⟩ := hi.drawn _ _ _ hclaim
    have heq := resultIdText_inj hid
    omega
  refine ⟨fun id uri data hc => ?_, fun id uri data uri' data' hc hc' => ?_, fun r hr => ?_⟩
  · rcases hclaims _ _ _ hc with hold | ⟨hnext, hid, -⟩
    · obtain ⟨n, hn, hid⟩ := hi.drawn _ _ _ hold
      exact ⟨n, hn.trans hle, hid⟩
    · exact ⟨st.counter + 1, Nat.le_of_eq hnext.symm, hid⟩
  · rcases hclaims _ _ _ hc with hold | ⟨-, hid, huri, hdata⟩ <;>
      rcases hclaims _ _ _ hc' with hold' | ⟨-, hid', huri', hdata'⟩
    · exact hi.agree _ _ _ _ _ hold hold'
    · exact absurd (hid' ▸ hold) hfresh
    · exact absurd (hid ▸ hold') hfresh
    · exact ⟨huri.trans huri'.symm, hdata.trans hdata'.symm⟩
  · refine Answered.mono h hcounter ?_
    rcases sent_step h hr with hold | ⟨k, cached, htask, hanswer⟩
    · exact hi.answered r hold
    · exact answered_task hi htask hanswer

theorem tokenInv_reachable (h : TokenReachable build st) (hcounter : st.counter < counterMax) : TokenInv build st := by
  induction h with
  | initial => exact tokenInv_initial
  | step _ hstep ih => exact (ih ((claims_step hstep hcounter).1.trans_lt hcounter)).step hstep hcounter

end Runs

/-- The data that a client has for an id, from the data and the edits that it was sent. -/
inductive Held : Text → List UInt32 → Prop
  | full {r : TokenResponse Uri Source} {id : Text} {data : List SemanticToken} (h : r ∈ st.sent)
      (hanswer : r.answer = .tokens id data) : Held id (wire data)
  | delta {r : TokenResponse Uri Source} {uri : Uri} {p id : Text} {edits : List SemanticTokensEdit}
      {old : List UInt32} (h : r ∈ st.sent) (hrequest : r.request = .delta uri p) (hanswer : r.answer = .delta id edits)
      (hold : Held p old) : Held id (applyEdits edits old)

omit [DecidableEq Uri] in
/-- A client has the tokens of the documents that the responses are about. -/
theorem held_eq {st : TokenState Uri Source} (hi : TokenInv build st)
    (hsmall : ∀ r ∈ st.sent, (build r.source).length * 5 < 2 ^ 32) {id : Text} {data : List UInt32}
    (h : Held st id data) : ∃ r ∈ st.sent, r.resultId = id ∧ data = wire (build r.source) := by
  induction h with
  | full hr hanswer =>
    rcases hi.answered _ hr with hfull | ⟨uri, p, prev, -, hdelta, -⟩
    · cases hanswer.symm.trans hfull
      exact ⟨_, hr, rfl, rfl⟩
    · cases hanswer.symm.trans hdelta
  | delta hr hrequest hanswer _ ih =>
    obtain ⟨r', hr', rfl, rfl⟩ := ih
    rcases hi.answered _ hr with hfull | ⟨uri, p, prev, hrequest', hdelta, -, hclaims⟩
    · cases hanswer.symm.trans hfull
    · cases hrequest.symm.trans hrequest'
      cases hanswer.symm.trans hdelta
      obtain ⟨-, hprev⟩ := hclaims _ _ (.sent hr')
      refine ⟨_, hr, rfl, ?_⟩
      rw [← hprev]
      exact applyEdits_tokenEdits (editFits_of_length (hsmall r' hr'))

/-- A delta leads from the previous to the new tokens, where its numbers fit. While the counter for ids lasts, every
response holds the tokens of its document, or a delta against the data that was sent under the previous id, and a client
has the tokens of the documents. -/
theorem semanticTokens_reconstruct :
    (∀ prev new, EditFits prev new → applyEdits (tokenEdits prev new) (wire prev) = wire new) ∧
      ∀ st : TokenState Uri Source, TokenReachable build st → st.counter < counterMax →
        (∀ r ∈ st.sent, r.answer = .tokens r.resultId (build r.source) ∨
          ∃ uri p data, r.request = .delta uri p ∧ r.answer = .delta r.resultId (tokenEdits data (build r.source)) ∧
            ∀ r' ∈ st.sent, r'.resultId = p → r'.request.uri = uri ∧ build r'.source = data) ∧
        ((∀ r ∈ st.sent, (build r.source).length * 5 < 2 ^ 32) → ∀ id data, Held st id data →
          ∃ r ∈ st.sent, r.resultId = id ∧ data = wire (build r.source)) := by
  refine ⟨fun prev new => applyEdits_tokenEdits, fun st h hcounter => ?_⟩
  have hi := tokenInv_reachable h hcounter
  refine ⟨fun r hr => ?_, fun hsmall id data => held_eq build hi hsmall⟩
  rcases hi.answered r hr with hfull | ⟨uri, p, data, hrequest, hanswer, -, hclaims⟩
  · exact .inl hfull
  · refine .inr ⟨uri, p, data, hrequest, hanswer, fun r' hr' hid => ?_⟩
    exact hclaims _ _ (hid ▸ .sent hr')

end History

end Cobrust.Lsp
