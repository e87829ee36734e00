import Cobrust.Router.Cache
import Cobrust.Store.Rows
import Mathlib.Data.List.FinRange
import Mathlib.Data.List.Sort
import Mathlib.Data.String.Basic

/-!
# Consensus dispatch

`dispatch_consensus` and `consensus_pick` of `cobrust-llm-router/src/router.rs`. The hash, the normal form and
the order in which a hash map gives its rows are parameters. What `try_provider` comes to for each shard is
given; the shards finish in any order.

* `Wins` and `Documented`: the winner as the router documents it, in terms of the answers in the order of their
  shards.
* `consensusPick_eq`: the pick is the first answer of the winning group whose echo stands first in the
  preferred list.
* `run_successes`: in whatever order the shards finish, their answers arrive in the order of the shards.
* `consensus_documented_iff`: when the dispatch gives the documented winner.
-/

namespace Cobrust.Router

open Cobrust.Store (groupBy firstMin)

structure ProviderModel where
  provider : String
  model : String
  deriving DecidableEq, Repr

structure RouterResponse where
  response : CompletionResponse
  provider : String
  cache_hit : Bool
  deriving DecidableEq, Repr

inductive RouterError where
  | ConsensusQuorumLost (need got : Nat)
  /-- An index that is out of range, or a key that is not in the map. -/
  | panic
  deriving DecidableEq, Repr

/-! ## The pick -/

structure Hashing where
  /-- `blake3::hash(..).to_hex()` -/
  blake3Hex : String → String
  nfc : String → String

/-- The order in which a hash map gives its rows. -/
structure Iteration where
  rows {ν : Type} : List (String × ν) → List (String × ν)
  perm : ∀ {ν : Type} (groups : List (String × ν)), (rows groups).Perm groups

def usizeMax : Nat :=
  2 ^ 64 - 1

def preferredIndex (preferred : List ProviderModel) (provider model : String) : Nat :=
  (preferred.findIdx? fun pm => pm.provider == provider && pm.model == model).getD usizeMax

variable (hashing : Hashing) (iteration : Iteration)

def Hashing.normalised (r : RouterResponse) : String :=
  hashing.nfc r.response.text

/-- The first half of the digits of the hash. -/
def Hashing.key (normalised : String) : String :=
  String.ofList ((hashing.blake3Hex normalised).toList.take 32)

/-- The order of the summaries: the larger group first, then the smaller hash. -/
def compareSummaries (a b : Nat × String) : Ordering :=
  match compare b.1 a.1 with
  | .eq => compare a.2 b.2
  | o => o

def consensusPick (successes : List RouterResponse) (preferred : List ProviderModel) : Except RouterError RouterResponse :=
  let groups := groupBy (fun idx => hashing.key (hashing.normalised (successes.get idx))) id (List.finRange successes.length)
  let group_summaries :=
    ((iteration.rows groups).map fun row => (row.2.length, row.1)).insertionSort fun a b => compareSummaries a b ≠ .gt
  match group_summaries with
  | [] => .error .panic
  | (_, winning_hash) :: _ =>
    match groups.lookup winning_hash with
    | some (first :: rest) =>
      let pref (idx : Fin successes.length) : Nat :=
        preferredIndex preferred (successes.get idx).provider (successes.get idx).response.model
      .ok (successes.get (firstMin pref first rest).1)
    | _ => .error .panic

/-! ## The shards -/

/-- What the task of a shard comes to. -/
inductive ShardOutcome where
  | ok (response : CompletionResponse) (cache_hit : Bool)
  /-- The provider failed, or the task did. -/
  | failed
  deriving DecidableEq, Repr

/-- The result of `try_provider` for a shard. -/
def ShardOutcome.response (pm : ProviderModel) : ShardOutcome → Option RouterResponse
  | .ok response cache_hit => some { response, provider := pm.provider, cache_hit }
  | .failed => none

def takeN (n : UInt8) (preferred : List ProviderModel) : Nat :=
  min n.toNat preferred.length

def needQuorum (n : UInt8) (preferred : List ProviderModel) : Nat :=
  min (takeN n preferred / 2 + takeN n preferred % 2) 255

/-- A dispatch whose shards run: which of them are finished, how many are awaited, and what they gave. -/
structure Dispatch where
  finished : Nat → Bool
  awaited : Nat
  successes : List RouterResponse

def Dispatch.start : Dispatch :=
  ⟨fun _ => false, 0, []⟩

/-- A shard finishes, or the next one is awaited. -/
inductive Dispatch.Step (shards : List (ProviderModel × ShardOutcome)) : Dispatch → Dispatch → Prop
  | finish (d : Dispatch) (i : Nat) (hi : i < shards.length) :
      Step shards d { d with finished := Function.update d.finished i true }
  | join (d : Dispatch) (pm : ProviderModel) (outcome : ShardOutcome) (hfinished : d.finished d.awaited = true)
      (hi : shards[d.awaited]? = some (pm, outcome)) :
      Step shards d { d with awaited := d.awaited + 1, successes := d.successes ++ (outcome.response pm).toList }

inductive Dispatch.Run (shards : List (ProviderModel × ShardOutcome)) : Dispatch → Prop
  | start : Run shards Dispatch.start
  | step {d d' : Dispatch} (h : Run shards d) (hstep : Step shards d d') : Run shards d'

/-- The rest of the dispatch, after the last shard is awaited. -/
def Dispatch.result (d : Dispatch) (preferred : List ProviderModel) (n : UInt8) : Except RouterError RouterResponse :=
  let need_quorum := needQuorum n preferred
  if min d.successes.length 255 < need_quorum then
    .error (.ConsensusQuorumLost need_quorum (min d.successes.length 255))
  else consensusPick hashing iteration d.successes preferred

/-- The shards of a dispatch with what each comes to. -/
def shardsOf (preferred : List ProviderModel) (n : UInt8) (outcomes : Nat → ShardOutcome) :
    List (ProviderModel × ShardOutcome) :=
  (preferred.take (takeN n preferred)).zipIdx.map fun (pm, i) => (pm, outcomes i)

/-- What the shards that succeed give, in the order of the shards. -/
def answers (shards : List (ProviderModel × ShardOutcome)) : List RouterResponse :=
  shards.flatMap fun (pm, outcome) => (outcome.response pm).toList

end Cobrust.Router

namespace Cobrust.Router

open Cobrust.Store (groupBy firstMin)

variable (hashing : Hashing) (preferred : List ProviderModel)

/-- The answers with a text. -/
def agreeing (rs : List RouterResponse) (w : String) : List RouterResponse :=
  rs.filter fun r => hashing.normalised r = w

/-- No text has more answers, and those with as many have no smaller hash. -/
structure Wins (rs : List RouterResponse) (w : String) : Prop where
  given : ∃ r ∈ rs, hashing.normalised r = w
  largest : ∀ r ∈ rs, (agreeing hashing rs (hashing.normalised r)).length ≤ (agreeing hashing rs w).length
  smallest : ∀ r ∈ rs, (agreeing hashing rs (hashing.normalised r)).length = (agreeing hashing rs w).length →
    hashing.key w ≤ hashing.key (hashing.normalised r)

/-- The answer of the first shard that gave the winning text. -/
def Documented (rs : List RouterResponse) (r : RouterResponse) : Prop :=
  ∃ w, Wins hashing rs w ∧ (agreeing hashing rs w).head? = some r

/-- The place in the preferred list of the pair that an answer echoes. -/
def echoIndex (r : RouterResponse) : Nat :=
  preferredIndex preferred r.provider r.response.model

/-- No answer of the winning group echoes a pair that stands before the one its first answer echoes. -/
def FirstEchoesFirst (rs : List RouterResponse) : Prop :=
  ∀ w first, Wins hashing rs w → (agreeing hashing rs w).head? = some first →
    ∀ r ∈ agreeing hashing rs w, echoIndex preferred first ≤ echoIndex preferred r

/-- The hash tells the texts of the answers apart. -/
def Distinguishes (rs : List RouterResponse) : Prop :=
  ∀ r ∈ rs, ∀ s ∈ rs, hashing.key (hashing.normalised r) = hashing.key (hashing.normalised s) →
    hashing.normalised r = hashing.normalised s

variable {hashing : Hashing} {preferred : List ProviderModel} {rs : List RouterResponse} {w w' : String}
  {r : RouterResponse}

theorem Wins.unique (hdist : Distinguishes hashing rs) (h : Wins hashing rs w) (h' : Wins hashing rs w') : w = w' := by
  obtain ⟨r, hr, hrw⟩ := h.given
  obtain ⟨r', hr', hrw'⟩ := h'.given
  have hle := h.largest r' hr'
  have hle' := h'.largest r hr
  have hsmall := h.smallest r' hr'
  have hsmall' := h'.smallest r hr
  rw [hrw'] at hle hsmall
  rw [hrw] at hle' hsmall'
  have hkey := le_antisymm (hsmall (Nat.le_antisymm hle hle')) (hsmall' (Nat.le_antisymm hle' hle))
  have := hdist r hr r' hr' (by rw [hrw, hrw', hkey])
  rw [← hrw, ← hrw', this]

theorem compareSummaries_ne_gt {a b : Nat × String} :
    compareSummaries a b ≠ .gt ↔ b.1 < a.1 ∨ a.1 = b.1 ∧ a.2 ≤ b.2 := by
  rw [compareSummaries]
  rcases lt_trichotomy a.1 b.1 with h | h | h
  · rw [compare_gt_iff_gt.2 h]
    simp
    omega
  · rw [compare_eq_iff_eq.2 h.symm]
    change compare a.2 b.2 ≠ .gt ↔ _
    rw [Ne, compare_gt_iff_gt, not_lt]
    exact ⟨fun hle => .inr ⟨h, hle⟩, fun hor => (hor.resolve_left (by omega)).2⟩
  · rw [compare_lt_iff_lt.2 h]
    simp [h]

instance : Std.Total fun a b : Nat × String => compareSummaries a b ≠ .gt where
  total a b := by
    rw [compareSummaries_ne_gt, compareSummaries_ne_gt]
    rcases lt_trichotomy a.1 b.1 with h | h | h
    · exact .inr (.inl h)
    · exact (le_total a.2 b.2).imp (fun hle => .inr ⟨h, hle⟩) fun hle => .inr ⟨h.symm, hle⟩
    · exact .inl (.inl h)

instance : IsTrans (Nat × String) fun a b => compareSummaries a b ≠ .gt where
  trans a b c hab hbc := by
    rw [compareSummaries_ne_gt] at hab hbc ⊢
    rcases hab with hab | ⟨hab, hle⟩
    · rcases hbc with hbc | ⟨hbc, -⟩
      · exact .inl (hbc.trans hab)
      · exact .inl (hbc ▸ hab)
    · rcases hbc with hbc | ⟨hbc, hle'⟩
      · exact .inl (hab ▸ hbc)
      · exact .inr ⟨hab.trans hbc, hle.trans hle'⟩

theorem head_summaries {summaries : List (Nat × String)} (hne : summaries ≠ []) :
    ∃ a rest, summaries.insertionSort (fun a b => compareSummaries a b ≠ .gt) = a :: rest ∧ a ∈ summaries ∧
      ∀ b ∈ summaries, b.1 < a.1 ∨ a.1 = b.1 ∧ a.2 ≤ b.2 := by
  have hperm := summaries.perm_insertionSort fun a b => compareSummaries a b ≠ .gt
  have hsorted := summaries.pairwise_insertionSort fun a b => compareSummaries a b ≠ .gt
  cases hsort : summaries.insertionSort fun a b => compareSummaries a b ≠ .gt with
  | nil =>
    rw [hsort] at hperm
    exact absurd hperm.symm.eq_nil hne
  | cons a rest =>
    rw [hsort] at hperm hsorted
    refine ⟨a, rest, rfl, hperm.mem_iff.1 List.mem_cons_self, fun b hb => ?_⟩
    rcases List.mem_cons.1 (hperm.mem_iff.2 hb) with rfl | hmem
    · exact .inr ⟨rfl, le_refl _⟩
    · exact compareSummaries_ne_gt.1 (List.rel_of_pairwise_cons hsorted hmem)

/-- The indices of the answers with a property are those of the answers that have it. -/
theorem map_get_filter (p : RouterResponse → Bool) :
    ((List.finRange rs.length).filter fun idx => p (rs.get idx)).map rs.get = rs.filter p := by
  have h : ((List.finRange rs.length).map rs.get).filter p = _ := List.filter_map
  rw [List.map_get_finRange] at h
  exact h.symm

/-- The answers with the hash of a text are those with the text. -/
theorem filter_key (hdist : Distinguishes hashing rs) (hr : r ∈ rs) :
    rs.filter (fun s => hashing.key (hashing.normalised s) = hashing.key (hashing.normalised r)) =
      agreeing hashing rs (hashing.normalised r) := by
  refine List.filter_congr fun s hs => ?_
  rw [decide_eq_decide]
  exact ⟨hdist s hs r hr, fun h => by rw [h]⟩

theorem consensusPick_eq (iteration : Iteration) (hdist : Distinguishes hashing rs) (hne : rs ≠ []) :
    ∃ w first rest, Wins hashing rs w ∧ agreeing hashing rs w = first :: rest ∧
      consensusPick hashing iteration rs preferred = .ok (firstMin (echoIndex preferred) first rest).1 := by
  have hgroup {h : String} {idxs : List (Fin rs.length)}
      (hmem : (h, idxs) ∈ groupBy (fun idx => hashing.key (hashing.normalised (rs.get idx))) id (List.finRange rs.length)) :
      idxs ≠ [] ∧ idxs.map rs.get = rs.filter fun r => hashing.key (hashing.normalised r) = h := by
    obtain ⟨hnil, hidxs⟩ := Store.mem_groupBy.1 hmem
    rw [List.map_id] at hidxs
    rw [hidxs]
    exact ⟨hnil, map_get_filter fun r => hashing.key (hashing.normalised r) = h⟩
  have hgroups {r : RouterResponse} (hr : r ∈ rs) : ∃ idxs,
      (hashing.key (hashing.normalised r), idxs) ∈
        groupBy (fun idx => hashing.key (hashing.normalised (rs.get idx))) id (List.finRange rs.length) := by
    obtain ⟨idx, rfl⟩ := List.get_of_mem hr
    exact ⟨_, Store.mem_groupBy.2 ⟨List.ne_nil_of_mem (List.mem_filter.2 ⟨List.mem_finRange idx, decide_eq_true rfl⟩), rfl⟩⟩
  have hnodup : ((groupBy (fun idx => hashing.key (hashing.normalised (rs.get idx))) id
      (List.finRange rs.length)).map Prod.fst).Nodup := Store.nodup_groupBy _
  rw [consensusPick]
  generalize groupBy (fun idx => hashing.key (hashing.normalised (rs.get idx))) id (List.finRange rs.length) = groups at *
  have hrow {h : String} {idxs : List (Fin rs.length)} (hmem : (h, idxs) ∈ groups) :
      (idxs.length, h) ∈ (iteration.rows groups).map fun row => (row.2.length, row.1) :=
    List.mem_map.2 ⟨(h, idxs), (iteration.perm groups).mem_iff.2 hmem, rfl⟩
  obtain ⟨r₀, hr₀⟩ := List.exists_mem_of_ne_nil rs hne
  obtain ⟨idxs₀, hmem₀⟩ := hgroups hr₀
  obtain ⟨⟨len, h⟩, others, hsort, hmem, hmin⟩ := head_summaries (List.ne_nil_of_mem (hrow hmem₀))
  obtain ⟨⟨h', idxs⟩, hidxs, heq⟩ := List.mem_map.1 hmem
  cases heq
  have hidxs := (iteration.perm groups).mem_iff.1 hidxs
  obtain ⟨hnil, hget⟩ := hgroup hidxs
  have hlookup : groups.lookup h' = some idxs := (Store.lookup_eq_some hnodup).2 hidxs
  dsimp only
  rw [hsort]
  dsimp only
  rw [hlookup]
  cases idxs with
  | nil => exact absurd rfl hnil
  | cons first rest =>
    rw [List.map_cons] at hget
    obtain ⟨hfirst, hkey⟩ := List.mem_filter.1 (hget ▸ List.mem_cons_self)
    have hkey := of_decide_eq_true hkey
    have hagree := hget
    rw [← hkey, filter_key hdist hfirst] at hagree
    refine ⟨hashing.normalised (rs.get first), rs.get first, rest.map rs.get, ⟨⟨_, hfirst, rfl⟩, ?_, ?_⟩, hagree.symm, ?_⟩
    · intro r hr
      obtain ⟨idxs', hmem'⟩ := hgroups hr
      have hlen := congrArg List.length (hgroup hmem').2
      rw [filter_key hdist hr, List.length_map] at hlen
      rw [← hlen, ← hagree, List.length_cons, List.length_map]
      rcases hmin _ (hrow hmem') with hlt | ⟨heq, -⟩
      · exact hlt.le
      · exact heq.ge
    · intro r hr hsame
      obtain ⟨idxs', hmem'⟩ := hgroups hr
      have hlen := congrArg List.length (hgroup hmem').2
      rw [filter_key hdist hr, List.length_map] at hlen
      rw [← hlen, ← hagree, List.length_cons, List.length_map] at hsame
      rcases hmin _ (hrow hmem') with hlt | ⟨-, hle⟩
      · exact absurd hsame hlt.ne
      · rw [hkey]
        exact hle
    · exact congrArg Except.ok (Store.firstMin_map (echoIndex preferred) rs.get first rest)

/-- The answers so far are those of the shards that are awaited. -/
theorem run_successes {shards : List (ProviderModel × ShardOutcome)} {d : Dispatch} (h : Dispatch.Run shards d) :
    d.successes = answers (shards.take d.awaited) := by
  induction h with
  | start => rfl
  | step _ hstep ih =>
    cases hstep with
    | finish i hi => exact ih
    | join pm outcome hfinished hi =>
      rw [List.take_add_one, hi]
      dsimp only
      rw [ih, answers, answers, List.flatMap_append, Option.toList_some, List.flatMap_singleton]

theorem exists_run (shards : List (ProviderModel × ShardOutcome)) :
    ∃ d, Dispatch.Run shards d ∧ d.awaited = shards.length := by
  have hrun (k : Nat) (hk : k ≤ shards.length) : ∃ d, Dispatch.Run shards d ∧ d.awaited = k := by
    induction k with
    | zero => exact ⟨_, .start, rfl⟩
    | succ k ih =>
      obtain ⟨d, hd, rfl⟩ := ih (Nat.le_of_succ_le hk)
      have hfinish := Dispatch.Run.step hd (.finish d d.awaited hk)
      exact ⟨_, .step hfinish (.join _ _ _ (Function.update_self _ _ _) (List.getElem?_eq_getElem hk)), rfl⟩
  exact hrun _ (Nat.le_refl _)

theorem result_eq (iteration : Iteration) {n : UInt8} {outcomes : Nat → ShardOutcome} {d : Dispatch}
    (h : Dispatch.Run (shardsOf preferred n outcomes) d) (hd : d.awaited = (shardsOf preferred n outcomes).length)
    (hquorum : takeN n preferred / 2 + takeN n preferred % 2 ≤ (answers (shardsOf preferred n outcomes)).length) :
    d.result hashing iteration preferred n =
      consensusPick hashing iteration (answers (shardsOf preferred n outcomes)) preferred := by
  have hsuccesses := run_successes h
  rw [hd, List.take_length] at hsuccesses
  have hn := n.toNat_lt
  have htake : takeN n preferred ≤ n.toNat := Nat.min_le_left _ _
  rw [Dispatch.result, hsuccesses, needQuorum]
  exact if_neg (by omega)

/-- What `RouterConfig::validate` requires of a consensus entry. -/
def ConsensusEntryOk (n : UInt8) (preferred : List ProviderModel) : Prop :=
  2 ≤ n.toNat ∧ n.toNat ≤ preferred.length

/-- Where the hash tells the answers apart, a dispatch that reaches the quorum gives one response in whatever order
the shards finish. Its text wins; it is the answer of the first shard with that text exactly if no later one echoes
a pair that stands earlier in the preferred list. -/
theorem consensus_documented_iff (hashing : Hashing) (preferred : List ProviderModel) (n : UInt8)
    (outcomes : Nat → ShardOutcome) (hentry : ConsensusEntryOk n preferred)
    (hquorum : takeN n preferred / 2 + takeN n preferred % 2 ≤ (answers (shardsOf preferred n outcomes)).length)
    (hdist : Distinguishes hashing (answers (shardsOf preferred n outcomes))) :
    (∃ d, Dispatch.Run (shardsOf preferred n outcomes) d ∧ d.awaited = (shardsOf preferred n outcomes).length) ∧
    ∃ r, (∀ (iteration : Iteration) (d : Dispatch), Dispatch.Run (shardsOf preferred n outcomes) d →
        d.awaited = (shardsOf preferred n outcomes).length → d.result hashing iteration preferred n = .ok r) ∧
      (r ∈ answers (shardsOf preferred n outcomes) ∧
        Wins hashing (answers (shardsOf preferred n outcomes)) (hashing.normalised r)) ∧
      (Documented hashing (answers (shardsOf preferred n outcomes)) r ↔
        FirstEchoesFirst hashing preferred (answers (shardsOf preferred n outcomes))) := by
  refine ⟨exists_run _, ?_⟩
  have hpick (iteration : Iteration) (d : Dispatch) (h : Dispatch.Run (shardsOf preferred n outcomes) d)
      (hd : d.awaited = (shardsOf preferred n outcomes).length) : d.result hashing iteration preferred n =
        consensusPick hashing iteration (answers (shardsOf preferred n outcomes)) preferred :=
      result_eq iteration h hd hquorum
  have hne : answers (shardsOf preferred n outcomes) ≠ [] := by
    obtain ⟨hn, hlen⟩ := hentry
    have htake : takeN n preferred = n.toNat := Nat.min_eq_left hlen
    exact List.ne_nil_of_length_pos (by omega)
  generalize answers (shardsOf preferred n outcomes) = rs at *
  have hspec (iteration : Iteration) : ∃ w first rest, Wins hashing rs w ∧ agreeing hashing rs w = first :: rest ∧
      consensusPick hashing iteration rs preferred = .ok (firstMin (echoIndex preferred) first rest).1 :=
    consensusPick_eq iteration hdist hne
  obtain ⟨w, first, rest, hwins, hagree, -⟩ := hspec ⟨fun rows => rows, fun rows => .refl rows⟩
  obtain ⟨hmem, hmin⟩ := Store.firstMin_spec (echoIndex preferred) first rest
  refine ⟨(firstMin (echoIndex preferred) first rest).1, ?_, ?_, ?_⟩
  · intro iteration d hrun hd
    obtain ⟨w', first', rest', hwins', hagree', heq⟩ := hspec iteration
    rw [hwins'.unique hdist hwins, hagree] at hagree'
    cases hagree'
    rw [hpick iteration d hrun hd, heq]
  · obtain ⟨hr, hw⟩ := List.mem_filter.1 (hagree ▸ hmem)
    exact ⟨hr, of_decide_eq_true hw ▸ hwins⟩
  · constructor
    · intro ⟨w', hwins', hhead⟩ w'' first'' hwins'' hhead'' r hr
      rw [hwins'.unique hdist hwins, hagree, List.head?_cons] at hhead
      rw [hwins''.unique hdist hwins, hagree] at hhead'' hr
      cases hhead''
      rw [← Option.some.inj hhead] at hmin
      exact hmin r hr
    · intro hfirst
      have hself : (firstMin (echoIndex preferred) first rest).1 = first :=
        Store.firstMin_eq_self fun y hy =>
          hfirst w first hwins (by rw [hagree]; rfl) y (by rw [hagree]; exact List.mem_cons_of_mem _ hy)
      exact ⟨w, hwins, by rw [hself, hagree]; rfl⟩

theorem consensus_documented_iff_single :
    ∃ r, Documented ⟨id, id⟩ (answers (shardsOf [⟨"a", "m1"⟩, ⟨"b", "m2"⟩] 2 fun i =>
      if i = 0 then .ok ⟨"x", "m1", 0, 0⟩ false else .failed)) r := by
  obtain ⟨-, r, -, -, hiff⟩ := consensus_documented_iff ⟨id, id⟩ [⟨"a", "m1"⟩, ⟨"b", "m2"⟩] 2
    (fun i => if i = 0 then .ok ⟨"x", "m1", 0, 0⟩ false else .failed) ⟨by decide, by decide⟩ (by decide)
    (fun r hr s hs _ => by
      rw [List.mem_singleton.1 hr, List.mem_singleton.1 hs])
  refine ⟨r, hiff.2 fun w first _ hhead r' hr' => ?_⟩
  have hr' := (List.mem_filter.1 hr').1
  have hfirst := (List.mem_filter.1 (List.mem_of_mem_head? hhead)).1
  rw [List.mem_singleton.1 hr', List.mem_singleton.1 hfirst]

/-- Two shards agree, and the first one echoes a dated name of its model: the answer of the second is taken. -/
theorem second_shard_wins : ∃ d : Dispatch,
    Dispatch.Run (shardsOf [⟨"a", "m1"⟩, ⟨"b", "m2"⟩] 2 fun i =>
      if i = 0 then .ok ⟨"x", "m1-0613", 0, 0⟩ false else .ok ⟨"x", "m2", 0, 0⟩ false) d ∧ d.awaited = 2 ∧
    d.result ⟨id, id⟩ ⟨fun rows => rows, fun rows => .refl rows⟩ [⟨"a", "m1"⟩, ⟨"b", "m2"⟩] 2 =
      .ok ⟨⟨"x", "m2", 0, 0⟩, "b", false⟩ ∧
    ¬ Documented ⟨id, id⟩ d.successes ⟨⟨"x", "m2", 0, 0⟩, "b", false⟩ := by
  refine ⟨⟨Function.update (Function.update (fun _ => false) 1 true) 0 true, 2,
    [⟨⟨"x", "m1-0613", 0, 0⟩, "a", false⟩, ⟨⟨"x", "m2", 0, 0⟩, "b", false⟩]⟩, ?_, rfl, by decide +kernel, ?_⟩
  · refine .step (.step (.step (.step .start (.finish _ 1 ?_)) (.finish _ 0 ?_))
      (.join _ ⟨"a", "m1"⟩ (.ok ⟨"x", "m1-0613", 0, 0⟩ false) rfl rfl))
      (.join _ ⟨"b", "m2"⟩ (.ok ⟨"x", "m2", 0, 0⟩ false) rfl rfl)
    · decide
    · decide
  intro ⟨w, hwins, hhead⟩
  obtain ⟨r, hr, hw⟩ := hwins.given
  have hx : w = "x" := by
    rw [← hw]
    rcases List.mem_cons.1 hr with rfl | hr
    · rfl
    · rw [List.mem_singleton.1 hr]
      rfl
  subst hx
  revert hhead
  decide

end Cobrust.Router
