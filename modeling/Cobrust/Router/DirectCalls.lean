import Cobrust.Control.Outcome
import Cobrust.Router.Retry
import Cobrust.Text.Split
import Mathlib.Data.List.TakeWhile
import Mathlib.Data.String.Basic

/-!
# Direct calls

`build_bundle` of `cobrust-stdlib/src/llm.rs` with the routing table of `cobrust-llm-router/src/config.rs` and
`router.rs`: for every model of every provider the table gets an entry of its own, under a key that joins the names of
both with an underscore. The file and its TOML text, the providers' clients and the files of cache and ledger are
given. A map is the list of its entries in the order it is gone over; that of the providers is left open.

* `routed_buildBundle`: what a direct call is routed to is the first pair with its key, read back from its tag.
* `directCalls_exact`: every direct call reaches what it names exactly when the names keep the pairs apart.
-/

namespace Cobrust.Router

open Control (except_bind_ok except_mapM_iff)
open Store (SortedRows insertRow)
open Text (splitOnce trim)

/-! ## The configuration -/

structure ProviderConfig where
  kind : ProviderKind
  base_url : String
  api_key_env : String
  models : List String
  deriving DecidableEq, Repr

inductive StrategyName where
  | Cost
  | Quality
  | Latency
  | Consensus
  deriving DecidableEq, Repr

structure RoutingEntry where
  strategy : StrategyName
  n : Option UInt8
  preferred : List String
  deriving DecidableEq, Repr

structure RouterConfig where
  providers : List (String × ProviderConfig)
  routing : List (String × RoutingEntry)
  names : (providers.map Prod.fst).Nodup
  keys : SortedRows routing

def ProviderModel.parse (s : String) : Option ProviderModel :=
  (splitOnce ':' s.toList).bind fun parts =>
    if trim parts.1 = [] ∨ trim parts.2 = [] then none
    else some ⟨String.ofList (trim parts.1), String.ofList (trim parts.2)⟩

inductive ConfigError where
  | consensusRequiresN (task : String) (n : UInt8)
  | consensusExceeds (task : String) (n : UInt8) (entries : Nat)
  | malformedTag (task tag : String)
  | undeclared (task provider tag : String)
  | unregistered (provider : String)
  | io
  deriving DecidableEq, Repr

def validateConsensus (task : String) (entry : RoutingEntry) : Except ConfigError Unit :=
  if entry.strategy = .Consensus then
    let n := entry.n.getD 0
    if n < 2 then .error (.consensusRequiresN task n)
    else if entry.preferred.length < n.toNat then .error (.consensusExceeds task n entry.preferred.length)
    else .ok ()
  else .ok ()

def validateTag (cfg : RouterConfig) (task tag : String) : Except ConfigError Unit :=
  match ProviderModel.parse tag with
  | none => .error (.malformedTag task tag)
  | some pm =>
    if pm.provider ∈ cfg.providers.map Prod.fst then .ok () else .error (.undeclared task pm.provider tag)

def RouterConfig.validate (cfg : RouterConfig) : Except ConfigError Unit :=
  cfg.routing.forM fun row => do
    validateConsensus row.1 row.2
    row.2.preferred.forM (validateTag cfg row.1)

inductive Strategy where
  | Cost
  | Quality
  | Latency
  | Consensus (n : UInt8)
  deriving DecidableEq, Repr

def Strategy.fromTable (name : StrategyName) (n : Option UInt8) : Strategy :=
  match name with
  | .Cost => .Cost
  | .Quality => .Quality
  | .Latency => .Latency
  | .Consensus => .Consensus (n.getD 2)

structure ResolvedRoute where
  strategy : Strategy
  preferred : List ProviderModel
  deriving DecidableEq, Repr

structure Router where
  providers : List String
  routing : List (String × ResolvedRoute)

def resolveTag (task tag : String) : Except ConfigError ProviderModel :=
  match ProviderModel.parse tag with
  | none => .error (.malformedTag task tag)
  | some pm => .ok pm

def resolveRow (row : String × RoutingEntry) : Except ConfigError (String × ResolvedRoute) := do
  let preferred ← row.2.preferred.mapM (resolveTag row.1)
  .ok (row.1, ⟨Strategy.fromTable row.2.strategy row.2.n, preferred⟩)

/-- `RouterBuilder::build`; `opens` tells whether the files of the cache and of the ledger can be opened. -/
def RouterBuilder.build (registered : List String) (opens : Bool) (cfg : RouterConfig) : Except ConfigError Router := do
  cfg.validate
  (cfg.providers.map Prod.fst).forM fun name =>
    if name ∈ registered then .ok () else .error (.unregistered name)
  let routing ← cfg.routing.mapM resolveRow
  if opens then .ok ⟨registered, routing⟩ else .error .io

/-! ## The bundle -/

/-- What stands outside the configuration. -/
structure Host where
  env : String → Option String
  /-- Whether `AnthropicProvider::new` and `OpenAiProvider::new` make a client. -/
  anthropic : (name base_url api_key : String) → Bool
  openai : (name base_url api_key : String) → Bool
  opens : Bool

def synthEntries (providers : List (String × ProviderConfig)) : List (String × RoutingEntry) :=
  providers.flatMap fun p =>
    p.2.models.flatMap fun model =>
      let preferred := [p.1 ++ ":" ++ model]
      [("llm_complete_" ++ p.1 ++ "_" ++ model, ⟨.Quality, none, preferred⟩),
        ("llm_stream_" ++ p.1 ++ "_" ++ model, ⟨.Quality, none, preferred⟩)]

/-- `entry(k).or_insert(v)` -/
def orInsert (rows : List (String × RoutingEntry)) (row : String × RoutingEntry) : List (String × RoutingEntry) :=
  if (rows.lookup row.1).isSome then rows else insertRow row.1 row.2 rows

theorem sortedRows_orInsert {rows : List (String × RoutingEntry)} (h : SortedRows rows) (row : String × RoutingEntry) :
    SortedRows (orInsert rows row) := by
  unfold orInsert
  split
  · exact h
  · exact Store.sortedRows_insertRow h

theorem sortedRows_foldl {rows : List (String × RoutingEntry)} (h : SortedRows rows)
    (entries : List (String × RoutingEntry)) : SortedRows (entries.foldl orInsert rows) := by
  induction entries generalizing rows with
  | nil => exact h
  | cons e entries ih => exact ih (sortedRows_orInsert h e)

/-- The configuration with the entries for direct calls. -/
def withSynthEntries (cfg : RouterConfig) : RouterConfig where
  providers := cfg.providers
  routing := (synthEntries cfg.providers).foldl orInsert cfg.routing
  names := cfg.names
  keys := sortedRows_foldl cfg.keys _

def syntheticNames (cfg : RouterConfig) : List String :=
  (cfg.providers.filter fun p => p.2.kind = .Synthetic).map Prod.fst

/-- `tag.split(':').next()` -/
def tagProvider (tag : String) : String :=
  String.ofList (tag.toList.takeWhile (· ≠ ':'))

def stripSyntheticProviders (cfg : RouterConfig) : RouterConfig :=
  if syntheticNames cfg = [] then cfg
  else
    { providers := cfg.providers.filter fun p => p.1 ∉ syntheticNames cfg
      routing := cfg.routing.filter fun row => row.2.preferred.all fun tag => tagProvider tag ∉ syntheticNames cfg
      names := cfg.names.sublist (List.filter_sublist.map Prod.fst)
      keys := List.Pairwise.sublist (List.filter_sublist.map Prod.fst) cfg.keys }

/-- Whether there is a client to register for the provider. -/
def Host.constructs (host : Host) (p : String × ProviderConfig) : Bool :=
  match p.2.kind with
  | .Anthropic => host.anthropic p.1 p.2.base_url ((host.env p.2.api_key_env).getD "")
  | .Openai => host.openai p.1 p.2.base_url ((host.env p.2.api_key_env).getD "")
  | .Synthetic => false

def buildBundle (host : Host) (cfg : RouterConfig) : Except ConfigError Router :=
  RouterBuilder.build ((cfg.providers.filter host.constructs).map Prod.fst) host.opens
    (stripSyntheticProviders (withSynthEntries cfg))

/-- The entry that `dispatch` takes for a task. -/
def Router.route (router : Router) (task : String) : Option ResolvedRoute :=
  router.routing.lookup task

/-- The calls `llm_complete` and `llm_stream`. -/
inductive DirectCall where
  | complete
  | stream
  deriving DecidableEq, Repr

def DirectCall.keyHead : DirectCall → String
  | complete => "llm_complete_"
  | stream => "llm_stream_"

/-- The task that the call is dispatched under. -/
def DirectCall.taskKey (call : DirectCall) (provider model : String) : String :=
  call.keyHead ++ provider ++ "_" ++ model

section table

variable {k : String} {rows entries : List (String × RoutingEntry)}

theorem lookup_foldl_orInsert : (entries.foldl orInsert rows).lookup k = (rows.lookup k).or (entries.lookup k) := by
  induction entries generalizing rows with
  | nil => exact (Option.or_none).symm
  | cons e entries ih =>
    rw [List.foldl_cons, ih, Store.lookup_row]
    unfold orInsert
    by_cases hk : k = e.1
    · subst hk
      split
      · next hsome =>
        obtain ⟨v, hv⟩ := Option.isSome_iff_exists.1 hsome
        rw [hv, Option.some_or, Option.some_or]
      · next hnone =>
        rw [Option.not_isSome_iff_eq_none.1 hnone, Store.lookup_insertRow, if_pos rfl, if_pos rfl]
        rfl
    · rw [if_neg hk]
      split
      · rfl
      · rw [Store.lookup_insertRow, if_neg hk]

theorem lookup_filter (h : SortedRows rows) (keep : RoutingEntry → Bool) :
    (rows.filter fun row => keep row.2).lookup k = (rows.lookup k).filter keep := by
  have hkept : SortedRows (rows.filter fun row => keep row.2) :=
    List.Pairwise.sublist (List.filter_sublist.map Prod.fst) h
  refine Option.ext fun e => ?_
  rw [Store.lookup_eq_some hkept.nodup, List.mem_filter, Option.filter_eq_some_iff, Store.lookup_eq_some h.nodup]

theorem lookup_mapM_resolveRow {routes : List (String × ResolvedRoute)} (h : rows.mapM resolveRow = .ok routes) :
    (rows.lookup k = none → routes.lookup k = none) ∧
      ∀ e, rows.lookup k = some e → ∃ pms, e.preferred.mapM (resolveTag k) = .ok pms ∧
        routes.lookup k = some ⟨Strategy.fromTable e.strategy e.n, pms⟩ := by
  induction except_mapM_iff.1 h with
  | nil => exact ⟨fun _ => rfl, fun e he => by cases he⟩
  | @cons row route rows routes hroute hrest ih =>
    obtain ⟨pms, hpms, hroute⟩ := except_bind_ok.1 hroute
    cases hroute
    rw [Store.lookup_row, Store.lookup_row]
    by_cases hk : k = row.1
    · rw [if_pos hk, if_pos hk]
      refine ⟨fun hn => absurd hn (Option.some_ne_none _), fun e he => ?_⟩
      cases he
      exact ⟨pms, hk ▸ hpms, rfl⟩
    · rw [if_neg hk, if_neg hk]
      exact ih (except_mapM_iff.2 hrest)

theorem build_ok {registered : List String} {opens : Bool} {cfg : RouterConfig} {router : Router}
    (h : RouterBuilder.build registered opens cfg = .ok router) : cfg.routing.mapM resolveRow = .ok router.routing := by
  unfold RouterBuilder.build at h
  obtain ⟨-, -, h⟩ := except_bind_ok.1 h
  obtain ⟨-, -, h⟩ := except_bind_ok.1 h
  obtain ⟨routes, hroutes, h⟩ := except_bind_ok.1 h
  split at h
  · cases h
    exact hroutes
  · cases h

end table

/-! ## Pairs -/

section pairs

variable {providers : List (String × ProviderConfig)} {p m : String} {call : DirectCall}

/-- The models of the providers, in the order their entries are made. -/
def modelPairs (providers : List (String × ProviderConfig)) : List (String × String) :=
  providers.flatMap fun p => p.2.models.map fun model => (p.1, model)

def directEntry (q : String × String) : RoutingEntry :=
  ⟨.Quality, none, [q.1 ++ ":" ++ q.2]⟩

/-- What a key says of a pair. -/
def joined (q : String × String) : String :=
  q.1 ++ "_" ++ q.2

theorem synthEntries_eq (providers : List (String × ProviderConfig)) : synthEntries providers =
    (modelPairs providers).flatMap fun q =>
      [(DirectCall.complete.taskKey q.1 q.2, directEntry q), (DirectCall.stream.taskKey q.1 q.2, directEntry q)] := by
  unfold synthEntries modelPairs
  rw [List.flatMap_assoc]
  refine congrArg (List.flatMap · providers) (funext fun p => ?_)
  rw [List.flatMap_map]
  rfl

theorem taskKey_eq (call : DirectCall) (p m : String) : call.taskKey p m = call.keyHead ++ joined (p, m) := by
  rw [DirectCall.taskKey, joined, String.append_assoc, String.append_assoc, String.append_assoc]

theorem taskKey_inj (call : DirectCall) {q : String × String} : call.taskKey q.1 q.2 = call.taskKey p m ↔ joined q = joined (p, m) := by
  rw [taskKey_eq, taskKey_eq]
  refine ⟨fun h => String.toList_inj.1 ?_, fun h => congrArg _ h⟩
  have hlist := congrArg String.toList h
  rw [String.toList_append, String.toList_append] at hlist
  exact List.append_cancel_left hlist

theorem taskKey_ne {p' m' : String} : DirectCall.complete.taskKey p m ≠ DirectCall.stream.taskKey p' m' := by
  intro h
  rw [taskKey_eq, taskKey_eq] at h
  have hhead := congrArg (fun s => s.toList[4]?) h
  simp [DirectCall.keyHead] at hhead

theorem lookup_synthEntries : (synthEntries providers).lookup (call.taskKey p m) =
    ((modelPairs providers).find? fun q => joined q = joined (p, m)).map directEntry := by
  rw [synthEntries_eq]
  induction modelPairs providers with
  | nil => rfl
  | cons q pairs ih =>
    have hkey := taskKey_inj call (p := p) (m := m) (q := q)
    have hstep : ((q :: pairs).flatMap fun q => [(DirectCall.complete.taskKey q.1 q.2, directEntry q),
        (DirectCall.stream.taskKey q.1 q.2, directEntry q)]).lookup (call.taskKey p m) =
        if joined q = joined (p, m) then some (directEntry q) else
          (pairs.flatMap fun q => [(DirectCall.complete.taskKey q.1 q.2, directEntry q),
            (DirectCall.stream.taskKey q.1 q.2, directEntry q)]).lookup (call.taskKey p m) := by
      rw [List.flatMap_cons, List.cons_append, List.cons_append, List.nil_append, Store.lookup_row, Store.lookup_row]
      cases call with
      | complete => rw [if_neg taskKey_ne, if_congr (eq_comm.trans hkey) rfl rfl]
      | stream => rw [if_neg taskKey_ne.symm, if_congr (eq_comm.trans hkey) rfl rfl]
    rw [hstep, ih, List.find?_cons]
    split
    · next hq => rw [decide_eq_true hq]; rfl
    · next hq => rw [decide_eq_false hq]

end pairs

/-! ## Where a call is routed -/

section routes

variable {host : Host} {cfg : RouterConfig} {router : Router} {call : DirectCall} {p m : String}

/-- No key of the table that is given is one of a direct call. -/
def NoDirectKeys (cfg : RouterConfig) : Prop :=
  ∀ row ∈ cfg.routing, ∀ call : DirectCall, ¬call.keyHead.toList <+: row.1.toList

theorem lookup_taskKey (h : NoDirectKeys cfg) : cfg.routing.lookup (call.taskKey p m) = none := by
  rw [Option.eq_none_iff_forall_ne_some]
  intro e he
  refine h _ ((Store.lookup_eq_some cfg.keys.nodup).1 he) call ?_
  rw [taskKey_eq, String.toList_append]
  exact List.prefix_append _ _

/-- The first pair with the key of the call. -/
def firstPair (cfg : RouterConfig) (p m : String) : Option (String × String) :=
  (modelPairs cfg.providers).find? fun q => joined q = joined (p, m)

theorem tagProvider_tag (p m : String) : tagProvider (p ++ ":" ++ m) = tagProvider p := by
  unfold tagProvider
  rw [String.toList_append, String.toList_append, List.append_assoc]
  refine congrArg String.ofList ?_
  induction p.toList with
  | nil => exact List.takeWhile_cons_of_neg (by decide)
  | cons c cs ih =>
    rw [List.cons_append, List.takeWhile_cons, List.takeWhile_cons, ih]

theorem resolveTag_ok {task tag : String} {pm : ProviderModel} :
    resolveTag task tag = .ok pm ↔ ProviderModel.parse tag = some pm := by
  unfold resolveTag
  cases ProviderModel.parse tag with
  | none => exact iff_of_false (by rintro ⟨⟩) (by rintro ⟨⟩)
  | some pm' => exact ⟨fun h => congrArg some (Except.ok.inj h), fun h => congrArg Except.ok (Option.some.inj h)⟩

/-- Without synthetic providers the filter keeps every row. -/
theorem routing_stripSyntheticProviders (cfg : RouterConfig) : (stripSyntheticProviders cfg).routing =
    cfg.routing.filter fun row => row.2.preferred.all fun tag => tagProvider tag ∉ syntheticNames cfg := by
  unfold stripSyntheticProviders
  split
  · next hnil =>
    refine (List.filter_eq_self.2 fun row _ => ?_).symm
    simp [hnil]
  · rfl

theorem lookup_stripped (h : NoDirectKeys cfg) :
    (stripSyntheticProviders (withSynthEntries cfg)).routing.lookup (call.taskKey p m) =
      ((firstPair cfg p m).filter fun q => tagProvider q.1 ∉ syntheticNames cfg).map directEntry := by
  have hall : (withSynthEntries cfg).routing.lookup (call.taskKey p m) = (firstPair cfg p m).map directEntry := by
    rw [withSynthEntries, lookup_foldl_orInsert, lookup_taskKey h, Option.none_or, lookup_synthEntries]
    rfl
  have hfilter := lookup_filter (k := call.taskKey p m) (withSynthEntries cfg).keys
    fun e => e.preferred.all fun tag => tagProvider tag ∉ syntheticNames cfg
  rw [routing_stripSyntheticProviders]
  refine hfilter.trans ?_
  rw [hall]
  cases firstPair cfg p m with
  | none => rfl
  | some q =>
    rw [Option.map_some, Option.filter_some, Option.filter_some]
    simp only [directEntry, List.all_cons, List.all_nil, Bool.and_true, tagProvider_tag]
    split <;> rfl

/-- What a call may be routed to. -/
inductive Routed (cfg : RouterConfig) (p m : String) : Option ResolvedRoute → Prop where
  | absent : firstPair cfg p m = none → Routed cfg p m none
  | stripped {q} : firstPair cfg p m = some q → tagProvider q.1 ∈ syntheticNames cfg → Routed cfg p m none
  | direct {q pm} : firstPair cfg p m = some q → tagProvider q.1 ∉ syntheticNames cfg →
    ProviderModel.parse (q.1 ++ ":" ++ q.2) = some pm → Routed cfg p m (some ⟨.Quality, [pm]⟩)

theorem routed_buildBundle (call : DirectCall) (h : buildBundle host cfg = .ok router) (hkeys : NoDirectKeys cfg) :
    Routed cfg p m (router.route (call.taskKey p m)) := by
  obtain ⟨hnone, hsome⟩ := lookup_mapM_resolveRow (k := call.taskKey p m) (build_ok h)
  rw [lookup_stripped hkeys] at hnone hsome
  unfold Router.route
  cases hfirst : firstPair cfg p m with
  | none =>
    rw [hfirst] at hnone
    rw [hnone rfl]
    exact .absent hfirst
  | some q =>
    rw [hfirst, Option.filter_some] at hnone hsome
    by_cases hq : tagProvider q.1 ∈ syntheticNames cfg
    · rw [if_neg (by simpa using hq)] at hnone
      rw [hnone rfl]
      exact .stripped hfirst hq
    · rw [if_pos (by simpa using hq)] at hsome
      obtain ⟨pms, hpms, hroute⟩ := hsome (directEntry q) rfl
      obtain ⟨pm, rest, htag, hrest, rfl⟩ := List.forall₂_cons_left_iff.1 (except_mapM_iff.1 hpms)
      cases hrest
      rw [hroute]
      exact .direct hfirst hq (resolveTag_ok.1 htag)

end routes

/-! ## Names that keep the pairs apart -/

section names

variable {cfg : RouterConfig} {p m p' m' : String} {q : String × String}

def Declared (cfg : RouterConfig) (p m : String) : Prop :=
  ∃ pcfg, (p, pcfg) ∈ cfg.providers ∧ pcfg.kind ≠ .Synthetic ∧ m ∈ pcfg.models

theorem declared_iff :
    Declared cfg p m ↔ ∃ row ∈ cfg.providers, row.1 = p ∧ row.2.kind ≠ .Synthetic ∧ m ∈ row.2.models := by
  constructor
  · rintro ⟨pcfg, hrow, h⟩
    exact ⟨(p, pcfg), hrow, rfl, h⟩
  · rintro ⟨row, hrow, rfl, h⟩
    exact ⟨row.2, hrow, h⟩

instance : Decidable (Declared cfg p m) :=
  decidable_of_iff _ declared_iff.symm

theorem mem_syntheticNames : p ∈ syntheticNames cfg ↔ ∃ pcfg, (p, pcfg) ∈ cfg.providers ∧ pcfg.kind = .Synthetic := by
  simp [syntheticNames]

theorem mem_modelPairs : q ∈ modelPairs cfg.providers ↔ ∃ pcfg, (q.1, pcfg) ∈ cfg.providers ∧ q.2 ∈ pcfg.models := by
  rcases q with ⟨p, m⟩
  simp [modelPairs]

theorem provider_unique {c c' : ProviderConfig} (h : (p, c) ∈ cfg.providers) (h' : (p, c') ∈ cfg.providers) : c = c' :=
  Option.some.inj (((Store.lookup_eq_some cfg.names).2 h).symm.trans ((Store.lookup_eq_some cfg.names).2 h'))

theorem Declared.not_synthetic (h : Declared cfg p m) : p ∉ syntheticNames cfg := by
  obtain ⟨c, hc, hkind, -⟩ := h
  intro hp
  obtain ⟨c', hc', hkind'⟩ := mem_syntheticNames.1 hp
  exact hkind (provider_unique hc hc' ▸ hkind')

theorem Declared.mem_modelPairs (h : Declared cfg p m) : (p, m) ∈ modelPairs cfg.providers := by
  obtain ⟨c, hc, -, hm⟩ := h
  exact Router.mem_modelPairs.2 ⟨c, hc, hm⟩

theorem declared_or_synthetic (h : q ∈ modelPairs cfg.providers) : Declared cfg q.1 q.2 ∨ q.1 ∈ syntheticNames cfg := by
  obtain ⟨c, hc, hm⟩ := mem_modelPairs.1 h
  by_cases hkind : c.kind = .Synthetic
  · exact .inr (mem_syntheticNames.2 ⟨c, hc, hkind⟩)
  · exact .inl ⟨c, hc, hkind, hm⟩

/-- Two names that no underscore and no colon cuts in another place. -/
structure Plain (p m : String) : Prop where
  provider : '_' ∉ p.toList
  model : '_' ∉ m.toList
  colon : ':' ∉ p.toList
  trim_provider : trim p.toList = p.toList
  trim_model : trim m.toList = m.toList

theorem toList_joined (q : String × String) : (joined q).toList = q.1.toList ++ '_' :: q.2.toList := by
  rw [joined, String.toList_append, String.toList_append, List.append_assoc]
  rfl

/-- Without another underscore, the names are read off the key. -/
theorem eq_of_joined (hp : '_' ∉ p.toList) (hm : '_' ∉ m.toList) (h : joined q = joined (p, m)) : q = (p, m) := by
  have hlist := congrArg String.toList h
  rw [toList_joined, toList_joined] at hlist
  have hcount := congrArg (List.count '_') hlist
  rw [List.count_append, List.count_append, List.count_cons_self, List.count_cons_self, List.count_eq_zero.2 hp,
    List.count_eq_zero.2 hm] at hcount
  have hq : '_' ∉ q.1.toList := List.count_eq_zero.1 (by omega)
  have hsplit := congrArg (splitOnce '_') hlist
  rw [Text.splitOnce_append hq, Text.splitOnce_append hp] at hsplit
  have hparts := Option.some.inj hsplit
  exact Prod.ext (String.toList_inj.1 (congrArg Prod.fst hparts)) (String.toList_inj.1 (congrArg Prod.snd hparts))

theorem parse_tag (hp : ':' ∉ p.toList) : ProviderModel.parse (p ++ ":" ++ m) =
    if trim p.toList = [] ∨ trim m.toList = [] then none
    else some ⟨String.ofList (trim p.toList), String.ofList (trim m.toList)⟩ := by
  have hlist : (p ++ ":" ++ m).toList = p.toList ++ ':' :: m.toList := by
    rw [String.toList_append, String.toList_append, List.append_assoc]
    rfl
  rw [ProviderModel.parse, hlist, Text.splitOnce_append hp, Option.bind_some]

theorem length_trim_le (s : Text) : (trim s).length ≤ s.length := by
  rw [trim, List.length_reverse]
  refine (List.dropWhile_suffix _).length_le.trans ?_
  rw [List.length_reverse]
  exact (List.dropWhile_suffix _).length_le

theorem plain_of_parse (hp : '_' ∉ p.toList) (hm : '_' ∉ m.toList)
    (h : ProviderModel.parse (p ++ ":" ++ m) = some ⟨p, m⟩) : Plain p m := by
  have hcolon : ':' ∉ p.toList := by
    intro hmem
    obtain ⟨a, b, hab, ha⟩ := List.eq_append_cons_of_mem hmem
    have htag : (p ++ ":" ++ m).toList = a ++ ':' :: (b ++ ':' :: m.toList) := by
      rw [String.toList_append, String.toList_append, hab]
      simp
    rw [ProviderModel.parse, htag, Text.splitOnce_append ha, Option.bind_some] at h
    split at h
    · cases h
    · have hname := congrArg (fun pm => pm.provider.toList) (Option.some.inj h)
      simp only [String.toList_ofList] at hname
      have hlen := length_trim_le a
      rw [hname, hab, List.length_append, List.length_cons] at hlen
      omega
  rw [parse_tag hcolon] at h
  split at h
  · cases h
  · have hpm := Option.some.inj h
    have htrim := congrArg (fun pm => pm.provider.toList) hpm
    have htrim' := congrArg (fun pm => pm.model.toList) hpm
    simp only [String.toList_ofList] at htrim htrim'
    exact ⟨hp, hm, hcolon, htrim, htrim'⟩

theorem tagProvider_eq_self (h : ':' ∉ p.toList) : tagProvider p = p := by
  have hall : ∀ c ∈ p.toList, decide (c ≠ ':') = true := fun c hc => decide_eq_true fun he => h (he ▸ hc)
  rw [tagProvider, List.takeWhile_eq_self_iff.2 hall, String.ofList_toList]

theorem firstPair_congr (h : joined (p, m) = joined (p', m')) : firstPair cfg p m = firstPair cfg p' m' := by
  rw [firstPair, firstPair, h]

theorem joined_of_firstPair (h : firstPair cfg p m = some q) : joined q = joined (p, m) := by
  have hq := List.find?_some (p := fun q => decide (joined q = joined (p, m))) h
  exact of_decide_eq_true hq

end names

/-! ## Every call and every pair -/

section exact

variable {host : Host} {cfg : RouterConfig} {router : Router} {p m : String}

/-- The names of the pairs that are to be reached are plain, and no synthetic pair that comes first with its key has a
tag that names a provider outside of the synthetic ones. -/
structure KeepsApart (cfg : RouterConfig) : Prop where
  plain : ∀ p m, Declared cfg p m → Plain p m
  hidden : ∀ q : String × String, firstPair cfg q.1 q.2 = some q → q.1 ∈ syntheticNames cfg →
    tagProvider q.1 ∈ syntheticNames cfg

/-- The route of a direct call prefers what the call names, if that is declared, and is absent otherwise. -/
def ReachesNamed (cfg : RouterConfig) (router : Router) (call : DirectCall) (p m : String) : Prop :=
  (router.route (call.taskKey p m)).map ResolvedRoute.preferred =
    if Declared cfg p m then some [⟨p, m⟩] else none

theorem KeepsApart.reaches (hcfg : KeepsApart cfg) (h : buildBundle host cfg = .ok router) (hkeys : NoDirectKeys cfg)
    (call : DirectCall) (p m : String) : ReachesNamed cfg router call p m := by
  have hrouted := routed_buildBundle call (p := p) (m := m) h hkeys
  unfold ReachesNamed
  generalize router.route (call.taskKey p m) = route at hrouted
  cases hrouted with
  | absent hfirst =>
    refine (if_neg fun hd => ?_).symm
    exact absurd rfl (of_decide_eq_false (Bool.eq_false_iff.2 (List.find?_eq_none.1 hfirst _ hd.mem_modelPairs)))
  | @stripped q hfirst hq =>
    refine (if_neg fun hd => hd.not_synthetic ?_).symm
    have hplain := hcfg.plain p m hd
    obtain rfl := eq_of_joined hplain.provider hplain.model (joined_of_firstPair hfirst)
    exact tagProvider_eq_self hplain.colon ▸ hq
  | @direct q pm hfirst hq hparse =>
    have hjoined := joined_of_firstPair hfirst
    rcases declared_or_synthetic (List.mem_of_find?_eq_some hfirst) with hd | hsynthetic
    · have hplain := hcfg.plain q.1 q.2 hd
      obtain rfl : (p, m) = q := eq_of_joined hplain.provider hplain.model hjoined.symm
      rw [parse_tag hplain.colon] at hparse
      split at hparse
      · cases hparse
      · cases hparse
        rw [if_pos hd, hplain.trim_provider, hplain.trim_model, String.ofList_toList, String.ofList_toList]
        rfl
    · exact absurd (hcfg.hidden q ((firstPair_congr hjoined).trans hfirst) hsynthetic) hq

theorem keepsApart_of_reaches (h : buildBundle host cfg = .ok router) (hkeys : NoDirectKeys cfg)
    (hreaches : ∀ call p m, ReachesNamed cfg router call p m) : KeepsApart cfg := by
  have hrouted (p m : String) := routed_buildBundle .complete (p := p) (m := m) h hkeys
  have hright (p m : String) := hreaches .complete p m
  unfold ReachesNamed at hright
  constructor
  · intro p m hd
    -- Another place to cut the key would be another call with the same route.
    have hunique (p' m' : String) (hjoined : joined (p', m') = joined (p, m)) : p' = p ∧ m' = m := by
      have hright' := hright p' m'
      rw [taskKey_eq, hjoined, ← taskKey_eq, hright p m, if_pos hd] at hright'
      split at hright'
      · cases hright'
        exact ⟨rfl, rfl⟩
      · cases hright'
    have hp : '_' ∉ p.toList := by
      intro hmem
      obtain ⟨a, b, hab, -⟩ := List.eq_append_cons_of_mem hmem
      have hcut := hunique (String.ofList a) (String.ofList (b ++ '_' :: m.toList)) (String.toList_inj.1 (by
        rw [toList_joined, toList_joined, hab]
        simp))
      have hlen := congrArg (fun s => s.toList.length) hcut.1
      rw [hab] at hlen
      simp at hlen
    have hm : '_' ∉ m.toList := by
      intro hmem
      obtain ⟨a, b, hab, -⟩ := List.eq_append_cons_of_mem hmem
      have hcut := hunique (String.ofList (p.toList ++ '_' :: a)) (String.ofList b) (String.toList_inj.1 (by
        rw [toList_joined, toList_joined, hab]
        simp))
      have hlen := congrArg (fun s => s.toList.length) hcut.1
      simp at hlen
    refine plain_of_parse hp hm ?_
    have hpm := hright p m
    rw [if_pos hd] at hpm
    have hroute := hrouted p m
    generalize router.route (DirectCall.complete.taskKey p m) = route at hpm hroute
    cases hroute with
    | absent _ => cases hpm
    | stripped _ _ => cases hpm
    | @direct q pm hfirst _ hparse =>
      cases hpm
      obtain rfl := eq_of_joined hp hm (joined_of_firstPair hfirst)
      exact hparse
  · intro q hfirst hsynthetic
    have hq := hright q.1 q.2
    rw [if_neg fun hd => hd.not_synthetic hsynthetic] at hq
    have hroute := hrouted q.1 q.2
    generalize router.route (DirectCall.complete.taskKey q.1 q.2) = route at hq hroute
    cases hroute with
    | absent hnone => cases hfirst.symm.trans hnone
    | stripped hfirst' hstripped =>
      cases hfirst.symm.trans hfirst'
      exact hstripped
    | direct _ _ _ => cases hq

theorem directCalls_exact (h : buildBundle host cfg = .ok router) (hkeys : NoDirectKeys cfg) :
    (∀ call p m, ReachesNamed cfg router call p m) ↔ KeepsApart cfg :=
  ⟨keepsApart_of_reaches h hkeys, fun hcfg => hcfg.reaches h hkeys⟩

def sampleHost : Host where
  env := fun _ => none
  anthropic := fun _ _ _ => true
  openai := fun _ _ _ => true
  opens := true

def officialConfig : RouterConfig where
  providers := [("openai_official", ⟨.Openai, "https://api.openai.com/v1", "OPENAI_API_KEY", ["gpt-5"]⟩)]
  routing := []
  names := List.nodup_singleton _
  keys := List.Pairwise.nil

def officialRouter : Router where
  providers := ["openai_official"]
  routing := [("llm_complete_openai_official_gpt-5", ⟨.Quality, [⟨"openai_official", "gpt-5"⟩]⟩),
    ("llm_stream_openai_official_gpt-5", ⟨.Quality, [⟨"openai_official", "gpt-5"⟩]⟩)]

theorem buildBundle_official : buildBundle sampleHost officialConfig = .ok officialRouter := by
  rfl

theorem officialConfig_exact :
    (∀ call p m, ReachesNamed officialConfig officialRouter call p m) ↔ KeepsApart officialConfig :=
  directCalls_exact buildBundle_official (List.forall_mem_nil _)

/-- A prompt for a provider that is not there reaches another one. -/
theorem official_misrouted : buildBundle sampleHost officialConfig = .ok officialRouter ∧
    ¬Declared officialConfig "openai" "official_gpt-5" ∧
    officialRouter.route (DirectCall.complete.taskKey "openai" "official_gpt-5") =
      some ⟨.Quality, [⟨"openai_official", "gpt-5"⟩]⟩ ∧
    ¬∀ call p m, ReachesNamed officialConfig officialRouter call p m := by
  have habsent : ¬Declared officialConfig "openai" "official_gpt-5" := by decide
  refine ⟨buildBundle_official, habsent, by rfl, fun h => ?_⟩
  have hright := h .complete "openai" "official_gpt-5"
  rw [ReachesNamed, if_neg habsent] at hright
  cases hright

end exact

end Cobrust.Router
