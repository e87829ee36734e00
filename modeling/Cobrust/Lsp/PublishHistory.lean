import Cobrust.Lsp.Debounce

/-!
# Runs of handlers and debounce tasks

Which interleavings of `did_open`, `did_change`, `did_close` and the debounce tasks keep published diagnostics fresh.

* `fresh_run`: diagnostics are fresh in every state of a run whose steps are all allowed.
* `closed_document_published`: a task that is asleep when its document is closed publishes afterwards.
-/

namespace Cobrust.Lsp

open Function (update)

namespace Server

variable {Diag : Type} (pipeline : FileKey → Text → List Diag × Option TypedModule)

/-! ## The invariant -/

/-- The edit is before all that follow, and before that of the version in the store. -/
def Past (st : Server Diag) (uri : FileKey) (edit : Nat) : Prop :=
  edit < st.edits ∧ ∀ doc, st.docs uri = some doc → edit < doc.edit

/-- What a handler or task has is right. -/
def Holds (st : Server Diag) (uri : FileKey) : Stage Diag → Prop
  | .opened source _ diagnostics => diagnostics = (pipeline uri source).1
  | .announcing doc diagnostics => st.docs uri = some doc ∧ diagnostics = (pipeline uri doc.source).1
  | .dropping edit => st.Past uri edit
  | .woken doc => st.docs uri = some doc
  | .publishing doc diagnostics => st.docs uri = some doc ∧ diagnostics = (pipeline uri doc.source).1
  | _ => True

/-- A handler or task that is going to publish a version, unless the document changes. -/
def Promises (st : Server Diag) (uri : FileKey) (doc : DocState) : Stage Diag → Prop
  | .scheduling other => other = doc
  | .sleeping other => other = doc ∧ st.tokens uri = some doc.version
  | stage => stage.announces = some doc

/-- A handler that may leave rows of a document that is not stored. -/
def Keeps : Stage Diag → Prop
  | .opened .. => True
  | .dropping _ => True
  | _ => False

theorem Keeps.isHandler {stage : Stage Diag} (h : Keeps stage) : stage.isHandler = true := by
  cases stage with
  | opened => rfl
  | dropping => rfl
  | _ => cases h

structure Inv (st : Server Diag) : Prop where
  sound : st.poisoned = false
  linked : st.rows.Linked
  threads : ∀ k t, st.threads k = some t → k < st.received ∧ st.Holds pipeline t.uri t.stage
  /-- The version in the store is published, or is going to be. -/
  pending : ∀ uri doc, st.docs uri = some doc →
    lastPublished uri st.log = some (doc, (pipeline uri doc.source).1) ∨
      ∃ k t, st.threads k = some t ∧ t.uri = uri ∧ st.Promises uri doc t.stage
  bounded : ∀ uri doc, st.docs uri = some doc → doc.edit < st.edits
  past : ∀ uri edit, .closed uri edit ∈ st.log → st.Past uri edit
  closed : st.log.Pairwise fun late early => ∀ uri doc diagnostics edit,
    late = .published uri doc diagnostics true → early = .closed uri edit → edit < doc.edit
  rows : ∀ uri, st.docs uri = none → st.rows.Has uri →
    ∃ k t, st.threads k = some t ∧ t.uri = uri ∧ Keeps t.stage

variable {pipeline} {st : Server Diag} {k j : Nat} {uri other : FileKey} {t u : Thread Diag} {stage : Stage Diag}

theorem inv_initial : (initial : Server Diag).Inv pipeline where
  sound := rfl
  linked := RowsCtx.linked_new
  threads _ _ h := by cases h
  pending _ _ h := by cases h
  bounded _ _ h := by cases h
  past _ _ h := by cases h
  closed := .nil
  rows _ _ h := absurd h RowsCtx.not_has_new

/-- What is published last is for the latest version, when nothing is in flight. -/
theorem Inv.fresh (h : st.Inv pipeline) : st.Fresh pipeline where
  latest hnone uri doc hdoc := by
    rcases h.pending uri doc hdoc with hlast | ⟨k, t, ht, -⟩
    · exact hlast
    · rw [hnone k] at ht
      cases ht
  closed := h.closed
  rows uri hdoc hidle hhas := by
    obtain ⟨k, t, ht, huri, hkeeps⟩ := h.rows uri hdoc hhas
    cases (hidle k t ht huri).symm.trans hkeeps.isHandler

theorem threads_setThread {v : Option (Thread Diag)} (h : (st.setThread k v).threads j = some u) :
    j = k ∧ v = some u ∨ j ≠ k ∧ st.threads j = some u := by
  change update st.threads k v j = some u at h
  by_cases hj : j = k
  · subst hj
    rw [Function.update_self] at h
    exact .inl ⟨rfl, h⟩
  · rw [Function.update_of_ne hj] at h
    exact .inr ⟨hj, h⟩

theorem setThread_self {v : Option (Thread Diag)} : (st.setThread k v).threads k = v :=
  Function.update_self ..

theorem setThread_of_ne {v : Option (Thread Diag)} (hj : j ≠ k) : (st.setThread k v).threads j = st.threads j :=
  Function.update_of_ne hj ..

/-- A step that leaves the store and the tokens. What the thread promised is published or promised again, and rows are
left by handlers only. -/
theorem Inv.goOn (h : st.Inv pipeline) (ht : st.threads k = some ⟨uri, stage⟩) {rows : RowsCtx}
    {log : List (Event Diag)} {v : Option (Thread Diag)} (hlinked : rows.Linked)
    (hholds : ∀ u, v = some u → st.Holds pipeline u.uri u.stage)
    (hpromise : ∀ doc, st.docs uri = some doc → st.Promises uri doc stage →
      lastPublished uri log = some (doc, (pipeline uri doc.source).1) ∨
        ∃ u, v = some u ∧ u.uri = uri ∧ st.Promises uri doc u.stage)
    (hlast : ∀ other doc, st.docs other = some doc →
      lastPublished other st.log = some (doc, (pipeline other doc.source).1) →
      lastPublished other log = some (doc, (pipeline other doc.source).1))
    (hpast : ∀ other edit, .closed other edit ∈ log → st.Past other edit)
    (hclosed : log.Pairwise fun late early => ∀ uri doc diagnostics edit,
      late = .published uri doc diagnostics true → early = .closed uri edit → edit < doc.edit)
    (hrows : ∀ other, st.docs other = none → rows.Has other →
      (∃ u, v = some u ∧ u.uri = other ∧ Keeps u.stage) ∨ st.rows.Has other ∧ (other = uri → ¬ Keeps stage)) :
    ({ st with rows, log }.setThread k v).Inv pipeline where
  sound := h.sound
  linked := hlinked
  threads j u hu := by
    rcases threads_setThread hu with ⟨rfl, hv⟩ | ⟨-, hu⟩
    · exact ⟨(h.threads j _ ht).1, hholds u hv⟩
    · exact h.threads j u hu
  pending other doc hdoc := by
    rcases h.pending other doc hdoc with hdone | ⟨j, u, hu, rfl, hu'⟩
    · exact .inl (hlast other doc hdoc hdone)
    · by_cases hj : j = k
      · subst hj
        obtain rfl := Option.some.inj (hu.symm.trans ht)
        rcases hpromise doc hdoc hu' with hdone | ⟨w, hw, huri, hpromise⟩
        · exact .inl hdone
        · exact .inr ⟨j, w, setThread_self.trans hw, huri, hpromise⟩
      · exact .inr ⟨j, u, (setThread_of_ne hj).trans hu, rfl, hu'⟩
  bounded := h.bounded
  past := hpast
  closed := hclosed
  rows other hdoc hhas := by
    rcases hrows other hdoc hhas with ⟨u, hu, huri, hkeeps⟩ | ⟨hhas, hkeeps⟩
    · exact ⟨k, u, setThread_self.trans hu, huri, hkeeps⟩
    · obtain ⟨j, u, hu, rfl, hu'⟩ := h.rows other hdoc hhas
      by_cases hj : j = k
      · subst hj
        obtain rfl := Option.some.inj (hu.symm.trans ht)
        exact absurd hu' (hkeeps rfl)
      · exact ⟨j, u, (setThread_of_ne hj).trans hu, rfl, hu'⟩

/-- An edit of the store is behind all that are past. -/
theorem Past.store {edit : Nat} (h : st.Past uri edit) {doc : Option DocState}
    (hedit : ∀ d, doc = some d → d.edit = st.edits) : (st.store other doc).Past uri edit := by
  refine ⟨Nat.lt_succ_of_lt h.1, fun d hd => ?_⟩
  change update st.docs other doc uri = some d at hd
  by_cases huri : uri = other
  · subst huri
    rw [Function.update_self] at hd
    exact hedit d hd ▸ h.1
  · rw [Function.update_of_ne huri] at hd
    exact h.2 d hd

/-- The other handlers and tasks, when nothing is about to be published for the document. -/
theorem Holds.store (h : st.Holds pipeline uri stage) {doc : Option DocState}
    (hedit : ∀ d, doc = some d → d.edit = st.edits) (hquiet : uri = other → stage.announces = none) :
    (st.store other doc).Holds pipeline uri stage := by
  have hdocs : stage.announces ≠ none → (st.store other doc).docs uri = st.docs uri := fun hne =>
    Function.update_of_ne (fun huri => hne (hquiet huri)) ..
  cases stage with
  | opened => exact h
  | dropping => exact Past.store h hedit
  | announcing => exact ⟨(hdocs nofun).trans h.1, h.2⟩
  | publishing => exact ⟨(hdocs nofun).trans h.1, h.2⟩
  | woken => exact (hdocs nofun).trans h
  | _ => trivial

theorem Inv.store (h : st.Inv pipeline) (ht : st.threads k = some ⟨uri, stage⟩) (hquiet : st.Quiet uri)
    {doc : Option DocState} {next : Stage Diag} (hedit : ∀ d, doc = some d → d.edit = st.edits)
    (hholds : (st.store uri doc).Holds pipeline uri next)
    (hpromise : ∀ d, doc = some d → st.Promises uri d next) (hrows : doc = none → Keeps next) :
    ((st.store uri doc).setThread k (some ⟨uri, next⟩)).Inv pipeline where
  sound := h.sound
  linked := h.linked
  threads j u hu := by
    rcases threads_setThread hu with ⟨rfl, hv⟩ | ⟨-, hu⟩
    · cases hv
      exact ⟨(h.threads j _ ht).1, hholds⟩
    · exact ⟨(h.threads j u hu).1, Holds.store (h.threads j u hu).2 hedit (hquiet j u hu)⟩
  pending other d hd := by
    change update st.docs uri doc other = some d at hd
    by_cases huri : other = uri
    · subst huri
      rw [Function.update_self] at hd
      exact .inr ⟨k, _, setThread_self, rfl, hpromise d hd⟩
    · rw [Function.update_of_ne huri] at hd
      rcases h.pending other d hd with hdone | ⟨j, u, hu, rfl, hu'⟩
      · exact .inl hdone
      · refine .inr ⟨j, u, (setThread_of_ne ?_).trans hu, rfl, hu'⟩
        rintro rfl
        exact huri (congrArg Thread.uri (Option.some.inj (hu.symm.trans ht)))
  bounded other d hd := by
    change update st.docs uri doc other = some d at hd
    by_cases huri : other = uri
    · subst huri
      rw [Function.update_self] at hd
      exact hedit d hd ▸ Nat.lt_succ_self _
    · rw [Function.update_of_ne huri] at hd
      exact Nat.lt_succ_of_lt (h.bounded other d hd)
  past other edit hmem := (h.past other edit hmem).store hedit
  closed := h.closed
  rows other hdoc hhas := by
    change update st.docs uri doc other = none at hdoc
    by_cases huri : other = uri
    · subst huri
      rw [Function.update_self] at hdoc
      exact ⟨k, _, setThread_self, rfl, hrows hdoc⟩
    · rw [Function.update_of_ne huri] at hdoc
      obtain ⟨j, u, hu, rfl, hu'⟩ := h.rows other hdoc hhas
      refine ⟨j, u, (setThread_of_ne ?_).trans hu, rfl, hu'⟩
      rintro rfl
      exact huri (congrArg Thread.uri (Option.some.inj (hu.symm.trans ht)))

/-! ## Every step -/

theorem inv_receive (h : st.Inv pipeline) (notification : Notification) :
    (st.step pipeline (.receive uri notification)).Inv pipeline where
  sound := h.sound
  linked := h.linked
  threads j u hu := by
    rcases threads_setThread hu with ⟨rfl, hv⟩ | ⟨-, hu⟩
    · cases hv
      refine ⟨Nat.lt_succ_self _, ?_⟩
      cases notification <;> trivial
    · exact ⟨Nat.lt_succ_of_lt (h.threads j u hu).1, (h.threads j u hu).2⟩
  pending other doc hdoc := by
    rcases h.pending other doc hdoc with hdone | ⟨j, u, hu, hpromise⟩
    · exact .inl hdone
    · exact .inr ⟨j, u, (setThread_of_ne (Nat.ne_of_lt (h.threads j u hu).1)).trans hu, hpromise⟩
  bounded := h.bounded
  past := h.past
  closed := h.closed
  rows other hdoc hhas := by
    obtain ⟨j, u, hu, hkeeps⟩ := h.rows other hdoc hhas
    exact ⟨j, u, (setThread_of_ne (Nat.ne_of_lt (h.threads j u hu).1)).trans hu, hkeeps⟩

theorem compile_linked (h : st.rows.Linked) (uri : FileKey) (source : Text) :
    (st.compile pipeline uri source).rows.Linked := by
  unfold compile
  cases (pipeline uri source).2 with
  | none => exact h.invalidate uri
  | some typed => exact (h.invalidate uri).mergeModule fun name id => h.no_bindingDef

theorem has_of_compile {source : Text} (h : (st.compile pipeline uri source).rows.Has other) (hne : other ≠ uri) :
    st.rows.Has other := by
  unfold compile at h
  cases htyped : (pipeline uri source).2 with
  | none =>
    rw [htyped] at h
    exact h.of_invalidate
  | some typed =>
    rw [htyped] at h
    exact (h.of_mergeModule hne).of_invalidate

/-- Events that are no end of a `did_close` keep what is past. -/
theorem Inv.past_cons (h : st.Inv pipeline) {event : Event Diag} (hevent : ∀ uri edit, event ≠ .closed uri edit)
    (other : FileKey) (edit : Nat) (hmem : .closed other edit ∈ event :: st.log) : st.Past other edit := by
  rcases List.mem_cons.1 hmem with heq | hmem
  · exact absurd heq.symm (hevent other edit)
  · exact h.past other edit hmem

theorem lastPublished_self (uri : FileKey) (doc : DocState) (diagnostics : List Diag) (byTask : Bool)
    (log : List (Event Diag)) : lastPublished uri (.published uri doc diagnostics byTask :: log) = some (doc, diagnostics) :=
  if_pos rfl

/-- A version that is published is the one in the store, so that what was right stays right. -/
theorem lastPublished_cons {doc : DocState} (hdoc : st.docs uri = some doc) (byTask : Bool) (other : FileKey)
    (d : DocState) (hd : st.docs other = some d)
    (h : lastPublished other st.log = some (d, (pipeline other d.source).1)) :
    lastPublished other (.published uri doc (pipeline uri doc.source).1 byTask :: st.log) =
      some (d, (pipeline other d.source).1) := by
  unfold lastPublished
  by_cases huri : uri = other
  · subst huri
    obtain rfl := Option.some.inj (hdoc.symm.trans hd)
    rw [if_pos rfl]
  · rw [if_neg huri, h]

theorem Inv.publish (h : st.Inv pipeline) (ht : st.threads k = some ⟨uri, stage⟩) {doc : DocState}
    {diagnostics : List Diag} (byTask : Bool) (hdoc : st.docs uri = some doc)
    (hdiag : diagnostics = (pipeline uri doc.source).1) (hkeeps : ¬ Keeps stage) :
    ({ st with log := .published uri doc diagnostics byTask :: st.log }.setThread k none).Inv pipeline := by
  subst hdiag
  refine h.goOn ht h.linked (fun u hu => by cases hu) (fun d hd hpromise => ?_) (lastPublished_cons hdoc byTask)
    (h.past_cons nofun) (List.pairwise_cons.2 ⟨fun early hmem => ?_, h.closed⟩)
    (fun other _ hhas => .inr ⟨hhas, fun _ => hkeeps⟩)
  · obtain rfl := Option.some.inj (hdoc.symm.trans hd)
    exact .inl (lastPublished_self ..)
  · rintro _ _ _ edit heq rfl
    cases heq
    exact (h.past _ edit hmem).2 _ hdoc

/-- A run is scheduled while the store has its version. -/
theorem Inv.schedule (h : st.Inv pipeline) {doc : DocState} (ht : st.threads k = some ⟨uri, .scheduling doc⟩)
    (hdoc : st.docs uri = some doc) :
    ({ st with tokens := update st.tokens uri (some doc.version) }.setThread k
      (some ⟨uri, .sleeping doc⟩)).Inv pipeline where
  sound := h.sound
  linked := h.linked
  threads j u hu := by
    rcases threads_setThread hu with ⟨rfl, hv⟩ | ⟨-, hu⟩
    · cases hv
      exact ⟨(h.threads j _ ht).1, trivial⟩
    · exact h.threads j u hu
  pending other d hd := by
    by_cases huri : other = uri
    · subst huri
      obtain rfl := Option.some.inj (hdoc.symm.trans hd)
      exact .inr ⟨k, _, setThread_self, rfl, rfl, Function.update_self ..⟩
    · rcases h.pending other d hd with hdone | ⟨j, u, hu, rfl, hpromise⟩
      · exact .inl hdone
      · refine .inr ⟨j, u, (setThread_of_ne ?_).trans hu, rfl, ?_⟩
        · rintro rfl
          exact huri (congrArg Thread.uri (Option.some.inj (hu.symm.trans ht)))
        · cases hstage : u.stage <;> rw [hstage] at hpromise
          case sleeping => exact ⟨hpromise.1, (Function.update_of_ne huri ..).trans hpromise.2⟩
          all_goals exact hpromise
  bounded := h.bounded
  past := h.past
  closed := h.closed
  rows other hdoc hhas := by
    obtain ⟨j, u, hu, rfl, hkeeps⟩ := h.rows other hdoc hhas
    refine ⟨j, u, (setThread_of_ne ?_).trans hu, rfl, hkeeps⟩
    rintro rfl
    rw [Option.some.inj (hu.symm.trans ht)] at hkeeps
    cases hkeeps

theorem inv_advance (h : st.Inv pipeline) (hallow : st.Allows (.advance k)) (ht : st.threads k = some ⟨uri, stage⟩) :
    (st.advance pipeline k uri stage).Inv pipeline := by
  have hallow := hallow _ ht
  have hholds := (h.threads k _ ht).2
  cases stage with
  | opening source version =>
    refine h.goOn ht (compile_linked h.linked uri source) (fun u hu => ?_) (fun d _ hpromise => by cases hpromise)
      (fun _ _ _ hlast => hlast) h.past h.closed fun other _ hhas => ?_
    · cases hu
      rfl
    · by_cases huri : other = uri
      · exact .inl ⟨_, rfl, huri.symm, trivial⟩
      · exact .inr ⟨has_of_compile hhas huri, fun heq => absurd heq huri⟩
  | opened source version diagnostics =>
    rw [advance, if_neg (by rw [h.sound]; nofun)]
    refine h.store ht hallow (fun d hd => ?_) ⟨Function.update_self .., hholds⟩ (fun d hd => ?_) nofun
    · cases hd
      rfl
    · cases hd
      rfl
  | announcing doc diagnostics => exact h.publish ht false hholds.1 hholds.2 id
  | changing version changes =>
    obtain ⟨hquiet, source, hsource⟩ := hallow
    rw [advance, if_neg (by rw [h.sound]; nofun), hsource]
    refine h.store ht hquiet (fun d hd => ?_) trivial (fun d hd => ?_) nofun
    · cases hd
      rfl
    · cases hd
      rfl
  | scheduling doc => exact h.schedule ht hallow
  | closing =>
    rw [advance, if_neg (by rw [h.sound]; nofun)]
    exact h.store ht hallow nofun ⟨Nat.lt_succ_self _, fun d hd => by
      rw [show (st.store uri none).docs uri = none from Function.update_self ..] at hd
      cases hd⟩ nofun fun _ => trivial
  | dropping edit =>
    refine h.goOn ht (h.linked.invalidate uri) nofun (fun d _ hpromise => by cases hpromise) (fun _ _ _ hlast => hlast)
      (fun other e hmem => ?_) (List.pairwise_cons.2 ⟨nofun, h.closed⟩) fun other hdoc hhas => ?_
    · rcases List.mem_cons.1 hmem with heq | hmem
      · cases heq
        exact hholds
      · exact h.past other e hmem
    · refine .inr ⟨hhas.of_invalidate, ?_⟩
      rintro rfl
      exact absurd (hallow hdoc) ((RowsCtx.has_invalidate_iff h.linked).1 hhas)
  | sleeping doc =>
    rw [advance]
    split
    · rename_i htoken
      exact h.goOn ht h.linked (fun u hu => by cases hu; exact hallow htoken)
        (fun d _ hpromise => .inr ⟨_, rfl, rfl, by rw [hpromise.1]; rfl⟩) (fun _ _ _ hlast => hlast) h.past h.closed
        fun _ _ hhas => .inr ⟨hhas, fun _ => id⟩
    · rename_i htoken
      exact h.goOn ht h.linked nofun (fun d _ hpromise => absurd (hpromise.1 ▸ hpromise.2) htoken)
        (fun _ _ _ hlast => hlast) h.past h.closed fun _ _ hhas => .inr ⟨hhas, fun _ => id⟩
  | woken doc =>
    refine h.goOn ht (compile_linked h.linked uri doc.source) (fun u hu => ?_)
      (fun d _ hpromise => .inr ⟨_, rfl, rfl, hpromise⟩)
      (fun _ _ _ hlast => hlast) h.past h.closed fun other hdoc hhas => ?_
    · cases hu
      exact ⟨hholds, rfl⟩
    · refine .inr ⟨has_of_compile hhas ?_, fun _ => id⟩
      rintro rfl
      rw [hholds] at hdoc
      cases hdoc
  | publishing doc diagnostics => exact h.publish ht true hholds.1 hholds.2 id

theorem inv_step (h : st.Inv pipeline) {act : Act} (hallow : st.Allows act) : (st.step pipeline act).Inv pipeline := by
  cases act with
  | receive uri notification => exact inv_receive h notification
  | advance k =>
    rw [step]
    cases ht : st.threads k with
    | none => exact h
    | some t => exact inv_advance h hallow ht

/-! ## Every run -/

/-- The steps of a run are allowed in the states before them. -/
def AllowsAll (pipeline : FileKey → Text → List Diag × Option TypedModule) (st : Server Diag) : List Act → Prop
  | [] => True
  | act :: acts => st.Allows act ∧ AllowsAll pipeline (st.step pipeline act) acts

theorem inv_foldl (h : st.Inv pipeline) {acts : List Act} (hallow : st.AllowsAll pipeline acts) :
    (acts.foldl (step pipeline) st).Inv pipeline := by
  induction acts generalizing st with
  | nil => exact h
  | cons act acts ih => exact ih (inv_step h hallow.1) hallow.2

theorem AllowsAll.of_append {acts rest : List Act} (h : st.AllowsAll pipeline (acts ++ rest)) :
    st.AllowsAll pipeline acts := by
  induction acts generalizing st with
  | nil => trivial
  | cons act acts ih => exact ⟨h.1, ih h.2⟩

/-- Diagnostics are fresh in every state that a run reaches when its steps are all allowed. -/
theorem fresh_run (acts : List Act) (h : initial.AllowsAll pipeline acts) (before : List Act) (hbefore : before <+: acts) :
    (run pipeline before).Fresh pipeline := by
  obtain ⟨rest, rfl⟩ := hbefore
  exact (inv_foldl inv_initial h.of_append).fresh

/-- Every text is one function. -/
def oneFunction (_ : FileKey) (_ : Text) : List String × Option TypedModule :=
  ([], some (functionModule 1 "f" (Store.Table.insert Store.Table.empty 1 .int)))

def opening : List Act :=
  [.receive 1 (.didOpen [] 1), .advance 0, .advance 0, .advance 0]

def editing : List Act :=
  opening ++ [.receive 1 (.didChange 2 []), .advance 1, .advance 1]

/-- The task wakes up and publishes, and then the document is closed. -/
def closing : List Act :=
  editing ++ [.advance 1, .advance 1, .advance 1, .receive 1 .didClose, .advance 2, .advance 2]

theorem fresh_run_closing : (run oneFunction closing).Fresh oneFunction ∧ (run oneFunction closing).docs 1 = none := by
  refine ⟨fresh_run closing ⟨trivial, ?_, ?_, ?_, trivial, ?_, ?_, ?_, ?_, ?_, trivial, ?_, ?_, trivial⟩ closing
    List.prefix_rfl, rfl⟩
  · rintro _ ⟨⟩
    trivial
  · rintro _ ⟨⟩ (_ | k) t ht -
    · cases ht
      rfl
    · cases ht
  · rintro _ ⟨⟩
    trivial
  · rintro _ ⟨⟩
    refine ⟨?_, _, rfl⟩
    rintro (_ | _ | k) t ht -
    · cases ht
    · cases ht
      rfl
    · cases ht
  · rintro _ ⟨⟩
    rfl
  · rintro _ ⟨⟩ -
    rfl
  · rintro _ ⟨⟩
    trivial
  · rintro _ ⟨⟩
    trivial
  · rintro _ ⟨⟩ (_ | _ | _ | k) t ht -
    · cases ht
    · cases ht
    · cases ht
      rfl
    · cases ht
  · rintro _ ⟨⟩ - (_ | _ | id) ty - hty
    · cases hty
    · exact ⟨[1], rfl, List.mem_singleton_self _⟩
    · cases hty

/-- A document is closed before its task wakes up. -/
def overtaken : List Act :=
  editing ++ [.receive 1 .didClose, .advance 2, .advance 2, .advance 1, .advance 1, .advance 1]

/-- The task publishes the closed version, and its rows are back. -/
theorem closed_document_published :
    ¬ (run oneFunction overtaken).Fresh oneFunction ∧ (run oneFunction overtaken).docs 1 = none ∧
      (run oneFunction overtaken).rows.Has 1 := by
  refine ⟨fun h => ?_, rfl, .items [1] rfl⟩
  have hlog : (run oneFunction overtaken).log =
      [.published 1 ⟨[], 2, 1⟩ [] true, .closed 1 2, .published 1 ⟨[], 1, 0⟩ [] false] := rfl
  have hclosed := h.closed
  rw [hlog] at hclosed
  exact absurd ((List.pairwise_cons.1 hclosed).1 _ (List.mem_cons_self ..) _ _ _ _ rfl rfl) (by decide)

end Server

end Cobrust.Lsp
