import Cobrust.Mir.CompRun

/-!
# The code of the clauses of a comprehension

A clause goes through a list with an iterator: a header asks for the next element, and goes behind the loop when it gets
0. So each loop ends before the first zero of its list.

* `comes_lowerGuards`: the guards of a clause.
* `comes_lowerCompClauses`: the clauses, by induction on them; inside a loop, by induction on the elements before the
  first zero.
-/

namespace Cobrust.Mir

open Exec BodyBuilder Control
open Hir (Expr CompClause Pattern)

variable {functions : Functions} {lists : Lists} {blocks : List BasicBlock} {acc : LocalId} {ids : List DefId}
  {ctx : LowerCtx} {callees : Callees}

/-! ## New definitions -/

/-- The builder with other definitions. -/
def BodyBuilder.withDefs (b : BodyBuilder) (defs : List (DefId × LocalId)) : BodyBuilder :=
  { b with defToLocal := defs }

/-- Code was added, new locals, and definitions. -/
def Prolongs (b b' : BodyBuilder) : Prop :=
  Grows b (b'.withDefs b.defToLocal)

section Prolongs

variable {b b' b'' : BodyBuilder} {c : BlockId} {block : BasicBlock} {S : BlockId → Prop}

theorem Grows.withDefs (h : Grows b b') (defs : List (DefId × LocalId)) :
    Grows (b.withDefs defs) (b'.withDefs defs) where
  len := h.len
  old := h.old
  current := h.current
  cursor := h.cursor
  opened := by
    obtain ⟨c, block, hopen⟩ := h.opened
    exact ⟨c, block, hopen.cur, hopen.get, hopen.placeholder⟩
  locals := h.locals
  defs := rfl

theorem Grows.prolongs (h : Grows b b') : Prolongs b b' := by
  rw [Prolongs, ← h.defs]
  exact h

theorem Prolongs.trans (h : Prolongs b b') (h' : Prolongs b' b'') : Prolongs b b'' :=
  Grows.trans h (h'.withDefs b.defToLocal)

theorem Prolongs.hasCode (h : Prolongs b b') (hcode : HasCode blocks b' S) : HasCode blocks b S :=
  Grows.hasCode h hcode

theorem Prolongs.owns (h : Prolongs b b') {i : BlockId} (hi : b'.Owns i) : b.Owns i :=
  Grows.owns h hi

theorem Prolongs.opened (h : Prolongs b b') : ∃ c block, b'.Open c block := by
  obtain ⟨c, block, hopen⟩ := Grows.opened h
  exact ⟨c, block, hopen.cur, hopen.get, hopen.placeholder⟩

theorem Prolongs.le_locals (h : Prolongs b b') : b.locals.length ≤ b'.locals.length :=
  (Grows.locals h).length_le

end Prolongs

section Target

variable {b : BodyBuilder} {c : BlockId} {block : BasicBlock}

/-- The builder with a local for a definition. -/
def BodyBuilder.addDef (b : BodyBuilder) (id : DefId) (name : String) (ty : Ty) (span : Span) : BodyBuilder :=
  (b.addLocal name ty span true).withDefs ((id, b.locals.length) :: b.defToLocal.filter fun entry => entry.1 ≠ id)

theorem localOf_addDef (b : BodyBuilder) (id : DefId) (name : String) (ty : Ty) (span : Span) (id' : DefId) :
    (b.addDef id name ty span).localOf id' = if id' = id then some b.locals.length else b.localOf id' := by
  rw [BodyBuilder.addDef, BodyBuilder.localOf, BodyBuilder.withDefs, List.find?_cons]
  by_cases h : id' = id
  · subst h
    simp
  · have hne : ¬ id = id' := fun e => h e.symm
    rw [if_neg h, decide_eq_false hne, BodyBuilder.localOf, List.find?_filter]
    dsimp only
    congr 2
    funext entry
    by_cases he : entry.1 = id'
    · simp [he, h]
    · simp [he]

/-- What declaring the target of a loop does; `v` is the local of the name that is bound. -/
structure Binds (ids : List DefId) (target : Pattern) (b b' : BodyBuilder) (v : Option LocalId) : Prop where
  ext : Prolongs b b'
  point : ∀ f, b'.point f = b.point f
  var : ∀ l, v = some l → b.locals.length ≤ l ∧ l < b'.locals.length
  named : Named (targetIds target ++ ids) b'
  holds : ∀ val x f f', HoldsValues ids val b f → (∀ l, l < b.locals.length → f' l = f l) →
    (∀ l, v = some l → f' l = some (.int x)) → HoldsValues (targetIds target ++ ids) (bindTarget val x target) b' f'

theorem binds_addDef (hopen : b.Open c block) (hn : Named ids b) (id : DefId) (name : String) (ty : Ty) (span : Span)
    (pspan : Span) : Binds ids (.mk (.binding name id) pspan) b (b.addDef id name ty span) (some b.locals.length) where
  ext := grows_addLocal hopen name ty span true
  point _ := rfl
  var l hl := by
    obtain rfl := Option.some.inj hl
    exact ⟨le_rfl, by simp [BodyBuilder.addDef, BodyBuilder.withDefs, BodyBuilder.addLocal]⟩
  named id' hid' := by
    have hlen : (b.addDef id name ty span).locals.length = b.locals.length + 1 := by
      simp [BodyBuilder.addDef, BodyBuilder.withDefs, BodyBuilder.addLocal]
    rw [localOf_addDef, hlen]
    by_cases h : id' = id
    · exact ⟨_, if_pos h, Nat.lt_succ_self _⟩
    · rw [if_neg h]
      have hmem : id' ∈ ids := by simpa [targetIds, h] using hid'
      obtain ⟨l, hl, hlt⟩ := hn id' hmem
      exact ⟨l, hl, Nat.lt_succ_of_lt hlt⟩
  holds val x f f' hf hsame hv id' hid' l hl := by
    rw [localOf_addDef] at hl
    by_cases h : id' = id
    · rw [if_pos h] at hl
      subst h
      rw [bindTarget, Function.update_self]
      exact hv l hl
    · rw [if_neg h] at hl
      have hmem : id' ∈ ids := by simpa [targetIds, h] using hid'
      obtain ⟨l', hl', hlt⟩ := hn id' hmem
      obtain rfl := Option.some.inj (hl'.symm.trans hl)
      rw [bindTarget, Function.update_of_ne h, hsame l' hlt]
      exact hf id' hmem l' hl

theorem declareTarget_binds (ctx : LowerCtx) (hopen : b.Open c block) (hn : Named ids b) (namePrefix : String)
    (target : Pattern)
    (bindingDefIds : List DefId) (span : Span) (hbinds : targetIds target = [] → bindingDefIds = []) :
    ∃ v b', declareTarget ctx namePrefix target bindingDefIds span b = .ok (v, b') ∧ Binds ids target b b' v := by
  have hnone (h : targetIds target = []) (hbind : ∀ val x, bindTarget val x target = val) :
      Binds ids target b b none := by
    refine ⟨(Grows.refl hopen).prolongs, fun _ => rfl, fun l hl => (by cases hl), (by rw [h]; exact hn), ?_⟩
    intro val x f f' hf hsame _ id hid l hl
    rw [h] at hid
    obtain ⟨l', hl', hlt⟩ := hn id hid
    obtain rfl := Option.some.inj (hl'.symm.trans hl)
    rw [hbind, hsame l' hlt]
    exact hf id hid l' hl
  obtain ⟨kind, pspan⟩ := target
  cases kind with
  | binding name id => exact ⟨_, _, rfl, binds_addDef hopen hn id name _ span pspan⟩
  | _ =>
    rw [hbinds rfl]
    exact ⟨none, b, rfl, hnone rfl fun _ _ => rfl⟩

end Target

section Parts

variable {b : BodyBuilder} {c : BlockId} {block : BasicBlock}

/-- The program finds what it needs at the cursor of the builder. -/
structure Ready (acc : LocalId) (ids : List DefId) (val : DefId → Option Value) (b : BodyBuilder) (f : Frame)
    (s : LoopState)
    (m : Memory) : Prop where
  held : ∀ id ∈ ids, ∃ v, val id = some v
  holds : HoldsValues ids val b f
  shows : Shows acc s m

theorem comes_lowerGuards (callees : Callees) (lists : Lists) (acc : LocalId)
    (hbuffers : ∀ ty op, isPlain ty = true → ctx.eco.lookupBufferBinop ty op = none)
    (header : BlockId) (guards : List Expr) (hguards : ∀ g ∈ guards, Decided ctx ids g) (hopen : b.Open c block)
    (hn : Named ids b) :
    ∃ b', lowerGuards header (subs ctx guards) b = .ok ((), b') ∧ Grows b b' ∧ ∀ blocks, HasCode blocks b' b.Owns →
      ∀ val f s m, Ready acc ids val b f s m →
        Comes callees.returns lists blocks acc ⟨⟨b.point f, s.history⟩, m⟩
          (fun t s' d => ∃ f', d = ⟨⟨if t then b'.point f' else ⟨header, 0, f'⟩, s'.history⟩, m⟩ ∧
            Kept acc b.locals.length f m s' f' m)
          (Build.pass (guards.map (valueOf ctx callees val)) s) := by
  induction guards generalizing b c block with
  | nil =>
    exact ⟨b, rfl, .refl hopen, fun blocks _ val f s m hready =>
      comes_pure ⟨f, rfl, hready.shows.kept fun _ _ => rfl⟩⟩
  | cons g rest ih =>
    have hg := hguards g List.mem_cons_self
    have hcall (val : DefId → Option Value) (hheld : ∀ id ∈ ids, ∃ v, val id = some v) :
        ComputesCall callees.returns ids val (lowerExpr ctx g) (valueOf ctx callees val g) :=
      computesCall_lowerExpr hbuffers hheld g hg
    obtain ⟨op, b₁, hlower, hg₁, -, hrun₁⟩ := computesAt_of_computesCall hcall hopen hn
    obtain ⟨c₁, block₁, hopen₁⟩ := hg₁.opened
    have hg₂ := grows_leave hopen₁ (switchTrue op b₁.blocks.length header)
    have hopen₂ := open_leave hopen₁ (switchTrue op b₁.blocks.length header)
    generalize hb₂ : b₁.leave c₁ (switchTrue op b₁.blocks.length header) = b₂ at hg₂ hopen₂
    have hg₁₂ := hg₁.trans hg₂
    obtain ⟨b₃, hrest, hg₃, hrun₃⟩ := ih (fun g' hg' => hguards g' (List.mem_cons_of_mem _ hg')) hopen₂ (hn.grows hg₁₂)
    refine ⟨b₃, ?_, hg₁₂.trans hg₃, fun blocks hcode val f s m hready => ?_⟩
    · refine Control.bind_eq_ok.2 ⟨op, b₁, hlower, Control.bind_eq_ok.2 ⟨(), b₂, ?_, hrest⟩⟩
      rw [continueAfter_eq hopen₁, hb₂]
    · have hcode₂ := hg₃.hasCode hcode
      have hfinal₁ : blocks[c₁]? = some { block₁ with terminator := switchTrue op b₁.blocks.length header } := by
        rw [← hb₂] at hcode₂
        exact closed_leave hopen₁ hcode₂ (hg₁.owns hopen₁.owns)
      refine (comes_part hready.shows
        (hrun₁ blocks (hg₂.hasCode hcode₂) val hready.held f hready.holds s.history)).bind ?_
      rintro v s₁ d₁ ⟨f₁, rfl, hop, hkept₁⟩
      cases v with
      | int n => trivial
      | str t => trivial
      | bool t =>
        have hswitch : ListRuns callees.returns lists blocks ⟨⟨b₁.point f₁, s₁.history⟩, m⟩
            ⟨⟨⟨if t then b₁.blocks.length else header, 0, f₁⟩, s₁.history⟩, m⟩ := by
          have hruns : Runs callees.returns blocks ⟨b₁.point f₁, s₁.history⟩ ⟨⟨_, 0, f₁⟩, s₁.history⟩ :=
            runs_switch hopen₁ hfinal₁ rfl rfl hop
          cases t <;> exact .of_runs hruns
        cases t with
        | false => exact (comes_pure ⟨f₁, rfl, hkept₁⟩).after hswitch
        | true =>
          have hpoint : b₂.point f₁ = ⟨b₁.blocks.length, 0, f₁⟩ := hopen₂.point_eq f₁
          rw [if_pos rfl, ← hpoint] at hswitch
          have hready₂ : Ready acc ids val b₂ f₁ s₁ m :=
            ⟨hready.held, hready.holds.grows hn hg₁₂ hkept₁.frame, hkept₁.toShows⟩
          refine ((hrun₃ blocks (hcode.mono fun i => hg₁₂.owns) val f₁ s₁ m hready₂).mono ?_).after hswitch
          rintro t s₃ d₃ ⟨f₃, hd₃, hkept₃⟩
          exact ⟨f₃, hd₃, hkept₁.trans hkept₃ hg₁₂.locals.length_le⟩

theorem comes_lowerCompBody (callees : Callees) (lists : Lists) (acc : LocalId)
    (hbuffers : ∀ ty op, isPlain ty = true → ctx.eco.lookupBufferBinop ty op = none)
    {element : Expr} (helement : Decided ctx ids element) (span : Span) (hopen : b.Open c block) (hn : Named ids b) :
    ∃ b', lowerCompBody (lowerCompElem ctx (.single element)) .list acc span b = .ok ((), b') ∧ Grows b b' ∧
      ∀ blocks, HasCode blocks b' b.Owns → ∀ val f s m, Ready acc ids val b f s m →
        Comes callees.returns lists blocks acc ⟨⟨b.point f, s.history⟩, m⟩
          (fun _ s' d => ∃ f' m', d = ⟨⟨b'.point f', s'.history⟩, m'⟩ ∧ Kept acc b.locals.length f m s' f' m')
          ((Build.part (valueOf ctx callees val element) >>= Build.append) s) := by
  have hcall (val : DefId → Option Value) (hheld : ∀ id ∈ ids, ∃ v, val id = some v) :
      ComputesCall callees.returns ids val (lowerExpr ctx element) (valueOf ctx callees val element) :=
    computesCall_lowerExpr hbuffers hheld element helement
  obtain ⟨op, b₁, hlower, hg₁, -, hrun₁⟩ := computesAt_of_computesCall hcall hopen hn
  obtain ⟨c₁, block₁, hopen₁⟩ := hg₁.opened
  have hg₂ := grows_callNew "_comp_appended" .none span false hopen₁ "__cobrust_list_append" [.copy (.ofLocal acc), op]
  refine ⟨_, ?_, hg₁.trans hg₂, fun blocks hcode val f s m hready => ?_⟩
  · refine Control.bind_eq_ok.2 ⟨op, b₁, hlower, Control.bind_eq_ok.2 ⟨_, _, declareLocal_eq _ _ _ _ _, ?_⟩⟩
    exact callSymbol_eq hopen₁ "_comp_appended" .none span false "__cobrust_list_append" [.copy (.ofLocal acc), op]
  · refine (comes_part hready.shows
      (hrun₁ blocks (hg₂.hasCode hcode) val hready.held f hready.holds s.history)).bind ?_
    rintro v s₁ d₁ ⟨f₁, rfl, hop, hkept₁⟩
    cases v with
    | bool t => trivial
    | str t => trivial
    | int n =>
      have hcall : callList lists "__cobrust_list_append" [.copy (.ofLocal acc), op] b₁.locals.length f₁ m =
          some (f₁, m.put acc (.list (s₁.items ++ [n]))) := by
        simp [callList, Place.ofLocal, hkept₁.items, hop]
      have hopen' := open_addLocal hopen₁ "_comp_appended" .none span false
      have hruns := listRuns_call callees.returns s₁.history hopen' hcode
        (hg₁.owns hopen₁.owns) hcall
      refine ⟨_, hruns, f₁, m.put acc (.list (s₁.items ++ [n])), ?_, ?_⟩
      · rw [BodyBuilder.callNew, point_leave hopen']
      · exact ⟨⟨hkept₁.started, m.put_self acc _⟩, hkept₁.frame, fun l _ hne => Memory.put_of_ne _ hne⟩

end Parts

section Iterator

variable {b : BodyBuilder} {c : BlockId} {block : BasicBlock}

theorem Iterated.callee {callee : Expr} {args : List Hir.CallArg} {span : Span}
    (h : Iterated ctx ids (.mk (.call callee args) span)) : ∃ rn cspan, callee = .mk (.name rn) cspan ∧
      (∃ positional named varPositional varKeyword returnTy,
        ctx.lookupTy rn.defId = .fn positional named varPositional varKeyword returnTy) ∧
      (ctx.lookupTy rn.defId).isListFn = false ∧ DecidedArgs ctx ids args := by
  obtain ⟨kind, cspan⟩ := callee
  cases kind with
  | name rn => exact ⟨rn, cspan, rfl, h⟩
  | _ => exact False.elim h

theorem computesCall_iterated (hbuffers : ∀ ty op, isPlain ty = true → ctx.eco.lookupBufferBinop ty op = none)
    {val : DefId → Option Value} (hheld : ∀ id ∈ ids, ∃ v, val id = some v) : ∀ iter : Expr, Iterated ctx ids iter →
      ComputesCall callees.returns ids val (lowerExpr ctx iter) (valueOf ctx callees val iter)
  | .mk (.name rn) span, h => by
    obtain ⟨v, hv⟩ := hheld rn.defId h
    rw [valueOf, evaluate, hv]
    exact computesCall_lowerName h hv
  | .mk (.call callee args) span, h => by
    obtain ⟨rn, cspan, rfl, ⟨positional, named, varPositional, varKeyword, returnTy, hty⟩, hlist, hargs⟩ := h.callee
    have hlower : lowerExpr ctx (.mk (.call (.mk (.name rn) cspan) args) span) =
        lowerFnCall ctx ⟨.mk (.name rn) cspan, lowerExpr ctx (.mk (.name rn) cspan)⟩ (subArgs ctx args) span := by
      rw [lowerExpr]
      rfl
    rw [hlower, valueOf, evaluate]
    refine (computesCall_lowerFnCall hty hlist (computesCall_subArgs hbuffers hheld args hargs)).congr ?_
    exact same_bind (runAll (evaluateArgs ctx callees val Site.inOrder args)) fun _ _ => ⟨rfl, rfl⟩
  | .mk (.ifExpr cond thenBranch elseBranch) span, h =>
    computesCall_ifExpr (computesCall_lowerExpr hbuffers hheld cond h.1)
      (computesCall_iterated hbuffers hheld thenBranch h.2.1) (computesCall_iterated hbuffers hheld elseBranch h.2.2)
  | .mk (.lit _) _, h | .mk (.format _) _, h | .mk (.tuple _) _, h | .mk (.list _) _, h | .mk (.set _) _, h
  | .mk (.dict _) _, h | .mk (.comp _ _ _ _) _, h | .mk (.lambda _ _ _) _, h | .mk (.attr _ _) _, h
  | .mk (.index _ _) _, h | .mk (.bin _ _ _) _, h | .mk (.un _ _) _, h | .mk (.borrow _) _, h | .mk (.await _) _, h
  | .mk (.yield _) _, h | .mk (.yieldFrom _) _, h | .mk (.cast _ _) _, h => False.elim h

/-- Evaluate what a clause goes through, and make an iterator on it. -/
def openIter (iter : LowerM Operand) (span : Span) : LowerM LocalId := do
  let iterVal ← iter
  let iterLocal ← declareLocal "_comp_iter" .none span true
  emitAssign (.ofLocal iterLocal) (.use iterVal) span
  let handle ← declareLocal "_comp_iter_handle" .none span true
  callSymbol "__cobrust_iter_init" [.copy (.ofLocal iterLocal)] handle
  return handle

theorem comes_openIter (callees : Callees) (lists : Lists)
    (hbuffers : ∀ ty op, isPlain ty = true → ctx.eco.lookupBufferBinop ty op = none)
    {iter : Expr} (hiter : Iterated ctx ids iter) (span : Span) (hopen : b.Open c block) (hn : Named ids b)
    (hacc : acc < b.locals.length) :
    ∃ handle b', openIter (lowerExpr ctx iter) span b = .ok (handle, b') ∧ Grows b b' ∧ b.locals.length ≤ handle ∧
      handle < b'.locals.length ∧ ∀ blocks, HasCode blocks b' b.Owns → ∀ val f s m, Ready acc ids val b f s m →
        Comes callees.returns lists blocks acc ⟨⟨b.point f, s.history⟩, m⟩
          (fun items s' d => ∃ f' m' p, d = ⟨⟨b'.point f', s'.history⟩, m'⟩ ∧ lists p = some items ∧
            m'.objects handle = some (.iter p 0) ∧ Kept acc b.locals.length f m s' f' m')
          ((Build.part (valueOf ctx callees val iter) >>= Build.start lists) s) := by
  have hcall (val : DefId → Option Value) (hheld : ∀ id ∈ ids, ∃ v, val id = some v) :
      ComputesCall callees.returns ids val (lowerExpr ctx iter) (valueOf ctx callees val iter) :=
    computesCall_iterated hbuffers hheld iter hiter
  obtain ⟨op, b₁, hlower, hg₁, -, hrun₁⟩ := computesAt_of_computesCall hcall hopen hn
  obtain ⟨c₁, block₁, hopen₁⟩ := hg₁.opened
  have hg₂ := grows_assignNew "_comp_iter" .none span true hopen₁ (.use op)
  obtain ⟨block₂, hopen₂⟩ := open_assignNew "_comp_iter" .none span true hopen₁ (.use op)
  have hlen₂ := locals_assignNew "_comp_iter" .none span true b₁ c₁ (.use op)
  generalize hb₂ : b₁.assignNew c₁ "_comp_iter" .none span true (.use op) = b₂ at hg₂ hopen₂ hlen₂
  have hopen₂' := open_addLocal hopen₂ "_comp_iter_handle" .none span true
  have hg₃ := grows_callNew "_comp_iter_handle" .none span true hopen₂ "__cobrust_iter_init"
    [.copy (.ofLocal b₁.locals.length)]
  have hlen₁ := hg₁.locals.length_le
  refine ⟨b₂.locals.length, _, ?_, hg₁.trans (hg₂.trans hg₃), hlen₁.trans hg₂.locals.length_le, ?_,
    fun blocks hcode val f s m hready => ?_⟩
  · refine Control.bind_eq_ok.2 ⟨op, b₁, hlower, Control.bind_eq_ok.2 ⟨_, _, declareLocal_eq _ _ _ _ _, ?_⟩⟩
    refine Control.bind_eq_ok.2 ⟨(), b₂, emitStmt_ok.2 ⟨c₁, hopen₁.cur, hb₂.symm⟩, ?_⟩
    refine Control.bind_eq_ok.2 ⟨_, _, declareLocal_eq _ _ _ _ _, Control.bind_eq_ok.2 ⟨(), _, ?_, rfl⟩⟩
    exact callSymbol_eq hopen₂ "_comp_iter_handle" .none span true "__cobrust_iter_init" _
  · rw [locals_callNew]
    exact Nat.lt_succ_self _
  · have hcode₂ := hg₃.hasCode hcode
    refine (comes_part hready.shows
      (hrun₁ blocks (hg₂.hasCode hcode₂) val hready.held f hready.holds s.history)).bind ?_
    rintro v s₁ d₁ ⟨f₁, rfl, hop, hkept₁⟩
    cases v with
    | bool t => trivial
    | str t => trivial
    | int p =>
      rw [Build.start]
      cases hlist : lists p with
      | none => trivial
      | some items =>
        rw [← hb₂] at hcode₂
        have hassign : DeliversCall callees.returns blocks b₁ b₂ (Operand.copy (.ofLocal b₁.locals.length)) f₁
            s₁.history (((f₁.rvalue (.use op)).run : Traced History Stop Site Value) s₁.history) := by
          rw [← hb₂]
          exact deliversCall_assignNew "_comp_iter" .none span true hopen₁ hcode₂ (hg₁.owns hopen₁.owns) (.inl rfl) f₁ _
        have hvalue : f₁.rvalue (.use op) = .value (.int p) := by rw [Frame.rvalue, hop]
        rw [hvalue] at hassign
        obtain ⟨f₂, hruns₂, hread, hf₂⟩ := hassign
        have hread : f₂.operand (.copy (.ofLocal b₁.locals.length)) = some (.int p) := hread
        have hcall : callList lists "__cobrust_iter_init" [.copy (.ofLocal b₁.locals.length)] b₂.locals.length f₂ m =
            some (f₂, { m.put b₂.locals.length (.iter p 0) with started := p :: m.started }) := by
          simp [callList, hread, hlist]
        have hruns₃ := listRuns_call callees.returns s₁.history hopen₂' hcode
          (hg₁.owns (hg₂.owns hopen₂.owns)) hcall
        have hkept₂ : Kept acc b.locals.length f m s₁ f₂ m :=
          hkept₁.trans (hkept₁.toShows.kept hf₂) hlen₁
        have hput := hkept₂.put (hlen₁.trans hg₂.locals.length_le) hacc (.iter p 0)
        refine ⟨_, (ListRuns.of_runs hruns₂).trans hruns₃, f₂,
          { m.put b₂.locals.length (.iter p 0) with started := p :: m.started }, p, ?_, hlist,
          Memory.put_self m _ _, ?_⟩
        · rw [BodyBuilder.callNew, point_leave hopen₂']
        · exact ⟨⟨congrArg (p :: ·) hput.started, hput.items⟩, hput.frame, hput.objects⟩

end Iterator

/-! ## The head of a loop -/

section Head

variable {b : BodyBuilder} {c : BlockId} {block : BasicBlock} {S : BlockId → Prop}

/-- The code that asks for the next element: the header, and the block behind the loop. -/
def openLoop (handle : LocalId) (varLocal : Option LocalId) (span : Span) : LowerM (BlockId × BlockId) := do
  let pre ← currentBlockId
  let header ← startNewBlock
  let optLocal ← declareLocal "_comp_iter_opt" .none span true
  setCurBlock pre
  terminate (.goto header)
  setCurBlock header
  callSymbol "__cobrust_iter_next" [.copy (.ofLocal handle)] optLocal
  let afterNext ← currentBlockId
  storeElement varLocal optLocal span
  let bodyBlock ← startNewBlock
  let exitBlock ← startNewBlock
  setCurBlock afterNext
  terminate (.switchInt (.copy (.ofLocal optLocal)) [(.bool false, exitBlock)] bodyBlock)
  setCurBlock bodyBlock
  return (header, exitBlock)

/-- The frame in which the name that is bound has a value. -/
def bindLocal (f : Frame) (varLocal : Option LocalId) (v : Value) : Frame :=
  match varLocal with
  | some l => f.set l v
  | none => f

theorem storeElement_runs (functions : Functions) (lists : Lists) (varLocal : Option LocalId) (optLocal : LocalId)
    (span : Span) (hopen : b.Open c block) :
    ∃ b' block', storeElement varLocal optLocal span b = .ok ((), b') ∧ b'.Open c block' ∧ Grows b b' ∧
      b'.blocks.length = b.blocks.length ∧ b'.locals = b.locals ∧ ∀ blocks S, HasCode blocks b' S → S c →
        ∀ f v, f optLocal = some v → ∀ h m,
          ListRuns functions lists blocks ⟨⟨b.point f, h⟩, m⟩ ⟨⟨b'.point (bindLocal f varLocal v), h⟩, m⟩ := by
  cases varLocal with
  | none => exact ⟨b, block, rfl, hopen, .refl hopen, rfl, rfl, fun _ _ _ _ _ _ _ _ _ => .refl⟩
  | some l =>
    refine ⟨_, _, emitStmt_ok.2 ⟨c, hopen.cur, rfl⟩, open_pushStmt hopen _, grows_pushStmt hopen _,
      length_pushStmt _ _ _, rfl, fun blocks S hcode hc f v hv h m => ?_⟩
    exact .of_runs (runs_of_reaches (delivers_assign hopen hcode hc hv))

/-- What the head of a loop is in the finished blocks. -/
structure Head (functions : Functions) (lists : Lists) (blocks : List BasicBlock) (b b' : BodyBuilder)
    (handle : LocalId)
    (varLocal : Option LocalId) (header exit : BlockId) : Prop where
  enter : ∀ f h m, ListRuns functions lists blocks ⟨⟨b.point f, h⟩, m⟩ ⟨⟨⟨header, 0, f⟩, h⟩, m⟩
  next : ∀ f h m v m', callList lists "__cobrust_iter_next" [.copy (.ofLocal handle)] b.locals.length f m =
      some (f.set b.locals.length (.int v), m') →
    ListRuns functions lists blocks ⟨⟨⟨header, 0, f⟩, h⟩, m⟩
      ⟨⟨if v = 0#64 then ⟨exit, 0, bindLocal (f.set b.locals.length (.int v)) varLocal (.int v)⟩
        else b'.point (bindLocal (f.set b.locals.length (.int v)) varLocal (.int v)), h⟩, m'⟩

theorem openLoop_head (functions : Functions) (lists : Lists) (handle : LocalId) (varLocal : Option LocalId)
    (span : Span) (hopen : b.Open c block) :
    ∃ header exit b', openLoop handle varLocal span b = .ok ((header, exit), b') ∧ Grows b b' ∧
      b.locals.length < b'.locals.length ∧ b.blocks.length ≤ exit ∧ header ≠ exit ∧ (∀ i, b'.Owns i → i ≠ exit) ∧
      (∃ block, b'.blocks[exit]? = some block ∧ block.statements = [] ∧ block.terminator = .unreachable) ∧
      ∀ blocks, HasCode blocks b' (fun i => b.Owns i ∧ i ≠ exit) →
        Head functions lists blocks b b' handle varLocal header exit := by
  -- the header, in which the iterator is asked
  have hopen₀ := open_addLocal hopen "_comp_iter_opt" .none span true
  have hg₀ := grows_addLocal hopen "_comp_iter_opt" .none span true
  have hlen₀ : b.locals.length < (b.addLocal "_comp_iter_opt" .none span true).locals.length := by
    simp [BodyBuilder.addLocal]
  have hg₁ := grows_leave hopen₀ (.goto b.blocks.length)
  have hopen₁ : ((b.addLocal "_comp_iter_opt" .none span true).leave c (.goto b.blocks.length)).Open b.blocks.length
    ⟨b.blocks.length, [], .unreachable, b.span⟩ := open_leave hopen₀ (.goto b.blocks.length)
  generalize hb₁ : (b.addLocal "_comp_iter_opt" .none span true).leave c (.goto b.blocks.length) = b₁ at hg₁ hopen₁
  have hlt₁ : b.blocks.length < b₁.blocks.length := hopen₁.lt
  have hg₂ := grows_leave hopen₁ (.call (.constant (.str "__cobrust_iter_next")) [.copy (.ofLocal handle)]
    (.ofLocal b.locals.length) b₁.blocks.length none)
  have hopen₂ := open_leave hopen₁ (.call (.constant (.str "__cobrust_iter_next")) [.copy (.ofLocal handle)]
    (.ofLocal b.locals.length) b₁.blocks.length none)
  generalize hb₂ : b₁.leave b.blocks.length (.call (.constant (.str "__cobrust_iter_next")) [.copy (.ofLocal handle)]
    (.ofLocal b.locals.length) b₁.blocks.length none) = b₂ at hg₂ hopen₂
  -- behind the call, the element is bound and the loop goes on or ends
  obtain ⟨b₃, block₃, hstore, hopen₃, hg₃, hlen₃, -, hrun₃⟩ :=
    storeElement_runs functions lists varLocal b.locals.length span hopen₂
  have hlt₃ : b₁.blocks.length < b₃.blocks.length := hopen₃.lt
  have hg₄ := grows_fork (.switchInt (.copy (.ofLocal b.locals.length)) [(.bool false, b₃.blocks.length + 1)]
    b₃.blocks.length) hopen₃
  have hopen₄ := open_fork (.switchInt (.copy (.ofLocal b.locals.length)) [(.bool false, b₃.blocks.length + 1)]
    b₃.blocks.length) hopen₃
  have hself₄ := block_fork_self (.switchInt (.copy (.ofLocal b.locals.length)) [(.bool false, b₃.blocks.length + 1)]
    b₃.blocks.length) hopen₃
  have hexit₄ := block_fork_second (.switchInt (.copy (.ofLocal b.locals.length)) [(.bool false, b₃.blocks.length + 1)]
    b₃.blocks.length) hopen₃
  have hlen₄ := length_fork (.switchInt (.copy (.ofLocal b.locals.length)) [(.bool false, b₃.blocks.length + 1)]
    b₃.blocks.length) b₃ b₁.blocks.length
  generalize hb₄ : b₃.fork b₁.blocks.length (.switchInt (.copy (.ofLocal b.locals.length))
    [(.bool false, b₃.blocks.length + 1)] b₃.blocks.length) = b₄ at hg₄ hopen₄ hself₄ hexit₄ hlen₄
  refine ⟨b.blocks.length, b₃.blocks.length + 1, b₄, ?_, hg₀.trans (hg₁.trans (hg₂.trans (hg₃.trans hg₄))),
    (hg₁.trans (hg₂.trans (hg₃.trans hg₄))).lt_locals hlen₀, ((hlt₁.trans hlt₃).trans (Nat.lt_succ_self _)).le,
    ((hlt₁.trans hlt₃).trans (Nat.lt_succ_self _)).ne, fun i hi => ?_, ⟨_, hexit₄, rfl, rfl⟩, fun blocks hcode₄ => ?_⟩
  · refine Control.bind_eq_ok.2 ⟨c, b, currentBlockId_ok.2 ⟨hopen.cur, rfl⟩, ?_⟩
    refine Control.bind_eq_ok.2 ⟨_, _, startNewBlock_ok.2 ⟨rfl, rfl⟩, ?_⟩
    refine Control.bind_eq_ok.2 ⟨b.locals.length, _, declareLocal_eq _ _ _ _ _, ?_⟩
    refine Control.bind_eq_ok.2 ⟨(), _, setCurBlock_ok.2 rfl, ?_⟩
    refine Control.bind_eq_ok.2 ⟨(), _, terminate_ok.2 rfl, ?_⟩
    refine Control.bind_eq_ok.2 ⟨(), b₁, setCurBlock_ok.2 hb₁.symm, ?_⟩
    refine Control.bind_eq_ok.2 ⟨(), b₂, ?_, ?_⟩
    · rw [← hb₂]
      exact continueAfter_eq hopen₁ _
    refine Control.bind_eq_ok.2 ⟨b₁.blocks.length, b₂, currentBlockId_ok.2 ⟨hopen₂.cur, rfl⟩, ?_⟩
    refine Control.bind_eq_ok.2 ⟨(), b₃, hstore, ?_⟩
    refine Control.bind_eq_ok.2 ⟨_, _, startNewBlock_ok.2 ⟨rfl, rfl⟩, ?_⟩
    refine Control.bind_eq_ok.2 ⟨b₃.blocks.length + 1, _, startNewBlock_ok.2 ⟨(length_startBlock b₃).symm, rfl⟩, ?_⟩
    refine Control.bind_eq_ok.2 ⟨(), _, setCurBlock_ok.2 rfl, ?_⟩
    refine Control.bind_eq_ok.2 ⟨(), _, terminate_ok.2 rfl, ?_⟩
    exact Control.bind_eq_ok.2 ⟨(), b₄, setCurBlock_ok.2 hb₄.symm, rfl⟩
  · rcases hi with hcur | hle
    · obtain rfl : b₃.blocks.length = i := Option.some.inj (hopen₄.cur.symm.trans hcur)
      exact (Nat.lt_succ_self _).ne
    · rw [hlen₄] at hle
      exact (Nat.lt_of_lt_of_le (Nat.lt_succ_self _) hle).ne'
  · have hcode₃ := hg₄.hasCode hcode₄
    have hcode₂ := hg₃.hasCode hcode₃
    have hcode₁ := hg₂.hasCode hcode₂
    rw [← hb₂] at hcode₂
    rw [← hb₁] at hcode₁
    have hc : b.Owns c ∧ c ≠ b₃.blocks.length + 1 :=
      ⟨hopen.owns, (hopen.lt.trans ((hlt₁.trans hlt₃).trans (Nat.lt_succ_self _))).ne⟩
    have hheader : b.Owns b.blocks.length ∧ b.blocks.length ≠ b₃.blocks.length + 1 :=
      ⟨.inr le_rfl, ((hlt₁.trans hlt₃).trans (Nat.lt_succ_self _)).ne⟩
    have hafter : b.Owns b₁.blocks.length ∧ b₁.blocks.length ≠ b₃.blocks.length + 1 :=
      ⟨.inr hlt₁.le, (hlt₃.trans (Nat.lt_succ_self _)).ne⟩
    have hfinal₃ := hcode₄.closed hafter hself₄ (by rw [hopen₄.cur]; simpa using hlt₃.ne')
    refine ⟨fun f h m => .of_runs (runs_goto hopen (closed_leave hopen₀ hcode₁ hc) rfl rfl), fun f h m v m' hcall => ?_⟩
    have hcalled := listRuns_call functions h hopen₁ hcode₂ hheader hcall
    rw [hopen₁.point_eq] at hcalled
    have hread : f.set b.locals.length (.int v) b.locals.length = some (.int v) := f.set_self _ _
    have hstored := hrun₃ blocks _ hcode₃ hafter _ _ hread h m'
    rw [hopen₂.point_eq] at hstored
    have hop : (bindLocal (f.set b.locals.length (.int v)) varLocal (.int v)).operand
        (.copy (.ofLocal b.locals.length)) =
        some (.int v) := by
      cases varLocal with
      | none => exact hread
      | some l =>
        by_cases hl : b.locals.length = l
        · subst hl
          exact Frame.set_self _ _ _
        · exact (Frame.set_of_ne _ hl).trans hread
    have hswitched := listRuns_switch functions lists h m' hopen₃ hfinal₃ hop
    refine hcalled.trans (hstored.trans ?_)
    by_cases hv : v = 0#64
    · rw [if_pos hv]
      have htarget : switchWord v b₃.blocks.length [(.bool false, b₃.blocks.length + 1)] = b₃.blocks.length + 1 :=
        if_pos hv
      rw [htarget] at hswitched
      exact hswitched
    · rw [if_neg hv, hopen₄.point_eq]
      have htarget : switchWord v b₃.blocks.length [(.bool false, b₃.blocks.length + 1)] = b₃.blocks.length := if_neg hv
      rw [htarget] at hswitched
      exact hswitched

theorem bindLocal_of_ne {f : Frame} {varLocal : Option LocalId} {v : Value} {l : LocalId}
    (h : ∀ l', varLocal = some l' → l ≠ l') : bindLocal f varLocal v l = f l := by
  cases varLocal with
  | none => rfl
  | some l' => exact Frame.set_of_ne v (h l' rfl)

theorem bindLocal_self {f : Frame} {varLocal : Option LocalId} {v : Value} {l : LocalId} (h : varLocal = some l) :
    bindLocal f varLocal v l = some v := by
  subst h
  exact Frame.set_self _ _ _

theorem callList_next {handle l : LocalId} {f : Frame} {m : Memory} {p : BitVec 64} {i : Nat} {items : List (BitVec 64)}
    (hlist : lists p = some items) (hobject : m.objects handle = some (.iter p i)) :
    callList lists "__cobrust_iter_next" [.copy (.ofLocal handle)] l f m =
      match items[i]? with
      | some v => some (f.set l (.int v), m.put handle (.iter p (i + 1)))
      | none => some (f.set l (.int 0#64), m) := by
  cases hget : items[i]? <;> simp [callList, Place.ofLocal, hobject, hlist, hget]

/-- The loop of a head, from what the code of its body does for an element. -/
theorem Head.comes_forEach {b' : BodyBuilder} {handle : LocalId} {varLocal : Option LocalId} {header exit : BlockId}
    (hhead : Head functions lists blocks b b' handle varLocal header exit) {n : Nat} (hacc : acc < n)
    (hn : n ≤ b.locals.length)
    (hhandle : n ≤ handle ∧ handle < b'.locals.length) (hvar : ∀ l, varLocal = some l → n ≤ l) {f : Frame} {m : Memory}
    {p : BitVec 64} {items : List (BitVec 64)} (hlist : lists p = some items) {body : BitVec 64 → Build Unit}
    (hbody : ∀ x s f' m', Shows acc s m' → (∀ l, l < n → f' l = f l) → (∀ l, varLocal = some l → f' l = some (.int x)) →
      Comes functions lists blocks acc ⟨⟨b'.point f', s.history⟩, m'⟩
        (fun _ s' d => ∃ f'' m'', d = ⟨⟨⟨header, 0, f''⟩, s'.history⟩, m''⟩ ∧
          Kept acc b'.locals.length f' m' s' f'' m'')
        (body x s))
    {s₁ : LoopState} {f₁ : Frame} {m₁ : Memory} (hobject : m₁.objects handle = some (.iter p 0))
    (hkept : Kept acc n f m s₁ f₁ m₁) :
    Comes functions lists blocks acc ⟨⟨⟨header, 0, f₁⟩, s₁.history⟩, m₁⟩
      (fun _ s' d => ∃ f' m', d = ⟨⟨⟨exit, 0, f'⟩, s'.history⟩, m'⟩ ∧ Kept acc n f m s' f' m')
      (Build.forEach body (items.takeWhile (· ≠ 0#64)) s₁) := by
  -- the elements that are left are those from the iterator's position to the first zero
  let I (rest : List (BitVec 64)) (s' : LoopState) (d : ListConfig) : Prop :=
    ∃ f' m' i, d = ⟨⟨⟨header, 0, f'⟩, s'.history⟩, m'⟩ ∧ (items.drop i).takeWhile (· ≠ 0#64) = rest ∧
      m'.objects handle = some (.iter p i) ∧ Kept acc n f m s' f' m'
  have hbound {s' : LoopState} {f' : Frame} {m' : Memory} (hkept' : Kept acc n f m s' f' m') (v : Value) :
      Kept acc n f m s' (bindLocal (f'.set b.locals.length v) varLocal v) m' := by
    refine ⟨hkept'.toShows, fun l hl => ?_, hkept'.objects⟩
    rw [bindLocal_of_ne fun l' hl' => (hl.trans_le (hvar l' hl')).ne, Frame.set_of_ne v (hl.trans_le hn).ne]
    exact hkept'.frame l hl
  have hstep (x : BitVec 64) (rest : List (BitVec 64)) (s' : LoopState) (d : ListConfig) (hI : I (x :: rest) s' d) :
      Comes functions lists blocks acc d (fun _ s'' d' => I rest s'' d') (body x s') := by
    obtain ⟨f', m', i, rfl, hrest, hobject', hkept'⟩ := hI
    obtain ⟨hget, hx, hrest'⟩ : items[i]? = some x ∧ x ≠ 0#64 ∧ (items.drop (i + 1)).takeWhile (· ≠ 0#64) = rest := by
      cases hdrop : items.drop i with
      | nil =>
        rw [hdrop] at hrest
        cases hrest
      | cons y ys =>
        rw [hdrop, List.takeWhile_cons] at hrest
        split at hrest
        · next hy =>
          cases hrest
          refine ⟨?_, by simpa using hy, ?_⟩
          · rw [← List.head?_drop, hdrop]
            rfl
          · rw [← List.tail_drop, hdrop]
            rfl
        · cases hrest
    have hcall := callList_next (l := b.locals.length) (f := f') hlist hobject'
    rw [hget] at hcall
    have hnext := hhead.next f' s'.history m' x _ hcall
    rw [if_neg hx] at hnext
    have hput := (hbound hkept' (.int x)).put hhandle.1 hacc (.iter p (i + 1))
    refine ((hbody x s' _ _ hput.toShows hput.frame fun l hl => bindLocal_self hl).mono ?_).after hnext
    rintro - s'' d' ⟨f'', m'', rfl, hkept''⟩
    refine ⟨f'', m'', i + 1, rfl, hrest', ?_, hput.trans hkept'' (hhandle.1.trans hhandle.2.le)⟩
    rw [hkept''.objects handle hhandle.2 (hacc.trans_le hhandle.1).ne']
    exact Memory.put_self m' _ _
  have hstart : I (items.takeWhile (· ≠ 0#64)) s₁ ⟨⟨⟨header, 0, f₁⟩, s₁.history⟩, m₁⟩ :=
    ⟨f₁, m₁, 0, rfl, rfl, hobject, hkept⟩
  refine (Comes.forEach I hstep hstart).further ?_
  rintro - s' d ⟨f', m', i, rfl, hnil, hobject', hkept'⟩
  have hcall := callList_next (l := b.locals.length) (f := f') hlist hobject'
  cases hget : items[i]? with
  | none =>
    rw [hget] at hcall
    have hnext := hhead.next f' s'.history m' 0#64 _ hcall
    rw [if_pos rfl] at hnext
    exact ⟨_, hnext, _, m', rfl, hbound hkept' (.int 0#64)⟩
  | some v =>
    obtain rfl : v = 0#64 := by
      rw [List.drop_eq_getElem?_toList_append, hget] at hnil
      by_contra hv
      simp [hv] at hnil
    rw [hget] at hcall
    have hnext := hhead.next f' s'.history m' 0#64 _ hcall
    rw [if_pos rfl] at hnext
    exact ⟨_, hnext, _, _, rfl, (hbound hkept' (.int 0#64)).put hhandle.1 hacc _⟩

end Head

section Clauses

variable {b b' : BodyBuilder} {c : BlockId} {block : BasicBlock} {S : BlockId → Prop}

theorem lowerCompClauses_eq (lowerElem : LowerM Operand) (kind : Hir.CompKind) (span : Span) (first : SubClause)
    (rest : List SubClause) :
    lowerCompClauses ctx lowerElem kind acc span (first :: rest) = (do
      let handle ← openIter first.iter.lower span
      let varLocal ← declareTarget ctx "_comp_iter_bind_" first.target first.bindingDefIds span
      let (header, exitBlock) ← openLoop handle varLocal span
      lowerGuards header first.guards
      lowerCompClauses ctx lowerElem kind acc span rest
      gotoIfOpen header
      setCurBlock exitBlock) := by
  simp only [lowerCompClauses, openIter, openLoop, bind_assoc, pure_bind]

theorem HasCode.before {x : BlockId} (hcode : HasCode blocks b fun i => S i ∧ i ≠ x) (hx : b.blocks.length ≤ x) :
    HasCode blocks b S := by
  intro i hi block hblock
  have hlt : i < b.blocks.length := (List.getElem?_eq_some_iff.1 hblock).1
  exact hcode i ⟨hi, (hlt.trans_le hx).ne⟩ block hblock

/-- The jump back to the header, and on behind the loop. -/
theorem prolongs_back (h : Prolongs b b') (hopen : b'.Open c block) {header exit : BlockId} {exitBlock : BasicBlock}
    (hexit : b'.blocks[exit]? = some exitBlock) (hplaceholder : exitBlock.terminator = .unreachable) (hne : exit ≠ c)
    (hnew : b.blocks.length ≤ exit) : Prolongs b (b'.jump header exit) := by
  have hopen' : (b'.withDefs b.defToLocal).Open c block := ⟨hopen.cur, hopen.get, hopen.placeholder⟩
  have hsame : (b'.withDefs b.defToLocal).jump header exit = (b'.jump header exit).withDefs b.defToLocal := by
    simp only [BodyBuilder.jump, close, BodyBuilder.withDefs, hopen.cur, moveTo]
  rw [Prolongs, ← hsame]
  exact grows_jump h hopen' hexit hplaceholder hne hnew

theorem held_bindTarget {val : DefId → Option Value} (hheld : ∀ id ∈ ids, ∃ v, val id = some v) (x : BitVec 64)
    (target : Pattern) : ∀ id ∈ targetIds target ++ ids, ∃ v, bindTarget val x target id = some v := by
  intro id hid
  obtain ⟨kind, span⟩ := target
  cases kind with
  | binding name id' =>
    rw [bindTarget]
    by_cases h : id = id'
    · subst h
      exact ⟨_, Function.update_self ..⟩
    · rw [Function.update_of_ne h]
      exact hheld id (by simpa [targetIds, h] using hid)
  | _ => exact hheld id hid

/-- The code of the clauses does what loops do that end before their first zero. -/
theorem comes_lowerCompClauses (callees : Callees) (lists : Lists)
    (hbuffers : ∀ ty op, isPlain ty = true → ctx.eco.lookupBufferBinop ty op = none)
    (element : Expr) (span : Span) (clauses : List CompClause) (hclauses : DecidedClauses ctx element ids clauses)
    (hopen : b.Open c block) (hn : Named ids b) (hacc : acc < b.locals.length) :
    ∃ b', lowerCompClauses ctx (lowerCompElem ctx (.single element)) .list acc span (subClauses ctx clauses) b =
        .ok ((), b') ∧ Prolongs b b' ∧ ∀ blocks, HasCode blocks b' b.Owns → ∀ val f s m, Ready acc ids val b f s m →
      Comes callees.returns lists blocks acc ⟨⟨b.point f, s.history⟩, m⟩
        (fun _ s' d => ∃ f' m', d = ⟨⟨b'.point f', s'.history⟩, m'⟩ ∧ Kept acc b.locals.length f m s' f' m')
        (loopsToZero ctx callees lists element clauses val s) := by
  induction clauses generalizing ids b c block with
  | nil =>
    obtain ⟨b', hlower, hg, hrun⟩ := comes_lowerCompBody callees lists acc hbuffers
      hclauses span hopen hn
    exact ⟨b', hlower, hg.prolongs, hrun⟩
  | cons first rest ih =>
    obtain ⟨bindingDefIds, target, iter, guards⟩ := first
    obtain ⟨hiter, hbinds, hguards, hrest⟩ := hclauses
    -- the iterator, the name that is bound and the head of the loop
    obtain ⟨handle, b₁, hiter₁, hg₁, hhandle, hhandle₁, hrun₁⟩ :=
      comes_openIter callees lists hbuffers hiter span hopen hn hacc
    obtain ⟨c₁, block₁, hopen₁⟩ := hg₁.opened
    obtain ⟨v, b₂, htarget, hb₂⟩ := declareTarget_binds ctx hopen₁ (hn.grows hg₁) "_comp_iter_bind_" target
      bindingDefIds span hbinds
    obtain ⟨c₂, block₂, hopen₂⟩ := hb₂.ext.opened
    obtain ⟨header, exit, b₃, hloop, hg₃, hlen₃, hexit₃, hne₃, hother₃, ⟨exitBlock, hexitBlock, hempty, hplaceholder⟩,
      hhead⟩ :=
      openLoop_head callees.returns lists handle v span hopen₂
    obtain ⟨c₃, block₃, hopen₃⟩ := hg₃.opened
    have hn₃ := hb₂.named.grows hg₃
    -- the guards and the loops inside
    obtain ⟨b₄, hguards₄, hg₄, hrun₄⟩ := comes_lowerGuards callees lists acc hbuffers header
      guards hguards hopen₃ hn₃
    obtain ⟨c₄, block₄, hopen₄⟩ := hg₄.opened
    have hle₁ : b.locals.length ≤ b₁.locals.length := hg₁.locals.length_le
    have hle₂ : b₁.locals.length ≤ b₂.locals.length := hb₂.ext.le_locals
    have hle₄ : b₃.locals.length ≤ b₄.locals.length := hg₄.locals.length_le
    have hacc₄ : acc < b₄.locals.length := hacc.trans_le (hle₁.trans (hle₂.trans (hlen₃.le.trans hle₄)))
    obtain ⟨b₅, hlower₅, hext₅, hrun₅⟩ := ih hrest hopen₄ (hn₃.grows hg₄) hacc₄
    obtain ⟨c₅, block₅, hopen₅⟩ := hext₅.opened
    have hext₂ : Prolongs b b₂ := hg₁.prolongs.trans hb₂.ext
    have hext₃₅ : Prolongs b₃ b₅ := hg₄.prolongs.trans hext₅
    have hext : Prolongs b b₅ := hext₂.trans (hg₃.prolongs.trans hext₃₅)
    -- the block behind the loop is none that the body fills
    have hne₅ : exit ≠ c₅ := (hother₃ c₅ (hext₃₅.owns hopen₅.owns)).symm
    have hexit₅ : b₅.blocks[exit]? = some exitBlock := by
      have hlt : exit < b₃.blocks.length := (List.getElem?_eq_some_iff.1 hexitBlock).1
      rw [← hexitBlock]
      exact Grows.old hext₃₅ exit hlt fun hcur => hother₃ exit (.inl hcur) rfl
    have hnew : b.blocks.length ≤ exit := (Grows.len hext₂).trans hexit₃
    have hopen₆ : (b₅.jump header exit).Open exit exitBlock := open_jump hopen₅ hexit₅ hplaceholder hne₅
    refine ⟨b₅.jump header exit, ?_, prolongs_back hext hopen₅ hexit₅ hplaceholder hne₅ hnew, fun blocks hcode => ?_⟩
    · rw [show subClauses ctx (.mk bindingDefIds target iter guards :: rest) =
        subClause ctx (.mk bindingDefIds target iter guards) :: subClauses ctx rest from rfl, lowerCompClauses_eq]
      refine Control.bind_eq_ok.2 ⟨handle, b₁, hiter₁, Control.bind_eq_ok.2 ⟨v, b₂, htarget, ?_⟩⟩
      refine Control.bind_eq_ok.2 ⟨(header, exit), b₃, hloop, Control.bind_eq_ok.2 ⟨(), b₄, hguards₄, ?_⟩⟩
      refine Control.bind_eq_ok.2 ⟨(), b₅, hlower₅, Control.bind_eq_ok.2 ⟨(), _, gotoIfOpen_ok.2 rfl, ?_⟩⟩
      exact setCurBlock_ok.2 rfl
    · have hcode₅ := hasCode_jump hopen₅ hcode
      have hcode₄ := hext₅.hasCode hcode₅
      have hcode₃ := hg₄.hasCode hcode₄
      have hcode₁ : HasCode blocks b₁ b.Owns :=
        (hb₂.ext.hasCode (hg₃.hasCode hcode₃)).before ((Grows.len hb₂.ext).trans hexit₃)
      have howns₃ (i : BlockId) (hi : b₃.Owns i) : b.Owns i ∧ i ≠ exit :=
        ⟨hext₂.owns (hg₃.owns hi), hother₃ i hi⟩
      have hhead' := hhead blocks (hcode₃.mono fun i hi => ⟨hext₂.owns hi.1, hi.2⟩)
      have hfinal₅ : blocks[c₅]? = some { block₅ with terminator := .goto header } :=
        hcode.closed (hext.owns hopen₅.owns) (block_jump_self hopen₅ header exit)
          (by rw [hopen₆.cur]; simpa using hne₅)
      intro val f s m hready
      rw [loopsToZero, loops, ← bind_assoc]
      refine (hrun₁ blocks hcode₁ val f s m hready).bind ?_
      rintro items s₁ d₁ ⟨f₁, m₁, p, rfl, hlist, hobject, hkept₁⟩
      have henter := hhead'.enter f₁ s₁.history m₁
      rw [hb₂.point] at henter
      have hbody (x : BitVec 64) (s' : LoopState) (f' : Frame) (m' : Memory) (hshows : Shows acc s' m')
          (hf' : ∀ l, l < b.locals.length → f' l = f l) (hvar : ∀ l, v = some l → f' l = some (.int x)) :
          Ready acc (targetIds target ++ ids) (bindTarget val x target) b₃ f' s' m' := by
        have hholds₁ : HoldsValues ids val b₁ f' := hready.holds.grows hn hg₁ hf'
        have hholds₂ := hb₂.holds val x f' f' hholds₁ (fun _ _ => rfl) hvar
        exact ⟨held_bindTarget hready.held x target, hholds₂.grows hb₂.named hg₃ fun _ _ => rfl, hshows⟩
      refine ((hhead'.comes_forEach hacc (hle₁.trans hle₂) ⟨hhandle, ?_⟩ ?_ hlist ?_ hobject hkept₁).mono ?_).after
        henter
      · exact hhandle₁.trans_le (hle₂.trans hlen₃.le)
      · exact fun l hl => hle₁.trans (hb₂.var l hl).1
      · intro x s' f' m' hshows hf' hvar
        have hready₃ := hbody x s' f' m' hshows hf' hvar
        refine (hrun₄ blocks (hcode₄.mono howns₃) _ f' s' m' hready₃).bind ?_
        rintro t s₄ d₄ ⟨f₄, rfl, hkept₄⟩
        cases t with
        | false => exact comes_pure ⟨f₄, m', rfl, hkept₄⟩
        | true =>
          have hready₄ : Ready acc (targetIds target ++ ids) (bindTarget val x target) b₄ f₄ s₄ m' :=
            ⟨hready₃.held, hready₃.holds.grows hn₃ hg₄ hkept₄.frame, hkept₄.toShows⟩
          refine (hrun₅ blocks (hcode₅.mono fun i hi => howns₃ i (hg₄.owns hi)) _ f₄ s₄ m' hready₄).further ?_
          rintro - s₅ d₅ ⟨f₅, m₅, rfl, hkept₅⟩
          exact ⟨_, .of_runs (runs_goto hopen₅ hfinal₅ rfl rfl), f₅, m₅, rfl, hkept₄.trans hkept₅ hle₄⟩
      · rintro - s' d ⟨f', m', rfl, hkept⟩
        refine ⟨f', m', ?_, hkept⟩
        rw [hopen₆.point_eq, hempty]
        rfl

end Clauses

end Cobrust.Mir
