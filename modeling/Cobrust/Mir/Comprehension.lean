import Cobrust.Mir.CompLoops

/-!
# List comprehensions

* `comprehension_iff`: the code of a list comprehension does what the nested loops do exactly when loops that end before
  the first zero of each list do the same.
-/

namespace Cobrust.Mir

open Exec BodyBuilder Control Build
open Hir (Expr CompClause)

variable {ctx : LowerCtx} {callees : Callees} {lists : Lists} {element : Expr} {ids : List DefId}

/-- The run of the code builds the list and leaves it in the operand, or ends in a trap, with the calls and the lists
that were gone through. -/
def DoesBuild (functions : Functions) (lists : Lists) (blocks : List BasicBlock) (b b' : BodyBuilder) (op : Operand)
    (f : Frame) (h : History) (m : Memory) : Except Stop Unit × LoopState × List Site → Prop
  | (.ok (), s, _) => ∃ acc f' m', op = .move (.ofLocal acc) ∧
      ListRuns functions lists blocks ⟨⟨b.point f, h⟩, m⟩ ⟨⟨b'.point f', s.history⟩, m'⟩ ∧ Shows acc s m'
  | (.error .trap, s, _) => ∃ acc m', op = .move (.ofLocal acc) ∧
      ListTraps functions lists blocks ⟨⟨b.point f, h⟩, m⟩ s.history m' ∧ Shows acc s m'
  | (.error .undefined, _, _) => False

/-- A comprehension is lowered to code that does what a program does, started with the calls `h`. -/
def LowersToLoops (ctx : LowerCtx) (callees : Callees) (lists : Lists) (b : BodyBuilder) (f : Frame) (h : History)
    (objects : LocalId → Option Object) (element : Expr) (clauses : List CompClause) (program : Build Unit) : Prop :=
  ∀ compSpan span, ∃ op b', lowerExpr ctx (.mk (.comp .list (.single element) clauses compSpan) span) b = .ok (op, b') ∧
    (∃ c block, b'.Open c block) ∧ ∀ blocks, HasCode blocks b' b.Owns →
      DoesBuild callees.returns lists blocks b b' op f h ⟨objects, []⟩ (program ⟨h, [], []⟩)

section Ends

variable {functions : Functions} {b b' : BodyBuilder} {c : BlockId} {block : BasicBlock} {op : Operand} {f : Frame}
  {h : History} {m : Memory} {r r' : Except Stop Unit × LoopState × List Site}

theorem DoesBuild.ends (hopen : b'.Open c block) (hr : DoesBuild functions lists b'.blocks b b' op f h m r) :
    ∃ acc d, op = .move (.ofLocal acc) ∧ ListRuns functions lists b'.blocks ⟨⟨b.point f, h⟩, m⟩ d ∧
      (r.1 = .ok () ∧ stepList functions lists b'.blocks d = none ∧ d.config.history = r.2.1.history ∧
          Shows acc r.2.1 d.memory ∨
        ∃ m', r.1 = .error .trap ∧ stepList functions lists b'.blocks d = some (.trap r.2.1.history m') ∧
          Shows acc r.2.1 m') := by
  obtain ⟨(_ | _) | ⟨⟩, s, events⟩ := r
  · obtain ⟨acc, m', hop, ⟨d, hruns, htrap⟩, hshows⟩ := hr
    exact ⟨acc, d, hop, hruns, .inr ⟨m', rfl, htrap, hshows⟩⟩
  · exact hr.elim
  · obtain ⟨acc, f', m', hop, hruns, hshows⟩ := hr
    refine ⟨acc, _, hop, hruns, .inl ⟨rfl, ?_, rfl, hshows⟩⟩
    rw [hopen.point_eq]
    simp [stepList, hopen.get, hopen.placeholder, stepListTerminator, stepCallTerminator, stepTerminator]

theorem state_eq_of_shows {acc : LocalId} {s s' : LoopState} (hs : Shows acc s m) (hs' : Shows acc s' m)
    (hhistory : s.history = s'.history) : s = s' := by
  obtain ⟨history, started, items⟩ := s
  obtain ⟨history', started', items'⟩ := s'
  obtain rfl : history = history' := hhistory
  obtain rfl : started = started' := hs.started.symm.trans hs'.started
  have hitems := hs.items.symm.trans hs'.items
  cases hitems
  rfl

theorem DoesBuild.unique (hopen : b'.Open c block) (hr : DoesBuild functions lists b'.blocks b b' op f h m r)
    (hr' : DoesBuild functions lists b'.blocks b b' op f h m r') : r.1 = r'.1 ∧ r.2.1 = r'.2.1 := by
  obtain ⟨acc, d, hop, hruns, hend⟩ := hr.ends hopen
  obtain ⟨acc', d', hop', hruns', hend'⟩ := hr'.ends hopen
  obtain rfl : acc = acc' := by
    rw [hop] at hop'
    cases hop'
    rfl
  have hlast {e : ListConfig} (hend : stepList functions lists b'.blocks e = none ∨
      ∃ log m', stepList functions lists b'.blocks e = some (.trap log m')) (x : ListConfig) :
      stepList functions lists b'.blocks e ≠ some (.next x) := by
    intro hnext
    rcases hend with hnone | ⟨log, m', htrap⟩
    · rw [hnone] at hnext
      cases hnext
    · rw [htrap] at hnext
      cases hnext
  have hstop {r : Except Stop Unit × LoopState × List Site} {d : ListConfig}
      (hend : r.1 = .ok () ∧ stepList functions lists b'.blocks d = none ∧ d.config.history = r.2.1.history ∧
          Shows acc r.2.1 d.memory ∨
        ∃ m', r.1 = .error .trap ∧ stepList functions lists b'.blocks d = some (.trap r.2.1.history m') ∧
          Shows acc r.2.1 m') :
      stepList functions lists b'.blocks d = none ∨
        ∃ log m', stepList functions lists b'.blocks d = some (.trap log m') := by
    rcases hend with ⟨-, hnone, -⟩ | ⟨m', -, htrap, -⟩
    · exact .inl hnone
    · exact .inr ⟨_, m', htrap⟩
  obtain rfl := hruns.last_unique hruns' (hlast (hstop hend)) (hlast (hstop hend'))
  rcases hend with ⟨hok, hnone, hlog, hshows⟩ | ⟨m', herr, htrap, hshows⟩ <;>
    rcases hend' with ⟨hok', hnone', hlog', hshows'⟩ | ⟨m'', herr', htrap', hshows'⟩
  · exact ⟨hok.trans hok'.symm, state_eq_of_shows hshows hshows' (hlog.symm.trans hlog')⟩
  · rw [hnone] at htrap'
    cases htrap'
  · rw [htrap] at hnone'
    cases hnone'
  · rw [htrap] at htrap'
    obtain ⟨hlog, rfl⟩ := ListStep.trap.inj (Option.some.inj htrap')
    exact ⟨herr.trans herr'.symm, state_eq_of_shows hshows hshows' hlog⟩

end Ends

section Code

variable {b : BodyBuilder} {f : Frame} {h : History} {objects : LocalId → Option Object} {clauses : List CompClause}

/-- The code does what loops do that end before the first zero. -/
theorem lowersToLoops_toZero (hbuffers : ∀ ty op, isPlain ty = true → ctx.eco.lookupBufferBinop ty op = none)
    (hclauses : DecidedClauses ctx element ids clauses)
    (htyped : WellTyped ctx callees lists element clauses (b.valueOf f)) (hopen : ∃ c block, b.Open c block)
    (hids : Initialised ids b f) :
    LowersToLoops ctx callees lists b f h objects element clauses
      (loopsToZero ctx callees lists element clauses (b.valueOf f)) := by
  intro compSpan span
  obtain ⟨c, block, hopen⟩ := hopen
  have hn : Named ids b := fun id hid => by
    obtain ⟨l, -, hl, hlt, -⟩ := hids id hid
    exact ⟨l, hl, hlt⟩
  have hg₁ := grows_callNew "_comp_acc" (.list .none) span true hopen "__cobrust_list_new"
    [.constant (.int 8), .constant (.int 0)]
  obtain ⟨c₁, block₁, hopen₁, -⟩ :=
    open_callNew "_comp_acc" (.list .none) span true hopen "__cobrust_list_new" [.constant (.int 8), .constant (.int 0)]
  have hlen₁ := locals_callNew "_comp_acc" (.list .none) span true b c "__cobrust_list_new"
    [.constant (.int 8), .constant (.int 0)]
  generalize hb₁ : b.callNew c "_comp_acc" (.list .none) span true "__cobrust_list_new"
    [.constant (.int 8), .constant (.int 0)] = b₁ at hg₁ hopen₁ hlen₁
  have hacc : b.locals.length < b₁.locals.length := by
    rw [hlen₁]
    exact Nat.lt_succ_self _
  obtain ⟨b₂, hlower₂, hext₂, hrun₂⟩ := comes_lowerCompClauses callees lists hbuffers element span
    clauses hclauses hopen₁ (hn.grows hg₁) hacc
  obtain ⟨c₂, block₂, hopen₂⟩ := hext₂.opened
  refine ⟨.move (.ofLocal b.locals.length), b₂, ?_, ⟨c₂, block₂, hopen₂⟩, fun blocks hcode => ?_⟩
  · rw [lowerExpr]
    refine Control.bind_eq_ok.2 ⟨c, b, ensureOpenBlock_ok hopen.cur, ?_⟩
    refine Control.bind_eq_ok.2 ⟨_, _, declareLocal_eq _ _ _ _ _, Control.bind_eq_ok.2 ⟨(), b₁, ?_, ?_⟩⟩
    · rw [← hb₁]
      exact callSymbol_eq hopen "_comp_acc" (.list .none) span true "__cobrust_list_new" _
    · exact Control.bind_eq_ok.2 ⟨(), b₂, hlower₂, rfl⟩
  · have hopen' := open_addLocal hopen "_comp_acc" (.list .none) span true
    have hcall : callList lists "__cobrust_list_new" [.constant (.int 8), .constant (.int 0)] b.locals.length f
        ⟨objects, []⟩ =
        some (f, (Memory.mk objects []).put b.locals.length (.list [])) := rfl
    have hcode₁ := hext₂.hasCode hcode
    rw [← hb₁] at hcode₁
    have hnew := listRuns_call callees.returns h hopen' hcode₁ hopen.owns hcall
    have hholds : HoldsValues ids (b.valueOf f) b f := fun id _ l hl => by
      rw [BodyBuilder.valueOf, hl]
      rfl
    have hready : Ready b.locals.length ids (b.valueOf f) b₁ f ⟨h, [], []⟩
        ((Memory.mk objects []).put b.locals.length (.list [])) := by
      refine ⟨fun id hid => ?_, hholds.grows hn hg₁ fun _ _ => rfl, rfl, Memory.put_self _ _ _⟩
      obtain ⟨l, v, hl, -, hv⟩ := hids id hid
      exact ⟨v, by rw [BodyBuilder.valueOf, hl]; exact hv⟩
    have hcomes := hrun₂ blocks (hcode.mono fun i => hg₁.owns) _ f ⟨h, [], []⟩ _ hready
    rw [← hb₁, BodyBuilder.callNew, point_leave hopen'] at hcomes
    replace hcomes := hcomes.after hnew
    have hundefined : Typed (loopsToZero ctx callees lists element clauses (b.valueOf f)) := loops_typed clauses htyped
    rcases hloops : loopsToZero ctx callees lists element clauses (b.valueOf f) ⟨h, [], []⟩ with
      ⟨(_ | _) | ⟨⟩, s, events⟩
    all_goals rw [hloops] at hcomes
    · obtain ⟨m', htraps, hstarted, hitems⟩ := hcomes
      exact ⟨_, m', rfl, htraps, hstarted, hitems⟩
    · exact hundefined ⟨h, [], []⟩ (congrArg Prod.fst hloops)
    · obtain ⟨d, hruns, f', m', rfl, hkept⟩ := hcomes
      exact ⟨_, f', m', rfl, hruns, hkept.toShows⟩

theorem lowersToLoops_iff_same {program program' : Build Unit}
    (hlowers : LowersToLoops ctx callees lists b f h objects element clauses program) :
    LowersToLoops ctx callees lists b f h objects element clauses program' ↔
      (program' ⟨h, [], []⟩).1 = (program ⟨h, [], []⟩).1 ∧ (program' ⟨h, [], []⟩).2.1 = (program ⟨h, [], []⟩).2.1 := by
  constructor
  · intro hlowers'
    obtain ⟨op, b', hlower, ⟨c', block', hopen'⟩, hdoes⟩ := hlowers Span.synthetic Span.synthetic
    obtain ⟨op₁, b₁, hlower₁, -, hdoes'⟩ := hlowers' Span.synthetic Span.synthetic
    rw [hlower] at hlower₁
    cases hlower₁
    have hcode : HasCode b'.blocks b' b.Owns := fun i _ block hblock =>
      ⟨block, hblock, List.prefix_refl _, fun _ => rfl⟩
    exact (hdoes' b'.blocks hcode).unique hopen' (hdoes b'.blocks hcode)
  · rintro ⟨hresult, hstate⟩ compSpan span
    obtain ⟨op, b', hlower, hopen', hdoes⟩ := hlowers compSpan span
    refine ⟨op, b', hlower, hopen', fun blocks hcode => ?_⟩
    have hdoes := hdoes blocks hcode
    rcases hp : program ⟨h, [], []⟩ with ⟨result, s, events⟩
    rcases hp' : program' ⟨h, [], []⟩ with ⟨result', s', events'⟩
    rw [hp] at hdoes hresult hstate
    rw [hp'] at hresult hstate
    cases hresult
    cases hstate
    obtain (_ | _) | ⟨⟩ := result <;> exact hdoes

end Code

/-! ## Lists without zeros -/

/-- The lists that were gone through are kept. -/
def KeepsStarted {α : Type} (x : Build α) : Prop :=
  ∀ s, s.started <:+ (x s).2.1.started

section Started

variable {α β : Type}

theorem KeepsStarted.bind {x : Build α} {g : α → Build β} (hx : KeepsStarted x) (hg : ∀ a, KeepsStarted (g a)) :
    KeepsStarted (x >>= g) := by
  intro s
  have hxs := hx s
  rw [Traced.bind_apply]
  rcases h : x s with ⟨stop | a, s', events⟩
  all_goals rw [h] at hxs
  · exact hxs
  · exact hxs.trans (hg a s')

theorem keepsStarted_pure (a : α) : KeepsStarted (pure a : Build α) :=
  fun _ => List.suffix_refl _

theorem keepsStarted_undefined : KeepsStarted (undefined : Build α) :=
  fun _ => List.suffix_refl _

theorem keepsStarted_part (x : Traced History Stop Site Value) : KeepsStarted (part x) :=
  fun _ => List.suffix_refl _

theorem keepsStarted_append (v : Value) : KeepsStarted (append v) := by
  cases v <;> exact fun _ => List.suffix_refl _

theorem keepsStarted_start (v : Value) : KeepsStarted (start lists v) := by
  cases v with
  | int p =>
    rw [start]
    cases lists p with
    | none => exact keepsStarted_undefined
    | some items => exact fun _ => List.suffix_cons _ _
  | bool t => exact keepsStarted_undefined
  | str t => exact keepsStarted_undefined

theorem keepsStarted_forEach {body : BitVec 64 → Build Unit} (h : ∀ x, KeepsStarted (body x))
    (items : List (BitVec 64)) :
    KeepsStarted (forEach body items) := by
  induction items with
  | nil => exact keepsStarted_pure ()
  | cons x rest ih => exact (h x).bind fun _ => ih

theorem keepsStarted_pass (guards : List (Traced History Stop Site Value)) : KeepsStarted (pass guards) := by
  induction guards with
  | nil => exact keepsStarted_pure true
  | cons g rest ih =>
    refine (keepsStarted_part g).bind fun v => ?_
    split
    · exact ih
    · exact keepsStarted_pure false
    · exact keepsStarted_undefined

theorem keepsStarted_loops (visit : List (BitVec 64) → List (BitVec 64)) (clauses : List CompClause)
    (val : DefId → Option Value) : KeepsStarted (loops ctx callees lists visit element clauses val) := by
  induction clauses generalizing val with
  | nil => exact (keepsStarted_part _).bind keepsStarted_append
  | cons first rest ih =>
    obtain ⟨bindingDefIds, target, iter, guards⟩ := first
    refine (keepsStarted_part _).bind fun v => (keepsStarted_start v).bind fun items => ?_
    refine keepsStarted_forEach (fun x => (keepsStarted_pass _).bind fun t => ?_) _
    cases t with
    | false => exact keepsStarted_pure ()
    | true => exact ih _

/-- The lists that a program has gone through, those before it included, hold no zero. -/
def ZeroFree (lists : Lists) (r : Except Stop α × LoopState × List Site) : Prop :=
  ∀ p ∈ r.2.1.started, ∀ items, lists p = some items → 0#64 ∉ items

theorem ZeroFree.of_bind {x : Build α} {g : α → Build β} {s : LoopState} (hg : ∀ a, KeepsStarted (g a))
    (h : ZeroFree lists ((x >>= g) s)) : ZeroFree lists (x s) := by
  rw [Traced.bind_apply] at h
  rcases hxs : x s with ⟨stop | a, s', events⟩
  all_goals rw [hxs] at h
  · exact h
  · exact fun p hp => h p ((hg a s').subset hp)

theorem bind_congr_zeroFree {x : Build α} {g g' : α → Build β} {s : LoopState}
    (hg : ∀ a s' events, x s = (.ok a, s', events) → ZeroFree lists (g a s') → g' a s' = g a s')
    (h : ZeroFree lists ((x >>= g) s)) : (x >>= g') s = (x >>= g) s := by
  rw [Traced.bind_apply, Traced.bind_apply] at *
  rcases hxs : x s with ⟨stop | a, s', events⟩
  · rfl
  · rw [hxs] at h
    rw [Traced.andThen, Traced.andThen, hg a s' events hxs h]

theorem forEach_congr_zeroFree {body body' : BitVec 64 → Build Unit} (hkeeps : ∀ x, KeepsStarted (body x))
    (hbody : ∀ x s, ZeroFree lists (body x s) → body' x s = body x s) {items : List (BitVec 64)} {s : LoopState}
    (h : ZeroFree lists (forEach body items s)) : forEach body' items s = forEach body items s := by
  induction items generalizing s with
  | nil => rfl
  | cons x rest ih =>
    have hfirst := hbody x s (h.of_bind fun _ => keepsStarted_forEach hkeeps rest)
    have hrest : (body x >>= fun _ => forEach body' rest) s = (body x >>= fun _ => forEach body rest) s :=
      bind_congr_zeroFree (fun _ s' _ _ h' => ih h') h
    rw [Build.forEach, Build.forEach, ← hrest, Traced.bind_apply, Traced.bind_apply, hfirst]

/-- Loops over lists without zeros come to all elements. -/
theorem loopsToZero_eq (clauses : List CompClause) {val : DefId → Option Value} {s : LoopState}
    (h : ZeroFree lists (nestedLoops ctx callees lists element clauses val s)) :
    loopsToZero ctx callees lists element clauses val s = nestedLoops ctx callees lists element clauses val s := by
  induction clauses generalizing val s with
  | nil => rfl
  | cons first rest ih =>
    obtain ⟨bindingDefIds, target, iter, guards⟩ := first
    refine bind_congr_zeroFree (fun v s₁ _ _ h₁ => bind_congr_zeroFree (fun items s₂ _ hstart h₂ => ?_) h₁) h
    have hkeeps (x : BitVec 64) : KeepsStarted (do
        if ← pass (guards.map (valueOf ctx callees (bindTarget val x target))) then
          nestedLoops ctx callees lists element rest (bindTarget val x target)
        else pure ()) := by
      refine (keepsStarted_pass _).bind fun t => ?_
      cases t with
      | false => exact keepsStarted_pure ()
      | true => exact keepsStarted_loops id rest _
    have hall : items.takeWhile (· ≠ 0#64) = items := by
      cases v with
      | bool t => cases hstart
      | str t => cases hstart
      | int p =>
        rw [start] at hstart
        cases hlist : lists p with
        | none =>
          rw [hlist] at hstart
          cases hstart
        | some items' =>
          rw [hlist] at hstart
          cases hstart
          have hfree : 0#64 ∉ items :=
            h₂ p ((keepsStarted_forEach hkeeps items _).subset List.mem_cons_self) items hlist
          refine List.takeWhile_eq_self_iff.2 fun x hx => ?_
          simpa using fun e : x = 0#64 => hfree (e ▸ hx)
    rw [hall]
    refine forEach_congr_zeroFree hkeeps (fun x s₃ h₃ => ?_) h₂
    refine bind_congr_zeroFree (fun t s₄ _ _ h₄ => ?_) h₃
    cases t with
    | false => rfl
    | true => exact ih h₄

end Started

/-- The code of a list comprehension does what the nested loops do exactly when the loops do the same that end before
the first zero of each list; in particular when the lists that are gone through hold no zero. -/
theorem comprehension_iff (ctx : LowerCtx) (callees : Callees) (lists : Lists) (ids : List DefId) (b : BodyBuilder)
    (f : Frame) (h : History) (objects : LocalId → Option Object) (element : Expr) (clauses : List CompClause)
    (hclauses : DecidedClauses ctx element ids clauses)
    (htyped : WellTyped ctx callees lists element clauses (b.valueOf f)) (hopen : ∃ c block, b.Open c block)
    (hids : Initialised ids b f) (hbuffers : ∀ ty op, isPlain ty = true → ctx.eco.lookupBufferBinop ty op = none) :
    let whole := nestedLoops ctx callees lists element clauses (b.valueOf f) ⟨h, [], []⟩
    let toZero := loopsToZero ctx callees lists element clauses (b.valueOf f) ⟨h, [], []⟩
    (LowersToLoops ctx callees lists b f h objects element clauses
        (nestedLoops ctx callees lists element clauses (b.valueOf f)) ↔
      whole.1 = toZero.1 ∧ whole.2.1 = toZero.2.1) ∧
      (ZeroFree lists whole → LowersToLoops ctx callees lists b f h objects element clauses
        (nestedLoops ctx callees lists element clauses (b.valueOf f))) := by
  have hcode : LowersToLoops ctx callees lists b f h objects element clauses
      (loopsToZero ctx callees lists element clauses (b.valueOf f)) :=
    lowersToLoops_toZero hbuffers hclauses htyped hopen hids
  refine ⟨lowersToLoops_iff_same hcode, fun hfree => (lowersToLoops_iff_same hcode).2 ?_⟩
  rw [loopsToZero_eq clauses hfree]
  exact ⟨rfl, rfl⟩

/-! ## A list with a zero -/

/-- A program with a list of integers `xs` (1) and a loop variable `x` (2). -/
def listCtx : LowerCtx :=
  { LowerCtx.plain with
    defTy := fun id => if id = 1 then some (.list .int) else if id = 2 then some .int else none }

def noCallees : Callees where
  returns _ _ _ := none
  defaults _ _ := none

/-- The clause `for x in xs`. -/
def forXInXs : CompClause :=
  .mk [2] (.mk (.binding "x" 2) Span.synthetic) (.mk (.name ⟨"xs", 1, .param⟩) Span.synthetic) []

def elementX : Expr :=
  .mk (.name ⟨"x", 2, .loopBinding⟩) Span.synthetic

/-- A builder with a local for `xs`. -/
def builderXs : BodyBuilder :=
  (BodyBuilder.new 0 "main" Span.synthetic).addDef 1 "xs" (.list .int) Span.synthetic

/-- The list of the program is at 8. -/
def frameXs : Frame :=
  fun l => if l = 1 then some (.int 8#64) else none

def listAt8 (items : List (BitVec 64)) : Lists :=
  fun p => if p = 8#64 then some items else none

theorem decided_forXInXs : DecidedClauses listCtx elementX [1] [forXInXs] :=
  ⟨List.mem_singleton.2 rfl, by simp [targetIds], fun g hg => absurd hg List.not_mem_nil, List.mem_cons_self, rfl⟩

theorem wellTyped_forXInXs (items : List (BitVec 64)) :
    WellTyped listCtx noCallees (listAt8 items) elementX [forXInXs] (builderXs.valueOf frameXs) :=
  ⟨fun _ => .inr ⟨_, rfl, 8#64, items, rfl, if_pos rfl⟩, fun x =>
    ⟨fun g hg => absurd hg List.not_mem_nil, fun _ => .inr ⟨_, rfl, x, rfl⟩⟩⟩

theorem initialised_builderXs : Initialised [1] builderXs frameXs := by
  intro id hid
  obtain rfl := List.mem_singleton.1 hid
  exact ⟨1, _, rfl, by decide, rfl⟩

/-- `[x for x in xs]` where `xs` is `[1, 2]`. -/
theorem comprehension_iff_oneTwo :
    LowersToLoops listCtx noCallees (listAt8 [1#64, 2#64]) builderXs frameXs [] (fun _ => none) elementX [forXInXs]
      (nestedLoops listCtx noCallees (listAt8 [1#64, 2#64]) elementX [forXInXs] (builderXs.valueOf frameXs)) := by
  refine (comprehension_iff listCtx noCallees (listAt8 [1#64, 2#64]) [1] builderXs frameXs [] (fun _ => none) elementX
    [forXInXs] decided_forXInXs (wellTyped_forXInXs _) ⟨0, _, rfl, rfl, rfl⟩ initialised_builderXs
    fun _ _ _ => rfl).2 ?_
  intro p hp items hlist
  obtain rfl : p = 8#64 := List.mem_singleton.1 hp
  cases hlist
  decide

/-- `[x for x in xs]` where `xs` is `[1, 0, 2]`: the code builds `[1]`. -/
theorem zero_ends_loop :
    DecidedClauses listCtx elementX [1] [forXInXs] ∧
      WellTyped listCtx noCallees (listAt8 [1#64, 0#64, 2#64]) elementX [forXInXs] (builderXs.valueOf frameXs) ∧
      ¬ LowersToLoops listCtx noCallees (listAt8 [1#64, 0#64, 2#64]) builderXs frameXs [] (fun _ => none) elementX
        [forXInXs] (nestedLoops listCtx noCallees (listAt8 [1#64, 0#64, 2#64]) elementX [forXInXs]
          (builderXs.valueOf frameXs)) := by
  refine ⟨decided_forXInXs, wellTyped_forXInXs _, fun hlowers => ?_⟩
  have hcode : LowersToLoops listCtx noCallees (listAt8 [1#64, 0#64, 2#64]) builderXs frameXs [] (fun _ => none)
      elementX [forXInXs] (loopsToZero listCtx noCallees (listAt8 [1#64, 0#64, 2#64]) elementX [forXInXs]
        (builderXs.valueOf frameXs)) :=
    lowersToLoops_toZero (fun _ _ _ => rfl) decided_forXInXs (wellTyped_forXInXs _) ⟨0, _, rfl, rfl, rfl⟩
      initialised_builderXs
  have hstate := congrArg LoopState.items ((lowersToLoops_iff_same hcode).1 hlowers).2
  have hitems : ([1#64, 0#64, 2#64] : List (BitVec 64)) = [1#64] := hstate
  exact absurd hitems (by decide)

end Cobrust.Mir
