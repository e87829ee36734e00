import Cobrust.Types.Statements
import Mathlib.Data.List.Forall2

/-!
# Calls

`synth_call` of `cobrust-types/src/check.rs`, for the callees that the tables of builtins and methods pass on. Positional
arguments and keywords are collected one after the other; star arguments are only given a type.

* `synthCall_binds`: which parameter each argument of an accepted call is bound to.
* `synthCall_star`: an accepted call with an argument that no parameter receives.
-/

namespace Cobrust

open Hir Checker
open Unify (Acyclic)
open List (Forall₂)

/-- The checks of a callee: the tables of builtins and methods, and the instances of the list builtins. -/
structure CallChecks extends Checks where
  special : Flow → Expr → List CallArg → Span → Checker (Option Ty)
  instantiate : Expr → Ty → Checker Ty

def Hir.CallArg.positional? : CallArg → Option Expr
  | .positional e => some e
  | _ => none

def Hir.CallArg.keyword? : CallArg → Option String
  | .keyword name _ => some name
  | _ => none

def positionalArgs (args : List CallArg) : List Expr :=
  args.filterMap CallArg.positional?

/-- `unify_call_arg`: a borrowed value may be given for a parameter that is neither borrowed nor open. -/
def unifyCallArg (formal actual : Ty) (span : Span) : Checker Unit := do
  let formalResolved ← apply formal
  let actualResolved ← apply actual
  match actualResolved, formalResolved with
  | .ref _, .ref _ => unifyTys formal actual span
  | .ref _, .var _ => unifyTys formal actual span
  | .ref inner, _ => unifyTys formal inner span
  | _, _ => unifyTys formal actual span

section Call

variable (calls : CallChecks)

/-- The loop over the positional arguments. -/
def bindPositional (flow : Flow) : List Expr → List Ty → Checker Unit
  | e :: exprs, formal :: formals => do
    let actual ← calls.synthExpr flow e
    unifyCallArg formal actual e.span
    bindPositional flow exprs formals
  | _, _ => return ()

/-- The loop over all arguments, which passes over the positional ones. -/
def bindKeywords (flow : Flow) (named : List (String × Ty)) : List CallArg → Checker Unit
  | [] => return ()
  | .positional _ :: args => bindKeywords flow named args
  | .keyword name e :: args => do
    match named.find? (·.1 = name) with
    | none =>
      fail (.keywordArgMismatch name e.span (some "remove or rename — the callee does not accept this keyword"))
    | some (_, formal) =>
      let actual ← calls.synthExpr flow e
      unifyCallArg formal actual e.span
      bindKeywords flow named args
  | .starArgs e :: args => do
    let _ ← calls.synthExpr flow e
    bindKeywords flow named args
  | .starStarKwargs e :: args => do
    let _ ← calls.synthExpr flow e
    bindKeywords flow named args

def synthAll (flow : Flow) : List Expr → Checker (List Ty)
  | [] => return []
  | e :: exprs => do
    let t ← calls.synthExpr flow e
    let types ← synthAll flow exprs
    return t :: types

def calleeType (flow : Flow) (callee : Expr) : Checker Ty := do
  let t ← calls.synthExpr flow callee
  let t ← apply t
  calls.instantiate callee t

/-- The call of a callee that has a type. -/
def callWith (flow : Flow) (calleeTy : Ty) (args : List CallArg) (span : Span) : Checker Ty :=
  match calleeTy with
  | .fn positional named _ _ returnTy =>
    if (positionalArgs args).length ≠ positional.length then
      fail (.arityMismatch positional.length (positionalArgs args).length span arityHint)
    else do
      bindPositional calls flow (positionalArgs args) positional
      bindKeywords calls flow named args
      return returnTy
  | .var v => do
    let positional ← synthAll calls flow (positionalArgs args)
    let returnTy ← freshVar
    unifyTys (.var v) (.fn positional [] none none returnTy) span
    return returnTy
  | other =>
    fail (.notCallable other span (some "only function types are callable; verify the name resolves to a fn"))

def synthCall (flow : Flow) (callee : Expr) (args : List CallArg) (span : Span) : Checker Ty := do
  match ← calls.special flow callee args span with
  | some t => return t
  | none =>
    let calleeTy ← calleeType calls flow callee
    callWith calls flow calleeTy args span

end Call

/-! ## Bound arguments -/

def Ty.IsRef : Ty → Prop
  | .ref _ => True
  | _ => False

/-- The types unify, or the parameter takes what the argument borrows. -/
def UnifiesArg (formal actual : Ty) (s s' : Subst) : Prop :=
  (∃ eqs skipped, Compares s [(formal, actual)] eqs skipped s') ∨
    ∃ inner resolved, s.Resolves actual (.ref inner) ∧ s.Resolves formal resolved ∧ ¬ resolved.IsRef ∧ ¬ resolved.IsVar ∧
      ∃ eqs skipped, Compares s [(formal, inner)] eqs skipped s'

section Bound

variable (calls : CallChecks) (fuel : Nat) (flow : Flow)

/-- The expression has a type within the run from `c` to `c'`. -/
def Typed (c c' : Ctx) (e : Expr) : Prop :=
  ∃ (t : Ty) (c₁ c₂ : Ctx), c.subst.Grows c₁.subst ∧ run fuel (calls.synthExpr flow e) c₁ = some (.ok t, c₂) ∧
    c₂.subst.Grows c'.subst

/-- The expression has a type within the run from `c` to `c'`, and it unifies with that of the parameter. -/
def BoundTo (c c' : Ctx) (e : Expr) (formal : Ty) : Prop :=
  ∃ (t : Ty) (c₁ c₂ c₃ : Ctx), c.subst.Grows c₁.subst ∧ run fuel (calls.synthExpr flow e) c₁ = some (.ok t, c₂) ∧
    UnifiesArg formal t c₂.subst c₃.subst ∧ c₃.subst.Grows c'.subst

/-- Which parameter the arguments of a call are bound to: those of the positional arguments in order, and those that the
keywords name. A star argument has a type and no parameter. -/
structure Binds (c c' : Ctx) (positional : List Ty) (named : List (String × Ty)) (args : List CallArg) : Prop where
  positional : Forall₂ (BoundTo calls fuel flow c c') (positionalArgs args) positional
  keyword : ∀ name e, CallArg.keyword name e ∈ args →
    ∃ formal, named.find? (·.1 = name) = some (name, formal) ∧ BoundTo calls fuel flow c c' e formal
  star : ∀ e, CallArg.starArgs e ∈ args ∨ CallArg.starStarKwargs e ∈ args → Typed calls fuel flow c c' e

/-- Every argument is bound, every required keyword is given, and none is given twice. -/
structure BindsExactly (c c' : Ctx) (positional : List Ty) (named : List (String × Ty)) (required : List String)
    (args : List CallArg) : Prop extends Binds calls fuel flow c c' positional named args where
  noStar : ∀ e, CallArg.starArgs e ∉ args ∧ CallArg.starStarKwargs e ∉ args
  given : ∀ name ∈ required, ∃ e, CallArg.keyword name e ∈ args
  once : (args.filterMap CallArg.keyword?).Nodup

end Bound

section Run

variable {calls : CallChecks} {fuel : Nat} {flow : Flow} {c c' d d' : Ctx} {e : Expr} {formal actual : Ty}
  {args : List CallArg} {named : List (String × Ty)} {span : Span}

theorem unifiesArg_of_run (h : run fuel (unifyCallArg formal actual span) c = some (.ok (), c')) :
    UnifiesArg formal actual c.subst c'.subst := by
  unfold unifyCallArg at h
  obtain ⟨formalResolved, c₁, hformal, h₁⟩ := run_bind.1 h
  obtain ⟨hformal, hc₁⟩ := run_apply.1 hformal
  rw [hc₁] at h₁
  obtain ⟨actualResolved, c₂, hactual, h₂⟩ := run_bind.1 h₁
  obtain ⟨hactual, hc₂⟩ := run_apply.1 hactual
  rw [hc₂] at h₂
  have hcompares {t : Ty} (h : run fuel (unifyTys formal t span) c = some (.ok (), c')) :
      ∃ eqs skipped, Compares c.subst [(formal, t)] eqs skipped c'.subst := by
    obtain ⟨s, hunify, rfl⟩ := run_unifyTys.1 h
    exact compares_of_unify hunify
  cases actualResolved with
  | ref inner =>
    cases formalResolved with
    | ref t => exact .inl (hcompares h₂)
    | var v => exact .inl (hcompares h₂)
    | _ => exact .inr ⟨inner, _, ⟨fuel, hactual⟩, ⟨fuel, hformal⟩, id, id, hcompares h₂⟩
  | _ => exact .inl (hcompares h₂)

theorem Typed.widen (h : Typed calls fuel flow c c' e) (hstart : d.subst.Grows c.subst)
    (hend : c'.subst.Grows d'.subst) : Typed calls fuel flow d d' e := by
  obtain ⟨t, c₁, c₂, h₁, hrun, h₂⟩ := h
  exact ⟨t, c₁, c₂, hstart.trans h₁, hrun, h₂.trans hend⟩

theorem BoundTo.widen (h : BoundTo calls fuel flow c c' e formal) (hstart : d.subst.Grows c.subst)
    (hend : c'.subst.Grows d'.subst) : BoundTo calls fuel flow d d' e formal := by
  obtain ⟨t, c₁, c₂, c₃, h₁, hrun, hunifies, h₂⟩ := h
  exact ⟨t, c₁, c₂, c₃, hstart.trans h₁, hrun, hunifies, h₂.trans hend⟩

/-- An argument that was checked against a parameter, with what is checked behind it. -/
theorem boundTo_of_run {c₁ c₂ : Ctx} (hsynth : run fuel (calls.synthExpr flow e) c = some (.ok actual, c₁))
    (hunify : run fuel (unifyCallArg formal actual span) c₁ = some (.ok (), c₂)) (hend : c₂.subst.Grows c'.subst) :
    BoundTo calls fuel flow c c' e formal :=
  ⟨actual, c, c₁, c₂, .refl _, hsynth, unifiesArg_of_run hunify, hend⟩

theorem bindPositional_bound {exprs : List Expr} {formals : List Ty} (hlen : exprs.length = formals.length)
    (h : run fuel (bindPositional calls flow exprs formals) c = some (.ok (), c')) :
    Forall₂ (BoundTo calls fuel flow c c') exprs formals := by
  induction exprs generalizing formals c with
  | nil =>
    obtain rfl := List.length_eq_zero_iff.1 hlen.symm
    exact .nil
  | cons e exprs ih =>
    cases formals with
    | nil => cases hlen
    | cons formal formals =>
      rw [bindPositional] at h
      obtain ⟨actual, c₁, hsynth, h₁⟩ := run_bind.1 h
      obtain ⟨_, c₂, hunify, h₂⟩ := run_bind.1 h₁
      have hrest := ih (Nat.succ.inj hlen) h₂
      refine .cons (boundTo_of_run hsynth hunify (grows h₂)) (hrest.imp fun e formal hbound => ?_)
      exact hbound.widen ((grows hsynth).trans (grows hunify)) (.refl _)

/-- A star argument is typed, and what is behind it stays bound. -/
theorem bound_behind_star {arg : CallArg} {t : Ty} {c₁ : Ctx} (harg : arg = .starArgs e ∨ arg = .starStarKwargs e)
    (hsynth : run fuel (calls.synthExpr flow e) c = some (.ok t, c₁)) (hend : c₁.subst.Grows c'.subst)
    (hrest : (∀ name e, CallArg.keyword name e ∈ args →
        ∃ formal, named.find? (·.1 = name) = some (name, formal) ∧ BoundTo calls fuel flow c₁ c' e formal) ∧
      ∀ e, CallArg.starArgs e ∈ args ∨ CallArg.starStarKwargs e ∈ args → Typed calls fuel flow c₁ c' e) :
    (∀ name e, CallArg.keyword name e ∈ arg :: args →
        ∃ formal, named.find? (·.1 = name) = some (name, formal) ∧ BoundTo calls fuel flow c c' e formal) ∧
      ∀ e, CallArg.starArgs e ∈ arg :: args ∨ CallArg.starStarKwargs e ∈ arg :: args →
        Typed calls fuel flow c c' e := by
  refine ⟨fun name e' hmem => ?_, fun e' hmem => ?_⟩
  · have hmem' : CallArg.keyword name e' ∈ args := by
      rcases harg with rfl | rfl <;> simpa using hmem
    obtain ⟨formal, hfind, hbound⟩ := hrest.1 name e' hmem'
    exact ⟨formal, hfind, hbound.widen (grows hsynth) (.refl _)⟩
  · by_cases heq : e' = e
    · subst heq
      exact ⟨t, c, c₁, .refl _, hsynth, hend⟩
    · have hmem' : CallArg.starArgs e' ∈ args ∨ CallArg.starStarKwargs e' ∈ args := by
        rcases harg with rfl | rfl <;> simpa [heq] using hmem
      exact (hrest.2 e' hmem').widen (grows hsynth) (.refl _)

theorem bindKeywords_bound (h : run fuel (bindKeywords calls flow named args) c = some (.ok (), c')) :
    (∀ name e, CallArg.keyword name e ∈ args →
      ∃ formal, named.find? (·.1 = name) = some (name, formal) ∧ BoundTo calls fuel flow c c' e formal) ∧
    ∀ e, CallArg.starArgs e ∈ args ∨ CallArg.starStarKwargs e ∈ args → Typed calls fuel flow c c' e := by
  induction args generalizing c with
  | nil => exact ⟨by simp, by simp⟩
  | cons arg args ih =>
    cases arg with
    | positional e =>
      rw [bindKeywords] at h
      simpa using ih h
    | keyword name e =>
      rw [bindKeywords] at h
      cases hfind : named.find? (·.1 = name) with
      | none =>
        rw [hfind] at h
        exact absurd h not_run_fail
      | some row =>
        obtain ⟨name', formal⟩ := row
        have hname := List.find?_some hfind
        obtain rfl : name' = name := of_decide_eq_true hname
        rw [hfind] at h
        obtain ⟨actual, c₁, hsynth, h₁⟩ := run_bind.1 h
        obtain ⟨_, c₂, hunify, h₂⟩ := run_bind.1 h₁
        obtain ⟨hkeyword, hstar⟩ := ih h₂
        have hgrows := (grows hsynth).trans (grows hunify)
        refine ⟨fun n e' hmem => ?_, fun e' hmem => ?_⟩
        · rcases List.mem_cons.1 hmem with heq | hmem
          · cases heq
            exact ⟨formal, hfind, boundTo_of_run hsynth hunify (grows h₂)⟩
          · obtain ⟨formal', hfind', hbound⟩ := hkeyword n e' hmem
            exact ⟨formal', hfind', hbound.widen hgrows (.refl _)⟩
        · exact (hstar e' (by simpa using hmem)).widen hgrows (.refl _)
    | starArgs e =>
      rw [bindKeywords] at h
      obtain ⟨t, c₁, hsynth, h₁⟩ := run_bind.1 h
      exact bound_behind_star (.inl rfl) hsynth (grows h₁) (ih h₁)
    | starStarKwargs e =>
      rw [bindKeywords] at h
      obtain ⟨t, c₁, hsynth, h₁⟩ := run_bind.1 h
      exact bound_behind_star (.inr rfl) hsynth (grows h₁) (ih h₁)

/-- The arguments of an accepted call of a function that no table intercepts: each positional parameter receives one
positional argument, each keyword goes to the parameter of its name, their types unify, and star arguments have a type. -/
theorem synthCall_binds {callee : Expr} {positional : List Ty} {varPositional varKeyword : Option Ty} {returnTy t : Ty}
    {c₁ c₂ : Ctx} (hspecial : run fuel (calls.special flow callee args span) c = some (.ok none, c₁))
    (hcallee : run fuel (calleeType calls flow callee) c₁ =
      some (.ok (.fn positional named varPositional varKeyword returnTy), c₂))
    (h : run fuel (synthCall calls flow callee args span) c = some (.ok t, c')) :
    t = returnTy ∧ Binds calls fuel flow c₂ c' positional named args := by
  rw [synthCall] at h
  obtain ⟨_, _, hspecial', h₁⟩ := run_bind.1 h
  cases hspecial.symm.trans hspecial'
  obtain ⟨_, _, hcallee', h₂⟩ := run_bind.1 h₁
  cases hcallee.symm.trans hcallee'
  rw [callWith] at h₂
  split at h₂
  · exact absurd h₂ not_run_fail
  · next hlen =>
    obtain ⟨_, c₃, hpositional, h₃⟩ := run_bind.1 h₂
    obtain ⟨_, c₄, hkeywords, h₄⟩ := run_bind.1 h₃
    obtain ⟨rfl, rfl⟩ := run_pure.1 h₄
    obtain ⟨hkeyword, hstar⟩ := bindKeywords_bound hkeywords
    refine ⟨rfl, ⟨?_, fun name e hmem => ?_, fun e hmem => ?_⟩⟩
    · exact (bindPositional_bound (not_not.1 hlen) hpositional).imp fun e formal hbound =>
        hbound.widen (.refl _) (grows hkeywords)
    · obtain ⟨formal, hfind, hbound⟩ := hkeyword name e hmem
      exact ⟨formal, hfind, hbound.widen (grows hpositional) (.refl _)⟩
    · exact (hstar e hmem).widen (grows hpositional) (.refl _)

end Run

/-- Names have the types that are recorded, and what else there is is an integer. -/
def nameCalls : CallChecks where
  synthExpr _ e := match e.kind with
    | .name rn => do
      match ← lookupDef rn.defId with
      | some t => return t
      | none => unreachable
    | _ => return .int
  item _ _ := return ()
  special _ _ _ _ := return none
  instantiate _ t := return t

def nameExpr (name : String) (defId : DefId) : Expr :=
  .mk (.name ⟨name, defId, .fn⟩) .synthetic

def intOne : Expr :=
  .mk (.lit (.int "1")) .synthetic

/-- `fn f(a: i64, *, k: i64) -> i64`, and a list. -/
def callCtx : Ctx :=
  ⟨.new, ⟨0, (Store.Table.empty.insert 0 (.fn [.int] [("k", .int)] none none .int)).insert 1 (.list .int),
    ⟨.empty, .empty⟩⟩⟩

/-- `f(1, k=1)`. -/
theorem synthCall_keyword :
    Binds nameCalls 5 ⟨[], 0⟩ callCtx callCtx [.int] [("k", .int)] [.positional intOne, .keyword "k" intOne] := by
  have hspecial : run 5
      (nameCalls.special ⟨[], 0⟩ (nameExpr "f" 0) [.positional intOne, .keyword "k" intOne] .synthetic) callCtx =
      some (.ok none, callCtx) := rfl
  have hcallee : run 5 (calleeType nameCalls ⟨[], 0⟩ (nameExpr "f" 0)) callCtx =
      some (.ok (.fn [.int] [("k", .int)] none none .int), callCtx) := rfl
  have hcall : run 5
      (synthCall nameCalls ⟨[], 0⟩ (nameExpr "f" 0) [.positional intOne, .keyword "k" intOne] .synthetic) callCtx =
      some (.ok .int, callCtx) := rfl
  exact (synthCall_binds hspecial hcallee hcall).2

/-- `f(1, *xs)` and `f(1)` are accepted: nothing is bound to what `xs` holds, and nothing to `k`. -/
theorem synthCall_star :
    (run 5
        (synthCall nameCalls ⟨[], 0⟩ (nameExpr "f" 0) [.positional intOne, .starArgs (nameExpr "xs" 1)] .synthetic)
        callCtx =
        some (.ok .int, callCtx) ∧
      ¬ BindsExactly nameCalls 5 ⟨[], 0⟩ callCtx callCtx [.int] [("k", .int)] ["k"]
        [.positional intOne, .starArgs (nameExpr "xs" 1)]) ∧
    run 5 (synthCall nameCalls ⟨[], 0⟩ (nameExpr "f" 0) [.positional intOne] .synthetic) callCtx = some (.ok .int, callCtx) ∧
      ¬ BindsExactly nameCalls 5 ⟨[], 0⟩ callCtx callCtx [.int] [("k", .int)] ["k"] [.positional intOne] := by
  refine ⟨⟨rfl, fun h => ?_⟩, rfl, fun h => ?_⟩
  · exact (h.noStar (nameExpr "xs" 1)).1 (by simp)
  · obtain ⟨e, he⟩ := h.given "k" List.mem_cons_self
    simp at he

end Cobrust
