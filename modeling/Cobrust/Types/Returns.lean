import Cobrust.Control.Transition
import Cobrust.Types.Statements

/-!
# Definite return

The paths through the body of a function, and what `check_fn` says about them. It computes an outcome for the body and
drops it.

* `checkFn_returns_iff`: when every path through the body of an accepted function returns a value or raises.
* `checkFn_falls_off`: an accepted function with a path off the end of its body.
-/

namespace Cobrust

open Hir Checker
open Unify (Acyclic Extends)
open Control (Exit Exits)

/-- A condition that is a literal has only one value. -/
def Hir.Expr.mayBe (cond : Expr) (b : Bool) : Bool :=
  match cond.kind with
  | .lit (.bool value) => value = b
  | _ => true

mutual

/-- The exits of the paths through a block. Whatever is evaluated may raise. -/
def blockExits : Block → Exits
  | .mk stmts _ => stmtsExits stmts

def stmtsExits : List Stmt → Exits
  | [] => fun e => e = .falls
  | s :: rest => (stmtExits s).andThen (stmtsExits rest)

def stmtExits : Stmt → Exits
  | .mk .pass _ => fun e => e = .falls
  | .mk (.expr _) _ => fun e => e = .falls ∨ e = .raises
  | .mk (.let _) _ => fun e => e = .falls ∨ e = .raises
  | .mk (.assign _ _) _ => fun e => e = .falls ∨ e = .raises
  | .mk (.item _) _ => fun e => e = .falls
  | .mk (.return value) _ => fun e => e = .returns value.isSome ∨ (value.isSome = true ∧ e = .raises)
  | .mk .break _ => fun e => e = .breaks
  | .mk .continue _ => fun e => e = .continues
  | .mk (.raise _ _) _ => fun e => e = .raises
  | .mk (.if arms elseBlock) _ => ifExits arms (elseExits elseBlock)
  | .mk (.loop (.while cond body elseBlock _)) _ => fun e =>
    e = .raises ∨ Exits.Loop (cond.mayBe true) (cond.mayBe false) (blockExits body) (elseExits elseBlock) e
  | .mk (.loop (.for _ _ _ body elseBlock _)) _ => fun e =>
    e = .raises ∨ Exits.Loop True True (blockExits body) (elseExits elseBlock) e
  -- an accepted match has an arm for every value
  | .mk (.match _ arms) _ => fun e => e = .raises ∨ armsExits arms e
  | .mk (.with _ body) _ => fun e => e = .raises ∨ blockExits body e
  | .mk (.try body handlers elseBlock finallyBlock) _ =>
    ((blockExits body).guarded (handlersExits handlers) (elseExits elseBlock)).finish (elseExits finallyBlock)

def ifExits : List (Expr × Block) → Exits → Exits
  | [], els => els
  | (cond, body) :: arms, els => fun e =>
    e = .raises ∨ (cond.mayBe true = true ∧ blockExits body e) ∨ (cond.mayBe false = true ∧ ifExits arms els e)

def elseExits : Option Block → Exits
  | none => fun e => e = .falls
  | some b => blockExits b

def armsExits : List MatchArm → Exits
  | [] => fun _ => False
  | .mk _ _ _ body _ :: arms => fun e => blockExits body e ∨ armsExits arms e

def handlersExits : List ExceptHandler → Exits
  | [] => fun _ => False
  | .mk _ _ body _ :: handlers => fun e => blockExits body e ∨ handlersExits handlers e

end

/-! ## Which exits there are -/

def andThenB (a b : Exit → Bool) (e : Exit) : Bool :=
  (a e && e ≠ .falls) || (a .falls && b e)

def loopB (enter done : Bool) (body els : Exit → Bool) (e : Exit) : Bool :=
  (done && els e) || (enter && ((e = .falls && body .breaks) || (e.leaves && body e)))

mutual

/-- Whether a path through the block has the exit. -/
def mayBlock : Block → Exit → Bool
  | .mk stmts _, e => mayStmts stmts e

def mayStmts : List Stmt → Exit → Bool
  | [], e => e = .falls
  | s :: rest, e => andThenB (mayStmt s) (mayStmts rest) e

def mayStmt : Stmt → Exit → Bool
  | .mk .pass _, e => e = .falls
  | .mk (.expr _) _, e => e = .falls || e = .raises
  | .mk (.let _) _, e => e = .falls || e = .raises
  | .mk (.assign _ _) _, e => e = .falls || e = .raises
  | .mk (.item _) _, e => e = .falls
  | .mk (.return value) _, e => e = .returns value.isSome || (value.isSome && e = .raises)
  | .mk .break _, e => e = .breaks
  | .mk .continue _, e => e = .continues
  | .mk (.raise _ _) _, e => e = .raises
  | .mk (.if arms elseBlock) _, e => mayIf arms (mayElse elseBlock) e
  | .mk (.loop (.while cond body elseBlock _)) _, e =>
    e = .raises || loopB (cond.mayBe true) (cond.mayBe false) (mayBlock body) (mayElse elseBlock) e
  | .mk (.loop (.for _ _ _ body elseBlock _)) _, e =>
    e = .raises || loopB true true (mayBlock body) (mayElse elseBlock) e
  | .mk (.match _ arms) _, e => e = .raises || mayArms arms e
  | .mk (.with _ body) _, e => e = .raises || mayBlock body e
  | .mk (.try body handlers elseBlock finallyBlock) _, e =>
    let guarded (e : Exit) := andThenB (mayBlock body) (mayElse elseBlock) e ||
      (mayBlock body .raises && mayHandlers handlers e)
    (guarded e && mayElse finallyBlock .falls) ||
      (Exit.all.any guarded && mayElse finallyBlock e && e ≠ .falls)

def mayIf : List (Expr × Block) → (Exit → Bool) → Exit → Bool
  | [], els, e => els e
  | (cond, body) :: arms, els, e =>
    e = .raises || (cond.mayBe true && mayBlock body e) || (cond.mayBe false && mayIf arms els e)

def mayElse : Option Block → Exit → Bool
  | none, e => e = .falls
  | some b, e => mayBlock b e

def mayArms : List MatchArm → Exit → Bool
  | [], _ => false
  | .mk _ _ _ body _ :: arms, e => mayBlock body e || mayArms arms e

def mayHandlers : List ExceptHandler → Exit → Bool
  | [], _ => false
  | .mk _ _ body _ :: handlers, e => mayBlock body e || mayHandlers handlers e

end

section Decide

variable {a b : Exit → Bool} {x y : Exits} {e : Exit}

theorem andThenB_iff (ha : ∀ e, a e = true ↔ x e) (hb : ∀ e, b e = true ↔ y e) :
    andThenB a b e = true ↔ x.andThen y e := by
  simp only [andThenB, Exits.andThen, Bool.or_eq_true, Bool.and_eq_true, decide_eq_true_eq, ha, hb]

theorem loopB_iff {enter done : Bool} {p q : Prop} (hp : enter = true ↔ p) (hq : done = true ↔ q)
    (ha : ∀ e, a e = true ↔ x e) (hb : ∀ e, b e = true ↔ y e) :
    loopB enter done a b e = true ↔ Exits.Loop p q x y e := by
  simp only [loopB, Exits.loop_iff, Bool.or_eq_true, Bool.and_eq_true, decide_eq_true_eq, ha, hb, hp, hq]

theorem any_all_iff (ha : ∀ e, a e = true ↔ x e) : Exit.all.any a = true ↔ ∃ e, x e := by
  rw [List.any_eq_true]
  constructor
  · rintro ⟨e, -, he⟩
    exact ⟨e, (ha e).1 he⟩
  · rintro ⟨e, he⟩
    exact ⟨e, e.mem_all, (ha e).2 he⟩

end Decide

mutual

theorem mayBlock_iff : ∀ (b : Block) (e : Exit), mayBlock b e = true ↔ blockExits b e
  | .mk stmts _, e => by
    rw [mayBlock, blockExits]
    exact mayStmts_iff stmts e

theorem mayStmts_iff : ∀ (stmts : List Stmt) (e : Exit), mayStmts stmts e = true ↔ stmtsExits stmts e
  | [], e => by rw [mayStmts, stmtsExits, decide_eq_true_eq]
  | s :: rest, e => by
    rw [mayStmts, stmtsExits]
    exact andThenB_iff (mayStmt_iff s) (mayStmts_iff rest)

theorem mayStmt_iff : ∀ (s : Stmt) (e : Exit), mayStmt s e = true ↔ stmtExits s e
  | .mk .pass _, e => by simp only [mayStmt, stmtExits, decide_eq_true_eq]
  | .mk (.expr _) _, e => by simp only [mayStmt, stmtExits, Bool.or_eq_true, decide_eq_true_eq]
  | .mk (.let _) _, e => by simp only [mayStmt, stmtExits, Bool.or_eq_true, decide_eq_true_eq]
  | .mk (.assign _ _) _, e => by simp only [mayStmt, stmtExits, Bool.or_eq_true, decide_eq_true_eq]
  | .mk (.item _) _, e => by simp only [mayStmt, stmtExits, decide_eq_true_eq]
  | .mk (.return value) _, e => by
    simp only [mayStmt, stmtExits, Bool.or_eq_true, Bool.and_eq_true, decide_eq_true_eq]
  | .mk .break _, e => by simp only [mayStmt, stmtExits, decide_eq_true_eq]
  | .mk .continue _, e => by simp only [mayStmt, stmtExits, decide_eq_true_eq]
  | .mk (.raise _ _) _, e => by simp only [mayStmt, stmtExits, decide_eq_true_eq]
  | .mk (.if arms elseBlock) _, e => by
    rw [mayStmt, stmtExits]
    exact mayIf_iff arms _ _ (mayElse_iff elseBlock) e
  | .mk (.loop (.while cond body elseBlock _)) _, e => by
    simp only [mayStmt, stmtExits, Bool.or_eq_true, decide_eq_true_eq,
      loopB_iff Iff.rfl Iff.rfl (mayBlock_iff body) (mayElse_iff elseBlock)]
  | .mk (.loop (.for _ _ _ body elseBlock _)) _, e => by
    simp only [mayStmt, stmtExits, Bool.or_eq_true, decide_eq_true_eq,
      loopB_iff (iff_true_intro rfl) (iff_true_intro rfl) (mayBlock_iff body) (mayElse_iff elseBlock)]
  | .mk (.match _ arms) _, e => by
    simp only [mayStmt, stmtExits, Bool.or_eq_true, decide_eq_true_eq, mayArms_iff arms]
  | .mk (.with _ body) _, e => by
    simp only [mayStmt, stmtExits, Bool.or_eq_true, decide_eq_true_eq, mayBlock_iff body]
  | .mk (.try body handlers elseBlock finallyBlock) _, e => by
    have hguarded (e : Exit) : (andThenB (mayBlock body) (mayElse elseBlock) e ||
        (mayBlock body .raises && mayHandlers handlers e)) = true ↔
        (blockExits body).guarded (handlersExits handlers) (elseExits elseBlock) e := by
      rw [Bool.or_eq_true, Bool.and_eq_true, andThenB_iff (mayBlock_iff body) (mayElse_iff elseBlock),
        mayBlock_iff body, mayHandlers_iff handlers, Exits.guarded]
    simp only [mayStmt, stmtExits, Exits.finish, Bool.or_eq_true (_ && _), Bool.and_eq_true, hguarded,
      any_all_iff hguarded, mayElse_iff finallyBlock, decide_eq_true_eq, and_assoc]

theorem mayIf_iff : ∀ (arms : List (Expr × Block)) (els : Exit → Bool) (x : Exits), (∀ e, els e = true ↔ x e) →
    ∀ e, mayIf arms els e = true ↔ ifExits arms x e
  | [], els, x, h, e => by
    rw [mayIf, ifExits]
    exact h e
  | (cond, body) :: arms, els, x, h, e => by
    simp only [mayIf, ifExits, Bool.or_eq_true, Bool.and_eq_true, decide_eq_true_eq, mayBlock_iff body,
      mayIf_iff arms els x h, or_assoc]

theorem mayElse_iff : ∀ (b : Option Block) (e : Exit), mayElse b e = true ↔ elseExits b e
  | none, e => by simp only [mayElse, elseExits, decide_eq_true_eq]
  | some b, e => by
    rw [mayElse, elseExits]
    exact mayBlock_iff b e

theorem mayArms_iff : ∀ (arms : List MatchArm) (e : Exit), mayArms arms e = true ↔ armsExits arms e
  | [], e => by simp only [mayArms, armsExits, Bool.false_eq_true]
  | .mk _ _ _ body _ :: arms, e => by
    rw [mayArms, armsExits, Bool.or_eq_true, mayBlock_iff body, mayArms_iff arms]

theorem mayHandlers_iff : ∀ (handlers : List ExceptHandler) (e : Exit),
    mayHandlers handlers e = true ↔ handlersExits handlers e
  | [], e => by simp only [mayHandlers, handlersExits, Bool.false_eq_true]
  | .mk _ _ body _ :: handlers, e => by
    rw [mayHandlers, handlersExits, Bool.or_eq_true, mayBlock_iff body, mayHandlers_iff handlers]

end

/-! ## What an accepted body does not have -/

/-- A type that no substitution turns into None or Never. -/
def Ty.Firm (r : Ty) : Prop :=
  ¬ r.IsVar ∧ r ≠ .none ∧ r ≠ .never

def Settled (s : Subst) (t : Ty) : Prop :=
  ∃ r, s.Resolves t r ∧ r.Firm

/-- The exits that a check with the enclosing functions and loops lets pass: a break needs a loop, and a return without
a value needs a return type that can be None. -/
def Flow.Allows (flow : Flow) (s : Subst) : Exit → Prop
  | .breaks | .continues => flow.loopDepth ≠ 0
  | .returns false => ∀ t rest, flow.returnStack = t :: rest → ¬ Settled s t
  | _ => True

theorem Ty.Firm.bind {r : Ty} (h : r.Firm) (θ : Nat → Ty) : (r.bind θ).Firm := by
  obtain ⟨hvar, hnone, hnever⟩ := h
  cases r with
  | var v => exact absurd trivial hvar
  | none => exact absurd rfl hnone
  | never => exact absurd rfl hnever
  | _ => exact ⟨id, nofun, nofun⟩

theorem Settled.mono {s s' : Subst} {t : Ty} (h : Settled s t) (hac : Acyclic s.get) (hgrows : s.Grows s') :
    Settled s' t := by
  obtain ⟨r, hr, hfirm⟩ := h
  obtain ⟨hac', hext⟩ := hgrows hac
  have hsolves := (s'.solves_closed hac').of_extends hext
  refine ⟨t.bind (s'.closed hac'), Subst.resolves_closed hac' t, ?_⟩
  rw [← hr.bind_eq hac hsolves]
  exact hfirm.bind _

theorem Flow.Allows.mono {flow : Flow} {s s' : Subst} {e : Exit} (h : flow.Allows s' e) (hac : Acyclic s.get)
    (hgrows : s.Grows s') : flow.Allows s e := by
  cases e with
  | returns value =>
    cases value with
    | true => trivial
    | false => exact fun t rest ht hsettled => h t rest ht (hsettled.mono hac hgrows)
  | _ => exact h

theorem not_unify_none {fuel : Nat} {span : Span} {s s' : Subst} {t : Ty} (hac : Acyclic s.get) (h : Settled s t) :
    unify span fuel t .none s ≠ some (.ok (), s') := by
  intro hunify
  obtain ⟨r, hr, hvar, hnone, hnever⟩ := h
  cases fuel with
  | zero => cases hunify
  | succ fuel =>
    obtain ⟨r₁, r₂, h₁, h₂, harms⟩ := unify_succ.1 hunify
    obtain rfl : r₂ = .none := s.apply_eq hac h₂
    obtain rfl : r₁ = r := (s.apply_eq hac h₁).trans (hr.eq hac).symm
    rcases unifyArms_ok.1 harms with ⟨h | h, -⟩ | ⟨v, -, h, -⟩ | ⟨v, rfl, -⟩ | ⟨v, h, -⟩ | ⟨-, -, -, -, hshape, -⟩
    · exact hnever h
    · cases h
    · cases h
    · exact hvar trivial
    · cases h
    · cases r₁ with
      | none => exact hnone rfl
      | _ => cases hshape

section Accepted

variable {checks : Checks} {fuel : Nat}

theorem allows_return {flow : Flow} {c c' : Ctx} {value : Option Expr} {span : Span} {o : BlockOutcome} {e : Exit}
    (hac : Acyclic c.subst.get) (h : run fuel (checkReturn checks flow value span) c = some (.ok o, c'))
    (he : e = .returns value.isSome ∨ (value.isSome = true ∧ e = .raises)) : flow.Allows c.subst e := by
  rcases he with rfl | ⟨-, rfl⟩
  · cases value with
    | some v => trivial
    | none =>
      intro t rest ht hsettled
      rw [checkReturn, ht] at h
      obtain ⟨_, c₁, hvalue, h₁⟩ := run_bind.1 h
      obtain ⟨rfl, rfl⟩ := run_pure.1 hvalue
      obtain ⟨_, c₂, hunify, -⟩ := run_bind.1 h₁
      obtain ⟨s', hunify, -⟩ := run_unifyTys.1 hunify
      exact not_unify_none hac hsettled hunify
  · trivial

theorem allows_of_falls_or_raises {flow : Flow} {s : Subst} {e : Exit} (h : e = .falls ∨ e = .raises) :
    flow.Allows s e := by
  rcases h with rfl | rfl <;> trivial

theorem allows_andThen {flow : Flow} {s : Subst} {a b : Exits} {e : Exit} (ha : ∀ e, a e → flow.Allows s e)
    (hb : ∀ e, b e → flow.Allows s e) (h : a.andThen b e) : flow.Allows s e := by
  rcases h with ⟨h, -⟩ | ⟨-, h⟩
  · exact ha e h
  · exact hb e h

/-- The exits of a loop are those behind it, and those of its body that leave the function. -/
theorem allows_loop {flow : Flow} {s : Subst} {enter done : Prop} {body els : Exits} {e : Exit}
    (hbody : ∀ e, body e → flow.inLoop.Allows s e) (hels : ∀ e, els e → flow.Allows s e)
    (h : Exits.Loop enter done body els e) : flow.Allows s e := by
  rcases Exits.loop_iff.1 h with ⟨-, h⟩ | ⟨-, ⟨rfl, -⟩ | ⟨hleaves, h⟩⟩
  · exact hels e h
  · trivial
  · have hallows := hbody e h
    cases e with
    | returns value => cases value <;> exact hallows
    | raises => trivial
    | _ => cases hleaves

mutual

theorem allows_block : ∀ (b : Block) (flow : Flow) (c c' : Ctx) (o : BlockOutcome), Acyclic c.subst.get →
    run fuel (checkBlock checks flow b) c = some (.ok o, c') → ∀ e, blockExits b e → flow.Allows c.subst e
  | .mk stmts _, flow, c, c', o, hac, h, e, he => by
    rw [checkBlock] at h
    rw [blockExits] at he
    exact allows_stmts stmts flow .falls c c' o hac h e he

theorem allows_stmts : ∀ (stmts : List Stmt) (flow : Flow) (o₀ : BlockOutcome) (c c' : Ctx) (o : BlockOutcome),
    Acyclic c.subst.get → run fuel (checkStmts checks flow stmts o₀) c = some (.ok o, c') →
      ∀ e, stmtsExits stmts e → flow.Allows c.subst e
  | [], flow, o₀, c, c', o, hac, h, e, he => by
    rw [stmtsExits] at he
    exact allows_of_falls_or_raises (.inl he)
  | s :: rest, flow, o₀, c, c', o, hac, h, e, he => by
    rw [checkStmts] at h
    rw [stmtsExits] at he
    obtain ⟨o₁, c₁, hs, hrest⟩ := run_bind.1 h
    refine allows_andThen (allows_stmt s flow c c₁ o₁ hac hs) (fun e he => ?_) he
    exact (allows_stmts rest flow o₁ c₁ c' o (grows hs hac).1 hrest e he).mono hac (grows hs)

theorem allows_stmt : ∀ (s : Stmt) (flow : Flow) (c c' : Ctx) (o : BlockOutcome), Acyclic c.subst.get →
    run fuel (checkStmt checks flow s) c = some (.ok o, c') → ∀ e, stmtExits s e → flow.Allows c.subst e
  | .mk .pass _, _, _, _, _, _, _, _, he => by
    rw [stmtExits] at he
    exact allows_of_falls_or_raises (.inl he)
  | .mk (.expr _) _, _, _, _, _, _, _, _, he => by
    rw [stmtExits] at he
    exact allows_of_falls_or_raises he
  | .mk (.let _) _, _, _, _, _, _, _, _, he => by
    rw [stmtExits] at he
    exact allows_of_falls_or_raises he
  | .mk (.assign _ _) _, _, _, _, _, _, _, _, he => by
    rw [stmtExits] at he
    exact allows_of_falls_or_raises he
  | .mk (.item _) _, _, _, _, _, _, _, _, he => by
    rw [stmtExits] at he
    exact allows_of_falls_or_raises (.inl he)
  | .mk (.raise _ _) _, _, _, _, _, _, _, _, he => by
    rw [stmtExits] at he
    exact allows_of_falls_or_raises (.inr he)
  | .mk (.return value) span, flow, c, c', o, hac, h, e, he => by
    rw [checkStmt] at h
    rw [stmtExits] at he
    exact allows_return hac h he
  | .mk .break _, flow, c, c', o, _, h, e, he => by
    rw [checkStmt] at h
    rw [stmtExits] at he
    subst he
    intro hdepth
    rw [if_pos hdepth] at h
    exact not_run_fail h
  | .mk .continue _, flow, c, c', o, _, h, e, he => by
    rw [checkStmt] at h
    rw [stmtExits] at he
    subst he
    intro hdepth
    rw [if_pos hdepth] at h
    exact not_run_fail h
  | .mk (.if arms elseBlock) _, flow, c, c', o, hac, h, e, he => by
    rw [checkStmt] at h
    rw [stmtExits] at he
    obtain ⟨os, c₁, harms, h₁⟩ := run_bind.1 h
    obtain ⟨oe, c₂, helse, -⟩ := run_bind.1 h₁
    exact allows_ifArms arms flow c c₁ os hac harms _
      (allows_else elseBlock flow c₁ c₂ oe (grows harms hac).1 helse) e he
  | .mk (.loop (.while cond body elseBlock _)) _, flow, c, c', o, hac, h, e, he => by
    rw [checkStmt] at h
    rw [stmtExits] at he
    obtain ⟨_, c₁, hcond, h₁⟩ := run_bind.1 h
    obtain ⟨_, c₂, hbool, h₂⟩ := run_bind.1 h₁
    obtain ⟨ob, c₃, hbody, h₃⟩ := run_bind.1 h₂
    obtain ⟨oe, c₄, helse, -⟩ := run_bind.1 h₃
    have hgrows := (grows hcond).trans (grows hbool)
    have hgrows' := hgrows.trans (grows hbody)
    rcases he with rfl | he
    · trivial
    · refine allows_loop (fun e he => ?_) (fun e he => ?_) he
      · exact (allows_block body flow.inLoop c₂ c₃ ob (hgrows hac).1 hbody e he).mono hac hgrows
      · exact (allows_else elseBlock flow c₃ c₄ oe (hgrows' hac).1 helse e he).mono hac hgrows'
  | .mk (.loop (.for _ pattern iter body elseBlock _)) _, flow, c, c', o, hac, h, e, he => by
    rw [checkStmt] at h
    rw [stmtExits] at he
    obtain ⟨_, c₁, hiter, h₁⟩ := run_bind.1 h
    obtain ⟨_, c₂, helem, h₂⟩ := run_bind.1 h₁
    obtain ⟨_, c₃, hpattern, h₃⟩ := run_bind.1 h₂
    obtain ⟨ob, c₄, hbody, h₄⟩ := run_bind.1 h₃
    obtain ⟨oe, c₅, helse, -⟩ := run_bind.1 h₄
    have hgrows := ((grows hiter).trans (grows helem)).trans (grows hpattern)
    have hgrows' := hgrows.trans (grows hbody)
    rcases he with rfl | he
    · trivial
    · refine allows_loop (fun e he => ?_) (fun e he => ?_) he
      · exact (allows_block body flow.inLoop c₃ c₄ ob (hgrows hac).1 hbody e he).mono hac hgrows
      · exact (allows_else elseBlock flow c₄ c₅ oe (hgrows' hac).1 helse e he).mono hac hgrows'
  | .mk (.match scrutinee arms) _, flow, c, c', o, hac, h, e, he => by
    rw [checkStmt] at h
    rw [stmtExits] at he
    obtain ⟨_, c₁, hsynth, h₁⟩ := run_bind.1 h
    obtain ⟨ty, c₂, happly, h₂⟩ := run_bind.1 h₁
    obtain ⟨cov, c₃, harms, -⟩ := run_bind.1 h₂
    have hgrows := (grows hsynth).trans (grows happly)
    rcases he with rfl | he
    · trivial
    · exact (allows_arms arms flow ty .none c₂ c₃ cov (hgrows hac).1 harms e he).mono hac hgrows
  | .mk (.with item body) _, flow, c, c', o, hac, h, e, he => by
    rw [checkStmt] at h
    rw [stmtExits] at he
    obtain ⟨_, c₁, hsynth, h₁⟩ := run_bind.1 h
    obtain ⟨_, c₂, hbinding, hbody⟩ := run_bind.1 h₁
    have hgrows := (grows hsynth).trans (grows hbinding)
    rcases he with rfl | he
    · trivial
    · exact (allows_block body flow c₂ c' o (hgrows hac).1 hbody e he).mono hac hgrows
  | .mk (.try body handlers elseBlock finallyBlock) _, flow, c, c', o, hac, h, e, he => by
    rw [checkStmt] at h
    rw [stmtExits] at he
    obtain ⟨ob, c₁, hbody, h₁⟩ := run_bind.1 h
    obtain ⟨_, c₂, hhandlers, h₂⟩ := run_bind.1 h₁
    obtain ⟨oe, c₃, helse, h₃⟩ := run_bind.1 h₂
    obtain ⟨of, c₄, hfinally, -⟩ := run_bind.1 h₃
    have hgrows₂ := (grows hbody).trans (grows hhandlers)
    have hgrows₃ := hgrows₂.trans (grows helse)
    rcases he with ⟨he | ⟨-, he⟩, -⟩ | ⟨-, he, -⟩
    · refine allows_andThen (allows_block body flow c c₁ ob hac hbody) (fun e he => ?_) he
      exact (allows_else elseBlock flow c₂ c₃ oe (hgrows₂ hac).1 helse e he).mono hac hgrows₂
    · exact (allows_handlers handlers flow c₁ c₂ (grows hbody hac).1 hhandlers e he).mono hac (grows hbody)
    · exact (allows_else finallyBlock flow c₃ c₄ of (hgrows₃ hac).1 hfinally e he).mono hac hgrows₃

theorem allows_ifArms : ∀ (arms : List (Expr × Block)) (flow : Flow) (c c' : Ctx) (os : List BlockOutcome),
    Acyclic c.subst.get → run fuel (checkIfArms checks flow arms) c = some (.ok os, c') →
      ∀ els : Exits, (∀ e, els e → flow.Allows c'.subst e) → ∀ e, ifExits arms els e → flow.Allows c.subst e
  | [], flow, c, c', os, hac, h, els, hels, e, he => by
    rw [checkIfArms] at h
    rw [ifExits] at he
    obtain ⟨-, rfl⟩ := run_pure.1 h
    exact hels e he
  | (cond, body) :: arms, flow, c, c', os, hac, h, els, hels, e, he => by
    rw [checkIfArms] at h
    rw [ifExits] at he
    obtain ⟨_, c₁, hcond, h₁⟩ := run_bind.1 h
    obtain ⟨_, c₂, hbool, h₂⟩ := run_bind.1 h₁
    obtain ⟨ob, c₃, hbody, h₃⟩ := run_bind.1 h₂
    obtain ⟨os', c₄, harms, h₄⟩ := run_bind.1 h₃
    obtain ⟨-, rfl⟩ := run_pure.1 h₄
    have hgrows := (grows hcond).trans (grows hbool)
    have hgrows' := hgrows.trans (grows hbody)
    rcases he with rfl | ⟨-, he⟩ | ⟨-, he⟩
    · trivial
    · exact (allows_block body flow c₂ c₃ ob (hgrows hac).1 hbody e he).mono hac hgrows
    · exact (allows_ifArms arms flow c₃ c' os' (hgrows' hac).1 harms els hels e he).mono hac hgrows'

theorem allows_else : ∀ (b : Option Block) (flow : Flow) (c c' : Ctx) (o : BlockOutcome), Acyclic c.subst.get →
    run fuel (checkElse checks flow b) c = some (.ok o, c') → ∀ e, elseExits b e → flow.Allows c.subst e
  | none, _, _, _, _, _, _, _, he => by
    rw [elseExits] at he
    exact allows_of_falls_or_raises (.inl he)
  | some b, flow, c, c', o, hac, h, e, he => by
    rw [checkElse] at h
    rw [elseExits] at he
    exact allows_block b flow c c' o hac h e he

theorem allows_arms : ∀ (arms : List MatchArm) (flow : Flow) (ty : Ty) (cov : Coverage) (c c' : Ctx) (cov' : Coverage),
    Acyclic c.subst.get → run fuel (checkArms checks flow ty arms cov) c = some (.ok cov', c') →
      ∀ e, armsExits arms e → flow.Allows c.subst e
  | [], _, _, _, _, _, _, _, _, _, he => by
    rw [armsExits] at he
    exact he.elim
  | .mk pattern _ guard body _ :: arms, flow, ty, cov, c, c', cov', hac, h, e, he => by
    rw [checkArms] at h
    rw [armsExits] at he
    obtain ⟨_, c₁, hpattern, h₁⟩ := run_bind.1 h
    obtain ⟨_, c₂, hguard, h₂⟩ := run_bind.1 h₁
    obtain ⟨ob, c₃, hbody, h₃⟩ := run_bind.1 h₂
    have hgrows := (grows hpattern).trans (grows hguard)
    have hgrows' := hgrows.trans (grows hbody)
    rcases he with he | he
    · exact (allows_block body flow c₂ c₃ ob (hgrows hac).1 hbody e he).mono hac hgrows
    · exact (allows_arms arms flow ty _ c₃ c' cov' (hgrows' hac).1 h₃ e he).mono hac hgrows'

theorem allows_handlers : ∀ (handlers : List ExceptHandler) (flow : Flow) (c c' : Ctx), Acyclic c.subst.get →
    run fuel (checkHandlers checks flow handlers) c = some (.ok (), c') →
      ∀ e, handlersExits handlers e → flow.Allows c.subst e
  | [], _, _, _, _, _, _, he => by
    rw [handlersExits] at he
    exact he.elim
  | .mk excType binding body _ :: handlers, flow, c, c', hac, h, e, he => by
    rw [checkHandlers] at h
    rw [handlersExits] at he
    obtain ⟨_, c₁, htype, h₁⟩ := run_bind.1 h
    obtain ⟨_, c₂, hbinding, h₂⟩ := run_bind.1 h₁
    obtain ⟨ob, c₃, hbody, h₃⟩ := run_bind.1 h₂
    have hgrows := (grows htype).trans (grows hbinding)
    have hgrows' := hgrows.trans (grows hbody)
    rcases he with he | he
    · exact (allows_block body flow c₂ c₃ ob (hgrows hac).1 hbody e he).mono hac hgrows
    · exact (allows_handlers handlers flow c₃ c' (hgrows' hac).1 h₃ e he).mono hac hgrows'

end

end Accepted

/-! ## Functions -/

/-- The request leaves the types of definitions as they are. -/
def Request.KeepsDefTypes (β : Type) : Request β → Prop
  | .change f => ∀ fields, (f fields).defTypes = fields.defTypes
  | _ => True

section Keeps

open Control.Program

theorem keeps_lowerType (t : TypeExpr) : Asks Request.KeepsDefTypes (Checker.lowerType t) := by
  refine asks_bind (asks_bind (asks_request trivial) fun c => .done _) fun fields => ?_
  exact asks_bind (asks_request fun fields => rfl) fun _ => .done _

theorem keeps_validateKey (base : String) (args : List TypeExpr) : Asks Request.KeepsDefTypes (validateKey base args) := by
  unfold validateKey
  split
  · split
    · refine asks_bind (keeps_lowerType _) fun k => asks_bind (asks_request trivial) fun resolved => ?_
      split
      · exact .done _
      · exact .ask trivial nofun
    · exact .done _
  · exact .done _

mutual

theorem keeps_validate : ∀ t : TypeExpr, Asks Request.KeepsDefTypes (validateHashableDict t)
  | .name _ _ => by
    rw [validateHashableDict]
    exact .done _
  | .generic base args _ => by
    rw [validateHashableDict]
    exact asks_bind (keeps_validateKey _ args) fun _ => keeps_validateAll args
  | .union items _ => by
    rw [validateHashableDict]
    exact keeps_validateAll items
  | .tuple items _ => by
    rw [validateHashableDict]
    exact keeps_validateAll items
  | .fn params returnType _ => by
    rw [validateHashableDict]
    exact asks_bind (keeps_validateAll params) fun _ => keeps_validate returnType
  | .ref inner _ => by
    rw [validateHashableDict]
    exact keeps_validate inner
  | .array elem _ _ => by
    rw [validateHashableDict]
    exact keeps_validate elem

theorem keeps_validateAll : ∀ items : List TypeExpr, Asks Request.KeepsDefTypes (validateAll items)
  | [] => by
    rw [validateAll]
    exact .done _
  | t :: rest => by
    rw [validateAll]
    exact asks_bind (keeps_validate t) fun _ => keeps_validateAll rest

end

theorem keeps_validateParams (params : List Param) : Asks Request.KeepsDefTypes (validateParams params) := by
  induction params with
  | nil => exact .done _
  | cons p params ih =>
    unfold validateParams
    cases p.annot with
    | none => exact ih
    | some t => exact asks_bind (keeps_validate t) fun _ => ih

end Keeps

theorem defTypes_eq {α : Type} {fuel : Nat} {x : Checker α} {c c' : Ctx} {r : Except TypeError α}
    (hx : Control.Program.Asks Request.KeepsDefTypes x) (h : run fuel x c = some (r, c')) :
    c'.fields.defTypes = c.fields.defTypes := by
  have htrans {a b c : Ctx} (h : b.fields.defTypes = a.fields.defTypes) (h' : c.fields.defTypes = b.fields.defTypes) :
      c.fields.defTypes = a.fields.defTypes := h'.trans h
  refine Control.Program.run_moves_of_asks (R := fun c c' => c'.fields.defTypes = c.fields.defTypes) (fun _ => rfl)
    htrans ?_ hx h
  intro β request c c' answer hkeeps hanswer
  cases request with
  | apply t =>
    obtain ⟨_, -, heq⟩ := Option.map_eq_some_iff.1 hanswer
    cases heq
    rfl
  | unify t₁ t₂ span =>
    obtain ⟨_, -, heq⟩ := Option.map_eq_some_iff.1 hanswer
    cases heq
    rfl
  | attempt t₁ t₂ span =>
    obtain ⟨_, -, heq⟩ := Option.map_eq_some_iff.1 hanswer
    cases heq
    rfl
  | look =>
    cases hanswer
    rfl
  | change f =>
    cases hanswer
    exact hkeeps _
  | fail e =>
    cases hanswer
    rfl
  | unreachable => cases hanswer

section Function

variable {checks : Checks} {fuel : Nat} {flow : Flow} {c c' : Ctx} {defId : DefId} {name : String} {params : Params}
  {body : Block} {span : Span} {returnType : Option TypeExpr} {positional : List Ty} {named : List (String × Ty)}
  {varPositional varKeyword : Option Ty} {ret r : Ty}

theorem checkFn_body (hdef : c.fields.defTypes defId = some (.fn positional named varPositional varKeyword ret))
    (h : run fuel (checkFn checks flow (.mk defId name params body span) returnType) c = some (.ok (), c')) :
    ∃ c₁ c₂ o, c.subst.Grows c₁.subst ∧ run fuel (checkBlock checks (flow.inFn ret) body) c₁ = some (.ok o, c₂) := by
  rw [checkFn] at h
  obtain ⟨_, c₁, hpos, h₁⟩ := run_bind.1 h
  obtain ⟨_, c₂, hkw, h₂⟩ := run_bind.1 h₁
  obtain ⟨_, c₃, hvarPos, h₃⟩ := run_bind.1 h₂
  obtain ⟨_, c₄, hvarKw, h₄⟩ := run_bind.1 h₃
  obtain ⟨_, c₅, hret, h₅⟩ := run_bind.1 h₄
  have hgrows := (((grows hpos).trans (grows hkw)).trans ((grows hvarPos).trans (grows hvarKw))).trans (grows hret)
  -- the validations leave the type of the function as it was
  have hfound : c₅.fields.defTypes defId = some (.fn positional named varPositional varKeyword ret) := by
    rw [defTypes_eq (keeps_validateAll _) hret, defTypes_eq (keeps_validateParams _) hvarKw,
      defTypes_eq (keeps_validateParams _) hvarPos, defTypes_eq (keeps_validateParams _) hkw,
      defTypes_eq (keeps_validateParams _) hpos, hdef]
  obtain ⟨found, c₆, hlookup, h₆⟩ := run_bind.1 h₅
  obtain ⟨rfl, rfl⟩ : found = c₅.fields.defTypes defId ∧ c₆ = c₅ := by
    cases hlookup
    exact ⟨rfl, rfl⟩
  rw [hfound] at h₆
  obtain ⟨_, c₇, hbind, h₇⟩ := run_bind.1 h₆
  obtain ⟨_, c₈, hbindKw, h₈⟩ := run_bind.1 h₇
  obtain ⟨_, c₉, hbindVarPos, h₉⟩ := run_bind.1 h₈
  obtain ⟨_, c₁₀, hbindVarKw, h₁₀⟩ := run_bind.1 h₉
  obtain ⟨o, c₁₁, hbody, -⟩ := run_bind.1 h₁₀
  have hgrows' := ((grows hbind).trans (grows hbindKw)).trans ((grows hbindVarPos).trans (grows hbindVarKw))
  exact ⟨c₁₀, c₁₁, o, hgrows.trans hgrows', hbody⟩

/-- The paths through the body of an accepted function all return a value or raise exactly when none falls off its end,
and none returns without a value where the return type is left open. -/
theorem checkFn_returns_iff (hac : Acyclic c.subst.get)
    (hdef : c.fields.defTypes defId = some (.fn positional named varPositional varKeyword ret))
    (hret : c.subst.Resolves ret r) (hnone : r ≠ .none) (hnever : r ≠ .never)
    (h : run fuel (checkFn checks flow (.mk defId name params body span) returnType) c = some (.ok (), c')) :
    (∀ e, blockExits body e → e = .returns true ∨ e = .raises) ↔
      mayBlock body .falls = false ∧ (r.IsVar → mayBlock body (.returns false) = false) := by
  obtain ⟨c₁, c₂, o, hgrows, hbody⟩ := checkFn_body hdef h
  have hallows := allows_block body (flow.inFn ret) c₁ c₂ o (hgrows hac).1 hbody
  constructor
  · intro hall
    have hnot (e : Exit) (hvalue : e ≠ .returns true) (hraises : e ≠ .raises) : mayBlock body e = false := by
      rw [← Bool.not_eq_true, mayBlock_iff]
      exact fun he => (hall e he).elim hvalue hraises
    exact ⟨hnot .falls nofun nofun, fun _ => hnot (.returns false) nofun nofun⟩
  · rintro ⟨hfalls, hbare⟩ e he
    cases e with
    | falls => exact absurd ((mayBlock_iff body _).2 he) (by rw [hfalls]; exact Bool.false_ne_true)
    | raises => exact .inr rfl
    | breaks => exact absurd rfl (hallows _ he)
    | continues => exact absurd rfl (hallows _ he)
    | returns value =>
      cases value with
      | true => exact .inl rfl
      | false =>
        by_cases hvar : r.IsVar
        · exact absurd ((mayBlock_iff body _).2 he) (by rw [hbare hvar]; exact Bool.false_ne_true)
        · have hsettled : Settled c.subst ret := ⟨r, hret, hvar, hnone, hnever⟩
          exact absurd (hsettled.mono hac hgrows) (hallows _ he ret flow.returnStack rfl)

end Function

/-- Every expression is an integer. -/
def intChecks : Checks where
  synthExpr _ _ := return .int
  item _ _ := return ()

def i64 : TypeExpr :=
  .name ["i64"] .synthetic

/-- The function is bound, with the return type of its annotation. -/
def mainCtx : Ctx :=
  ⟨.new, ⟨0, Store.Table.empty.insert 0 (.fn [] [] none none .int), ⟨.empty, .empty⟩⟩⟩

def returnOne : Block :=
  .mk [.mk (.return (some (.mk (.lit (.int "1")) .synthetic))) .synthetic] .synthetic

def passOnly : Block :=
  .mk [.mk .pass .synthetic] .synthetic

/-- `fn main() -> i64: return 1`. -/
theorem checkFn_returns_one :
    (∀ e, blockExits returnOne e → e = .returns true ∨ e = .raises) ↔
      mayBlock returnOne .falls = false ∧ (Ty.int.IsVar → mayBlock returnOne (.returns false) = false) := by
  have hcheck : run 5 (checkFn intChecks ⟨[], 0⟩ (.mk 0 "main" ⟨[], none, [], none⟩ returnOne .synthetic) (some i64))
      mainCtx = some (.ok (), mainCtx) := rfl
  have hdef : mainCtx.fields.defTypes 0 = some (.fn [] [] none none .int) := rfl
  exact checkFn_returns_iff acyclic_new hdef ⟨1, rfl⟩ nofun nofun hcheck

/-- `fn main() -> i64: pass` is accepted, and falls off its end. -/
theorem checkFn_falls_off :
    run 5 (checkFn intChecks ⟨[], 0⟩ (.mk 0 "main" ⟨[], none, [], none⟩ passOnly .synthetic) (some i64)) mainCtx =
        some (.ok (), mainCtx) ∧
      mainCtx.fields.defTypes 0 = some (.fn [] [] none none (lowerNamedType mainCtx.fields.names "i64")) ∧
      ¬ ∀ e, blockExits passOnly e → e = .returns true ∨ e = .raises := by
  refine ⟨rfl, rfl, fun hall => ?_⟩
  rcases hall .falls ((mayBlock_iff passOnly .falls).1 rfl) with h | h <;> cases h

end Cobrust
