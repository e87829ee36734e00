import Cobrust.Mir.ListExec
import Cobrust.Mir.Decisions

/-!
# What a comprehension means

A list comprehension stands for nested loops: each clause goes through the integers of a list and tests its guards, and
the innermost body appends the element. The loops keep the calls that were made and the lists that were gone through.

* `loops_typed`: loops over parts of the right types never come to something undefined.
-/

namespace Cobrust.Mir

open Exec Control
open Hir (Expr CompClause Pattern)

/-! ## Loops -/

/-- The calls, the lists that were gone through, the last one first, and the list that is built. -/
structure LoopState where
  history : History
  started : List (BitVec 64)
  items : List (BitVec 64)

abbrev Build (α : Type) :=
  Traced LoopState Stop Site α

namespace Build

variable {α : Type}

def undefined : Build α :=
  fun s => (.error .undefined, s, [])

/-- A part, which only makes calls. -/
def part (x : Traced History Stop Site α) : Build α :=
  fun s => ((x s.history).1, { s with history := (x s.history).2.1 }, (x s.history).2.2)

def append : Value → Build Unit
  | .int v => fun s => (.ok (), { s with items := s.items ++ [v] }, [])
  | _ => undefined

/-- The integers of the list at an address. -/
def start (lists : Lists) : Value → Build (List (BitVec 64))
  | .int p =>
    match lists p with
    | some items => fun s => (.ok items, { s with started := p :: s.started }, [])
    | none => undefined
  | _ => undefined

def forEach (body : BitVec 64 → Build Unit) : List (BitVec 64) → Build Unit
  | [] => pure ()
  | x :: rest => do
    body x
    forEach body rest

/-- Whether all guards hold; behind one that does not, none is evaluated. -/
def pass : List (Traced History Stop Site Value) → Build Bool
  | [] => pure true
  | g :: rest => do
    match ← part g with
    | .bool true => pass rest
    | .bool false => pure false
    | _ => undefined

end Build

open Build

/-- The definitions that a loop binds. -/
def targetIds : Pattern → List DefId
  | .mk (.binding _ id) _ => [id]
  | _ => []

def bindTarget (val : DefId → Option Value) (x : BitVec 64) : Pattern → DefId → Option Value
  | .mk (.binding _ id) _ => Function.update val id (some (.int x))
  | _ => val

section Meaning

variable (ctx : LowerCtx) (callees : Callees) (lists : Lists) (visit : List (BitVec 64) → List (BitVec 64))
  (element : Expr)

/-- An expression as its code evaluates it. -/
abbrev valueOf (val : DefId → Option Value) (e : Expr) : Traced History Stop Site Value :=
  evaluate ctx callees val Site.inOrder e

/-- The nested loops; `visit` are the integers of a list that a loop comes to. -/
def loops : List CompClause → (DefId → Option Value) → Build Unit
  | [], val => part (valueOf ctx callees val element) >>= append
  | .mk _ target iter guards :: rest, val => do
    let v ← part (valueOf ctx callees val iter)
    let items ← start lists v
    forEach (fun x => do
      let inner := bindTarget val x target
      if ← pass (guards.map (valueOf ctx callees inner)) then loops rest inner else pure ()) (visit items)

/-- The loops that the comprehension abbreviates. -/
abbrev nestedLoops : List CompClause → (DefId → Option Value) → Build Unit :=
  loops ctx callees lists id element

/-- The loops, each of which ends before its first zero. -/
abbrev loopsToZero : List CompClause → (DefId → Option Value) → Build Unit :=
  loops ctx callees lists (List.takeWhile (· ≠ 0#64)) element

/-! ## Types -/

/-- What a part gives unless a call fails. -/
def Gives (x : Traced History Stop Site Value) (p : Value → Prop) : Prop :=
  ∀ h, (x h).1 = .error .trap ∨ ∃ v, (x h).1 = .ok v ∧ p v

/-- The element is an integer, a guard a boolean and what a clause goes through a list of integers. -/
def WellTyped : List CompClause → (DefId → Option Value) → Prop
  | [], val => Gives (valueOf ctx callees val element) fun v => ∃ n, v = .int n
  | .mk _ target iter guards :: rest, val =>
    Gives (valueOf ctx callees val iter) (fun v => ∃ p items, v = .int p ∧ lists p = some items) ∧
      ∀ x, (∀ g ∈ guards, Gives (valueOf ctx callees (bindTarget val x target) g) fun v => ∃ t, v = .bool t) ∧
        WellTyped rest (bindTarget val x target)

end Meaning

/-- The program does not come to something undefined. -/
def Build.Typed {α : Type} (x : Build α) : Prop :=
  ∀ s, (x s).1 ≠ .error .undefined

section Typed

variable {α β : Type}

theorem typed_pure (a : α) : Typed (pure a) := by
  rintro s ⟨⟩

theorem typed_bind {x : Build α} {f : α → Build β} (hx : Typed x)
    (hf : ∀ s a s' events, x s = (.ok a, s', events) → Typed (f a)) :
    Typed (x >>= f) := by
  intro s
  rw [Traced.bind_apply]
  rcases hxs : x s with ⟨stop | a, s', events⟩
  · rintro heq
    cases heq
    exact hx s (by rw [hxs])
  · exact hf s a s' events hxs s'

theorem typed_part {x : Traced History Stop Site Value} {p : Value → Prop} (hx : Gives x p) : Typed (part x) := by
  intro s
  change (x s.history).1 ≠ _
  rcases hx s.history with htrap | ⟨v, hv, -⟩
  · rw [htrap]
    rintro ⟨⟩
  · rw [hv]
    rintro ⟨⟩

theorem part_gives {x : Traced History Stop Site Value} {p : Value → Prop} (hx : Gives x p) {s s' : LoopState}
    {v : Value}
    {events : List Site} (h : part x s = (.ok v, s', events)) : p v := by
  have hv : (x s.history).1 = .ok v := congrArg Prod.fst h
  rcases hx s.history with htrap | ⟨w, hw, hp⟩
  · rw [htrap] at hv
    cases hv
  · rw [hw] at hv
    cases hv
    exact hp

theorem typed_forEach {body : BitVec 64 → Build Unit} (hbody : ∀ x, Typed (body x)) (items : List (BitVec 64)) :
    Typed (forEach body items) := by
  induction items with
  | nil => exact typed_pure ()
  | cons x rest ih => exact typed_bind (hbody x) fun _ _ _ _ _ => ih

theorem typed_pass {guards : List (Traced History Stop Site Value)}
    (h : ∀ g ∈ guards, Gives g fun v => ∃ t, v = .bool t) :
    Typed (pass guards) := by
  induction guards with
  | nil => exact typed_pure true
  | cons g rest ih =>
    have hg := h g List.mem_cons_self
    refine typed_bind (typed_part hg) fun s v s' events hv => ?_
    obtain ⟨t, rfl⟩ := part_gives hg hv
    cases t with
    | false => exact typed_pure false
    | true => exact ih fun g' hg' => h g' (List.mem_cons_of_mem _ hg')

variable {ctx : LowerCtx} {callees : Callees} {lists : Lists} {visit : List (BitVec 64) → List (BitVec 64)}
    {element : Expr}

theorem loops_typed (clauses : List CompClause) {val : DefId → Option Value}
    (h : WellTyped ctx callees lists element clauses val) :
    Typed (loops ctx callees lists visit element clauses val) := by
  induction clauses generalizing val with
  | nil =>
    refine typed_bind (typed_part h) fun s v s' events hv => ?_
    obtain ⟨n, rfl⟩ := part_gives h hv
    rintro s ⟨⟩
  | cons c rest ih =>
    obtain ⟨bindingDefIds, target, iter, guards⟩ := c
    obtain ⟨hiter, hbody⟩ := h
    refine typed_bind (typed_part hiter) fun s v s' events hv => ?_
    obtain ⟨p, items, rfl, hitems⟩ := part_gives hiter hv
    rw [start, hitems]
    refine typed_bind (by rintro s ⟨⟩) fun _ _ _ _ _ => typed_forEach (fun x => ?_) _
    refine typed_bind (typed_pass fun g hg => ?_) fun _ passes _ _ _ => ?_
    · obtain ⟨g', hg', rfl⟩ := List.mem_map.1 hg
      exact (hbody x).1 g' hg'
    · cases passes with
      | false => exact typed_pure ()
      | true => exact ih (hbody x).2

end Typed

/-- What a clause goes through: a variable, a call of a function of integers and booleans, or a choice between such. -/
def Iterated (ctx : LowerCtx) (ids : List DefId) : Expr → Prop
  | .mk (.name rn) _ => rn.defId ∈ ids
  | .mk (.call callee args) _ =>
    match callee with
    | .mk (.name rn) _ =>
      (∃ positional named varPositional varKeyword returnTy,
        ctx.lookupTy rn.defId = .fn positional named varPositional varKeyword returnTy) ∧
      (ctx.lookupTy rn.defId).isListFn = false ∧ DecidedArgs ctx ids args
    | _ => False
  | .mk (.ifExpr cond thenBranch elseBranch) _ =>
    Decided ctx ids cond ∧ Iterated ctx ids thenBranch ∧ Iterated ctx ids elseBranch
  | _ => False

/-- The clauses of a comprehension over integers, with names among `ids`; a loop binds a name or none. -/
def DecidedClauses (ctx : LowerCtx) (element : Expr) : List DefId → List CompClause → Prop
  | ids, [] => Decided ctx ids element
  | ids, .mk bindingDefIds target iter guards :: rest =>
    Iterated ctx ids iter ∧ (targetIds target = [] → bindingDefIds = []) ∧
      (∀ g ∈ guards, Decided ctx (targetIds target ++ ids) g) ∧
      DecidedClauses ctx element (targetIds target ++ ids) rest

end Cobrust.Mir
