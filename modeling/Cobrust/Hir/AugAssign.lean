import Cobrust.Control.Traced
import Cobrust.Hir.Tree

/-!
# Augmented assignment

How `lower.rs` takes an augmented assignment apart: `t op= e` becomes `t = t op e`, with the same target twice. Expressions
are evaluated left to right over any language with calls (`Semantics`), and every call leaves an event.

* `augAssign_twice`: the statement evaluates its target twice, and stores to the place that it found first; without a
  call in the target that is what Python does.
-/

namespace Cobrust.Hir

open Control

inductive AssignOp where
  | eq | plusEq | minusEq | starEq | starStarEq | slashEq | slashSlashEq | percentEq | ampEq | pipeEq | caretEq | shlEq
  | shrEq
  deriving DecidableEq, Repr

def assignOpToBin : AssignOp → Option BinOp
  | .eq => none
  | .plusEq => some .add
  | .minusEq => some .sub
  | .starEq => some .mul
  | .starStarEq => some .pow
  | .slashEq => some .div
  | .slashSlashEq => some .floorDiv
  | .percentEq => some .mod
  | .ampEq => some .bitAnd
  | .pipeEq => some .bitOr
  | .caretEq => some .bitXor
  | .shlEq => some .shl
  | .shrEq => some .shr

inductive LoweringError where
  | assignToUnknown (name : String) (span : Span) (suggestion : Option String)
  deriving DecidableEq, Repr

def checkAssignTarget (target : Expr) : Except LoweringError Unit :=
  match target.kind with
  | .name _ | .attr _ _ | .index _ _ => .ok ()
  | .tuple _ | .list _ => .ok ()
  | _ => .error (.assignToUnknown "<non-l-value>" target.span
      (some "assignment target must be a name, attribute, index, tuple, or list pattern"))

/-- The lowering of an assignment, from its lowered target and value on. -/
def lowerAssign (op : AssignOp) (targetH valueH : Expr) (span : Span) : Except LoweringError Stmt := do
  let finalValue :=
    match assignOpToBin op with
    | none => valueH
    | some binOp => .mk (.bin binOp targetH valueH) span
  checkAssignTarget targetH
  return .mk (.assign targetH finalValue) span

/-! ## Evaluation -/

/-- An index with its values. -/
inductive Subscript (V : Type) where
  | value (v : V)
  | slice (start stop step : Option V)
  | tuple (items : List (Subscript V))

inductive Argument (V : Type) where
  | positional (v : V)
  | keyword (name : String) (v : V)
  | starArgs (v : V)
  | starStarKwargs (v : V)

/-- A call that is performed. -/
structure Event (V : Type) where
  callee : V
  args : List (Argument V)

/-- Where an assignment stores. -/
inductive Location (V : Type) where
  | name (defId : DefId)
  | attr (base : V) (name : String)
  | item (base : V) (index : Subscript V)

/-- What the parts of expressions mean: reads and operators look at the state, calls, displays and stores act on it. The
forms that have no clause of their own do as they like. -/
structure Semantics (σ ε V : Type) where
  lit : Lit → V
  tuple : List V → V
  name : DefId → σ → Except ε V
  attr : V → String → σ → Except ε V
  item : V → Subscript V → σ → Except ε V
  bin : BinOp → V → V → σ → Except ε V
  un : UnaryOp → V → σ → Except ε V
  cast : V → TypeExpr → σ → Except ε V
  borrow : V → σ → Except ε V
  truth : V → σ → Except ε Bool
  call : V → List (Argument V) → σ → Except ε V × σ
  list : List V → σ → Except ε V × σ
  set : List V → σ → Except ε V × σ
  other : ExprKind → Traced σ ε (Event V) V
  store : Location V → V → σ → Except ε Unit × σ
  notALocation : ε

namespace Semantics

variable {σ ε V : Type} (sem : Semantics σ ε V)

/-- `and` and `or` evaluate their right operand only if the left one does not decide. -/
def shortCircuit (decides : Bool) (lhs rhs : Traced σ ε (Event V) V) : Traced σ ε (Event V) V := do
  let l ← lhs
  if (← Traced.look (sem.truth l)) = decides then return l else rhs

mutual

def eval : Expr → Traced σ ε (Event V) V
  | .mk (.lit l) _ => pure (sem.lit l)
  | .mk (.name rn) _ => Traced.look (sem.name rn.defId)
  | .mk (.tuple items) _ => do return sem.tuple (← evalAll items)
  | .mk (.list items) _ => do Traced.act (sem.list (← evalAll items))
  | .mk (.set items) _ => do Traced.act (sem.set (← evalAll items))
  | .mk (.attr base name) _ => do Traced.look (sem.attr (← eval base) name)
  | .mk (.index base index) _ => do
    let v ← eval base
    Traced.look (sem.item v (← evalIndex index))
  | .mk (.call callee args) _ => do
    let f ← eval callee
    let vs ← evalArgs args
    Traced.emit ⟨f, vs⟩
    Traced.act (sem.call f vs)
  | .mk (.bin .and lhs rhs) _ => sem.shortCircuit false (eval lhs) (eval rhs)
  | .mk (.bin .or lhs rhs) _ => sem.shortCircuit true (eval lhs) (eval rhs)
  | .mk (.bin op lhs rhs) _ => do
    let l ← eval lhs
    let r ← eval rhs
    Traced.look (sem.bin op l r)
  | .mk (.un op operand) _ => do Traced.look (sem.un op (← eval operand))
  | .mk (.cast e target) _ => do Traced.look (sem.cast (← eval e) target)
  | .mk (.borrow inner) _ => do Traced.look (sem.borrow (← eval inner))
  | .mk (.ifExpr cond thenBranch elseBranch) _ => do
    let c ← eval cond
    if (← Traced.look (sem.truth c)) then eval thenBranch else eval elseBranch
  | .mk kind _ => sem.other kind

def evalAll : List Expr → Traced σ ε (Event V) (List V)
  | [] => pure []
  | e :: rest => do
    let v ← eval e
    return v :: (← evalAll rest)

def evalOption : Option Expr → Traced σ ε (Event V) (Option V)
  | none => pure none
  | some e => do return some (← eval e)

def evalIndex : IndexKind → Traced σ ε (Event V) (Subscript V)
  | .expr e => do return .value (← eval e)
  | .slice start stop step => do
    let start ← evalOption start
    let stop ← evalOption stop
    return .slice start stop (← evalOption step)
  | .tuple items => do return .tuple (← evalIndexes items)

def evalIndexes : List IndexKind → Traced σ ε (Event V) (List (Subscript V))
  | [] => pure []
  | i :: rest => do
    let j ← evalIndex i
    return j :: (← evalIndexes rest)

def evalArg : CallArg → Traced σ ε (Event V) (Argument V)
  | .positional e => do return .positional (← eval e)
  | .keyword name e => do return .keyword name (← eval e)
  | .starArgs e => do return .starArgs (← eval e)
  | .starStarKwargs e => do return .starStarKwargs (← eval e)

def evalArgs : List CallArg → Traced σ ε (Event V) (List (Argument V))
  | [] => pure []
  | a :: rest => do
    let v ← evalArg a
    return v :: (← evalArgs rest)

end

/-- Find the place of an assignment. -/
def locate : Expr → Traced σ ε (Event V) (Location V)
  | .mk (.name rn) _ => pure (.name rn.defId)
  | .mk (.attr base name) _ => do return .attr (← sem.eval base) name
  | .mk (.index base index) _ => do
    let v ← sem.eval base
    return .item v (← sem.evalIndex index)
  | .mk _ _ => Traced.look fun _ => .error sem.notALocation

def read : Location V → Traced σ ε (Event V) V
  | .name defId => Traced.look (sem.name defId)
  | .attr base name => Traced.look (sem.attr base name)
  | .item base index => Traced.look (sem.item base index)

/-- An assignment, left to right: the place, then the value. -/
def assign (target value : Expr) : Traced σ ε (Event V) Unit := do
  let place ← sem.locate target
  let v ← sem.eval value
  Traced.act (sem.store place v)

/-- What Python makes of `target op= value`: the place is found once. -/
def augAssign (op : BinOp) (target value : Expr) : Traced σ ε (Event V) Unit := do
  let place ← sem.locate target
  let old ← sem.read place
  let v ← sem.eval value
  let new ← Traced.look (sem.bin op old v)
  Traced.act (sem.store place new)

end Semantics

/-! ## Expressions without a call -/

mutual

/-- Names, literals, attributes, indexes, tuples, operators, casts, borrows and conditionals only. -/
def Expr.plain : Expr → Bool
  | .mk (.lit _) _ => true
  | .mk (.name _) _ => true
  | .mk (.tuple items) _ => plainAll items
  | .mk (.attr base _) _ => base.plain
  | .mk (.index base index) _ => base.plain && index.plain
  | .mk (.bin _ lhs rhs) _ => lhs.plain && rhs.plain
  | .mk (.un _ operand) _ => operand.plain
  | .mk (.cast e _) _ => e.plain
  | .mk (.borrow inner) _ => inner.plain
  | .mk (.ifExpr cond thenBranch elseBranch) _ => cond.plain && thenBranch.plain && elseBranch.plain
  | .mk _ _ => false

def plainAll : List Expr → Bool
  | [] => true
  | e :: rest => e.plain && plainAll rest

def plainOption : Option Expr → Bool
  | none => true
  | some e => e.plain

def IndexKind.plain : IndexKind → Bool
  | .expr e => e.plain
  | .slice start stop step => plainOption start && plainOption stop && plainOption step
  | .tuple items => plainIndexes items

def plainIndexes : List IndexKind → Bool
  | [] => true
  | i :: rest => i.plain && plainIndexes rest

end

namespace Semantics

variable {σ ε V : Type} (sem : Semantics σ ε V)

open Traced

theorem eval_bin {op : BinOp} (hand : op ≠ .and) (hor : op ≠ .or) (lhs rhs : Expr) (span : Span) :
    sem.eval (.mk (.bin op lhs rhs) span) =
      sem.eval lhs >>= fun l => sem.eval rhs >>= fun r => Traced.look (sem.bin op l r) := by
  cases op with
  | and => exact absurd rfl hand
  | or => exact absurd rfl hor
  | _ => rfl

theorem silent_shortCircuit {decides : Bool} {lhs rhs : Traced σ ε (Event V) V} (hl : Silent lhs) (hr : Silent rhs) :
    Silent (sem.shortCircuit decides lhs rhs) :=
  hl.bind fun l => (silent_look (sem.truth l)).bind fun _ => .ite (silent_pure l) hr

mutual

theorem silent_eval : ∀ e : Expr, e.plain = true → Silent (sem.eval e)
  | .mk (.lit _) _, _ => silent_pure _
  | .mk (.name _) _, _ => silent_look _
  | .mk (.tuple items) _, h => (silent_evalAll items h).bind fun _ => silent_pure _
  | .mk (.attr base _) _, h => (silent_eval base h).bind fun _ => silent_look _
  | .mk (.index base index) _, h =>
    have h := Bool.and_eq_true_iff.1 h
    (silent_eval base h.1).bind fun _ => (silent_evalIndex index h.2).bind fun _ => silent_look _
  | .mk (.bin op lhs rhs) span, h => by
    have h := Bool.and_eq_true_iff.1 h
    have hl := silent_eval lhs h.1
    have hr := silent_eval rhs h.2
    by_cases hand : op = .and
    · subst hand
      exact sem.silent_shortCircuit hl hr
    · by_cases hor : op = .or
      · subst hor
        exact sem.silent_shortCircuit hl hr
      · rw [sem.eval_bin hand hor]
        exact hl.bind fun _ => hr.bind fun _ => silent_look _
  | .mk (.un _ operand) _, h => (silent_eval operand h).bind fun _ => silent_look _
  | .mk (.cast e _) _, h => (silent_eval e h).bind fun _ => silent_look _
  | .mk (.borrow inner) _, h => (silent_eval inner h).bind fun _ => silent_look _
  | .mk (.ifExpr cond thenBranch elseBranch) _, h =>
    have h := Bool.and_eq_true_iff.1 h
    have hc := Bool.and_eq_true_iff.1 h.1
    (silent_eval cond hc.1).bind fun _ => (silent_look _).bind fun _ =>
      .ite (silent_eval thenBranch hc.2) (silent_eval elseBranch h.2)
  | .mk (.format _) _, h | .mk (.list _) _, h | .mk (.set _) _, h | .mk (.dict _) _, h | .mk (.comp ..) _, h
  | .mk (.lambda ..) _, h | .mk (.call ..) _, h | .mk (.await _) _, h | .mk (.yield _) _, h
  | .mk (.yieldFrom _) _, h => absurd h Bool.false_ne_true

theorem silent_evalAll : ∀ es : List Expr, plainAll es = true → Silent (sem.evalAll es)
  | [], _ => silent_pure _
  | e :: rest, h =>
    have h := Bool.and_eq_true_iff.1 h
    (silent_eval e h.1).bind fun _ => (silent_evalAll rest h.2).bind fun _ => silent_pure _

theorem silent_evalOption : ∀ e : Option Expr, plainOption e = true → Silent (sem.evalOption e)
  | none, _ => silent_pure _
  | some e, h => (silent_eval e h).bind fun _ => silent_pure _

theorem silent_evalIndex : ∀ i : IndexKind, i.plain = true → Silent (sem.evalIndex i)
  | .expr e, h => (silent_eval e h).bind fun _ => silent_pure _
  | .slice start stop step, h =>
    have h := Bool.and_eq_true_iff.1 h
    have hs := Bool.and_eq_true_iff.1 h.1
    (silent_evalOption start hs.1).bind fun _ => (silent_evalOption stop hs.2).bind fun _ =>
      (silent_evalOption step h.2).bind fun _ => silent_pure _
  | .tuple items, h => (silent_evalIndexes items h).bind fun _ => silent_pure _

theorem silent_evalIndexes : ∀ is : List IndexKind, plainIndexes is = true → Silent (sem.evalIndexes is)
  | [], _ => silent_pure _
  | i :: rest, h =>
    have h := Bool.and_eq_true_iff.1 h
    (silent_evalIndex i h.1).bind fun _ => (silent_evalIndexes rest h.2).bind fun _ => silent_pure _

end

/-- The program of `target = target op value`: the target is evaluated twice. -/
def assignTwice (op : BinOp) (target value : Expr) : Traced σ ε (Event V) Unit := do
  let place ← sem.locate target
  let again ← sem.locate target
  let old ← sem.read again
  let v ← sem.eval value
  let new ← Traced.look (sem.bin op old v)
  Traced.act (sem.store place new)

/-- A statement that is an assignment. -/
def run : Stmt → Traced σ ε (Event V) Unit
  | .mk (.assign target value) _ => sem.assign target value
  | .mk _ _ => Traced.look fun _ => .error sem.notALocation

end Semantics

/-- A name, an attribute or an index. -/
def Expr.IsPlace : Expr → Prop
  | .mk (.name _) _ | .mk (.attr _ _) _ | .mk (.index _ _) _ => True
  | .mk _ _ => False

namespace Semantics

variable {σ ε V : Type} (sem : Semantics σ ε V)

open Traced

theorem eval_place {t : Expr} (ht : t.IsPlace) : sem.eval t = sem.locate t >>= sem.read := by
  obtain ⟨kind, span⟩ := t
  cases kind with
  | name rn => rfl
  | attr base name =>
    change sem.eval base >>= _ = (sem.eval base >>= fun v => pure (.attr v name)) >>= sem.read
    rw [bind_assoc]
    rfl
  | index base index =>
    change sem.eval base >>= _ =
      (sem.eval base >>= fun v => sem.evalIndex index >>= fun i => pure (.item v i)) >>= sem.read
    simp only [bind_assoc, pure_bind]
    rfl
  | _ => exact ht.elim

theorem silent_locate {t : Expr} (ht : t.IsPlace) (h : t.plain = true) : Silent (sem.locate t) := by
  obtain ⟨kind, span⟩ := t
  cases kind with
  | name rn => exact silent_pure _
  | attr base name => exact (sem.silent_eval base h).bind fun _ => silent_pure _
  | index base index =>
    have h := Bool.and_eq_true_iff.1 h
    exact (sem.silent_eval base h.1).bind fun _ => (sem.silent_evalIndex index h.2).bind fun _ => silent_pure _
  | _ => exact ht.elim

theorem assign_bin {op : BinOp} (hand : op ≠ .and) (hor : op ≠ .or) {t : Expr} (ht : t.IsPlace) (value : Expr)
    (span : Span) : sem.assign t (.mk (.bin op t value) span) = sem.assignTwice op t value := by
  unfold assign assignTwice
  simp only [sem.eval_bin hand hor, sem.eval_place ht, bind_assoc]

theorem assignTwice_plain {op : BinOp} {t : Expr} (ht : t.IsPlace) (h : t.plain = true) (value : Expr) :
    sem.assignTwice op t value = sem.augAssign op t value :=
  (sem.silent_locate ht h).twice _

end Semantics

theorem assignOpToBin_strict {op : AssignOp} {o : BinOp} (h : assignOpToBin op = some o) : o ≠ .and ∧ o ≠ .or := by
  cases op <;> cases h <;> decide

theorem checkAssignTarget_place {t : Expr} (ht : t.IsPlace) : checkAssignTarget t = .ok () := by
  obtain ⟨kind, span⟩ := t
  cases kind with
  | name | attr | index => rfl
  | _ => exact ht.elim

namespace Semantics

variable {σ ε V : Type} (sem : Semantics σ ε V)

/-- The calls in the target are performed twice, in front of those of the value. -/
theorem trace_assignTwice {op : BinOp} {t e : Expr} {s s₁ s₂ : σ} {place again : Location V} {calls calls' : List (Event V)}
    (h : sem.locate t s = (.ok place, s₁, calls)) (h' : sem.locate t s₁ = (.ok again, s₂, calls')) :
    ∃ rest, (sem.assignTwice op t e s).2.2 = calls ++ (calls' ++ rest) := by
  unfold assignTwice
  rw [Traced.trace_bind h, Traced.trace_bind h']
  exact ⟨_, rfl⟩

end Semantics

/-- **Augmented assignment.** The lowering of `t op= e` finds the place of `t`, evaluates `t` again for its value, and
stores to the place that it found first; so the calls of `t` are performed twice. Where `t` has no call it is what
Python does. -/
theorem augAssign_twice (op : AssignOp) (o : BinOp) (hop : assignOpToBin op = some o) (t e : Expr) (ht : t.IsPlace)
    (span : Span) : ∃ stmt, lowerAssign op t e span = .ok stmt ∧
      ∀ (σ ε V : Type) (sem : Semantics σ ε V), sem.run stmt = sem.assignTwice o t e ∧
        (∀ s s₁ s₂ place again calls calls', sem.locate t s = (.ok place, s₁, calls) →
          sem.locate t s₁ = (.ok again, s₂, calls') → ∃ rest, (sem.run stmt s).2.2 = calls ++ (calls' ++ rest)) ∧
        (t.plain = true → sem.run stmt = sem.augAssign o t e) := by
  refine ⟨.mk (.assign t (.mk (.bin o t e) span)) span, ?_, fun σ ε V sem => ?_⟩
  · unfold lowerAssign
    rw [hop, checkAssignTarget_place ht]
    rfl
  · obtain ⟨hand, hor⟩ := assignOpToBin_strict hop
    have htwice : sem.run (.mk (.assign t (.mk (.bin o t e) span)) span) = sem.assignTwice o t e :=
      sem.assign_bin hand hor ht e span
    refine ⟨htwice, fun s s₁ s₂ place again calls calls' h h' => ?_, fun h => ?_⟩
    · rw [htwice]
      exact sem.trace_assignTwice h h'
    · exact htwice.trans (sem.assignTwice_plain ht h e)

/-- `a[f()]`. -/
def callIndex : Expr :=
  .mk (.index (.mk (.name ⟨"a", 1, .letBinding⟩) .synthetic)
    (.expr (.mk (.call (.mk (.name ⟨"f", 2, .fn⟩) .synthetic) []) .synthetic))) .synthetic

def one : Expr :=
  .mk (.lit (.int "1")) .synthetic

theorem augAssign_twice_callIndex : ∃ stmt, lowerAssign .plusEq callIndex one .synthetic = .ok stmt ∧
    ∀ (σ ε V : Type) (sem : Semantics σ ε V), sem.run stmt = sem.assignTwice .add callIndex one ∧
      (∀ s s₁ s₂ place again calls calls', sem.locate callIndex s = (.ok place, s₁, calls) →
        sem.locate callIndex s₁ = (.ok again, s₂, calls') → ∃ rest, (sem.run stmt s).2.2 = calls ++ (calls' ++ rest)) ∧
      (callIndex.plain = true → sem.run stmt = sem.augAssign .add callIndex one) :=
  augAssign_twice .plusEq .add rfl callIndex one trivial .synthetic

/-- Values are numbers; a call returns the counter and advances it, and a store keeps what is written where. -/
def counter : Semantics (Nat × List (Nat × Nat)) Unit Nat where
  lit _ := 1
  tuple _ := 0
  name defId _ := .ok defId
  attr v _ _ := .ok v
  item _ index _ :=
    match index with
    | .value i => .ok (10 * i)
    | _ => .error ()
  bin _ l r _ := .ok (l + r)
  un _ v _ := .ok v
  cast v _ _ := .ok v
  borrow v _ := .ok v
  truth v _ := .ok (v != 0)
  call _ _ s := (.ok s.1, s.1 + 1, s.2)
  list _ s := (.ok 0, s)
  set _ s := (.ok 0, s)
  other _ := Traced.look fun _ => .error ()
  store place v s :=
    match place with
    | .item _ (.value i) => (.ok (), s.1, (i, v) :: s.2)
    | _ => (.ok (), s)
  notALocation := ()

/-- `a[f()] += 1` calls `f` twice, and adds to the element of the second call what it stores at the first; in Python it
calls `f` once. -/
theorem augAssign_calls_twice :
    ∃ stmt, lowerAssign .plusEq callIndex one .synthetic = .ok stmt ∧
      ((counter.run stmt (3, [])).2.2.map Event.callee, (counter.run stmt (3, [])).2.1) = ([2, 2], 5, [(3, 41)]) ∧
      ((counter.augAssign .add callIndex one (3, [])).2.2.map Event.callee,
        (counter.augAssign .add callIndex one (3, [])).2.1) = ([2], 4, [(3, 31)]) :=
  ⟨_, rfl, rfl, rfl⟩

end Cobrust.Hir
