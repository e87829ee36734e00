import Cobrust.Control.Outcome
import Cobrust.Mir.Borrow
import Mathlib.Data.Finset.Lattice.Fold

/-!
# What the borrow checks compute

Each check of `Cobrust.Mir.Borrow` in gen/kill form: when it accepts a state, and the state that it
leaves. The conditions only ask that certain locals are neither moved nor dropped, so the checks
preserve joins of the two sets.
-/

namespace Cobrust.Mir

open Control (except_bind_ok)

/-! ## Operand positions -/

/-- The local that reading an operand consults. -/
def Operand.readRoots : Operand → List LocalId
  | copy p => [p.localId]
  | move p => [p.localId]
  | constant _ => []

def Operand.moveRoots : Operand → List LocalId
  | move p => [p.localId]
  | _ => []

/-- The operands an rvalue consumes directly. -/
def Rvalue.operands : Rvalue → List Operand
  | use op => [op]
  | binaryOp _ a b => [a, b]
  | unaryOp _ a => [a]
  | aggregate _ items => items
  | cast _ op _ => [op]
  | ref _ _ | discriminant _ | len _ | nullaryOp _ => []

def Rvalue.readRoots (rvalue : Rvalue) : List LocalId :=
  rvalue.operands.flatMap Operand.readRoots

/-- The local moved out by `Use(Move(..))`. -/
def Rvalue.movedOut : Rvalue → List LocalId
  | use op => op.moveRoots
  | _ => []

def Statement.readRoots (stmt : Statement) : List LocalId :=
  match stmt.kind with
  | .assign _ rvalue => rvalue.readRoots
  | _ => []

/-- The operands a terminator reads. -/
def Terminator.operands : Terminator → List Operand
  | goto _ | ret | drop _ _ | unreachable => []
  | switchInt operand _ _ => [operand]
  | call func args _ _ _ => func :: args
  | assert cond _ _ _ => [cond]

def Terminator.readRoots (term : Terminator) : List LocalId :=
  term.operands.flatMap Operand.readRoots

/-! ## Spec lemmas -/

/-- None of the locals is moved or dropped. -/
def BlockState.Clear (s : BlockState) (ls : List LocalId) : Prop :=
  ∀ l ∈ ls, l ∉ s.moved ∧ l ∉ s.dropped

@[simp] theorem BlockState.clear_nil (s : BlockState) : s.Clear [] := by simp [Clear]

theorem BlockState.clear_append {s : BlockState} {ls ms : List LocalId} :
    s.Clear (ls ++ ms) ↔ s.Clear ls ∧ s.Clear ms := by
  simp only [Clear, List.mem_append, or_imp, forall_and]
  tauto

theorem except_unit_bind_ok {ε β : Type} {x : Except ε Unit} {f : Unit → Except ε β} {r : β} :
    (x >>= f) = .ok r ↔ x = .ok () ∧ f () = .ok r := by
  cases x <;> simp [bind, Except.bind]

theorem checkOperandRead_ok {op : Operand} {s : BlockState} {span : Span} :
    checkOperandRead op s span = .ok () ↔ s.Clear op.readRoots := by
  have hplace : ∀ p : Place,
      (if p.localId ∈ s.moved then Except.error (MirError.readMoved p.localId span)
        else if p.localId ∈ s.dropped then .error (.readDropped p.localId span)
        else .ok ()) = .ok () ↔ s.Clear [p.localId] := by
    intro p
    by_cases hm : p.localId ∈ s.moved
    · simp [BlockState.Clear, hm]
    · by_cases hd : p.localId ∈ s.dropped <;> simp [BlockState.Clear, hm, hd]
  cases op with
  | copy p => exact hplace p
  | move p => exact hplace p
  | constant c => simp [checkOperandRead, Operand.readRoots]

theorem checkOperandReads_ok {ops : List Operand} {s : BlockState} {span : Span} :
    checkOperandReads span s ops = .ok () ↔ s.Clear (ops.flatMap Operand.readRoots) := by
  induction ops with
  | nil => simp [checkOperandReads]
  | cons op ops ih =>
    rw [checkOperandReads, except_unit_bind_ok, checkOperandRead_ok, ih, List.flatMap_cons,
      BlockState.clear_append]

theorem checkRvalueReads_ok {rvalue : Rvalue} {s : BlockState} {span : Span} :
    checkRvalueReads rvalue s span = .ok () ↔ s.Clear rvalue.readRoots := by
  cases rvalue with
  | use op => simp [checkRvalueReads, Rvalue.readRoots, Rvalue.operands, checkOperandRead_ok]
  | unaryOp _ a => simp [checkRvalueReads, Rvalue.readRoots, Rvalue.operands, checkOperandRead_ok]
  | cast _ op _ => simp [checkRvalueReads, Rvalue.readRoots, Rvalue.operands, checkOperandRead_ok]
  | binaryOp _ a b =>
    rw [checkRvalueReads, except_unit_bind_ok, checkOperandRead_ok, checkOperandRead_ok]
    simp [Rvalue.readRoots, Rvalue.operands, BlockState.clear_append]
  | aggregate _ items => exact checkOperandReads_ok
  | ref _ _ => simp [checkRvalueReads, Rvalue.readRoots, Rvalue.operands]
  | discriminant _ => simp [checkRvalueReads, Rvalue.readRoots, Rvalue.operands]
  | len _ => simp [checkRvalueReads, Rvalue.readRoots, Rvalue.operands]
  | nullaryOp _ => simp [checkRvalueReads, Rvalue.readRoots, Rvalue.operands]

/-- The borrow stacks admit the borrow that an rvalue takes, if it takes one. -/
def Rvalue.borrowOk (borrows : LocalId → List BorrowKind) : Rvalue → Prop
  | ref .mutable p => .mutable ∉ borrows p.localId ∧ .shared ∉ borrows p.localId
  | ref .shared p => .mutable ∉ borrows p.localId
  | _ => True

/-- The borrow stacks after an rvalue. -/
def Rvalue.pushed (borrows : LocalId → List BorrowKind) : Rvalue → LocalId → List BorrowKind
  | ref k p => Function.update borrows p.localId (borrows p.localId ++ [k])
  | _ => borrows

theorem pushBorrow_ok {s r : BlockState} {p : Place} {k : BorrowKind} {span : Span} :
    pushBorrow s p k span = .ok r ↔ (Rvalue.ref k p).borrowOk s.borrows ∧
      r = { s with borrows := (Rvalue.ref k p).pushed s.borrows } := by
  cases k with
  | mutable =>
    by_cases hm : BorrowKind.mutable ∈ s.borrows p.localId
    · simp [pushBorrow, Rvalue.borrowOk, hm]
    · by_cases hs : BorrowKind.shared ∈ s.borrows p.localId <;>
        simp [pushBorrow, Rvalue.borrowOk, Rvalue.pushed, hm, hs, eq_comm]
  | shared =>
    by_cases hm : BorrowKind.mutable ∈ s.borrows p.localId <;>
      simp [pushBorrow, Rvalue.borrowOk, Rvalue.pushed, hm, eq_comm]

/-- The second test of `markAssigned` never fires after `checkRvalueReads`. -/
theorem markAssigned_eq {place : Place} {rvalue : Rvalue} {span : Span} {s : BlockState}
    (h : s.Clear rvalue.readRoots) : markAssigned place rvalue span s =
      .ok { s with moved := s.moved.erase place.localId ∪ rvalue.movedOut.toFinset } := by
  cases rvalue with
  | use op =>
    cases op with
    | move p =>
      have hp : p.localId ∉ s.moved := by
        refine (h _ ?_).1
        simp [Rvalue.readRoots, Rvalue.operands, Operand.readRoots]
      have hp' : p.localId ∉ s.moved.erase place.localId :=
        fun hin => hp (Finset.mem_of_mem_erase hin)
      simp only [markAssigned, hp', if_false, Rvalue.movedOut, Operand.moveRoots,
        List.toFinset_cons, List.toFinset_nil, Finset.insert_eq, Finset.union_empty]
      rw [Finset.union_comm]
    | copy p => simp [markAssigned, Rvalue.movedOut, Operand.moveRoots]
    | constant c => simp [markAssigned, Rvalue.movedOut, Operand.moveRoots]
  | _ => simp [markAssigned, Rvalue.movedOut]

theorem checkAssign_ok {place : Place} {rvalue : Rvalue} {span : Span} {s r : BlockState} :
    checkStatement ⟨.assign place rvalue, span⟩ s = .ok r ↔
      s.Clear rvalue.readRoots ∧ rvalue.borrowOk s.borrows ∧
      r = ⟨s.moved.erase place.localId ∪ rvalue.movedOut.toFinset, s.dropped,
        rvalue.pushed s.borrows⟩ := by
  simp only [checkStatement, except_unit_bind_ok, checkRvalueReads_ok]
  refine and_congr_right fun hclear => ?_
  rw [markAssigned_eq hclear]
  simp only [bind, Except.bind]
  cases rvalue with
  | ref k p => rw [pushBorrow_ok]
  | _ => simp [Rvalue.borrowOk, Rvalue.pushed, eq_comm]

/-- No argument reads a local that an earlier argument moves. -/
def ArgsOk : List Operand → Prop
  | [] => True
  | a :: args => (∀ l ∈ a.moveRoots, l ∉ args.flatMap Operand.readRoots) ∧ ArgsOk args

theorem checkCallArgs_ok {args : List Operand} {s r : BlockState} :
    checkCallArgs args s = .ok r ↔ s.Clear (args.flatMap Operand.readRoots) ∧ ArgsOk args ∧
      r = { s with moved := s.moved ∪ (args.flatMap Operand.moveRoots).toFinset } := by
  induction args generalizing s with
  | nil =>
    simp only [checkCallArgs, ArgsOk, List.flatMap_nil, BlockState.clear_nil, List.toFinset_nil,
      Finset.union_empty, true_and, Except.ok.injEq]
    exact eq_comm
  | cons a args ih =>
    simp only [checkCallArgs, except_unit_bind_ok, checkOperandRead_ok, List.flatMap_cons,
      BlockState.clear_append, ArgsOk, and_assoc]
    refine and_congr_right fun _ => ?_
    cases a with
    | move p =>
      simp only [ih, Operand.moveRoots, List.mem_singleton, forall_eq]
      have hclear : BlockState.Clear { s with moved := insert p.localId s.moved }
          (args.flatMap Operand.readRoots) ↔ s.Clear (args.flatMap Operand.readRoots) ∧
            p.localId ∉ args.flatMap Operand.readRoots := by
        simp only [BlockState.Clear, Finset.mem_insert, not_or]
        constructor
        · exact fun h => ⟨fun l hl => ⟨(h l hl).1.2, (h l hl).2⟩, fun hp => (h _ hp).1.1 rfl⟩
        · exact fun h l hl => ⟨⟨fun e => h.2 (e ▸ hl), (h.1 l hl).1⟩, (h.1 l hl).2⟩
      have hset : insert p.localId s.moved ∪ (args.flatMap Operand.moveRoots).toFinset =
          s.moved ∪ ([p.localId] ++ args.flatMap Operand.moveRoots).toFinset := by
        ext l
        simp only [Finset.mem_union, Finset.mem_insert, List.toFinset_append, List.toFinset_cons,
          List.toFinset_nil]
        tauto
      rw [hclear, hset]
      tauto
    | copy p => simp [ih, Operand.moveRoots]
    | constant c => simp [ih, Operand.moveRoots]

/-- What a terminator asks of its own operands, whatever the state. -/
def Terminator.argsOk : Terminator → Prop
  | call _ args _ _ _ => ArgsOk args
  | _ => True

/-- The moved set after a terminator. -/
def Terminator.movedAfter (moved : Finset LocalId) : Terminator → Finset LocalId
  | call _ args destination _ _ =>
    (moved ∪ (args.flatMap Operand.moveRoots).toFinset).erase destination.localId
  | _ => moved

/-- The locals a terminator drops. -/
def Terminator.drops : Terminator → Finset LocalId
  | drop place _ => {place.localId}
  | _ => ∅

theorem checkTerminator_ok {term : Terminator} {s r : BlockState} :
    checkTerminator term s = .ok r ↔ s.Clear term.readRoots ∧ term.argsOk ∧
      r = ⟨term.movedAfter s.moved, s.dropped ∪ term.drops, s.borrows⟩ := by
  have hread : ∀ op : Operand, (do checkOperandRead op s .synthetic; .ok s) = Except.ok r ↔
      s.Clear op.readRoots ∧ r = s := by
    intro op
    rw [except_unit_bind_ok, checkOperandRead_ok, Except.ok.injEq, eq_comm]
  cases term with
  | call func args destination target unwind =>
    rw [checkTerminator, except_unit_bind_ok, except_bind_ok]
    simp only [checkOperandRead_ok, checkCallArgs_ok, Terminator.readRoots, Terminator.operands,
      List.flatMap_cons, BlockState.clear_append, Terminator.argsOk, Terminator.movedAfter,
      Terminator.drops, Finset.union_empty, and_assoc]
    constructor
    · rintro ⟨hf, _, hargs, hok, rfl, h⟩
      exact ⟨hf, hargs, hok, (Except.ok.inj h).symm⟩
    · rintro ⟨hf, hargs, hok, rfl⟩
      exact ⟨hf, _, hargs, hok, rfl, rfl⟩
  | switchInt operand cases otherwise =>
    rw [checkTerminator, hread]
    simp [Terminator.readRoots, Terminator.operands, Terminator.argsOk, Terminator.movedAfter,
      Terminator.drops]
  | assert cond expected msg target =>
    rw [checkTerminator, hread]
    simp [Terminator.readRoots, Terminator.operands, Terminator.argsOk, Terminator.movedAfter,
      Terminator.drops]
  | drop place target =>
    simp only [checkTerminator, Terminator.readRoots, Terminator.operands, List.flatMap_nil,
      BlockState.clear_nil, Terminator.argsOk, Terminator.movedAfter, Terminator.drops, true_and,
      Finset.union_singleton, Except.ok.injEq]
    exact eq_comm
  | _ =>
    simp only [checkTerminator, Terminator.readRoots, Terminator.operands, List.flatMap_nil,
      BlockState.clear_nil, Terminator.argsOk, Terminator.movedAfter, Terminator.drops, true_and,
      Finset.union_empty, Except.ok.injEq]
    exact eq_comm

end Cobrust.Mir
