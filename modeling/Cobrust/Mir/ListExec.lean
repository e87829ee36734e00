import Cobrust.Mir.Exec

/-!
# Running MIR with lists and iterators

The runtime functions that the code of a comprehension calls: `__cobrust_list_new` and `__cobrust_list_append` of the
runtime's lists, `__cobrust_iter_init` and `__cobrust_iter_next` of `cobrust-stdlib/src/iter.rs`. A list that the
program has is a number, its address. What the code of a comprehension allocates has its address in one local, and is
kept with that local.

* `ListRuns.of_runs`: a run without such calls.
-/

namespace Cobrust.Mir.Exec

/-- What the code of a comprehension allocates: its list, and for each clause an iterator on a list of the program. -/
inductive Object
  | list (items : List (BitVec 64))
  | iter (list : BitVec 64) (next : Nat)

/-- The objects, and the lists on which an iterator was made, the last one first. -/
structure Memory where
  objects : LocalId → Option Object
  started : List (BitVec 64)

def Memory.put (m : Memory) (l : LocalId) (o : Object) : Memory :=
  { m with objects := fun l' => if l' = l then some o else m.objects l' }

theorem Memory.put_self (m : Memory) (l : LocalId) (o : Object) : (m.put l o).objects l = some o :=
  if_pos rfl

theorem Memory.put_of_ne {m : Memory} {l l' : LocalId} (o : Object) (h : l' ≠ l) :
    (m.put l o).objects l' = m.objects l' :=
  if_neg h

/-- The integers in the lists of the program. -/
abbrev Lists := BitVec 64 → Option (List (BitVec 64))

structure ListConfig where
  config : Config
  memory : Memory

inductive ListStep
  | next (c : ListConfig)
  | trap (h : History) (m : Memory)

/-- A call of a runtime function on lists. At its end an iterator returns 0. -/
def callList (lists : Lists) (symbol : String) (args : List Operand) (l : LocalId) (f : Frame) (m : Memory) :
    Option (Frame × Memory) :=
  match symbol, args with
  | "__cobrust_list_new", [_, _] => some (f, m.put l (.list []))
  | "__cobrust_list_append", [.copy (.mk acc []), op] =>
    match m.objects acc, f.operand op with
    | some (.list items), some (.int v) => some (f, m.put acc (.list (items ++ [v])))
    | _, _ => none
  | "__cobrust_iter_init", [op] =>
    match f.operand op with
    | some (.int p) =>
      match lists p with
      | some _ => some (f, { m.put l (.iter p 0) with started := p :: m.started })
      | none => none
    | _ => none
  | "__cobrust_iter_next", [.copy (.mk handle [])] =>
    match m.objects handle with
    | some (.iter p i) =>
      match ((lists p).getD [])[i]? with
      | some v => some (f.set l (.int v), m.put handle (.iter p (i + 1)))
      | none => some (f.set l (.int 0#64), m)
    | _ => none
  | _, _ => none

/-- The value of a case, as `lower_switch_int` compares it. -/
def switchPayload : SwitchValue → BitVec 64
  | .bool b => if b then 1#64 else 0#64
  | .int n => BitVec.ofInt 64 n
  | .adt discriminant => BitVec.ofNat 64 discriminant

def switchWord (n : BitVec 64) (otherwise : BlockId) : List (SwitchValue × BlockId) → BlockId
  | [] => otherwise
  | (v, target) :: rest => if n = switchPayload v then target else switchWord n otherwise rest

def CallStep.withMemory (m : Memory) : CallStep → ListStep
  | .next c => .next ⟨c, m⟩
  | .trap h => .trap h m

def stepListTerminator (functions : Functions) (lists : Lists) (f : Frame) (h : History) (m : Memory) :
    Terminator → Option ListStep
  | .call (.constant (.str symbol)) args (.mk l []) target unwind =>
    match callList lists symbol args l f m with
    | some (f', m') => some (.next ⟨⟨⟨target, 0, f'⟩, h⟩, m'⟩)
    | none =>
      (stepCallTerminator functions f h (.call (.constant (.str symbol)) args (.mk l []) target unwind)).map
        (CallStep.withMemory m)
  | .switchInt operand cases otherwise =>
    match f.operand operand with
    | some (.int n) => some (.next ⟨⟨⟨switchWord n otherwise cases, 0, f⟩, h⟩, m⟩)
    | _ => (stepCallTerminator functions f h (.switchInt operand cases otherwise)).map (CallStep.withMemory m)
  | t => (stepCallTerminator functions f h t).map (CallStep.withMemory m)

def stepList (functions : Functions) (lists : Lists) (blocks : List BasicBlock) (c : ListConfig) : Option ListStep :=
  match blocks[c.config.point.block]? with
  | none => none
  | some block =>
    match block.statements[c.config.point.index]? with
    | some stmt =>
      (stepStatement c.config.point stmt.kind).map fun r => (r.after c.config.history).withMemory c.memory
    | none => stepListTerminator functions lists c.config.point.frame c.config.history c.memory block.terminator

abbrev ListRuns (functions : Functions) (lists : Lists) (blocks : List BasicBlock) : ListConfig → ListConfig → Prop :=
  Relation.ReflTransGen fun c d => stepList functions lists blocks c = some (.next d)

/-- The run ends in a trap. -/
def ListTraps (functions : Functions) (lists : Lists) (blocks : List BasicBlock) (c : ListConfig) (h : History)
    (m : Memory) : Prop :=
  ∃ d, ListRuns functions lists blocks c d ∧ stepList functions lists blocks d = some (.trap h m)

variable {functions : Functions} {lists : Lists} {blocks : List BasicBlock} {m : Memory}

theorem callRuntime_of_callList {symbol : String} {args : List Operand} {l : LocalId} {f f' : Frame} {m' : Memory}
    (h : callList lists symbol args l f m = some (f', m')) (values : List Value) :
    callRuntime symbol values = .undefined := by
  unfold callList at h
  split at h
  · rfl
  · rfl
  · rfl
  · rfl
  · cases h

theorem stepList_of_stepCall {c : Config} {r : CallStep} (h : stepCall functions blocks c = some r) :
    stepList functions lists blocks ⟨c, m⟩ = some (r.withMemory m) := by
  unfold stepCall at h
  unfold stepList
  dsimp only
  cases hblock : blocks[c.point.block]? with
  | none =>
    rw [hblock] at h
    cases h
  | some block =>
    rw [hblock] at h
    dsimp only at h ⊢
    cases hstmt : block.statements[c.point.index]? with
    | some stmt =>
      rw [hstmt] at h
      dsimp only at h ⊢
      obtain ⟨r', hr', rfl⟩ := Option.map_eq_some_iff.1 h
      rw [hr']
      rfl
    | none =>
      rw [hstmt] at h
      dsimp only at h ⊢
      unfold stepListTerminator
      split
      · next symbol args l target unwind heq =>
        rw [heq] at h
        split
        · next hcall =>
          have hnone :
              stepTerminator c.point.frame (.call (.constant (.str symbol)) args (.mk l []) target unwind) = none := by
            unfold stepTerminator
            dsimp only
            split
            · next values _ => rw [callRuntime_of_callList hcall values]
            · rfl
          rw [stepCallTerminator, hnone] at h
          · cases h
          · simp
        · rw [h]
          rfl
      · next operand cases otherwise heq =>
        rw [heq] at h
        split
        · next n hn =>
          simp [stepCallTerminator, stepTerminator, hn] at h
        · rw [h]
          rfl
      · rw [h]
        rfl

theorem ListRuns.of_runs {c d : Config} (h : Runs functions blocks c d) :
    ListRuns functions lists blocks ⟨c, m⟩ ⟨d, m⟩ := by
  induction h with
  | refl => exact .refl
  | tail _ hstep ih => exact ih.tail (stepList_of_stepCall hstep)

theorem ListTraps.of_halts {c : Config} {h : History} (hhalts : Halts functions blocks c h .trap) :
    ListTraps functions lists blocks ⟨c, m⟩ h m := by
  obtain ⟨d, hruns, htrap⟩ := hhalts
  exact ⟨⟨d, m⟩, .of_runs hruns, stepList_of_stepCall htrap⟩

theorem ListTraps.of_runs {c d : ListConfig} {h : History} {m' : Memory} (hruns : ListRuns functions lists blocks c d)
    (htraps : ListTraps functions lists blocks d h m') : ListTraps functions lists blocks c h m' := by
  obtain ⟨e, he, htrap⟩ := htraps
  exact ⟨e, hruns.trans he, htrap⟩

section Ends

variable {c d e : ListConfig}

theorem ListRuns.last_unique (hd : ListRuns functions lists blocks c d) (he : ListRuns functions lists blocks c e)
    (hdlast : ∀ x, stepList functions lists blocks d ≠ some (.next x))
    (helast : ∀ x, stepList functions lists blocks e ≠ some (.next x)) : d = e := by
  have htotal := Relation.ReflTransGen.total_of_right_unique (fun _ _ _ h h' => by
    rw [h] at h'
    cases h'
    rfl) hd he
  rcases htotal with hde | hed
  · rcases Relation.ReflTransGen.cases_head hde with hde | ⟨x, hx, -⟩
    · exact hde
    · exact absurd hx (hdlast x)
  · rcases Relation.ReflTransGen.cases_head hed with hed | ⟨x, hx, -⟩
    · exact hed.symm
    · exact absurd hx (helast x)

end Ends

end Cobrust.Mir.Exec
