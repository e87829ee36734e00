import Cobrust.Mir.CompMeaning

/-!
# Running the code of loops

Runs with lists that do what a program of loops does. The program keeps what the memory shows: the lists that were gone
through, and the list that is built, in the local `acc`.

* `Comes`: a run does what a program has done.
* `Comes.forEach`: a loop, from what its code does for one element.
-/

namespace Cobrust.Mir

open Exec BodyBuilder Control
open Hir (Expr)

variable {functions : Functions} {lists : Lists} {blocks : List BasicBlock} {acc : LocalId}

/-- The run comes to a configuration that satisfies `Q`, or to a trap, as the program has. -/
def Comes {α : Type} (functions : Functions) (lists : Lists) (blocks : List BasicBlock) (acc : LocalId) (c : ListConfig)
    (Q : α → LoopState → ListConfig → Prop) : Except Stop α × LoopState × List Site → Prop
  | (.ok a, s, _) => ∃ d, ListRuns functions lists blocks c d ∧ Q a s d
  | (.error .trap, s, _) => ∃ m, ListTraps functions lists blocks c s.history m ∧ m.started = s.started ∧
      m.objects acc = some (.list s.items)
  | (.error .undefined, _, _) => True

section Comes

variable {α β : Type} {c d : ListConfig} {s : LoopState} {P Q : α → LoopState → ListConfig → Prop}

theorem Comes.after {r : Except Stop α × LoopState × List Site} (hr : Comes functions lists blocks acc d Q r)
    (hruns : ListRuns functions lists blocks c d) : Comes functions lists blocks acc c Q r := by
  obtain ⟨(_ | _) | a, s', events⟩ := r
  · obtain ⟨m, htraps, hm⟩ := hr
    exact ⟨m, .of_runs hruns htraps, hm⟩
  · trivial
  · obtain ⟨e, he, hq⟩ := hr
    exact ⟨e, hruns.trans he, hq⟩

theorem Comes.events {result : Except Stop α} {events events' : List Site}
    (hr : Comes functions lists blocks acc c Q (result, s, events)) :
    Comes functions lists blocks acc c Q (result, s, events') := by
  obtain (_ | _) | a := result
  · exact hr
  · exact hr
  · exact hr

theorem comes_pure {a : α} (h : Q a s c) : Comes functions lists blocks acc c Q ((pure a : Build α) s) :=
  ⟨c, .refl, h⟩

/-- Code that goes on from where the code before it has come. -/
theorem Comes.bind {x : Build α} {g : α → Build β} {R : β → LoopState → ListConfig → Prop}
    (hx : Comes functions lists blocks acc c P (x s))
    (hg : ∀ a s' d, P a s' d → Comes functions lists blocks acc d R (g a s')) :
    Comes functions lists blocks acc c R ((x >>= g) s) := by
  rw [Traced.bind_apply]
  rcases hxs : x s with ⟨(_ | _) | a, s', events⟩
  all_goals rw [hxs] at hx
  · exact hx
  · trivial
  · obtain ⟨d, hruns, hp⟩ := hx
    exact ((hg a s' d hp).after hruns).events

theorem Comes.further {r : Except Stop α × LoopState × List Site} (hr : Comes functions lists blocks acc c P r)
    (h : ∀ a s d, P a s d → ∃ e, ListRuns functions lists blocks d e ∧ Q a s e) :
    Comes functions lists blocks acc c Q r := by
  obtain ⟨(_ | _) | a, s', events⟩ := r
  · exact hr
  · trivial
  · obtain ⟨d, hd, hp⟩ := hr
    obtain ⟨e, he, hq⟩ := h a s' d hp
    exact ⟨e, hd.trans he, hq⟩

theorem Comes.mono {r : Except Stop α × LoopState × List Site} (hr : Comes functions lists blocks acc c P r)
    (h : ∀ a s d, P a s d → Q a s d) : Comes functions lists blocks acc c Q r :=
  hr.further fun a s d hp => ⟨d, .refl, h a s d hp⟩

/-- A loop keeps its invariant, which speaks of the elements that are left. -/
theorem Comes.forEach {body : BitVec 64 → Build Unit} (I : List (BitVec 64) → LoopState → ListConfig → Prop)
    (hstep : ∀ x rest s d, I (x :: rest) s d →
      Comes functions lists blocks acc d (fun _ s' d' => I rest s' d') (body x s))
    {items : List (BitVec 64)} (hI : I items s c) :
    Comes functions lists blocks acc c (fun _ s' d => I [] s' d) (Build.forEach body items s) := by
  induction items generalizing s c with
  | nil => exact comes_pure hI
  | cons x rest ih => exact (hstep x rest s c hI).bind fun _ _ _ h => ih h

end Comes

/-- The memory shows what the program has gone through and built. -/
structure Shows (acc : LocalId) (s : LoopState) (m : Memory) : Prop where
  started : m.started = s.started
  items : m.objects acc = some (.list s.items)

/-- The locals below `n` are kept, and so are their objects, the list that is built apart. -/
structure Kept (acc : LocalId) (n : Nat) (f : Frame) (m : Memory) (s' : LoopState) (f' : Frame) (m' : Memory) : Prop
    extends Shows acc s' m' where
  frame : ∀ l, l < n → f' l = f l
  objects : ∀ l, l < n → l ≠ acc → m'.objects l = m.objects l

section Kept

variable {n n' : Nat} {f f' f'' : Frame} {m m' m'' : Memory} {s s' : LoopState}

theorem Shows.kept (h : Shows acc s m) (hf : ∀ l, l < n → f' l = f l) : Kept acc n f m s f' m where
  toShows := h
  frame := hf
  objects _ _ _ := rfl

theorem Kept.trans (h : Kept acc n f m s f' m') (h' : Kept acc n' f' m' s' f'' m'') (hn : n ≤ n') :
    Kept acc n f m s' f'' m'' where
  toShows := h'.toShows
  frame l hl := (h'.frame l (hl.trans_le hn)).trans (h.frame l hl)
  objects l hl hne := (h'.objects l (hl.trans_le hn) hne).trans (h.objects l hl hne)

theorem Kept.put (h : Kept acc n f m s f' m') {l : LocalId} (hl : n ≤ l) (hacc : acc < n) (o : Object) :
    Kept acc n f m s f' (m'.put l o) where
  started := h.started
  items := (Memory.put_of_ne o (hacc.trans_le hl).ne).trans h.items
  frame := h.frame
  objects l' hl' hne := (Memory.put_of_ne o (hl'.trans_le hl).ne).trans (h.objects l' hl' hne)

end Kept

section Steps

variable {S : BlockId → Prop} {b : BodyBuilder} {c : BlockId} {block : BasicBlock} {f f' : Frame} {h : History}
  {m m' : Memory}

theorem listRuns_call (functions : Functions) (h : History) (hopen : b.Open c block) {symbol : String}
    {args : List Operand} {l : LocalId}
    (hcode : HasCode blocks (b.leave c (.call (.constant (.str symbol)) args (.ofLocal l) b.blocks.length none)) S)
    (hc : S c) (hcall : callList lists symbol args l f m = some (f', m')) :
    ListRuns functions lists blocks ⟨⟨b.point f, h⟩, m⟩ ⟨⟨⟨b.blocks.length, 0, f'⟩, h⟩, m'⟩ := by
  refine .single ?_
  rw [hopen.point_eq]
  simp [stepList, closed_leave hopen hcode hc, stepListTerminator, Place.ofLocal, hcall]

theorem listRuns_switch (functions : Functions) (lists : Lists) (h : History) (m : Memory) (hopen : b.Open c block)
    {op : Operand} {cases : List (SwitchValue × BlockId)}
    {otherwise : BlockId} {n : BitVec 64}
    (hfinal : blocks[c]? = some { block with terminator := .switchInt op cases otherwise })
    (hop : f.operand op = some (.int n)) :
    ListRuns functions lists blocks ⟨⟨b.point f, h⟩, m⟩ ⟨⟨⟨switchWord n otherwise cases, 0, f⟩, h⟩, m⟩ := by
  refine .single ?_
  rw [hopen.point_eq]
  simp [stepList, hfinal, stepListTerminator, hop]

end Steps

section Parts

variable {b b' : BodyBuilder} {op : Operand} {f : Frame} {m : Memory} {s : LoopState}

theorem comes_part {x : Traced History Stop Site Value} (hshows : Shows acc s m)
    (hx : DeliversCall functions blocks b b' op f s.history (x s.history)) :
    Comes functions lists blocks acc ⟨⟨b.point f, s.history⟩, m⟩
      (fun v s' d => ∃ f', d = ⟨⟨b'.point f', s'.history⟩, m⟩ ∧ f'.operand op = some v ∧
        Kept acc b.locals.length f m s' f' m)
      (Build.part x s) := by
  unfold Build.part
  rcases hxs : x s.history with ⟨stop | v, h', events⟩
  all_goals rw [hxs] at hx
  · cases stop with
    | trap => exact ⟨m, .of_halts hx, hshows.started, hshows.items⟩
    | undefined => trivial
  · obtain ⟨f', hruns, hread, hf'⟩ := hx
    exact ⟨_, .of_runs hruns, f', rfl, hread, ⟨⟨hshows.started, hshows.items⟩, hf', fun _ _ _ => rfl⟩⟩

/-- The code that an action adds to a builder does what a program does, whatever values the names have. -/
def ComputesAt (functions : Functions) (ids : List DefId) (m : LowerM Operand)
    (x : (DefId → Option Value) → Traced History Stop Site Value) (b : BodyBuilder) : Prop :=
  ∃ op b', m b = .ok (op, b') ∧ Grows b b' ∧ op.Below b'.locals.length ∧ ∀ blocks, HasCode blocks b' b.Owns →
    ∀ val, (∀ id ∈ ids, ∃ v, val id = some v) → ∀ f, HoldsValues ids val b f → ∀ h,
      DeliversCall functions blocks b b' op f h (x val h)

theorem computesAt_of_computesCall {ids : List DefId} {action : LowerM Operand} {c : BlockId} {block : BasicBlock}
    {x : (DefId → Option Value) → Traced History Stop Site Value}
    (hx : ∀ val, (∀ id ∈ ids, ∃ v, val id = some v) → ComputesCall functions ids val action (x val))
    (hopen : b.Open c block) (hn : Named ids b) : ComputesAt functions ids action x b := by
  obtain ⟨op, b', haction, hg, hbelow, -⟩ := hx (fun _ => some (.int 0#64)) (fun _ _ => ⟨_, rfl⟩) b c block hopen hn
  refine ⟨op, b', haction, hg, hbelow, fun blocks hcode val hheld f hf h => ?_⟩
  obtain ⟨op₁, b₁, haction₁, -, -, hrun⟩ := hx val hheld b c block hopen hn
  rw [haction] at haction₁
  cases haction₁
  exact (hrun blocks hcode).2 f hf h

end Parts

end Cobrust.Mir
