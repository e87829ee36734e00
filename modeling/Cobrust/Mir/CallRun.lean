import Cobrust.Control.Traced
import Cobrust.Mir.Exec
import Cobrust.Mir.LowerRunOperator

/-!
# Running code that calls functions

Actions of the body builder whose code does what a program with a history of calls does. The code is entered at the
cursor before the action and left at the cursor after it, on every path that does not fail.

* `ComputesCall`: the code that an action adds does what a program does.
* `Continues`: the same of code that goes on from what the code before it left.
-/

namespace Cobrust.Mir

open Exec BodyBuilder Control

/-- What code leaves for the code behind it, and how that is read in a frame. -/
class Readable (β : Type) (α : outParam Type) where
  read : Frame → β → Option α
  Below : Nat → β → Prop
  below_mono : ∀ {n n' : Nat} {a : β}, Below n a → n ≤ n' → Below n' a
  read_congr : ∀ {n : Nat} {a : β} {f f' : Frame}, Below n a → (∀ l, l < n → f' l = f l) → read f' a = read f a

instance : Readable Operand Value where
  read f op := f.operand op
  Below n op := op.Below n
  below_mono := Operand.Below.mono
  read_congr := operand_congr

instance : Readable (List Operand) (List Value) where
  read f ops := ops.mapM f.operand
  Below n ops := ∀ op ∈ ops, op.Below n
  below_mono h hn op hop := (h op hop).mono hn
  read_congr {n ops f f'} h hf := by
    induction ops with
    | nil => rfl
    | cons op rest ih =>
      rw [List.mapM_cons, List.mapM_cons, operand_congr (h op List.mem_cons_self) hf,
        ih fun op' hop' => h op' (List.mem_cons_of_mem _ hop')]

instance {β β' α α' : Type} [Readable β α] [Readable β' α'] : Readable (β × β') (α × α') where
  read f p := (Readable.read f p.1).bind fun v => (Readable.read f p.2).map fun w => (v, w)
  Below n p := Readable.Below n p.1 ∧ Readable.Below n p.2
  below_mono h hn := ⟨Readable.below_mono h.1 hn, Readable.below_mono h.2 hn⟩
  read_congr h hf := by rw [Readable.read_congr h.1 hf, Readable.read_congr h.2 hf]

theorem read_pair_iff {β β' α α' : Type} [Readable β α] [Readable β' α'] {f : Frame} {p : β × β'} {v : α × α'} :
    Readable.read f p = some v ↔ Readable.read f p.1 = some v.1 ∧ Readable.read f p.2 = some v.2 := by
  obtain ⟨v₁, v₂⟩ := v
  constructor
  · intro h
    obtain ⟨w₁, h₁, h₂⟩ := Option.bind_eq_some_iff.1 h
    obtain ⟨w₂, h₂, hw⟩ := Option.map_eq_some_iff.1 h₂
    cases hw
    exact ⟨h₁, h₂⟩
  · rintro ⟨h₁, h₂⟩
    exact Option.bind_eq_some_iff.2 ⟨v₁, h₁, Option.map_eq_some_iff.2 ⟨v₂, h₂, rfl⟩⟩

/-- The block that is being filled. -/
def BodyBuilder.cursor (b : BodyBuilder) : BlockId :=
  b.curBlock.getD 0

variable {τ : Type} {functions : Functions} {blocks : List BasicBlock} {S : BlockId → Prop} {h : History}

/-- The run from the cursor of `b` to that of `b'`: what is left has the value, and the locals of `b` are kept. -/
def DeliversCall {β α : Type} [Readable β α] (functions : Functions) (blocks : List BasicBlock) (b b' : BodyBuilder)
    (a : β) (f : Frame) (h : History) : Except Stop α × History × List τ → Prop
  | (.ok v, h', _) => ∃ f', Runs functions blocks ⟨b.point f, h⟩ ⟨b'.point f', h'⟩ ∧ Readable.read f' a = some v ∧
      ∀ l, l < b.locals.length → f' l = f l
  | (.error stop, h', _) => Halts functions blocks ⟨b.point f, h⟩ h' stop

section Delivers

variable {β β' α α' : Type} [Readable β α] [Readable β' α'] {b b₁ b₂ : BodyBuilder} {f f₁ : Frame} {h₁ : History}

theorem DeliversCall.after {a : β} {r : Except Stop α × History × List τ}
    (hdelivers : DeliversCall functions blocks b₁ b₂ a f₁ h₁ r)
    (hrun : Runs functions blocks ⟨b.point f, h⟩ ⟨b₁.point f₁, h₁⟩) (hlen : b.locals.length ≤ b₁.locals.length)
    (hf : ∀ l, l < b.locals.length → f₁ l = f l) : DeliversCall functions blocks b b₂ a f h r := by
  obtain ⟨stop | v, h₂, sites⟩ := r
  · exact hdelivers.of_runs hrun
  · obtain ⟨f₂, hrun₂, hread, hf₂⟩ := hdelivers
    exact ⟨f₂, hrun.trans hrun₂, hread, fun l hl => (hf₂ l (hl.trans_le hlen)).trans (hf l hl)⟩

theorem DeliversCall.sites {a : β} {result : Except Stop α} {sites sites' : List τ}
    (hdelivers : DeliversCall functions blocks b b₂ a f h (result, h₁, sites)) :
    DeliversCall functions blocks b b₂ a f h (result, h₁, sites') := by
  cases result <;> exact hdelivers

/-- Code that goes on with the value of the code before it. -/
theorem DeliversCall.bind {a : β} {a' : β'} {x : Traced History Stop τ α} {g : α → Traced History Stop τ α'}
    (hx : DeliversCall functions blocks b b₁ a f h (x h)) (hlen : b.locals.length ≤ b₁.locals.length)
    (hg : ∀ v f₁ h₁, Readable.read f₁ a = some v → (∀ l, l < b.locals.length → f₁ l = f l) →
      DeliversCall functions blocks b₁ b₂ a' f₁ h₁ (g v h₁)) :
    DeliversCall functions blocks b b₂ a' f h ((x >>= g) h) := by
  rw [Traced.bind_apply]
  rcases hxh : x h with ⟨stop | v, h₁, sites⟩
  all_goals rw [hxh] at hx
  · exact hx
  · obtain ⟨f₁, hrun, hread, hf⟩ := hx
    exact ((hg v f₁ h₁ hread hf).after hrun hlen hf).sites

end Delivers

section Computes

variable {β β' β'' α α' α'' : Type} [Readable β α] [Readable β' α'] [Readable β'' α''] {ids : List DefId}
  {val : DefId → Option Value}

/-- The code that the action adds does what the program does. -/
def ComputesCall (functions : Functions) (ids : List DefId) (val : DefId → Option Value) (m : LowerM β)
    (x : Traced History Stop τ α) : Prop :=
  ∀ b c block, b.Open c block → Named ids b →
    ∃ a b', m b = .ok (a, b') ∧ Grows b b' ∧ Readable.Below b'.locals.length a ∧
      ∀ blocks, HasCode blocks b' b.Owns → Leads blocks b'.cursor b.cursor ∧
        ∀ f, HoldsValues ids val b f → ∀ h, DeliversCall functions blocks b b' a f h (x h)

/-- The code that the action adds does what the program does with the value of what was left. -/
def Continues (functions : Functions) (k : β → LowerM β') (g : α → Traced History Stop τ α') : Prop :=
  ∀ b c block a, b.Open c block → Readable.Below b.locals.length a →
    ∃ a' b', k a b = .ok (a', b') ∧ Grows b b' ∧ Readable.Below b'.locals.length a' ∧
      ∀ blocks, HasCode blocks b' b.Owns → Leads blocks b'.cursor b.cursor ∧
        ∀ f v, Readable.read f a = some v → ∀ h, DeliversCall functions blocks b b' a' f h (g v h)

variable {m : LowerM β} {x : Traced History Stop τ α} {k : β → LowerM β'} {g : α → Traced History Stop τ α'}

theorem ComputesCall.bind (hm : ComputesCall functions ids val m x) (hk : Continues functions k g) :
    ComputesCall functions ids val (m >>= k) (x >>= g) := by
  intro b c block hopen hn
  obtain ⟨a, b₁, hm₁, hg₁, hbelow₁, hrun₁⟩ := hm b c block hopen hn
  obtain ⟨c₁, block₁, hopen₁⟩ := hg₁.opened
  obtain ⟨a', b₂, hm₂, hg₂, hbelow₂, hrun₂⟩ := hk b₁ c₁ block₁ a hopen₁ hbelow₁
  refine ⟨a', b₂, Control.bind_eq_ok.2 ⟨a, b₁, hm₁, hm₂⟩, hg₁.trans hg₂, hbelow₂, fun blocks hcode => ?_⟩
  obtain ⟨hleads₁, hdelivers₁⟩ := hrun₁ blocks (hg₂.hasCode hcode)
  obtain ⟨hleads₂, hdelivers₂⟩ := hrun₂ blocks (hcode.mono fun i => hg₁.owns)
  refine ⟨hleads₂.trans hleads₁, fun f hf h => ?_⟩
  exact (hdelivers₁ f hf h).bind hg₁.locals.length_le fun v f₁ h₁ hread _ => hdelivers₂ f₁ v hread h₁

theorem Continues.bind {k' : β' → LowerM β''} {g' : α' → Traced History Stop τ α''} (hk : Continues functions k g)
    (hk' : Continues functions k' g') : Continues functions (fun a => k a >>= k') fun v => g v >>= g' := by
  intro b c block a hopen ha
  obtain ⟨a₁, b₁, hm₁, hg₁, hbelow₁, hrun₁⟩ := hk b c block a hopen ha
  obtain ⟨c₁, block₁, hopen₁⟩ := hg₁.opened
  obtain ⟨a₂, b₂, hm₂, hg₂, hbelow₂, hrun₂⟩ := hk' b₁ c₁ block₁ a₁ hopen₁ hbelow₁
  refine ⟨a₂, b₂, Control.bind_eq_ok.2 ⟨a₁, b₁, hm₁, hm₂⟩, hg₁.trans hg₂, hbelow₂, fun blocks hcode => ?_⟩
  obtain ⟨hleads₁, hdelivers₁⟩ := hrun₁ blocks (hg₂.hasCode hcode)
  obtain ⟨hleads₂, hdelivers₂⟩ := hrun₂ blocks (hcode.mono fun i => hg₁.owns)
  refine ⟨hleads₂.trans hleads₁, fun f v hv h => ?_⟩
  exact (hdelivers₁ f v hv h).bind hg₁.locals.length_le fun v₁ f₁ h₁ hread _ => hdelivers₂ f₁ v₁ hread h₁

theorem ComputesCall.pair {m' : LowerM β'} {x' : Traced History Stop τ α'} (hm : ComputesCall functions ids val m x)
    (hm' : ComputesCall functions ids val m' x') :
    ComputesCall functions ids val (do
      let a ← m
      let a' ← m'
      return (a, a')) (do
      let v ← x
      let v' ← x'
      return (v, v')) := by
  intro b c block hopen hn
  obtain ⟨a, b₁, hm₁, hg₁, hbelow₁, hrun₁⟩ := hm b c block hopen hn
  obtain ⟨c₁, block₁, hopen₁⟩ := hg₁.opened
  obtain ⟨a', b₂, hm₂, hg₂, hbelow₂, hrun₂⟩ := hm' b₁ c₁ block₁ hopen₁ (hn.grows hg₁)
  refine ⟨(a, a'), b₂, Control.bind_eq_ok.2 ⟨a, b₁, hm₁, Control.bind_eq_ok.2 ⟨a', b₂, hm₂, rfl⟩⟩, hg₁.trans hg₂,
    ⟨Readable.below_mono hbelow₁ hg₂.locals.length_le, hbelow₂⟩, fun blocks hcode => ?_⟩
  obtain ⟨hleads₁, hdelivers₁⟩ := hrun₁ blocks (hg₂.hasCode hcode)
  obtain ⟨hleads₂, hdelivers₂⟩ := hrun₂ blocks (hcode.mono fun i => hg₁.owns)
  refine ⟨hleads₂.trans hleads₁, fun f hf h => ?_⟩
  refine (hdelivers₁ f hf h).bind hg₁.locals.length_le fun v f₁ h₁ hread hf₁ => ?_
  have hsecond := hdelivers₂ f₁ (hf.grows hn hg₁ hf₁) h₁
  rw [Traced.bind_apply]
  rcases hxh : x' h₁ with ⟨stop | v', h₂, sites⟩
  all_goals rw [hxh] at hsecond
  · exact hsecond
  · obtain ⟨f₂, hrun, hread', hf₂⟩ := hsecond
    exact ⟨f₂, hrun, read_pair_iff.2 ⟨(Readable.read_congr hbelow₁ hf₂).trans hread, hread'⟩, hf₂⟩

theorem continues_pure {r : β → β'} {s : α → α'} (hbelow : ∀ n a, Readable.Below n a → Readable.Below n (r a))
    (hread : ∀ (f : Frame) a v, Readable.read f a = some v → Readable.read f (r a) = some (s v)) :
    Continues functions (fun a => pure (r a)) fun v => (pure (s v) : Traced History Stop τ α') := by
  intro b c block a hopen ha
  exact ⟨r a, b, rfl, .refl hopen, hbelow _ a ha, fun blocks _ =>
    ⟨.here, fun f v hv h => ⟨f, .refl, hread f a v hv, fun _ _ => rfl⟩⟩⟩

end Computes

/-- An outcome, without a call. -/
def Exec.Outcome.run : Outcome → Traced History Stop τ Value
  | .value v => pure v
  | .trap => fun h => (.error .trap, h, [])
  | .undefined => fun h => (.error .undefined, h, [])

section Primitive

variable {b : BodyBuilder} {c : BlockId} {block : BasicBlock}

theorem cursor_eq (hopen : b.Open c block) : b.cursor = c := by
  rw [BodyBuilder.cursor, hopen.cur]
  rfl

/-- The terminator through which the block was left goes to the new block. -/
theorem leads_leave (hopen : b.Open c block) {t : Terminator} (hcode : HasCode blocks (b.leave c t) S) (hc : S c)
    (ht : t.successors = [b.blocks.length]) : Leads blocks (b.leave c t).cursor b.cursor := by
  rw [cursor_eq (open_leave hopen t), cursor_eq hopen]
  refine .step (closed_leave hopen hcode hc) (by simp [ht]) fun x hx => ?_
  rw [ht, List.mem_singleton] at hx
  rw [hx]
  exact .here

theorem Delivers.call {b' : BodyBuilder} {op : Operand} {f : Frame} {o : Outcome}
    (hdelivers : Delivers blocks b b' op f o)
    (hundefined : o = .undefined → Halts functions blocks ⟨b.point f, h⟩ h .undefined) :
    DeliversCall functions blocks b b' op f h ((o.run : Traced History Stop τ Value) h) := by
  cases o with
  | value v =>
    obtain ⟨f', hreach, hop, hf⟩ := hdelivers
    exact ⟨f', runs_of_reaches hreach, hop, hf⟩
  | trap => exact halts_of_traps hdelivers
  | undefined => exact hundefined rfl

variable (name : String) (ty : Ty) (span : Span) (mutable : Bool)

/-- The assignment gives the local the value of the right side. -/
theorem deliversCall_assignNew (hopen : b.Open c block) {rv : Rvalue} {op : Operand}
    (hcode : HasCode blocks (b.assignNew c name ty span mutable rv) S) (hc : S c)
    (hop : op = .copy (.ofLocal b.locals.length) ∨ op = .move (.ofLocal b.locals.length)) (f : Frame) (h : History) :
    DeliversCall functions blocks b (b.assignNew c name ty span mutable rv) op f h
      (((f.rvalue rv).run : Traced History Stop τ Value) h) := by
  refine (delivers_assignNew name ty span mutable hopen hcode hc hop f).call fun hundefined => ?_
  obtain ⟨final, hfinal, ⟨rest, hrest⟩, -⟩ := hcode c hc _ (open_pushStmt (open_addLocal hopen name ty span mutable) _).get
  have hstmt : final.statements[block.statements.length]? = some ⟨.assign (.ofLocal b.locals.length) rv, span⟩ := by
    rw [← hrest]
    simp
  rw [hopen.point_eq]
  refine halts_of_statement hfinal hstmt ?_
  simp [stepStatement, Place.ofLocal, hundefined]

/-- The call gives the local what the runtime function returns. -/
theorem deliversCall_callNew (hopen : b.Open c block) {symbol : String} {args : List Operand} {values : List Value}
    {op : Operand} (hcode : HasCode blocks (b.callNew c name ty span mutable symbol args) S) (hc : S c)
    (hop : op = .copy (.ofLocal b.locals.length) ∨ op = .move (.ofLocal b.locals.length)) {f : Frame}
    (hargs : args.mapM f.operand = some values) (h : History) :
    DeliversCall functions blocks b (b.callNew c name ty span mutable symbol args) op f h
      (((callRuntime symbol values).run : Traced History Stop τ Value) h) := by
  refine (delivers_callNew name ty span mutable hopen hcode hc hop hargs).call fun hundefined => ?_
  have hopen' := open_addLocal hopen name ty span mutable
  have hfinal := closed_leave hopen' hcode hc
  rw [hopen.point_eq]
  refine ⟨_, .refl, ?_, _, hfinal, .inr fun e => by cases e⟩
  simp [stepCall, hfinal, stepCallTerminator, stepTerminator, Place.ofLocal, hargs, hundefined]

end Primitive

end Cobrust.Mir
