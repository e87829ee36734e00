import Cobrust.Mir.LowerStraightComp

/-!
# The extent of statements

Every statement, whatever blocks it opens and wherever its cursor goes in between, writes to the block
in which it starts and to blocks of its own, and leaves the loop stack as it was.
-/

namespace Cobrust.Mir

open Control BodyBuilder

/-- Every successful run of `m` writes at the cursor and to new blocks. -/
abbrev ExtendsM {α : Type} (m : LowerM α) : Prop :=
  Steps (fun b b' => b.InRange → Extends b b') m

namespace ExtendsM

variable {α β : Type}

theorem ret (a : α) : ExtendsM (pure a : LowerM α) :=
  Steps.of_pure (fun b _ => Extends.refl b) a

theorem bind {m : LowerM α} {f : α → LowerM β} (hm : ExtendsM m) (hf : ∀ a, ExtendsM (f a)) :
    ExtendsM (m >>= f) :=
  Steps.of_bind (fun h₁ h₂ hr => (h₁ hr).trans (h₂ ((h₁ hr).inRange hr))) hm hf

theorem builder : ExtendsM (get : LowerM BodyBuilder) :=
  Steps.of_get fun b _ => Extends.refl b

theorem of_straight {m : LowerM α} (hm : StraightM [] m) : ExtendsM m :=
  fun _ _ _ h hr => (hm.run h hr).toExtends

theorem startNewBlock : ExtendsM startNewBlock := by
  intro b id b' h _
  obtain ⟨-, rfl⟩ := startNewBlock_ok.1 h
  exact .startBlock b

theorem terminated : ExtendsM terminated := by
  intro b r b' h _
  obtain ⟨-, rfl⟩ := terminated_ok.1 h
  exact .refl b

theorem optional {o : Option (LowerM Unit)} (h : ∀ m, o = some m → ExtendsM m) :
    ExtendsM (lowerOptional o) := by
  cases o with
  | none => exact .ret _
  | some m => exact h m rfl

end ExtendsM

theorem extends_terminate {t : Terminator} {b b' : BodyBuilder} {u : Unit}
    (h : terminate t b = .ok (u, b')) (ht : ∀ y ∈ t.successors, (y : Nat) < b.blocks.length) :
    Extends b b' := by
  obtain rfl := terminate_ok.1 h
  exact .close b ht

theorem extends_lowerBlockWith {stmts : List (LowerM Unit)} (h : ∀ m ∈ stmts, ExtendsM m) :
    ExtendsM (lowerBlockWith stmts) := by
  induction stmts with
  | nil => exact .ret _
  | cons m rest ih =>
    have hrest := ih fun m hm => h m (by simp [hm])
    unfold lowerBlockWith
    refine .bind (h m (by simp)) fun _ => .bind .terminated fun closed => ?_
    cases closed with
    | false => exact hrest
    | true => exact .bind .startNewBlock fun _ => hrest

section

variable (ctx : LowerCtx)

theorem straight_bindField (scrut : LocalId) (mutable : Bool) (idx : Nat) (p : Hir.Pattern) :
    StraightM [] (bindField ctx scrut mutable idx p) := by
  unfold bindField
  split
  · exact .bind (straight_declareLocalForDef _ _ _ _ _) fun _ => straight_emitAssign _ _ _
  · exact .ret _

theorem straight_bindFields (scrut : LocalId) (mutable : Bool) (idx : Nat) (items : List Hir.Pattern) :
    StraightM [] (bindFields ctx scrut mutable idx items) := by
  induction items generalizing idx with
  | nil => exact .ret _
  | cons p rest ih => exact .bind (straight_bindField ctx _ _ _ _) fun _ => ih _

theorem straight_declareEntries (entries : List (Hir.Expr × Hir.Pattern)) :
    StraightM [] (declareEntries ctx entries) := by
  fun_induction declareEntries ctx entries with
  | case1 => exact .ret _
  | case2 _ name id span rest ih => exact .bind (straight_declareLocalForDef _ _ _ _ _) fun _ => ih
  | case3 _ rest _ ih => exact ih

mutual

theorem straight_bindPatternToLocal (scrut : LocalId) :
    ∀ p : Hir.Pattern, StraightM [] (bindPatternToLocal ctx scrut p)
  | .mk (.binding _ _) _ =>
    .bind (straight_declareLocalForDef _ _ _ _ _) fun _ => straight_emitAssign _ _ _
  | .mk (.sequence items _) _ => straight_bindFields ctx _ _ _ items
  | .mk (.«class» _ _ _) _ =>
    .bind (straight_bindFields ctx _ _ _ _) fun _ => straight_bindFields ctx _ _ _ _
  | .mk (.or branches) _ => straight_bindBranches scrut branches
  | .mk (.mapping _ _) _ => straight_declareEntries ctx _
  | .mk .wildcard _ => .ret _
  | .mk (.literal _) _ => .ret _

theorem straight_bindBranches (scrut : LocalId) :
    ∀ branches : List Hir.Pattern, StraightM [] (bindBranches ctx scrut branches)
  | [] => .ret _
  | p :: rest => .bind (straight_bindPatternToLocal scrut p) fun _ => straight_bindBranches scrut rest

end

theorem straight_lowerLet (body : Hir.LetBody) : StraightM [] (lowerLet ctx body) := by
  unfold lowerLet
  refine .bind straight_ensureOpenBlock fun _ => .bind (straight_lowerExpr ctx _) fun _ => ?_
  split
  · exact .bind (straight_declareLocalForDef _ _ _ _ _) fun _ => .bind (straight_emitStmt _ _) fun _ =>
      straight_emitAssign _ _ _
  · exact .bind (straight_declareLocal _ _ _ _) fun _ => .bind (straight_emitAssign _ _ _) fun _ =>
      straight_bindFields ctx _ _ _ _
  · exact .ret _

theorem straight_lowerLvalue (e : Hir.Expr) : StraightM [] (lowerLvalue ctx e) := by
  fun_induction lowerLvalue ctx e with
  | case1 rn span => exact .bind (straight_lookupLocalForResolved _ _ _) fun _ => .ret _
  | case2 base name span ih => exact .bind ih fun _ => .ret _
  | case3 base index span ih =>
    exact .bind ih fun _ => .bind (straight_lowerIndex (straight_subIndex ctx index)) fun _ => .ret _
  | case4 => exact .fail _

theorem straight_lowerSetItem (destName symbol : String) (upgrade : Operand → Operand)
    (base : Hir.Expr) (index : Hir.IndexKind) (value : Hir.Expr) (span : Span) :
    StraightM [] (lowerSetItem ctx destName symbol upgrade base index value span) :=
  .bind (straight_lowerExpr ctx _) fun _ => .bind (straight_lowerIndex (straight_subIndex ctx index))
    fun _ => .bind (straight_lowerExpr ctx _) fun _ => .bind (straight_declareLocal _ _ _ _) fun _ =>
    straight_callSymbol _ _ _

theorem straight_lowerPlaceAssign (target value : Hir.Expr) (span : Span) :
    StraightM [] (lowerPlaceAssign ctx target value span) :=
  .bind (straight_lowerExpr ctx _) fun _ => .bind (straight_lowerLvalue ctx _) fun _ =>
    straight_emitAssign _ _ _

theorem straight_lowerAssign (target value : Hir.Expr) (span : Span) :
    StraightM [] (lowerAssign ctx target value span) := by
  unfold lowerAssign
  refine .bind straight_ensureOpenBlock fun _ => ?_
  split
  · split
    · split
      · exact straight_lowerSetItem ctx _ _ _ _ _ _ _
      · exact straight_lowerPlaceAssign ctx _ _ _
    · exact straight_lowerSetItem ctx _ _ _ _ _ _ _
    · exact straight_lowerPlaceAssign ctx _ _ _
  · exact straight_lowerPlaceAssign ctx _ _ _

theorem extends_lowerReturn (value : Option Hir.Expr) (span : Span) :
    ExtendsM (lowerReturn ctx value span) := by
  have hlast (op : Operand) : ExtendsM (do
      let b ← get
      emitAssign (.ofLocal b.returnLocal) (.use (upgradeReturnToMove b op)) span
      terminate .ret) := by
    refine .bind .builder fun b => .bind (.of_straight (straight_emitAssign _ _ _)) fun _ => ?_
    intro b u b' h _
    exact extends_terminate h (by simp [Terminator.successors])
  unfold lowerReturn
  refine .bind (.of_straight straight_ensureOpenBlock) fun _ => ?_
  cases value with
  | none => exact hlast _
  | some e => exact .bind (.of_straight (straight_lowerExpr ctx e)) hlast

theorem extends_jump {x : BlockId} {b b' : BodyBuilder} {u : Unit}
    (h : (do
      let _ ← ensureOpenBlock
      terminate (.goto x)) b = .ok (u, b')) (hr : b.InRange) (hx : (x : Nat) < b.blocks.length) :
    Extends b b' := by
  obtain ⟨_, b₁, h₁, h₂⟩ := bind_eq_ok.1 h
  have hopen := StraightM.run straight_ensureOpenBlock h₁ hr
  refine hopen.toExtends.trans (extends_terminate h₂ fun y hy => ?_)
  obtain rfl : y = x := by simpa [Terminator.successors] using hy
  exact Nat.lt_of_lt_of_le hx hopen.len

theorem extends_lowerBreak : ExtendsM lowerBreak := by
  intro b u b' h hr
  unfold lowerBreak at h
  obtain ⟨_, _, hget, h⟩ := bind_eq_ok.1 h
  obtain ⟨rfl, rfl⟩ := get_eq_ok.1 hget
  cases hl : b.loopStack with
  | nil =>
    rw [hl] at h
    exact (throw_eq_ok.1 h).elim
  | cons l rest =>
    rw [hl] at h
    exact extends_jump h hr (hr.loops l (by simp [hl])).2

theorem extends_lowerContinue : ExtendsM lowerContinue := by
  intro b u b' h hr
  unfold lowerContinue at h
  obtain ⟨_, _, hget, h⟩ := bind_eq_ok.1 h
  obtain ⟨rfl, rfl⟩ := get_eq_ok.1 hget
  cases hl : b.loopStack with
  | nil =>
    rw [hl] at h
    exact (throw_eq_ok.1 h).elim
  | cons l rest =>
    rw [hl] at h
    exact extends_jump h hr (hr.loops l (by simp [hl])).1

theorem extends_lowerRaise (exc : Option Hir.Expr) : ExtendsM (lowerRaise ctx exc) := by
  have hlast : ExtendsM (terminate .unreachable) := by
    intro b u b' h _
    exact extends_terminate h (by simp [Terminator.successors])
  unfold lowerRaise
  refine .bind (.of_straight straight_ensureOpenBlock) fun _ => ?_
  cases exc with
  | none => exact hlast
  | some e => exact .bind (.of_straight (straight_lowerExpr ctx e)) fun _ => hlast

theorem extends_gotoIfOpen {b₀ b b' : BodyBuilder} {u : Unit} {x : Nat}
    (h : gotoIfOpen x b = .ok (u, b')) (hb : Extends b₀ b) (hx : x < b.blocks.length) :
    Extends b₀ b' ∧ b'.blocks.length = b.blocks.length := by
  obtain rfl := gotoIfOpen_ok.1 h
  refine ⟨hb.trans (.close b fun y hy => ?_), length_close b _⟩
  obtain rfl : y = x := by simpa [Terminator.successors] using hy
  exact hx

theorem successors_switchTrue (op : Operand) (x y : BlockId) :
    (switchTrue op x y).successors = [x, y] := by
  simp [switchTrue, Terminator.successors]

/-- A block that is closed with a test and left for another one. -/
theorem extends_branch {b₀ b : BodyBuilder} (hb : Extends b₀ b) {c x y : Nat} (op : Operand)
    (hc : b₀.Owns c) (hclt : c < b.blocks.length) (hx : x < b.blocks.length) (hy : y < b.blocks.length) :
    Extends b₀ ((b.moveTo c).close (switchTrue op x y)) := by
  refine (hb.moveTo hc hclt).trans (.close _ fun z hz => ?_)
  rw [successors_switchTrue] at hz
  simp only [List.mem_cons, List.not_mem_nil, or_false] at hz
  rcases hz with rfl | rfl
  · exact hx
  · exact hy

/-- The arms of an `if` write to blocks of the whole statement, and so does the code behind them. -/
theorem extends_lowerIfArms {b₀ : BodyBuilder} (hr : b₀.InRange) {merge : Nat} {arms : List IfArm}
    (harms : ∀ a ∈ arms, StraightM [] a.cond.lower ∧ ExtendsM a.body) {b b' : BodyBuilder}
    {cur next : Nat} (hb : Extends b₀ b) (hcur : b₀.Owns cur) (hlt : cur < b.blocks.length)
    (hmerge : merge < b.blocks.length) (h : lowerIfArms merge arms cur b = .ok (next, b')) :
    Extends b₀ b' ∧ b₀.Owns next ∧ next < b'.blocks.length ∧ merge < b'.blocks.length := by
  induction arms generalizing b cur with
  | nil =>
    obtain ⟨rfl, rfl⟩ := pure_eq_ok.1 h
    exact ⟨hb, hcur, hlt, hmerge⟩
  | cons arm rest ih =>
    obtain ⟨hcond, hbody⟩ := harms arm (by simp)
    unfold lowerIfArms at h
    simp only [bind_eq_ok, setCurBlock_ok, startNewBlock_ok, terminate_ok] at h
    obtain ⟨_, _, rfl, ⟨condOp, condEnd⟩, b₁, hrunc, _, _, ⟨rfl, rfl⟩, _, b₂, hrunb, _, b₃, hgoto, _, _,
      ⟨rfl, rfl⟩, _, _, rfl, _, _, rfl, hrest⟩ := h
    have hmove := hb.moveTo hcur hlt
    obtain ⟨hc, hs₁⟩ := lowerCondition_ok hcond hrunc (hmove.inRange hr)
    have h₁ := hmove.trans hs₁.toExtends
    have h₁' := h₁.trans (.startBlock b₁)
    have hext := hbody _ _ b₂ hrunb (h₁'.inRange hr)
    have hlen₁ := hs₁.len
    have hlen₂ := hext.len
    rw [blocks_moveTo] at hlen₁
    rw [length_startBlock] at hlen₂
    obtain ⟨h₃, hlen₃⟩ := extends_gotoIfOpen hgoto (h₁'.trans hext) (by omega)
    have hclt := (h₁.inRange hr).cursor condEnd hc
    have h₄ := h₃.trans (.startBlock b₃)
    have h₅ := extends_branch h₄ (c := condEnd) condOp (h₁.owns (.inl hc))
      (by rw [length_startBlock]; omega) (x := b₁.blocks.length) (by rw [length_startBlock]; omega)
      (y := b₃.blocks.length) (by rw [length_startBlock]; omega)
    refine ih (fun a ha => harms a (by simp [ha])) h₅ (h₃.owns (.inr (Nat.le_refl _))) ?_ ?_ hrest
    · rw [length_close, blocks_moveTo, length_startBlock]
      omega
    · rw [length_close, blocks_moveTo, length_startBlock]
      omega

theorem extends_lowerIf {arms : List IfArm} {elseBlock : Option (LowerM Unit)}
    (harms : ∀ a ∈ arms, StraightM [] a.cond.lower ∧ ExtendsM a.body)
    (helse : ∀ m, elseBlock = some m → ExtendsM m) : ExtendsM (lowerIf arms elseBlock) := by
  intro b u b' h hr
  unfold lowerIf at h
  simp only [bind_eq_ok, currentBlockId_ok, setCurBlock_ok, startNewBlock_ok] at h
  obtain ⟨c, _, ⟨hc, rfl⟩, _, _, ⟨rfl, rfl⟩, _, _, rfl, c', _, ⟨hc', rfl⟩, next, b₁, hrun, _, _, rfl, _,
    b₂, helserun, rfl⟩ := h
  obtain rfl : c = c' := Option.some.inj hc'
  have hclt := hr.cursor c hc
  obtain ⟨h₁, hown, hnlt, hmlt⟩ := extends_lowerIfArms hr harms
    ((Extends.startBlock b).moveTo (.inl hc) (by rw [length_startBlock]; omega)) (.inl hc)
    (by rw [blocks_moveTo, length_startBlock]; omega)
    (by rw [blocks_moveTo, length_startBlock]; omega) hrun
  have h₁' := h₁.moveTo hown hnlt
  have h₂ : Extends b b₂ ∧ b₁.blocks.length ≤ b₂.blocks.length := by
    cases elseBlock with
    | none =>
      obtain rfl := terminate_ok.1 helserun
      refine ⟨h₁'.trans (.close _ fun y hy => ?_), by rw [length_close, blocks_moveTo]⟩
      obtain rfl : y = b.blocks.length := by simpa [Terminator.successors] using hy
      exact hmlt
    | some m =>
      obtain ⟨_, b₃, hrunm, hgoto⟩ := bind_eq_ok.1 helserun
      have hm := helse m rfl _ _ _ hrunm (h₁'.inRange hr)
      have hlen := hm.len
      rw [blocks_moveTo] at hlen
      obtain ⟨hg, hglen⟩ := extends_gotoIfOpen hgoto (h₁'.trans hm) (by omega)
      exact ⟨hg, by omega⟩
  exact h₂.1.moveTo (.inr (Nat.le_refl _)) (by omega)

/-! ## Loops -/

theorem pushLoop_ok {C X : BlockId} {b b' : BodyBuilder} {u : Unit} :
    pushLoop C X b = .ok (u, b') ↔ b' = { b with loopStack := (C, X) :: b.loopStack } := by
  simp [pushLoop, eq_comm]

theorem popLoop_ok {b b' : BodyBuilder} {u : Unit} :
    popLoop b = .ok (u, b') ↔ b' = { b with loopStack := b.loopStack.tail } := by
  simp [popLoop, eq_comm]

/-- Inside a loop: the stack holds one entry more, and it is taken away again. -/
theorem extends_inLoop {b b' : BodyBuilder} {C X : Nat} (hr : b.InRange) (hC : C < b.blocks.length)
    (hX : X < b.blocks.length)
    (h : BodyBuilder.InRange { b with loopStack := (C, X) :: b.loopStack } →
      Extends { b with loopStack := (C, X) :: b.loopStack } b') :
    Extends b { b' with loopStack := b'.loopStack.tail } := by
  have hin : BodyBuilder.InRange { b with loopStack := (C, X) :: b.loopStack } :=
    ⟨hr.cursor, hr.targets, List.forall_mem_cons.2 ⟨⟨hC, hX⟩, hr.loops⟩⟩
  have hext := h hin
  have htail : b'.loopStack.tail = b.loopStack := by rw [hext.loops, List.tail_cons]
  have hin' := hext.inRange hin
  refine ⟨hext.len, hext.old, hext.cursor, fun _ => ⟨hin'.cursor, hin'.targets, ?_⟩, hext.grown, htail⟩
  exact fun l hl => hin'.loops l (List.mem_of_mem_tail hl)

/-- The body of a loop and the code behind it, from the block `b` in which the test has been closed. -/
theorem extends_loopTail {b₀ b b₁ b₂ b' : BodyBuilder} {B C X : Nat} {u u' : Unit}
    {elseBlock : Option (LowerM Unit)} (hr : b₀.InRange) (hb : Extends b₀ b) (hB : b₀.Owns B)
    (hBlt : B < b.blocks.length) (hX : b₀.Owns X) (hXlt : X < b.blocks.length)
    (hC : C < b.blocks.length) (helse : ∀ m, elseBlock = some m → ExtendsM m)
    (hbody : BodyBuilder.InRange { b.moveTo B with loopStack := (C, X) :: b.loopStack } →
      Extends { b.moveTo B with loopStack := (C, X) :: b.loopStack } b₁)
    (hgoto : gotoIfOpen C b₁ = .ok (u, b₂))
    (hrun : lowerLoopElse X elseBlock { b₂ with loopStack := b₂.loopStack.tail } = .ok (u', b')) :
    Extends b₀ b' := by
  have hmove := hb.moveTo hB hBlt
  have hloop := extends_inLoop (b := b.moveTo B) (C := C) (X := X) (hmove.inRange hr) hC hXlt
    fun hin => (extends_gotoIfOpen hgoto (hbody hin) (Nat.lt_of_lt_of_le hC (hbody hin).len)).1
  have hall := hmove.trans hloop
  unfold lowerLoopElse at hrun
  simp only [bind_eq_ok, setCurBlock_ok] at hrun
  obtain ⟨_, _, rfl, hrun⟩ := hrun
  have hexit := hall.moveTo hX (Nat.lt_of_lt_of_le hXlt hloop.len)
  exact hexit.trans (ExtendsM.optional helse _ _ _ hrun (hexit.inRange hr))

theorem extends_lowerWhile {cond : Sub} {body : LowerM Unit} {elseBlock : Option (LowerM Unit)}
    (hcond : StraightM [] cond.lower) (hbody : ExtendsM body)
    (helse : ∀ m, elseBlock = some m → ExtendsM m) : ExtendsM (lowerWhile cond body elseBlock) := by
  unfold lowerWhile
  refine .bind (.of_straight straight_ensureOpenBlock) fun _ => ?_
  intro b u b' h hr
  simp only [bind_eq_ok, currentBlockId_ok, setCurBlock_ok, startNewBlock_ok, terminate_ok,
    pushLoop_ok, popLoop_ok, and_assoc, exists_eq_left, exists_and_left] at h
  obtain ⟨c, hc, _, rfl, _, _, _, ⟨condOp, condEnd⟩, b₁, hrunc, _, _, _, _, _, b₂, hrunb, _, b₃, hgoto, _, hrune⟩ := h
  have hclt := hr.cursor c hc
  have hstart := (Extends.startBlock b).rewire (c := c) (x := b.blocks.length) (.goto b.blocks.length)
    (.inl hc) (by rw [length_startBlock]; omega) (.inr (Nat.le_refl _))
    (by rw [length_startBlock]; omega) (by simp [Terminator.successors, length_startBlock])
  obtain ⟨hce, hs₁⟩ := lowerCondition_ok hcond hrunc (hstart.inRange hr)
  have h₁ := hstart.trans hs₁.toExtends
  have hlen₁ := hs₁.len
  rw [blocks_moveTo, length_close, blocks_moveTo, length_startBlock] at hlen₁
  have helt := (h₁.inRange hr).cursor condEnd hce
  have hlen₂ : b₁.startBlock.startBlock.blocks.length = b₁.blocks.length + 2 := by
    rw [length_startBlock, length_startBlock]
  have h₂ := extends_branch ((h₁.trans (.startBlock _)).trans (.startBlock _)) (c := condEnd) condOp
    (h₁.owns (.inl hce)) (by omega) (x := b₁.blocks.length) (by omega) (y := b₁.blocks.length + 1)
    (by omega)
  rw [length_startBlock] at hrune hrunb
  refine extends_loopTail (B := b₁.blocks.length) hr h₂ (h₁.owns (.inr (Nat.le_refl _))) ?_
    (h₁.owns (.inr (Nat.le_succ _))) ?_ ?_ helse (fun hin => hbody _ _ _ hrunb hin) hgoto hrune
  · rw [length_close, blocks_moveTo]
    omega
  · rw [length_close, blocks_moveTo]
    omega
  · rw [length_close, blocks_moveTo]
    omega

theorem straight_lowerIterValue (iterIsStr : Bool) {iter : Sub} (h : StraightM [] iter.lower) :
    StraightM [] (lowerIterValue ctx iterIsStr iter) := by
  unfold lowerIterValue
  split
  · exact .bind (straight_lookupLocalForResolved _ _ _) fun _ => .ret _
  · exact h

theorem straight_lowerForInit (iterIsStr : Bool) {iter : Sub} (h : StraightM [] iter.lower)
    (span : Span) : StraightM [] (lowerForInit ctx iterIsStr iter span) :=
  .bind (straight_lowerIterValue ctx _ h) fun _ => .bind (straight_declareLocal _ _ _ _) fun _ =>
    .bind (straight_emitAssign _ _ _) fun _ => .bind (straight_declareLocal _ _ _ _) fun _ =>
    .bind (straight_callSymbol _ _ _) fun _ => .bind (straight_declareLocal _ _ _ _) fun _ =>
    .bind (straight_emitAssign _ _ _) fun _ => .ret _

theorem straight_lowerForRead (iterIsStr : Bool) (iterLocal idxLocal var : LocalId) (span : Span) :
    StraightM [] (lowerForRead iterIsStr iterLocal idxLocal var span) := by
  unfold lowerForRead
  refine .bind .builder fun b => ?_
  dsimp only
  split
  · exact straight_callSymbol _ _ _
  split
  · exact .bind (straight_declareLocal _ _ _ _) fun _ => .bind (straight_callSymbol _ _ _) fun _ =>
      straight_callSymbol _ _ _
  · exact straight_callSymbol _ _ _

theorem lowerForTest_ok {b b' : BodyBuilder} {lenLocal idxLocal id : LocalId} {span : Span}
    (h : lowerForTest lenLocal idxLocal span b = .ok (id, b')) :
    b'.curBlock = b.curBlock ∧ Extends b b' ∧ b'.blocks.length = b.blocks.length := by
  unfold lowerForTest at h
  simp only [bind_eq_ok, pure_eq_ok] at h
  obtain ⟨condLocal, b₁, hdecl, _, b₂, hemit, -, rfl⟩ := h
  obtain ⟨hblocks, hcur, hloops⟩ := declareLocal_blocks hdecl
  obtain ⟨c, hc, rfl⟩ := emitStmt_ok.1 hemit
  refine ⟨hcur, (Extends.of_blocks_eq hblocks hcur hloops).trans (.pushStmt hc _), ?_⟩
  rw [length_pushStmt, hblocks]

theorem lowerForStep_ok {b b' : BodyBuilder} {idxLocal : LocalId} {span : Span} {u : Unit}
    (h : lowerForStep idxLocal span b = .ok (u, b')) :
    ∃ c stmt, b.curBlock = some c ∧ b' = b.pushStmt c stmt := by
  unfold lowerForStep emitAssign at h
  obtain ⟨c, hc, rfl⟩ := emitStmt_ok.1 h
  exact ⟨c, _, hc, rfl⟩

theorem extends_lowerFor (ids : List DefId) (pattern : Hir.Pattern) {iter : Sub} {body : LowerM Unit}
    {elseBlock : Option (LowerM Unit)} (hiter : StraightM [] iter.lower) (hbody : ExtendsM body)
    (helse : ∀ m, elseBlock = some m → ExtendsM m) (span : Span) :
    ExtendsM (lowerFor ctx ids pattern iter body elseBlock span) := by
  unfold lowerFor
  refine .bind (.of_straight straight_ensureOpenBlock) fun _ =>
    .bind (.of_straight (straight_lowerForInit ctx _ hiter _)) fun locals => ?_
  obtain ⟨iterLocal, lenLocal, idxLocal⟩ := locals
  refine .bind (.of_straight (straight_declareTarget ctx _ _ _ _)) fun varLocal => ?_
  intro b u b' h hr
  simp only [bind_eq_ok, currentBlockId_ok, setCurBlock_ok, startNewBlock_ok, terminate_ok,
    pushLoop_ok, popLoop_ok, and_assoc, exists_eq_left, exists_and_left] at h
  obtain ⟨c, hc, _, rfl, _, _, _, condLocal, b₁, htest, _, _, _, _, b₂, hstep, _, _, _, _, b₃, hread, _, b₄, hrunb, _,
    b₅, hgoto, _, hrune⟩ := h
  have hclt := hr.cursor c hc
  have hstart := (Extends.startBlock b).rewire (c := c) (x := b.blocks.length) (.goto b.blocks.length)
    (.inl hc) (by rw [length_startBlock]; omega) (.inr (Nat.le_refl _))
    (by rw [length_startBlock]; omega) (by simp [Terminator.successors, length_startBlock])
  obtain ⟨-, hext₁, hlen₁⟩ := lowerForTest_ok htest
  rw [blocks_moveTo, length_close, blocks_moveTo, length_startBlock] at hlen₁
  have h₁ := hstart.trans hext₁
  have hlen₂ : b₁.startBlock.startBlock.blocks.length = b₁.blocks.length + 2 := by
    rw [length_startBlock, length_startBlock]
  have h₂ := extends_branch ((h₁.trans (.startBlock _)).trans (.startBlock _)) (c := b.blocks.length)
    (.copy (.ofLocal condLocal)) (.inr (Nat.le_refl _)) (by omega) (x := b₁.blocks.length) (by omega)
    (y := b₁.blocks.length + 1) (by omega)
  -- the latch
  simp only [length_close, blocks_moveTo, length_startBlock] at hstep hrune hread hrunb hgoto
  obtain ⟨l, stmt, hl, rfl⟩ := lowerForStep_ok hstep
  obtain rfl : b₁.blocks.length + 1 + 1 = l := Option.some.inj hl
  have h₃ := (((h₂.trans (.startBlock _)).moveTo (x := b₁.blocks.length + 1 + 1)
    (h₁.owns (.inr (by omega))) (by
      rw [length_startBlock, length_close, blocks_moveTo]
      omega)).trans (.pushStmt rfl stmt)).trans (.close _ (t := .goto b.blocks.length) fun y hy => by
        obtain rfl : y = b.blocks.length := by simpa [Terminator.successors] using hy
        rw [length_pushStmt, blocks_moveTo, length_startBlock, length_close, blocks_moveTo, hlen₂]
        exact Nat.lt_of_lt_of_le (Nat.lt_of_succ_le (Nat.le_of_eq hlen₁.symm)) (by omega))
  refine extends_loopTail (B := b₁.blocks.length) (X := b₁.blocks.length + 1) hr h₃
    (h₁.owns (.inr (Nat.le_refl _))) ?_ (h₁.owns (.inr (Nat.le_succ _))) ?_ ?_ helse (fun hin => ?_)
    hgoto hrune
  · rw [length_close, length_pushStmt, blocks_moveTo, length_startBlock, length_close, blocks_moveTo]
    omega
  · rw [length_close, length_pushStmt, blocks_moveTo, length_startBlock, length_close, blocks_moveTo]
    omega
  · rw [length_close, length_pushStmt, blocks_moveTo, length_startBlock, length_close, blocks_moveTo]
    omega
  · have hopt : ExtendsM (lowerOptional (varLocal.map fun var =>
        lowerForRead (ctx.synthExprTy iter.expr).isStr iterLocal idxLocal var span)) := by
      refine .optional fun m hm => ?_
      obtain ⟨var, -, rfl⟩ := Option.map_eq_some_iff.1 hm
      exact .of_straight (straight_lowerForRead _ _ _ _ _)
    exact ExtendsM.bind hopt (fun _ => hbody) _ _ _ (bind_eq_ok.2 ⟨_, b₃, hread, hrunb⟩) hin

/-! ## Match -/

theorem openNextArm_ok {isLast : Bool} {next : Option BlockId} {b b' : BodyBuilder}
    (h : openNextArm isLast b = .ok (next, b')) :
    Extends b b' ∧ b.blocks.length ≤ b'.blocks.length ∧
      ∀ x, next = some x → x = b.blocks.length ∧ b'.blocks.length = b.blocks.length + 1 := by
  unfold openNextArm at h
  cases isLast with
  | true =>
    obtain ⟨rfl, rfl⟩ := pure_eq_ok.1 h
    exact ⟨.refl b, Nat.le_refl _, nofun⟩
  | false =>
    obtain ⟨x, b₁, hs, hp⟩ := bind_eq_ok.1 h
    obtain ⟨rfl, rfl⟩ := startNewBlock_ok.1 hs
    obtain ⟨rfl, rfl⟩ := pure_eq_ok.1 hp
    refine ⟨.startBlock b, by rw [length_startBlock]; exact Nat.le_succ _, ?_⟩
    rintro x ⟨⟩
    exact ⟨rfl, length_startBlock b⟩

theorem extends_lowerGuard {b₀ b b' : BodyBuilder} {u : Unit} {bodyBlock otherwise : Nat}
    {guard : Option Sub} (hr : b₀.InRange) (hguard : ∀ g, guard = some g → StraightM [] g.lower)
    (hb : Extends b₀ b) (hown : b₀.Owns bodyBlock) (hlt : bodyBlock < b.blocks.length)
    (holt : otherwise < b.blocks.length) (h : lowerGuard bodyBlock otherwise guard b = .ok (u, b')) :
    Extends b₀ b' ∧ b.blocks.length ≤ b'.blocks.length := by
  cases guard with
  | none =>
    obtain ⟨-, rfl⟩ := pure_eq_ok.1 h
    exact ⟨hb, Nat.le_refl _⟩
  | some g =>
    unfold lowerGuard at h
    simp only [bind_eq_ok, setCurBlock_ok, startNewBlock_ok, terminate_ok] at h
    obtain ⟨op, b₁, hrun, _, _, ⟨rfl, rfl⟩, _, _, rfl, _, _, rfl, rfl⟩ := h
    have hs := (hguard g rfl).run hrun (hb.inRange hr)
    have h₁ := hb.trans hs.toExtends
    have hlen := hs.len
    have h₂ := extends_branch (h₁.trans (.startBlock b₁)) (c := bodyBlock) op hown
      (by rw [length_startBlock]; omega) (x := b₁.blocks.length) (by rw [length_startBlock]; omega)
      (y := otherwise) (by rw [length_startBlock]; omega)
    refine ⟨h₂.moveTo (h₁.owns (.inr (Nat.le_refl _))) ?_, ?_⟩
    · rw [length_close, blocks_moveTo, length_startBlock]
      omega
    · rw [blocks_moveTo, length_close, blocks_moveTo, length_startBlock]
      omega

section

variable {b₀ : BodyBuilder} (hr : b₀.InRange) {merge : Nat} (scrut : LocalId)

include hr

theorem extends_lowerMatchTest {arm : SubMatchArm}
    (hguard : ∀ g, arm.guard = some g → StraightM [] g.lower) {isLast : Bool} {b b' : BodyBuilder}
    {armEval : Nat} {nextArm : Option BlockId} (hb : Extends b₀ b)
    (hown : b₀.Owns armEval) (hlt : armEval < b.blocks.length) (hmerge : merge < b.blocks.length)
    (h : lowerMatchTest ctx scrut merge arm isLast armEval b = .ok (nextArm, b')) :
    Extends b₀ b' ∧ b.blocks.length ≤ b'.blocks.length ∧
      ∀ x : Nat, nextArm = some x → b₀.Owns x ∧ x < b'.blocks.length := by
  unfold lowerMatchTest at h
  simp only [bind_eq_ok, setCurBlock_ok, startNewBlock_ok, terminate_ok, pure_eq_ok] at h
  obtain ⟨_, _, rfl, _, b₁, hbind, _, _, ⟨rfl, rfl⟩, nx, b₂, hnext, _, _, rfl, _, _, rfl, _, _, rfl, _,
    b₃, hrung, rfl, rfl⟩ := h
  have hmove := hb.moveTo hown hlt
  have hs₁ := StraightM.run (straight_bindPatternToLocal ctx scrut _) hbind (hmove.inRange hr)
  have h₁ := hmove.trans hs₁.toExtends
  have hlen₁ := hs₁.len
  rw [blocks_moveTo] at hlen₁
  obtain ⟨hext₂, hlen₂, hnx⟩ := openNextArm_ok hnext
  rw [length_startBlock] at hlen₂ hnx
  have h₂ := (h₁.trans (.startBlock b₁)).trans hext₂
  have hother : nx.getD merge < b₂.blocks.length := by
    cases nx with
    | none =>
      have hgoal : merge < b₂.blocks.length := by omega
      exact hgoal
    | some x =>
      obtain ⟨rfl, hlen⟩ := hnx x rfl
      rw [hlen]
      exact Nat.lt_succ_self _
  have h₃ := extends_branch h₂ (c := armEval) (patternMatchesOp arm.pattern scrut) hown (by omega)
    (x := b₁.blocks.length) (by omega) (y := nx.getD merge) hother
  have hbown : b₀.Owns b₁.blocks.length := h₁.owns (.inr (Nat.le_refl _))
  have h₄ := h₃.moveTo hbown (by rw [length_close, blocks_moveTo]; omega)
  obtain ⟨h₅, hlen₅⟩ := extends_lowerGuard hr hguard h₄ hbown
    (by rw [blocks_moveTo, length_close, blocks_moveTo]; omega)
    (by rw [blocks_moveTo, length_close, blocks_moveTo]; exact hother) hrung
  rw [blocks_moveTo, length_close, blocks_moveTo] at hlen₅
  refine ⟨h₅, by omega, ?_⟩
  rintro x rfl
  obtain ⟨hx, hlen⟩ := hnx x rfl
  have hx' : x = b₁.blocks.length + 1 := hx
  refine ⟨h₁.owns (.inr ?_), ?_⟩
  · omega
  · omega

theorem extends_lowerMatchArm {arm : SubMatchArm}
    (hguard : ∀ g, arm.guard = some g → StraightM [] g.lower) (hbody : ExtendsM arm.body)
    (isLast : Bool) {b b' : BodyBuilder} {armEval next : Nat} (hb : Extends b₀ b)
    (hown : b₀.Owns armEval) (hlt : armEval < b.blocks.length) (hmerge : merge < b.blocks.length)
    (h : lowerMatchArm ctx scrut merge arm isLast armEval b = .ok (next, b')) :
    Extends b₀ b' ∧ b₀.Owns next ∧ next < b'.blocks.length ∧ merge < b'.blocks.length := by
  unfold lowerMatchArm at h
  simp only [bind_eq_ok, pure_eq_ok] at h
  obtain ⟨nextArm, b₁, htest, _, b₂, hrunb, _, b₃, hgoto, hnext, rfl⟩ := h
  obtain ⟨h₁, hlen₁, hnx⟩ := extends_lowerMatchTest ctx hr scrut hguard hb hown hlt hmerge htest
  have hext := hbody _ _ _ hrunb (h₁.inRange hr)
  have hlen₂ := hext.len
  obtain ⟨h₂, hlen₃⟩ := extends_gotoIfOpen hgoto (h₁.trans hext) (by omega)
  cases nextArm with
  | none =>
    obtain rfl : armEval = next := hnext
    exact ⟨h₂, hown, by omega, by omega⟩
  | some x =>
    obtain rfl : x = next := hnext
    obtain ⟨hxown, hxlt⟩ := hnx x rfl
    exact ⟨h₂, hxown, Nat.lt_of_lt_of_le hxlt (by omega), by omega⟩

theorem extends_lowerMatchArms {arms : List SubMatchArm}
    (harms : ∀ a ∈ arms, (∀ g, a.guard = some g → StraightM [] g.lower) ∧ ExtendsM a.body)
    {b b' : BodyBuilder} {armEval : Nat} {u : Unit} (hb : Extends b₀ b) (hown : b₀.Owns armEval)
    (hlt : armEval < b.blocks.length) (hmerge : merge < b.blocks.length)
    (h : lowerMatchArms ctx scrut merge arms armEval b = .ok (u, b')) :
    Extends b₀ b' ∧ merge < b'.blocks.length := by
  induction arms generalizing b armEval with
  | nil =>
    obtain ⟨-, rfl⟩ := pure_eq_ok.1 h
    exact ⟨hb, hmerge⟩
  | cons arm rest ih =>
    obtain ⟨hguard, hbody⟩ := harms arm (by simp)
    obtain ⟨next, b₁, hrun, hrest⟩ := bind_eq_ok.1 h
    obtain ⟨h₁, hown₁, hlt₁, hmerge₁⟩ :=
      extends_lowerMatchArm ctx hr scrut hguard hbody _ hb hown hlt hmerge hrun
    exact ih (fun a ha => harms a (by simp [ha])) h₁ hown₁ hlt₁ hmerge₁ hrest

end

theorem straight_lowerScrutinee {scrutinee : Sub} (h : StraightM [] scrutinee.lower) (span : Span) :
    StraightM [] (lowerScrutinee scrutinee span) :=
  .bind straight_ensureOpenBlock fun _ => .bind h fun _ => .bind (straight_declareLocal _ _ _ _)
    fun _ => .bind (straight_emitAssign _ _ _) fun _ => .ret _

/-- The builder behind the scrutinee: the merge block and the first arm are open, and the merge block
has got the jump into the first arm. -/
def BodyBuilder.openMatch (b : BodyBuilder) : BodyBuilder :=
  (b.startBlock.startBlock.moveTo b.blocks.length).close (.goto (b.blocks.length + 1))

theorem length_openMatch (b : BodyBuilder) : b.openMatch.blocks.length = b.blocks.length + 2 := by
  unfold openMatch
  rw [length_close, blocks_moveTo, length_startBlock, length_startBlock]

theorem extends_openMatch (b : BodyBuilder) : Extends b.startBlock b.openMatch := by
  refine ((Extends.startBlock b.startBlock).moveTo (.inl rfl) ?_).trans (.close _ ?_)
  · rw [length_startBlock, length_startBlock]
    omega
  · intro y hy
    obtain rfl : y = b.blocks.length + 1 := by simpa [Terminator.successors] using hy
    rw [blocks_moveTo, length_startBlock, length_startBlock]
    exact Nat.lt_succ_self _

theorem lowerMatch_ok {scrutinee : Sub} {arms : List SubMatchArm} {span : Span} {b b' : BodyBuilder}
    {u : Unit} : lowerMatch ctx scrutinee arms span b = .ok (u, b') ↔
      ∃ scrut b₁ u' b₂, lowerScrutinee scrutinee span b = .ok (scrut, b₁) ∧
        lowerMatchArms ctx scrut b₁.blocks.length arms (b₁.blocks.length + 1) b₁.openMatch =
          .ok (u', b₂) ∧ b' = b₂.moveTo b₁.blocks.length := by
  have hpre (b₁ : BodyBuilder) : b₁.startBlock.blocks.length - 1 = b₁.blocks.length := by
    rw [length_startBlock, Nat.add_sub_cancel]
  unfold lowerMatch
  simp only [bind_eq_ok, currentBlockId_ok, setCurBlock_ok, startNewBlock_ok, terminate_ok]
  constructor
  · rintro ⟨scrut, b₁, hrun, _, _, ⟨rfl, rfl⟩, _, _, ⟨rfl, rfl⟩, pre, _, ⟨hcur, rfl⟩, _, _, rfl, _, _, rfl,
      _, b₂, harms, rfl⟩
    obtain rfl : b₁.startBlock.blocks.length = pre := Option.some.inj hcur
    rw [hpre, length_startBlock] at harms
    exact ⟨scrut, b₁, _, b₂, hrun, harms, rfl⟩
  · rintro ⟨scrut, b₁, _, b₂, hrun, harms, rfl⟩
    refine ⟨scrut, b₁, hrun, _, _, ⟨rfl, rfl⟩, _, _, ⟨rfl, rfl⟩, _, _, ⟨rfl, rfl⟩, (), _, rfl, (), _, rfl,
      (), b₂, ?_, rfl⟩
    rw [hpre, length_startBlock]
    exact harms

/-- What a match writes behind its scrutinee: only blocks of its own, and not the block in which the
scrutinee has been evaluated. -/
theorem extends_openMatch_arms {arms : List SubMatchArm}
    (harms : ∀ a ∈ arms, (∀ g, a.guard = some g → StraightM [] g.lower) ∧ ExtendsM a.body)
    {scrut : LocalId} {b b' : BodyBuilder} {u : Unit} (hr : b.InRange)
    (h : lowerMatchArms ctx scrut b.blocks.length arms (b.blocks.length + 1) b.openMatch = .ok (u, b')) :
    Extends b.startBlock (b'.moveTo b.blocks.length) := by
  have hlen := length_openMatch b
  obtain ⟨h₁, hmerge⟩ := extends_lowerMatchArms ctx ((Extends.startBlock b).inRange hr) scrut harms
    (extends_openMatch b) (.inr (by rw [length_startBlock])) (by omega) (by omega) h
  exact h₁.moveTo (.inl rfl) hmerge

theorem extends_lowerMatch {scrutinee : Sub} {arms : List SubMatchArm}
    (hscrut : StraightM [] scrutinee.lower)
    (harms : ∀ a ∈ arms, (∀ g, a.guard = some g → StraightM [] g.lower) ∧ ExtendsM a.body)
    (span : Span) : ExtendsM (lowerMatch ctx scrutinee arms span) := by
  intro b u b' h hr
  obtain ⟨_, b₁, _, _, hrun, harmsrun, rfl⟩ := (lowerMatch_ok ctx).1 h
  have hs := (straight_lowerScrutinee hscrut span).run hrun hr
  exact (hs.toExtends.trans (.startBlock b₁)).trans
    (extends_openMatch_arms ctx harms (hs.inRange hr) harmsrun)

theorem extends_lowerWith (item : Hir.WithItem) {body : LowerM Unit} (hbody : ExtendsM body)
    (span : Span) : ExtendsM (lowerWith ctx item body span) := by
  unfold lowerWith
  refine .bind (.of_straight straight_ensureOpenBlock) fun _ =>
    .bind (.of_straight (straight_lowerExpr ctx _)) fun _ => ?_
  cases item.binding with
  | none => exact hbody
  | some p =>
    exact .bind (.of_straight (straight_declareLocalForDef _ _ _ _ _)) fun _ =>
      .bind (.of_straight (straight_emitAssign _ _ _)) fun _ => hbody

theorem extends_lowerHandlers (span : Span) {handlers : List SubHandler}
    (h : ∀ hd ∈ handlers, ExtendsM hd.body) : ExtendsM (lowerHandlers ctx span handlers) := by
  induction handlers with
  | nil => exact .ret _
  | cons hd rest ih =>
    have hrest := ih fun hd' hm => h hd' (by simp [hm])
    have hhead := h hd (by simp)
    unfold lowerHandlers
    cases hd.binding with
    | none => exact .bind hhead fun _ => hrest
    | some p =>
      exact .bind (.of_straight (straight_declareLocalForDef _ _ _ _ _)) fun _ =>
        .bind hhead fun _ => hrest

theorem extends_lowerTry {body : LowerM Unit} {handlers : List SubHandler}
    {elseBlock finallyBlock : Option (LowerM Unit)} (hbody : ExtendsM body)
    (hhandlers : ∀ hd ∈ handlers, ExtendsM hd.body)
    (helse : ∀ m, elseBlock = some m → ExtendsM m)
    (hfinally : ∀ m, finallyBlock = some m → ExtendsM m) (span : Span) :
    ExtendsM (lowerTry ctx body handlers elseBlock finallyBlock span) :=
  .bind hbody fun _ => .bind (extends_lowerHandlers ctx span hhandlers) fun _ =>
    .bind (.optional helse) fun _ => .optional hfinally

/-! ## All statements -/

theorem straight_guards {ctx : LowerCtx} {o : Option Hir.Expr} (g : Sub)
    (h : o.map (subOf ctx) = some g) : StraightM [] g.lower := by
  obtain ⟨e, -, rfl⟩ := Option.map_eq_some_iff.1 h
  exact straight_lowerExpr ctx e

mutual

/-- Every statement writes at the cursor and to blocks of its own. -/
theorem extends_lowerStmt : ∀ s : Hir.Stmt, ExtendsM (lowerStmt ctx s)
  | .mk .pass _ =>
    .of_straight (.bind straight_ensureOpenBlock fun _ => straight_emitStmt _ _)
  | .mk (.expr e) _ =>
    .of_straight (.bind straight_ensureOpenBlock fun _ => .bind (straight_lowerExpr ctx e) fun _ =>
      .ret _)
  | .mk (.«let» body) _ => .of_straight (straight_lowerLet ctx body)
  | .mk (.assign target value) span => .of_straight (straight_lowerAssign ctx target value span)
  | .mk (.«if» arms elseBlock) _ =>
    extends_lowerIf (extends_lowerArms arms) (extends_lowerElse elseBlock)
  | .mk (.loop (.«while» cond body elseBlock _)) _ =>
    extends_lowerWhile (straight_lowerExpr ctx cond) (extends_lowerBlock body)
      (extends_lowerElse elseBlock)
  | .mk (.loop (.«for» ids pattern iter body elseBlock _)) span =>
    extends_lowerFor ctx ids pattern (straight_lowerExpr ctx iter) (extends_lowerBlock body)
      (extends_lowerElse elseBlock) span
  | .mk (.«match» scrutinee arms) span =>
    extends_lowerMatch ctx (straight_lowerExpr ctx scrutinee) (extends_lowerMatchBodies arms) span
  | .mk (.«with» item body) span => extends_lowerWith ctx item (extends_lowerBlock body) span
  | .mk (.«try» body handlers elseBlock finallyBlock) span =>
    extends_lowerTry ctx (extends_lowerBlock body) (extends_lowerHandlerBodies handlers)
      (extends_lowerElse elseBlock) (extends_lowerElse finallyBlock) span
  | .mk (.«return» value) span => extends_lowerReturn ctx value span
  | .mk .«break» _ => extends_lowerBreak
  | .mk .«continue» _ => extends_lowerContinue
  | .mk (.raise exc _) _ => extends_lowerRaise ctx exc
  | .mk (.item _) _ => .ret _

theorem extends_lowerBlock : ∀ block : Hir.Block, ExtendsM (lowerBlock ctx block)
  | .mk stmts _ => extends_lowerBlockWith (extends_lowerStmts stmts)

theorem extends_lowerStmts : ∀ stmts : List Hir.Stmt, ∀ m ∈ lowerStmts ctx stmts, ExtendsM m
  | [] => nofun
  | s :: rest => List.forall_mem_cons.2 ⟨extends_lowerStmt s, extends_lowerStmts rest⟩

theorem extends_lowerArms : ∀ arms : List (Hir.Expr × Hir.Block),
    ∀ a ∈ lowerArms ctx arms, StraightM [] a.cond.lower ∧ ExtendsM a.body
  | [] => nofun
  | (cond, body) :: rest =>
    List.forall_mem_cons.2 ⟨⟨straight_lowerExpr ctx cond, extends_lowerBlock body⟩,
      extends_lowerArms rest⟩

theorem extends_lowerElse : ∀ o : Option Hir.Block, ∀ m, lowerElse ctx o = some m → ExtendsM m
  | none => nofun
  | some block => fun _ h => Option.some.inj h ▸ extends_lowerBlock block

theorem extends_lowerMatchBodies : ∀ arms : List Hir.MatchArm, ∀ a ∈ lowerMatchBodies ctx arms,
    (∀ g, a.guard = some g → StraightM [] g.lower) ∧ ExtendsM a.body
  | [] => nofun
  | .mk _ _ _ body _ :: rest =>
    List.forall_mem_cons.2 ⟨⟨straight_guards, extends_lowerBlock body⟩, extends_lowerMatchBodies rest⟩

theorem extends_lowerHandlerBodies : ∀ handlers : List Hir.ExceptHandler,
    ∀ hd ∈ lowerHandlerBodies ctx handlers, ExtendsM hd.body
  | [] => nofun
  | .mk _ _ body _ :: rest =>
    List.forall_mem_cons.2 ⟨extends_lowerBlock body, extends_lowerHandlerBodies rest⟩

end

end

end Cobrust.Mir
