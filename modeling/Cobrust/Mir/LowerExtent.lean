import Cobrust.Control.Transition
import Cobrust.Mir.Lower.Stmt
import Mathlib.Logic.Relation

/-!
# The extent of what lowering writes

Every lowering function writes to the block under the cursor and to blocks that it allocates itself
(`Extends`). The code of an expression has one entry and one exit besides: its blocks branch only to
its own new blocks, and the block in which it ends is reached from the one in which it starts
(`Straight`). The latter is stated for the final terminators of the body, since the last block of the
expression is closed by the code behind it.
-/

namespace Cobrust.Mir

open Control

namespace BodyBuilder

/-- The terminator of a block. -/
def term (b : BodyBuilder) (x : Nat) : Option Terminator :=
  b.blocks[x]?.map BasicBlock.terminator

/-- The number of statements of a block; 0 for a block that does not exist. -/
def stmtCount (b : BodyBuilder) (x : Nat) : Nat :=
  (b.blocks[x]?.map fun block => block.statements.length).getD 0

/-- The targets of block `x` under the terminators `f`. -/
def targets (f : Nat → Option Terminator) (x : Nat) : List Nat :=
  ((f x).map Terminator.successors).getD []

/-- A path of edges from one block to another. -/
def Path (f : Nat → Option Terminator) : Nat → Nat → Prop :=
  Relation.ReflTransGen fun x y => y ∈ targets f x

theorem targets_eq {f : Nat → Option Terminator} {x : Nat} {t : Terminator}
    (h : f x = some t) : targets f x = t.successors := by
  simp [targets, h]

/-- The cursor, the targets of the blocks and those of the loops are blocks of the vector. -/
structure InRange (b : BodyBuilder) : Prop where
  cursor : ∀ x : Nat, b.curBlock = some x → x < b.blocks.length
  targets : ∀ x, ∀ y ∈ targets b.term x, y < b.blocks.length
  loops : ∀ l ∈ b.loopStack, (l.1 : Nat) < b.blocks.length ∧ (l.2 : Nat) < b.blocks.length

/-- The blocks that code emitted from `b` on may write to. -/
def Owns (b : BodyBuilder) (x : Nat) : Prop :=
  b.curBlock = some x ∨ b.blocks.length ≤ x

/-! ### The primitive operations -/

theorem length_startBlock (b : BodyBuilder) : b.startBlock.blocks.length = b.blocks.length + 1 := by
  simp [startBlock]

@[simp] theorem curBlock_startBlock (b : BodyBuilder) :
    b.startBlock.curBlock = some b.blocks.length := rfl

@[simp] theorem loopStack_startBlock (b : BodyBuilder) : b.startBlock.loopStack = b.loopStack := rfl

theorem block_startBlock_of_lt {b : BodyBuilder} {x : Nat} (h : x < b.blocks.length) :
    b.startBlock.blocks[x]? = b.blocks[x]? := by
  simp only [startBlock]
  rw [List.getElem?_append_left h]

theorem term_startBlock_of_lt {b : BodyBuilder} {x : Nat} (h : x < b.blocks.length) :
    b.startBlock.term x = b.term x := by
  unfold term
  rw [block_startBlock_of_lt h]

theorem term_startBlock_self (b : BodyBuilder) :
    b.startBlock.term b.blocks.length = some .unreachable := by
  simp [term, startBlock]

theorem targets_startBlock (b : BodyBuilder) (x : Nat) :
    targets b.startBlock.term x = targets b.term x := by
  unfold targets
  rcases Nat.lt_trichotomy x b.blocks.length with h | h | h
  · rw [term_startBlock_of_lt h]
  · rw [h, term_startBlock_self]
    simp [term, Terminator.successors]
  · have hnew : b.startBlock.blocks[x]? = none := List.getElem?_eq_none (by rw [length_startBlock]; exact h)
    have hold : b.blocks[x]? = none := List.getElem?_eq_none h.le
    rw [term, term, hnew, hold]

theorem stmtCount_startBlock (b : BodyBuilder) (x : Nat) :
    b.startBlock.stmtCount x = b.stmtCount x := by
  unfold stmtCount
  rcases Nat.lt_trichotomy x b.blocks.length with h | h | h
  · rw [block_startBlock_of_lt h]
  · simp [startBlock, h]
  · have hnew : b.startBlock.blocks[x]? = none := List.getElem?_eq_none (by rw [length_startBlock]; exact h)
    have hold : b.blocks[x]? = none := List.getElem?_eq_none h.le
    rw [hnew, hold]

@[simp] theorem blocks_moveTo (b : BodyBuilder) (x : Nat) : (b.moveTo x).blocks = b.blocks := rfl

@[simp] theorem curBlock_moveTo (b : BodyBuilder) (x : Nat) : (b.moveTo x).curBlock = some x := rfl

@[simp] theorem loopStack_moveTo (b : BodyBuilder) (x : Nat) :
    (b.moveTo x).loopStack = b.loopStack := rfl

@[simp] theorem term_moveTo (b : BodyBuilder) (x y : Nat) : (b.moveTo x).term y = b.term y := rfl

@[simp] theorem stmtCount_moveTo (b : BodyBuilder) (x y : Nat) :
    (b.moveTo x).stmtCount y = b.stmtCount y := rfl

@[simp] theorem length_pushStmt (b : BodyBuilder) (c : Nat) (s : Statement) :
    (b.pushStmt c s).blocks.length = b.blocks.length := by
  simp [pushStmt]

theorem block_pushStmt_of_ne {b : BodyBuilder} {c x : Nat} (s : Statement) (h : c ≠ x) :
    (b.pushStmt c s).blocks[x]? = b.blocks[x]? := by
  simp [pushStmt, h]

@[simp] theorem term_pushStmt (b : BodyBuilder) (c : Nat) (s : Statement) (x : Nat) :
    (b.pushStmt c s).term x = b.term x := by
  unfold term pushStmt
  simp only [List.getElem?_modify]
  by_cases h : c = x
  · simp [h, Option.map_map, Function.comp_def]
  · simp [h]

theorem stmtCount_pushStmt_le (b : BodyBuilder) (c : Nat) (s : Statement) (x : Nat) :
    b.stmtCount x ≤ (b.pushStmt c s).stmtCount x := by
  unfold stmtCount pushStmt
  simp only [List.getElem?_modify]
  by_cases h : c = x
  · cases hx : b.blocks[x]? with
    | none => simp
    | some block => simp [h]
  · simp [h]

@[simp] theorem length_close (b : BodyBuilder) (t : Terminator) :
    (b.close t).blocks.length = b.blocks.length := by
  unfold close
  cases b.curBlock with
  | none => rfl
  | some c => simp

@[simp] theorem curBlock_close (b : BodyBuilder) (t : Terminator) : (b.close t).curBlock = none := by
  unfold close
  cases h : b.curBlock with
  | none => exact h
  | some c => rfl

@[simp] theorem loopStack_close (b : BodyBuilder) (t : Terminator) :
    (b.close t).loopStack = b.loopStack := by
  unfold close
  cases b.curBlock with
  | none => rfl
  | some c => rfl

theorem block_close_of_ne {b : BodyBuilder} {x : Nat} (t : Terminator)
    (h : b.curBlock ≠ some x) : (b.close t).blocks[x]? = b.blocks[x]? := by
  unfold close
  cases hc : b.curBlock with
  | none => rfl
  | some c =>
    have hne : c ≠ x := fun e => h (by rw [hc, e])
    simp [hne]

theorem term_close_of_ne {b : BodyBuilder} {x : Nat} (t : Terminator)
    (h : b.curBlock ≠ some x) : (b.close t).term x = b.term x := by
  unfold term
  rw [block_close_of_ne t h]

theorem term_close_self {b : BodyBuilder} {c : Nat} (t : Terminator) (h : b.curBlock = some c)
    (hc : c < b.blocks.length) : (b.close t).term c = some t := by
  unfold term close
  simp [h, hc]

/-- Going to block `c` and closing it changes the terminator of `c` only. -/
theorem term_close_moveTo {b : BodyBuilder} {c : Nat} (t : Terminator) (hc : c < b.blocks.length)
    (x : Nat) : ((b.moveTo c).close t).term x = if x = c then some t else b.term x := by
  by_cases h : x = c
  · rw [if_pos h, h]
    exact term_close_self t rfl hc
  · rw [if_neg h]
    exact term_close_of_ne t fun e => h (Option.some.inj e).symm

@[simp] theorem stmtCount_close (b : BodyBuilder) (t : Terminator) (x : Nat) :
    (b.close t).stmtCount x = b.stmtCount x := by
  unfold stmtCount close
  cases b.curBlock with
  | none => rfl
  | some c =>
    simp only [List.getElem?_modify]
    by_cases h : c = x
    · simp [h, Option.map_map, Function.comp_def]
    · simp [h]

/-! ### What a lowering function may write -/

/-- `b'` is `b` with code added at the cursor and in new blocks. -/
structure Extends (b b' : BodyBuilder) : Prop where
  len : b.blocks.length ≤ b'.blocks.length
  old : ∀ x : Nat, x < b.blocks.length → b.curBlock ≠ some x → b'.blocks[x]? = b.blocks[x]?
  cursor : ∀ x : Nat, b'.curBlock = some x → b.Owns x
  inRange : b.InRange → b'.InRange
  grown : ∀ x, b.stmtCount x ≤ b'.stmtCount x
  loops : b'.loopStack = b.loopStack

namespace Extends

theorem refl (b : BodyBuilder) : Extends b b where
  len := Nat.le_refl _
  old _ _ _ := rfl
  cursor _ h := .inl h
  inRange h := h
  grown _ := Nat.le_refl _
  loops := rfl

theorem owns {b b' : BodyBuilder} (h : Extends b b') {x : Nat} (hx : b'.Owns x) : b.Owns x := by
  rcases hx with hx | hx
  · exact h.cursor x hx
  · exact .inr (Nat.le_trans h.len hx)

theorem trans {b₁ b₂ b₃ : BodyBuilder} (h₁ : Extends b₁ b₂) (h₂ : Extends b₂ b₃) :
    Extends b₁ b₃ where
  len := Nat.le_trans h₁.len h₂.len
  old x hx hne := by
    have hne₂ : b₂.curBlock ≠ some x := by
      intro e
      rcases h₁.cursor x e with e | e
      · exact hne e
      · exact Nat.not_le_of_lt hx e
    rw [h₂.old x (Nat.lt_of_lt_of_le hx h₁.len) hne₂, h₁.old x hx hne]
  cursor x hx := h₁.owns (h₂.cursor x hx)
  inRange h := h₂.inRange (h₁.inRange h)
  grown x := Nat.le_trans (h₁.grown x) (h₂.grown x)
  loops := by rw [h₂.loops, h₁.loops]

theorem term_eq {b b' : BodyBuilder} (h : Extends b b') {x : Nat} (hx : x < b.blocks.length)
    (hne : b.curBlock ≠ some x) : b'.term x = b.term x := by
  unfold term
  rw [h.old x hx hne]

theorem of_blocks_eq {b b' : BodyBuilder} (hblocks : b'.blocks = b.blocks)
    (hcur : b'.curBlock = b.curBlock) (hloops : b'.loopStack = b.loopStack) : Extends b b' where
  len := by rw [hblocks]
  old _ _ _ := by rw [hblocks]
  cursor x hx := .inl (by rw [← hcur, hx])
  inRange h := by
    refine ⟨?_, ?_, ?_⟩
    · rw [hblocks, hcur]
      exact h.cursor
    · have hterm : b'.term = b.term := by
        funext x
        rw [term, term, hblocks]
      rw [hblocks, hterm]
      exact h.targets
    · rw [hblocks, hloops]
      exact h.loops
  grown x := by simp [stmtCount, hblocks]
  loops := hloops

theorem startBlock (b : BodyBuilder) : Extends b b.startBlock where
  len := by rw [length_startBlock]; exact Nat.le_succ _
  old x hx _ := block_startBlock_of_lt hx
  cursor x hx := .inr (Nat.le_of_eq (Option.some.inj hx))
  inRange h := by
    refine ⟨?_, ?_, ?_⟩
    · intro x hx
      rw [length_startBlock, ← Option.some.inj hx]
      exact Nat.lt_succ_self _
    · intro x y hy
      rw [length_startBlock]
      exact Nat.lt_succ_of_lt (h.targets x y (targets_startBlock b x ▸ hy))
    · intro l hl
      rw [length_startBlock]
      exact ⟨Nat.lt_succ_of_lt (h.loops l hl).1, Nat.lt_succ_of_lt (h.loops l hl).2⟩
  grown x := Nat.le_of_eq (stmtCount_startBlock b x).symm
  loops := rfl

theorem pushStmt {b : BodyBuilder} {c : Nat} (hc : b.curBlock = some c) (s : Statement) :
    Extends b (b.pushStmt c s) where
  len := by rw [length_pushStmt]
  old x _ hne := block_pushStmt_of_ne s fun e => hne (by rw [hc, e])
  cursor x hx := .inl hx
  inRange h := by
    refine ⟨?_, ?_, ?_⟩
    · rw [length_pushStmt]
      exact h.cursor
    · have hterm : (b.pushStmt c s).term = b.term := funext (term_pushStmt b c s)
      rw [length_pushStmt, hterm]
      exact h.targets
    · rw [length_pushStmt]
      exact h.loops
  grown := stmtCount_pushStmt_le b c s
  loops := rfl

theorem close (b : BodyBuilder) {t : Terminator} (ht : ∀ y ∈ t.successors, (y : Nat) < b.blocks.length) :
    Extends b (b.close t) where
  len := by rw [length_close]
  old x _ hne := block_close_of_ne t hne
  cursor x hx := by simp at hx
  inRange h := by
    refine ⟨fun x hx => by simp at hx, ?_, ?_⟩
    · intro x y hy
      rw [length_close]
      by_cases hx : b.curBlock = some x
      · rw [targets_eq (term_close_self t hx (h.cursor x hx))] at hy
        exact ht y hy
      · unfold BodyBuilder.targets at hy
        rw [term_close_of_ne t hx] at hy
        exact h.targets x y hy
    · rw [length_close, loopStack_close]
      exact h.loops
  grown x := by rw [stmtCount_close]
  loops := loopStack_close b t

theorem moveTo {b b' : BodyBuilder} (h : Extends b b') {x : Nat} (hx : b.Owns x)
    (hlt : x < b'.blocks.length) : Extends b (b'.moveTo x) where
  len := h.len
  old := h.old
  cursor y hy := by
    obtain rfl : x = y := Option.some.inj hy
    exact hx
  inRange hr := by
    refine ⟨fun y hy => ?_, (h.inRange hr).targets, (h.inRange hr).loops⟩
    obtain rfl : x = y := Option.some.inj hy
    exact hlt
  grown := h.grown
  loops := h.loops

theorem rewire {b b' : BodyBuilder} (h : Extends b b') {c x : Nat} (t : Terminator) (hc : b.Owns c)
    (hclt : c < b'.blocks.length) (hx : b.Owns x) (hxlt : x < b'.blocks.length)
    (ht : ∀ y ∈ t.successors, (y : Nat) < b'.blocks.length) :
    Extends b (((b'.moveTo c).close t).moveTo x) := by
  refine ((h.moveTo hc hclt).trans (.close _ ht)).moveTo hx ?_
  rw [length_close, blocks_moveTo]
  exact hxlt

end Extends

/-! ### Straight code -/

/-- The final terminators `f` are those of `b'` on every block that code from `b` to `b'` closed. -/
def Settled (f : Nat → Option Terminator) (b b' : BodyBuilder) : Prop :=
  ∀ x : Nat, b.Owns x → x < b'.blocks.length → b'.curBlock ≠ some x → f x = b'.term x

/-- `b'` is `b` with straight code added: one entry, and one exit apart from jumps to the blocks in
`E`. -/
structure Straight (E : List Nat) (b b' : BodyBuilder) : Prop extends Extends b b' where
  closed : ∀ f, Settled f b b' → ∀ x : Nat, b.Owns x → x < b'.blocks.length →
    b'.curBlock ≠ some x → ∀ y ∈ targets f x, y ∈ E ∨ b.blocks.length ≤ y ∧ y < b'.blocks.length
  path : ∀ f, Settled f b b' → ∀ c : Nat, b.curBlock = some c →
    ∃ c' : Nat, b'.curBlock = some c' ∧ Path f c c'
  /-- The block in which the code ends is the first one or has no terminator yet. -/
  fresh : ∀ x : Nat, b'.curBlock = some x →
    b.curBlock = some x ∧ b'.term x = b.term x ∨ b.blocks.length ≤ x ∧ b'.term x = some .unreachable

theorem Settled.left {f : Nat → Option Terminator} {b₁ b₂ b₃ : BodyBuilder}
    (h : Settled f b₁ b₃) (h₂ : Extends b₂ b₃) : Settled f b₁ b₂ := by
  intro x hx hlt hne
  have hne₃ : b₃.curBlock ≠ some x := by
    intro e
    rcases h₂.cursor x e with e | e
    · exact hne e
    · exact Nat.not_le_of_lt hlt e
  rw [h x hx (Nat.lt_of_lt_of_le hlt h₂.len) hne₃, h₂.term_eq hlt hne]

theorem Settled.right {f : Nat → Option Terminator} {b₁ b₂ b₃ : BodyBuilder}
    (h : Settled f b₁ b₃) (h₁ : Extends b₁ b₂) : Settled f b₂ b₃ :=
  fun x hx hlt hne => h x (h₁.owns hx) hlt hne

namespace Straight

variable {E : List Nat}

theorem refl (b : BodyBuilder) : Straight E b b where
  toExtends := Extends.refl b
  closed f _ x hx hlt hne := by
    rcases hx with hx | hx
    · exact absurd hx hne
    · exact absurd hlt (Nat.not_lt_of_le hx)
  path _ _ c hc := ⟨c, hc, .refl⟩
  fresh x hx := .inl ⟨hx, rfl⟩

theorem trans {b₁ b₂ b₃ : BodyBuilder} (h₁ : Straight E b₁ b₂) (h₂ : Straight E b₂ b₃) :
    Straight E b₁ b₃ where
  toExtends := h₁.toExtends.trans h₂.toExtends
  closed f hf x hx hlt hne y hy := by
    by_cases hown : b₂.Owns x
    · rcases h₂.closed f (hf.right h₁.toExtends) x hown hlt hne y hy with hE | ⟨hlo, hhi⟩
      · exact .inl hE
      · exact .inr ⟨Nat.le_trans h₁.len hlo, hhi⟩
    · have hlt₂ : x < b₂.blocks.length := Nat.lt_of_not_le fun e => hown (.inr e)
      rcases h₁.closed f (hf.left h₂.toExtends) x hx hlt₂ (fun e => hown (.inl e)) y hy with
        hE | ⟨hlo, hhi⟩
      · exact .inl hE
      · exact .inr ⟨hlo, Nat.lt_of_lt_of_le hhi h₂.len⟩
  path f hf c hc := by
    obtain ⟨c₂, hc₂, hp₁⟩ := h₁.path f (hf.left h₂.toExtends) c hc
    obtain ⟨c₃, hc₃, hp₂⟩ := h₂.path f (hf.right h₁.toExtends) c₂ hc₂
    exact ⟨c₃, hc₃, hp₁.trans hp₂⟩
  fresh x hx := by
    rcases h₂.fresh x hx with ⟨hx₂, ht₂⟩ | ⟨hx₂, ht₂⟩
    · rcases h₁.fresh x hx₂ with ⟨hx₁, ht₁⟩ | ⟨hx₁, ht₁⟩
      · exact .inl ⟨hx₁, ht₂.trans ht₁⟩
      · exact .inr ⟨hx₁, ht₂.trans ht₁⟩
    · exact .inr ⟨Nat.le_trans h₁.len hx₂, ht₂⟩

theorem mono {b b' : BodyBuilder} {E' : List Nat} (h : Straight E b b') (hE : ∀ x ∈ E, x ∈ E') :
    Straight E' b b' where
  toExtends := h.toExtends
  closed f hf x hx hlt hne y hy := by
    rcases h.closed f hf x hx hlt hne y hy with h | h
    · exact .inl (hE y h)
    · exact .inr h
  path := h.path
  fresh := h.fresh

/-- A change that closes no block and stays in the current one. -/
theorem of_same_block {b b' : BodyBuilder} (h : Extends b b')
    (hlen : b'.blocks.length = b.blocks.length) (hcur : b'.curBlock = b.curBlock)
    (hterm : ∀ x, b'.term x = b.term x) : Straight E b b' where
  toExtends := h
  closed f _ x hx hlt hne := by
    rcases hx with hx | hx
    · exact absurd (by rw [hcur, hx]) hne
    · exact absurd (hlen ▸ hlt) (Nat.not_lt_of_le hx)
  path _ _ c hc := ⟨c, by rw [hcur, hc], .refl⟩
  fresh x hx := .inl ⟨by rw [← hcur, hx], hterm x⟩

end Straight

end BodyBuilder

end Cobrust.Mir
