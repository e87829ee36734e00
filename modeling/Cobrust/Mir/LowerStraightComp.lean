import Cobrust.Mir.LowerStraightExpr

/-!
# Comprehensions are lowered to straight code

The clauses of a comprehension are loops. With them every expression is covered.
-/

namespace Cobrust.Mir

open Control BodyBuilder
open Hir (Expr ExprKind CallArg IndexKind FormatPart DictEntry CompElem CompClause CompKind)

variable {E : List Nat} (ctx : LowerCtx)

theorem straight_declareBindings (namePrefix : String) (span : Span) (ids : List DefId) :
    StraightM E (declareBindings ctx namePrefix span ids) := by
  induction ids with
  | nil => exact .ret _
  | cons id rest ih => exact .bind (straight_declareLocalForDef _ _ _ _ _) fun _ => ih

theorem straight_declareTarget (namePrefix : String) (target : Hir.Pattern) (ids : List DefId)
    (span : Span) : StraightM E (declareTarget ctx namePrefix target ids span) := by
  unfold declareTarget
  split
  · exact .bind (straight_declareLocalForDef _ _ _ _ _) fun _ => .ret _
  · exact .bind (straight_declareBindings _ _ _ _) fun _ => .ret _

theorem straight_lowerGuards {header : Nat} {guards : List Sub}
    (h : ∀ g ∈ guards, StraightM [] g.lower) : StraightM [header] (lowerGuards header guards) := by
  induction guards with
  | nil => exact .ret _
  | cons g rest ih =>
    refine .bind ((h g (by simp)).mono (by simp)) fun op => .bind ?_ fun _ =>
      ih fun g hg => h g (by simp [hg])
    refine straight_continueAfter (fun next => ?_) fun next y hy => ?_
    · simp [switchTrue, Terminator.successors]
    · simpa [switchTrue, Terminator.successors] using hy

theorem straight_lowerCompBody {lowerElem : LowerM Operand} (h : StraightM E lowerElem)
    (kind : CompKind) (acc : LocalId) (span : Span) :
    StraightM E (lowerCompBody lowerElem kind acc span) :=
  .bind h fun _ => .bind (straight_declareLocal _ _ _ _) fun _ => straight_callSymbol _ _ _

/-- The blocks of a clause. The cursor `c` of `b` goes to the header, whose code is lowered from `b₂`
to `b₃` and leaves to the body or to the exit; the body is lowered from `b₄` to `b₅` and goes back. -/
theorem straight_loop {b b₂ b₃ b₄ b₅ b' : BodyBuilder} {c a e : Nat} {switch : Terminator}
    (hr : b.InRange) (hc : b.curBlock = some c)
    (h₂ : Rewired b.startBlock b₂ c (.goto b.blocks.length) b.blocks.length)
    (hext₂ : Extends b b₂) (hhead : Straight [] b₂ b₃) (ha : b₃.curBlock = some a)
    (hswitch : switch.successors = [b₃.blocks.length + 1, b₃.blocks.length])
    (h₄ : Rewired b₃.startBlock.startBlock b₄ a switch b₃.blocks.length) (hext₄ : Extends b b₄)
    (hbody : Straight [b.blocks.length] b₄ b₅) (he : b₅.curBlock = some e)
    (h' : Rewired b₅ b' e (.goto b.blocks.length) (b₃.blocks.length + 1))
    (hext' : Extends b b') : Straight [] b b' := by
  have hlt := hr.cursor c hc
  have hlen₂ : b₂.blocks.length = b.blocks.length + 1 := by rw [h₂.len, length_startBlock]
  have hlen₄ : b₄.blocks.length = b₃.blocks.length + 2 := by
    rw [h₄.len, length_startBlock, length_startBlock]
  have hle₃ := hhead.len
  have hle₅ := hbody.len
  have hown₂ (x : Nat) : b₂.Owns x ↔ x = b.blocks.length ∨ b.blocks.length + 1 ≤ x := by
    rw [owns_iff h₂.cur, hlen₂]
  have hown₄ (x : Nat) : b₄.Owns x ↔ x = b₃.blocks.length ∨ b₃.blocks.length + 2 ≤ x := by
    rw [owns_iff h₄.cur, hlen₄]
  have haown := (hown₂ a).1 (hhead.cursor a ha)
  have heown := (hown₄ e).1 (hbody.cursor e he)
  have halt := (hhead.inRange (hext₂.inRange hr)).cursor a ha
  have helt := (hbody.inRange (hext₄.inRange hr)).cursor e he
  have hterm₄ (x : Nat) (hx : x < b₃.blocks.length) (hxa : x ≠ a) : b'.term x = b₃.term x := by
    rw [h'.other x (by omega), hbody.term_eq (by omega) (by rw [h₄.cur]; simp; omega),
      h₄.other x hxa, term_startBlock_of_lt (by rw [length_startBlock]; omega),
      term_startBlock_of_lt hx]
  have hset₂ (f : Nat → Option Terminator) (hf : Settled f b b') : Settled f b₂ b₃ := by
    refine settled_of_later hf (fun x hx => hext₂.owns hx) (by rw [h'.len]; omega) ?_
    intro x hx hx₃ hne
    refine ⟨by rw [h'.cur]; simp; omega, hterm₄ x hx₃ fun e' => hne (by rw [ha, e'])⟩
  have hset₄ (f : Nat → Option Terminator) (hf : Settled f b b') : Settled f b₄ b₅ := by
    refine settled_of_later hf (fun x hx => hext₄.owns hx) (by rw [h'.len]) ?_
    intro x hx hx₅ hne
    have hxown := (hown₄ x).1 hx
    exact ⟨by rw [h'.cur]; simp; omega, h'.other x fun e' => hne (by rw [he, e'])⟩
  have hfin (f : Nat → Option Terminator) (hf : Settled f b b') (x : Nat) (hx : b.Owns x)
      (hxlt : x < b₅.blocks.length) (hne : x ≠ b₃.blocks.length + 1) : f x = b'.term x :=
    hf x hx (by rw [h'.len]; exact hxlt) (by rw [h'.cur]; simp; omega)
  have htargets_c (f : Nat → Option Terminator) (hf : Settled f b b') :
      targets f c = [b.blocks.length] := by
    rw [targets_eq (t := .goto b.blocks.length)]
    · rfl
    · rw [hfin f hf c (.inl hc) (by omega) (by omega), hterm₄ c (by omega) (by omega),
        hhead.term_eq (by omega) (by rw [h₂.cur]; simp; omega), h₂.self]
  have htargets_a (f : Nat → Option Terminator) (hf : Settled f b b') :
      targets f a = [b₃.blocks.length + 1, b₃.blocks.length] := by
    rw [targets_eq (t := switch), hswitch]
    rw [hfin f hf a (.inr (by omega)) (by omega) (by omega), h'.other a (by omega),
      hbody.term_eq (by omega) (by rw [h₄.cur]; simp; omega), h₄.self]
  have htargets_e (f : Nat → Option Terminator) (hf : Settled f b b') :
      targets f e = [b.blocks.length] := by
    rw [targets_eq (t := .goto b.blocks.length)]
    · rfl
    · rw [hfin f hf e (.inr (by omega)) helt (by omega), h'.self]
  refine ⟨hext', ?_, ?_, ?_⟩
  · intro f hf x hx hxlt hxne y hy
    rw [h'.len] at hxlt ⊢
    rw [h'.cur] at hxne
    have hxowns := (owns_iff hc x).1 hx
    have hxexit : x ≠ b₃.blocks.length + 1 := fun e' => hxne (by rw [e'])
    refine .inr ?_
    by_cases hxc : x = c
    · rw [hxc, htargets_c f hf] at hy
      simp only [List.mem_cons, List.not_mem_nil, or_false] at hy
      omega
    by_cases hxa : x = a
    · rw [hxa, htargets_a f hf] at hy
      simp only [List.mem_cons, List.not_mem_nil, or_false] at hy
      omega
    by_cases hxe : x = e
    · rw [hxe, htargets_e f hf] at hy
      simp only [List.mem_cons, List.not_mem_nil, or_false] at hy
      omega
    by_cases hx₃ : x < b₃.blocks.length
    · have hin := hhead.closed f (hset₂ f hf) x ((hown₂ x).2 (by omega)) hx₃
        (by rw [ha]; simp; omega) y hy
      simp only [List.not_mem_nil, false_or] at hin
      omega
    · have hin := hbody.closed f (hset₄ f hf) x ((hown₄ x).2 (by omega)) hxlt
        (by rw [he]; simp; omega) y hy
      simp only [List.mem_cons, List.not_mem_nil, or_false] at hin
      omega
  · intro f hf c' hc'
    obtain rfl : c = c' := Option.some.inj (hc.symm.trans hc')
    obtain ⟨a', ha', hpath⟩ := hhead.path f (hset₂ f hf) b.blocks.length h₂.cur
    obtain rfl : a = a' := Option.some.inj (ha.symm.trans ha')
    refine ⟨b₃.blocks.length + 1, h'.cur, ?_⟩
    have hfirst : b.blocks.length ∈ targets f c := by simp [htargets_c f hf]
    have hlast : b₃.blocks.length + 1 ∈ targets f a := by simp [htargets_a f hf]
    exact .head hfirst (hpath.tail hlast)
  · intro x hx
    obtain rfl : b₃.blocks.length + 1 = x := Option.some.inj (h'.cur.symm.trans hx)
    refine .inr ⟨by omega, ?_⟩
    rw [h'.other _ (by omega), hbody.term_eq (by omega) (by rw [h₄.cur]; simp), h₄.other _ (by omega)]
    have hself := term_startBlock_self b₃.startBlock
    rw [length_startBlock] at hself
    exact hself

theorem close_eq_of_curBlock {b : BodyBuilder} {e : Nat} (he : b.curBlock = some e)
    (t : Terminator) : b.close t = (b.moveTo e).close t := by
  unfold moveTo
  rw [← he]

theorem straight_storeElement (varLocal : Option LocalId) (optLocal : LocalId) (span : Span) :
    StraightM E (storeElement varLocal optLocal span) := by
  cases varLocal with
  | none => exact .ret _
  | some v => exact straight_emitAssign _ _ _

theorem storeElement_curBlock {b b' : BodyBuilder} {varLocal : Option LocalId} {optLocal : LocalId}
    {span : Span} {u : Unit} (h : storeElement varLocal optLocal span b = .ok (u, b')) :
    b'.curBlock = b.curBlock := by
  cases varLocal with
  | none =>
    obtain ⟨-, rfl⟩ := pure_eq_ok.1 h
    rfl
  | some v =>
    obtain ⟨_, -, rfl⟩ := emitStmt_ok.1 h
    rfl

theorem declareLocal_blocks {b b' : BodyBuilder} {name : String} {ty : Ty} {span : Span}
    {mutable : Bool} {id : LocalId} (h : declareLocal name ty span mutable b = .ok (id, b')) :
    b'.blocks = b.blocks ∧ b'.curBlock = b.curBlock ∧ b'.loopStack = b.loopStack := by
  obtain ⟨-, rfl⟩ := Prod.mk.inj (Except.ok.inj h)
  exact ⟨rfl, rfl, rfl⟩

theorem Rewired.of_blocks_eq {b b₁ b' : BodyBuilder} {c x : Nat} {t : Terminator}
    (h : Rewired b₁ b' c t x) (hb : b₁.blocks = b.blocks) : Rewired b b' c t x where
  len := by rw [h.len, hb]
  cur := h.cur
  self := h.self
  other y hy := by rw [h.other y hy, term, term, hb]

theorem straight_lowerCompClauses {lowerElem : LowerM Operand} (helem : StraightM [] lowerElem)
    (kind : CompKind) (acc : LocalId) (span : Span) {clauses : List SubClause}
    (h : ∀ c ∈ clauses, StraightM [] c.iter.lower ∧ ∀ g ∈ c.guards, StraightM [] g.lower) :
    StraightM [] (lowerCompClauses ctx lowerElem kind acc span clauses) := by
  induction clauses with
  | nil => exact straight_lowerCompBody helem kind acc span
  | cons first rest ih =>
    obtain ⟨hiter, hguards⟩ := h first (by simp)
    have hrest := ih fun c hc => h c (by simp [hc])
    unfold lowerCompClauses
    refine .bind hiter fun _ => .bind (straight_declareLocal _ _ _ _) fun _ =>
      .bind (straight_emitAssign _ _ _) fun _ => .bind (straight_declareLocal _ _ _ _) fun handle =>
      .bind (straight_callSymbol _ _ _) fun _ => .bind (straight_declareTarget ctx _ _ _ _)
      fun varLocal => ?_
    intro b u b' hrun hr _
    simp only [bind_eq_ok, currentBlockId_ok, startNewBlock_ok, setCurBlock_ok, terminate_ok,
      gotoIfOpen_ok, and_assoc, exists_eq_left, exists_and_left] at hrun
    obtain ⟨c, hc, _, rfl, optLocal, b₁, hdecl, _, _, _, _, b₂, hcall, a, ha, _, rfl, _, b₃, hvar, _, _, _, _, b₄, hg,
      _, b₅, hclauses, _, rfl⟩ := hrun
    obtain ⟨hblocks, hcur₁, hloops⟩ := declareLocal_blocks hdecl
    have hlt := hr.cursor c hc
    have hlen₁ : b₁.blocks.length = b.blocks.length + 1 := by rw [hblocks, length_startBlock]
    have hext₁ : Extends b b₁ := (Extends.startBlock b).trans (.of_blocks_eq hblocks hcur₁ hloops)
    have hext₂ := hext₁.rewire (c := c) (x := b.blocks.length) (.goto b.blocks.length) (.inl hc)
      (by omega) (.inr (Nat.le_refl _)) (by omega) (by simp [Terminator.successors, hlen₁])
    have hhead := StraightM.run (.bind (straight_callSymbol "__cobrust_iter_next"
      [.copy (.ofLocal handle)] optLocal) fun _ => straight_storeElement varLocal optLocal span)
      (bind_eq_ok.2 ⟨_, b₂, hcall, hvar⟩) (hext₂.inRange hr)
    have ha₃ : b₃.curBlock = some a := by rw [storeElement_curBlock hvar, ha]
    have halt := (hhead.inRange (hext₂.inRange hr)).cursor a ha₃
    have haown := hext₂.owns (hhead.cursor a ha₃)
    have hle₃ := hhead.len
    rw [blocks_moveTo, length_close, blocks_moveTo] at hle₃
    have hext₃ : Extends b b₃.startBlock.startBlock :=
      ((hext₂.trans hhead.toExtends).trans (.startBlock _)).trans (.startBlock _)
    have hlen₄ : b₃.startBlock.startBlock.blocks.length = b₃.blocks.length + 2 := by
      rw [length_startBlock, length_startBlock]
    rw [length_startBlock] at hg ⊢
    have hext₄ := hext₃.rewire (c := a) (x := b₃.blocks.length)
      (.switchInt (.copy (.ofLocal optLocal)) [(.bool false, b₃.blocks.length + 1)] b₃.blocks.length)
      haown (by omega) (.inr (by omega)) (by omega) (by simp [Terminator.successors, hlen₄])
    have hbody := StraightM.bind (straight_lowerGuards hguards) (fun _ =>
      hrest.mono (by simp)) _ _ b₅ (bind_eq_ok.2 ⟨_, b₄, hg, hclauses⟩)
      (hext₄.inRange hr) (by
        simp only [List.mem_singleton, forall_eq, blocks_moveTo, length_close]
        omega)
    obtain ⟨e, he⟩ := hbody.exists_cursor rfl
    have helt := (hbody.inRange (hext₄.inRange hr)).cursor e he
    have hle₅ := hbody.len
    rw [blocks_moveTo, length_close, blocks_moveTo, hlen₄] at hle₅
    have hheader : b.blocks.length < b₅.blocks.length := by omega
    rw [close_eq_of_curBlock he]
    refine straight_loop hr hc ((rewired _ _ (by omega)).of_blocks_eq hblocks) hext₂ hhead ha₃ ?_
      (rewired _ _ (by omega)) hext₄ hbody he (rewired _ _ helt) ?_
    · simp [Terminator.successors]
    · exact (hext₄.trans hbody.toExtends).rewire _ (hext₄.owns (hbody.cursor e he)) helt
        (.inr (by omega)) (by omega) (by simpa [Terminator.successors] using hheader)

theorem straight_lowerComprehension (kind : CompKind) {lowerElem : LowerM Operand}
    (helem : StraightM [] lowerElem) {clauses : List SubClause}
    (h : ∀ c ∈ clauses, StraightM [] c.iter.lower ∧ ∀ g ∈ c.guards, StraightM [] g.lower)
    (span : Span) : StraightM [] (lowerComprehension ctx kind lowerElem clauses span) :=
  .bind straight_ensureOpenBlock fun _ => .bind (straight_declareLocal _ _ _ _) fun _ =>
    .bind (straight_callSymbol _ _ _) fun _ =>
    .bind (straight_lowerCompClauses ctx helem kind _ span h) fun _ => .ret _

/-! ## All expressions -/

mutual

theorem straight_lowerExpr : ∀ e : Expr, StraightM [] (lowerExpr ctx e)
  | .mk (.lit _) _ => .ret _
  | .mk (.format parts) _ =>
    .bind (straight_lowerFormatParts (straight_subParts parts)) fun _ =>
      straight_lowerAggregate _ _ _ _ _
  | .mk (.name rn) span => straight_lowerName ctx rn span
  | .mk (.tuple items) _ =>
    .bind (straight_lowerAll (straight_subs items)) fun _ => straight_lowerAggregate _ _ _ _ _
  | .mk (.list items) _ =>
    .bind (straight_lowerAll (straight_subs items)) fun _ => straight_lowerAggregate _ _ _ _ _
  | .mk (.set items) _ =>
    .bind (straight_lowerAll (straight_subs items)) fun _ => straight_lowerAggregate _ _ _ _ _
  | .mk (.dict entries) _ =>
    .bind (straight_lowerDictEntries (straight_subEntries entries)) fun _ =>
      straight_lowerAggregate _ _ _ _ _
  | .mk (.comp kind element clauses _) span =>
    straight_lowerComprehension ctx kind (straight_lowerCompElem element)
      (straight_subClauses clauses) span
  | .mk (.lambda _ _ _) _ => .ret _
  | .mk (.call callee args) span =>
    straight_lowerCall ctx (straight_subArgs args) (straight_lowerExpr callee)
      (straight_subBase callee) span
  | .mk (.attr base name) span => straight_lowerAttr ctx (straight_lowerExpr base) name span
  | .mk (.index base index) span =>
    straight_lowerIndexExpr ctx (straight_lowerExpr base) (straight_subIndex index) span
  | .mk (.bin op lhs rhs) span =>
    straight_lowerBin ctx op (straight_lowerExpr lhs) (straight_lowerExpr rhs) span
  | .mk (.un op operand) span => straight_lowerUn ctx (straight_lowerExpr operand) op span
  | .mk (.borrow inner) _ => straight_lowerBorrowInner ctx (straight_lowerExpr inner)
  | .mk (.await inner) span => straight_lowerAwait (straight_lowerExpr inner) span
  | .mk (.yield none) _ => .ret _
  | .mk (.yield (some inner)) _ => .bind (straight_lowerExpr inner) fun _ => .ret _
  | .mk (.yieldFrom inner) _ => .bind (straight_lowerExpr inner) fun _ => .ret _
  | .mk (.cast e target) span => straight_lowerCast (straight_lowerExpr e) target span
  | .mk (.ifExpr cond thenBranch elseBranch) span =>
    straight_lowerIfExpr ctx (straight_lowerExpr cond) (straight_lowerExpr thenBranch)
      (straight_lowerExpr elseBranch) span

theorem straight_subs : ∀ items : List Expr, ∀ s ∈ subs ctx items, StraightM [] s.lower
  | [] => nofun
  | e :: rest => List.forall_mem_cons.2 ⟨straight_lowerExpr e, straight_subs rest⟩

theorem straight_subOption : ∀ o : Option Expr, ∀ s, subOption ctx o = some s → StraightM [] s.lower
  | none => nofun
  | some e => fun _ h => Option.some.inj h ▸ straight_lowerExpr e

theorem straight_subBase :
    ∀ e : Expr, ∀ s name, subBase ctx e = some (s, name) → StraightM [] s.lower
  | .mk (.attr base _) _ => fun _ _ h => (Prod.mk.inj (Option.some.inj h)).1 ▸ straight_lowerExpr base
  | .mk (.lit _) _ | .mk (.format _) _ | .mk (.name _) _ | .mk (.tuple _) _ | .mk (.list _) _
  | .mk (.set _) _ | .mk (.dict _) _ | .mk (.comp _ _ _ _) _ | .mk (.lambda _ _ _) _
  | .mk (.call _ _) _ | .mk (.index _ _) _ | .mk (.bin _ _ _) _ | .mk (.un _ _) _ | .mk (.borrow _) _
  | .mk (.await _) _ | .mk (.yield _) _ | .mk (.yieldFrom _) _ | .mk (.cast _ _) _
  | .mk (.ifExpr _ _ _) _ => nofun

theorem straight_subArgs : ∀ args : List CallArg, ∀ a ∈ subArgs ctx args, StraightM [] a.lower
  | [] => nofun
  | .positional e :: rest => List.forall_mem_cons.2 ⟨straight_lowerExpr e, straight_subArgs rest⟩
  | .keyword _ e :: rest => List.forall_mem_cons.2 ⟨straight_lowerExpr e, straight_subArgs rest⟩
  | .starArgs e :: rest => List.forall_mem_cons.2 ⟨straight_lowerExpr e, straight_subArgs rest⟩
  | .starStarKwargs e :: rest => List.forall_mem_cons.2 ⟨straight_lowerExpr e, straight_subArgs rest⟩

theorem straight_subIndex : ∀ index : IndexKind, (subIndex ctx index).Straight []
  | .expr e => straight_lowerExpr e
  | .slice start stop step => by
    intro o ho s hs
    simp only [List.mem_cons, List.not_mem_nil, or_false] at ho
    rcases ho with rfl | rfl | rfl
    · exact straight_subOption start s hs
    · exact straight_subOption stop s hs
    · exact straight_subOption step s hs
  | .tuple _ => trivial

theorem straight_subParts : ∀ parts : List FormatPart, ∀ p ∈ subParts ctx parts, p.Straight []
  | [] => nofun
  | .lit _ :: rest => List.forall_mem_cons.2 ⟨trivial, straight_subParts rest⟩
  | .hole e _ _ :: rest => List.forall_mem_cons.2 ⟨straight_lowerExpr e, straight_subParts rest⟩

theorem straight_subEntries :
    ∀ entries : List DictEntry, ∀ e ∈ subEntries ctx entries, e.Straight []
  | [] => nofun
  | .pair k v :: rest =>
    List.forall_mem_cons.2 ⟨⟨straight_lowerExpr k, straight_lowerExpr v⟩, straight_subEntries rest⟩
  | .spread e :: rest => List.forall_mem_cons.2 ⟨straight_lowerExpr e, straight_subEntries rest⟩

theorem straight_subClauses : ∀ clauses : List CompClause, ∀ c ∈ subClauses ctx clauses,
    StraightM [] c.iter.lower ∧ ∀ g ∈ c.guards, StraightM [] g.lower
  | [] => nofun
  | .mk _ _ iter guards :: rest =>
    List.forall_mem_cons.2 ⟨⟨straight_lowerExpr iter, straight_subs guards⟩, straight_subClauses rest⟩

theorem straight_lowerCompElem : ∀ element : CompElem, StraightM [] (lowerCompElem ctx element)
  | .single e => straight_lowerExpr e
  | .keyValue k _ => straight_lowerExpr k

end

end Cobrust.Mir
