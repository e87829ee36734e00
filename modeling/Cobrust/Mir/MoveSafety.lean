import Cobrust.Mir.BorrowPaths
import Cobrust.Mir.Points

/-!
# Obligation B1: no use after move

A path of a body is a sequence of program points, its statements and terminators. A local is moved
out at a point of the sequence when an earlier point moves it and no point since then assigns it as a
whole (`MovedOut`). The borrow checker tests the operands that a point consumes directly. It does not
look at `Ref`, `Len` and `Discriminant`, nor at the operands inside index projections, and it clears
the moved mark of a local also when only a projection of the local is written. On the runs in which
no point does one of these to a moved local, no moved local is read (`borrowCheck_noUseAfterMove`).
-/

namespace Cobrust.Mir

open Control (except_bind_ok)

/-- After these points the local is moved out: some point moves it, and neither that point nor a
later one assigns it as a whole. -/
def MovedOut (past : List Point) (l : LocalId) : Prop :=
  ∃ before p after, past = before ++ p :: after ∧ l ∈ p.moves ∧ ∀ q ∈ p :: after, l ∉ q.reassigns

/-- No point reads a local that is moved out. -/
def NoUseAfterMove (points : List Point) : Prop :=
  ∀ past p future, points = past ++ p :: future → ∀ l ∈ p.reads, ¬ MovedOut past l

theorem not_movedOut_nil (l : LocalId) : ¬ MovedOut [] l := by
  rintro ⟨before, p, after, h, -, -⟩
  simp at h

theorem movedOut_concat {past : List Point} {p : Point} {l : LocalId} :
    MovedOut (past ++ [p]) l ↔ (MovedOut past l ∨ l ∈ p.moves) ∧ l ∉ p.reassigns := by
  constructor
  · rintro ⟨before, q, after, h, hq, hno⟩
    rcases List.eq_nil_or_concat after with rfl | ⟨after, r, rfl⟩
    · obtain ⟨rfl, rfl⟩ : past = before ∧ p = q := by simpa using List.append_inj' h rfl
      exact ⟨.inr hq, hno p (by simp)⟩
    · have h' : past ++ [p] = (before ++ q :: after) ++ [r] := by simpa using h
      obtain ⟨rfl, hr⟩ := List.append_inj' h' rfl
      obtain rfl : p = r := by simpa using hr
      refine ⟨.inl ⟨before, q, after, rfl, hq, fun s hs => hno s ?_⟩, hno p (by simp)⟩
      simp only [List.mem_cons, List.concat_eq_append, List.mem_append] at hs ⊢
      tauto
  · rintro ⟨⟨before, q, after, rfl, hq, hno⟩ | hp, hre⟩
    · refine ⟨before, q, after ++ [p], by simp, hq, fun s hs => ?_⟩
      have hs' : s ∈ q :: after ∨ s = p := by
        simp only [List.mem_cons, List.mem_append, List.not_mem_nil, or_false] at hs ⊢
        tauto
      rcases hs' with hs' | rfl
      · exact hno s hs'
      · exact hre
    · refine ⟨past, p, [], rfl, hp, fun s hs => ?_⟩
      obtain rfl : s = p := by simpa using hs
      exact hre

/-- The moved set of the borrow checker after a point. -/
def Point.movedAfter (moved : Finset LocalId) : Point → Finset LocalId
  | .stmt ⟨.assign place rvalue, _⟩ => moved.erase place.localId ∪ rvalue.movedOut.toFinset
  | .stmt _ => moved
  | .term t => t.movedAfter moved

/-- Every point finds the locals it consumes outside the moved set. -/
def ReadsClear : Finset LocalId → List Point → Prop
  | _, [] => True
  | moved, p :: ps => (∀ l ∈ p.checkedReads, l ∉ moved) ∧ ReadsClear (p.movedAfter moved) ps

theorem readsClear_append {moved : Finset LocalId} {ps qs : List Point} :
    ReadsClear moved (ps ++ qs) ↔
      ReadsClear moved ps ∧ ReadsClear (ps.foldl Point.movedAfter moved) qs := by
  induction ps generalizing moved with
  | nil => simp [ReadsClear]
  | cons p ps ih => simp [ReadsClear, ih, and_assoc]

theorem checkStatement_readsClear {stmt : Statement} {s r : BlockState}
    (h : checkStatement stmt s = .ok r) :
    (∀ l ∈ (Point.stmt stmt).checkedReads, l ∉ s.moved) ∧
      r.moved = (Point.stmt stmt).movedAfter s.moved := by
  obtain ⟨kind, span⟩ := stmt
  cases kind with
  | assign place rvalue =>
    obtain ⟨hclear, -, rfl⟩ := checkAssign_ok.1 h
    exact ⟨fun l hl => (hclear l hl).1, rfl⟩
  | _ =>
    cases h
    exact ⟨by simp [Point.checkedReads, Point.operands], rfl⟩

theorem checkStatements_readsClear :
    ∀ (stmts : List Statement) {s r : BlockState}, checkStatements stmts s = .ok r →
      ReadsClear s.moved (stmts.map .stmt) ∧
      r.moved = (stmts.map Point.stmt).foldl Point.movedAfter s.moved := by
  intro stmts
  induction stmts with
  | nil =>
    intro s r h
    cases h
    exact ⟨trivial, rfl⟩
  | cons stmt stmts ih =>
    intro s r h
    obtain ⟨s₁, h₁, h₂⟩ := except_bind_ok.1 h
    obtain ⟨hread, hmoved⟩ := checkStatement_readsClear h₁
    obtain ⟨hreads, hlast⟩ := ih h₂
    rw [hmoved] at hreads hlast
    exact ⟨⟨hread, hreads⟩, hlast⟩

theorem checkBlock_readsClear {block : BasicBlock} {facts facts' : Facts}
    (h : checkBlock block facts = .ok facts') :
    ReadsClear facts.1 block.points ∧ facts'.1 = block.points.foldl Point.movedAfter facts.1 := by
  obtain ⟨s₁, h₁, h⟩ := except_bind_ok.1 h
  obtain ⟨s₂, h₂, h⟩ := except_bind_ok.1 h
  cases h
  obtain ⟨hreads, hmoved⟩ := checkStatements_readsClear _ h₁
  obtain ⟨hclear, -, rfl⟩ := checkTerminator_ok.1 h₂
  unfold BasicBlock.points
  rw [readsClear_append, List.foldl_append, ← hmoved]
  exact ⟨⟨hreads, fun l hl => (hclear l hl).1, trivial⟩, rfl⟩

theorem checkPath_readsClear (body : Body) :
    ∀ (path : List BlockId) {facts facts' : Facts}, (∀ b ∈ path, b < body.blocks.length) →
      checkPath body path facts = .ok facts' → ReadsClear facts.1 (body.points path) := by
  intro path
  induction path with
  | nil => exact fun _ _ => trivial
  | cons b path ih =>
    intro facts facts' hlt h
    obtain ⟨block, hb⟩ : ∃ block, body.blocks[b]? = some block :=
      ⟨_, List.getElem?_eq_getElem (hlt b List.mem_cons_self)⟩
    simp only [checkPath, hb] at h
    obtain ⟨facts₁, h₁, h₂⟩ := except_bind_ok.1 h
    obtain ⟨hreads, hmoved⟩ := checkBlock_readsClear h₁
    have hrest := ih (fun c hc => hlt c (List.mem_cons_of_mem _ hc)) h₂
    rw [hmoved] at hrest
    have hpoints : body.points (b :: path) = block.points ++ body.points path := by
      simp [Body.points, hb]
    rw [hpoints, readsClear_append]
    exact ⟨hreads, hrest⟩

/-! ## Regular runs -/

/-- A point that does not touch a moved local in a way the borrow checker does not track. -/
structure RegularPoint (past : List Point) (p : Point) : Prop where
  reads : ∀ l ∈ p.uncheckedReads, ¬ MovedOut past l
  writes : ∀ l ∈ p.partialWrites, ¬ MovedOut past l
  stores : ¬ p.StoresIntoMoved

def RegularRun (points : List Point) : Prop :=
  ∀ past p future, points = past ++ p :: future → RegularPoint past p

/-- A run is regular when its points borrow, measure and discriminate nothing, use no place inside
an index and write whole locals only. -/
theorem regularRun_of_plain {points : List Point}
    (h : ∀ p ∈ points, p.uncheckedReads = [] ∧ p.partialWrites = []) : RegularRun points := by
  rintro past p future rfl
  obtain ⟨hreads, hwrites⟩ := h p (by simp)
  refine ⟨by simp [hreads], by simp [hwrites], fun hstore => ?_⟩
  cases p with
  | stmt _ => exact hstore
  | term term =>
    cases term with
    | call func args place target unwind =>
      obtain ⟨hps, -⟩ := hstore
      simp [Point.partialWrites, Point.destination, hps] at hwrites
    | _ => exact hstore

/-- One step: the moved set of the checker keeps covering the locals that are moved out. -/
theorem movedAfter_covers {past : List Point} {p : Point} {moved : Finset LocalId}
    (hreg : RegularPoint past p) (hcov : ∀ l, MovedOut past l → l ∈ moved) :
    ∀ l, MovedOut (past ++ [p]) l → l ∈ p.movedAfter moved := by
  intro l hl
  obtain ⟨hl, hre⟩ := movedOut_concat.1 hl
  have hdest : ∀ place : Place, p.destination = some place → place.localId = l →
      place.projections ≠ [] := by
    intro place hp hroot hps
    exact hre (by simp [Point.reassigns, hp, hps, hroot])
  have hpartial : ∀ place : Place, p.destination = some place → place.localId = l →
      ¬ MovedOut past l := by
    intro place hp hroot
    apply hreg.writes
    have hps := hdest place hp hroot
    simp [Point.partialWrites, hp, hps, hroot]
  cases p with
  | stmt stmt =>
    obtain ⟨kind, span⟩ := stmt
    cases kind with
    | assign place rvalue =>
      simp only [Point.movedAfter, Finset.mem_union, Finset.mem_erase, List.mem_toFinset]
      rcases hl with hl | hl
      · exact .inl ⟨fun e => hpartial place rfl e.symm hl, hcov l hl⟩
      · exact .inr hl
    | _ =>
      rcases hl with hl | hl
      · exact hcov l hl
      · cases hl
  | term term =>
    cases term with
    | call func args place target unwind =>
      simp only [Point.movedAfter, Terminator.movedAfter, Finset.mem_union, Finset.mem_erase,
        List.mem_toFinset]
      have hne : l ≠ place.localId := by
        intro e
        rcases hl with hl | hl
        · exact hpartial place rfl e.symm hl
        · exact hreg.stores ⟨hdest place rfl e.symm, by rw [← e]; exact hl⟩
      exact ⟨hne, hl.imp (hcov l) id⟩
    | _ =>
      rcases hl with hl | hl
      · exact hcov l hl
      · cases hl

/-- The run lemma: from covered moved locals on, no point of a regular run reads one. -/
theorem noUse_of_readsClear :
    ∀ (points past : List Point) {moved : Finset LocalId},
      (∀ a p b, points = a ++ p :: b → RegularPoint (past ++ a) p) →
      (∀ l, MovedOut past l → l ∈ moved) → ReadsClear moved points →
      ∀ a p b, points = a ++ p :: b → ∀ l ∈ p.reads, ¬ MovedOut (past ++ a) l := by
  intro points
  induction points with
  | nil =>
    intro past moved _ _ _ a p b h
    simp at h
  | cons q points ih =>
    intro past moved hreg hcov hclear a p b h l hl hmoved
    obtain ⟨hread, hclear⟩ := hclear
    have hq : RegularPoint past q := by simpa using hreg [] q points rfl
    cases a with
    | nil =>
      obtain ⟨rfl, rfl⟩ : q = p ∧ points = b := by simpa using h
      rw [List.append_nil] at hmoved
      rcases List.mem_append.1 hl with hl | hl
      · exact hread l hl (hcov l hmoved)
      · exact hq.reads l hl hmoved
    | cons r a =>
      obtain ⟨rfl, rfl⟩ : q = r ∧ points = a ++ p :: b := by simpa using h
      have hreg' : ∀ a' p' b', a ++ p :: b = a' ++ p' :: b' →
          RegularPoint ((past ++ [q]) ++ a') p' := by
        intro a' p' b' h'
        simpa using hreg (q :: a') p' b' (by simp [h'])
      exact ih (past ++ [q]) hreg' (movedAfter_covers hq hcov) hclear a p b rfl l hl
        (by simpa using hmoved)

/-- **No use after move.** On every path of an accepted body whose points never read a moved local
through a position that the checker skips, and never write a projection of a moved local, no point
reads a local that is moved out. -/
theorem borrowCheck_noUseAfterMove (body : Body) (h : BorrowAccepts body) (path : List BlockId)
    (hp : body.IsPath path) (hreg : RegularRun (body.points path)) :
    NoUseAfterMove (body.points path) := by
  obtain ⟨facts, hfacts⟩ := h.checkPath_ok hp
  have hclear := checkPath_readsClear body path hp.2.2 hfacts
  have hnone : ∀ l, MovedOut [] l → l ∈ (∅ : Finset LocalId) :=
    fun l hl => absurd hl (not_movedOut_nil l)
  have hreg' : ∀ a p b, body.points path = a ++ p :: b → RegularPoint ([] ++ a) p :=
    fun a p b h => hreg a p b h
  have hrun := noUse_of_readsClear (body.points path) [] hreg' hnone hclear
  exact fun past p future h => hrun past p future h

/-- Local 1 is moved, assigned again and read. -/
def reassignAfterMove : Body where
  defId := 0
  name := "reassign_after_move"
  locals := []
  blocks := [⟨0,
    [⟨.assign (.ofLocal 1) (.use (.constant (.str "a"))), .synthetic⟩,
     ⟨.assign (.ofLocal 2) (.use (.move (.ofLocal 1))), .synthetic⟩,
     ⟨.assign (.ofLocal 1) (.use (.constant (.str "b"))), .synthetic⟩,
     ⟨.assign (.ofLocal 3) (.use (.copy (.ofLocal 1))), .synthetic⟩], .ret, .synthetic⟩]
  returnLocal := 0
  paramCount := 0
  span := .synthetic

theorem reassignAfterMove_noUseAfterMove :
    NoUseAfterMove (reassignAfterMove.points [0]) := by
  have hacc : BorrowAccepts reassignAfterMove := ⟨2, rfl⟩
  have hpath : reassignAfterMove.IsPath [0] := by
    simp [Body.IsPath, reassignAfterMove]
  have hplain : ∀ p ∈ reassignAfterMove.points [0], p.uncheckedReads = [] ∧ p.partialWrites = [] := by
    simp [Body.points, reassignAfterMove, BasicBlock.points, Point.uncheckedReads,
      Point.nestedReads, Point.partialWrites, Point.inspected, Point.operands, Point.destination, Point.dropped,
      Point.nestedOperands, Rvalue.inspected, Rvalue.operands, Terminator.operands,
      Operand.indexOperands, Place.ofLocal, Place.indexOperands, projectionOperands,
      Place.projections]
  exact borrowCheck_noUseAfterMove reassignAfterMove hacc [0] hpath (regularRun_of_plain hplain)

/-- Local 1 is moved, and its length is read afterwards. -/
def lenAfterMove : Body where
  defId := 0
  name := "len_after_move"
  locals := []
  blocks := [⟨0,
    [⟨.assign (.ofLocal 1) (.use (.constant (.str "a"))), .synthetic⟩,
     ⟨.assign (.ofLocal 2) (.use (.move (.ofLocal 1))), .synthetic⟩,
     ⟨.assign (.ofLocal 3) (.len (.ofLocal 1)), .synthetic⟩], .ret, .synthetic⟩]
  returnLocal := 0
  paramCount := 0
  span := .synthetic

/-- The borrow checker accepts a body that reads the length of a moved local. -/
theorem lenAfterMove_accepted : BorrowAccepts lenAfterMove ∧ lenAfterMove.IsPath [0] ∧
    ¬ NoUseAfterMove (lenAfterMove.points [0]) := by
  refine ⟨⟨2, rfl⟩, by simp [Body.IsPath, lenAfterMove], fun hno => ?_⟩
  let assign : Point := .stmt ⟨.assign (.ofLocal 1) (.use (.constant (.str "a"))), .synthetic⟩
  let move : Point := .stmt ⟨.assign (.ofLocal 2) (.use (.move (.ofLocal 1))), .synthetic⟩
  let len : Point := .stmt ⟨.assign (.ofLocal 3) (.len (.ofLocal 1)), .synthetic⟩
  have hmoved : MovedOut [assign, move] 1 :=
    ⟨[assign], move, [], rfl, by decide, by simp [move, Point.reassigns, Point.destination]⟩
  exact hno [assign, move] len [.term .ret] rfl 1 (by decide) hmoved

end Cobrust.Mir
