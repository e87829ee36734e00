import Cobrust.Frontend.TokenExtent
import Mathlib.Logic.Relation

/-!
# Layout steps

What the lexer does to its state, as steps that each read some characters and emit a token at most. A
turn of the main loop is a run of steps (`meets_turn`), so what every step keeps holds of all that the
lexer emits.
-/

namespace Cobrust.Frontend

open Control

namespace Lexer

/-- One step: move on, open or close a block, start or end a line, or read a token. -/
inductive Step (s : Source) (ov : Overflow) : Lexer → Lexer → Prop
  | move {st : Lexer} {p : Nat} (hle : st.pos ≤ p) (hb : s.IsBoundary p) : Step s ov st { st with pos := p }
  | indent {st : Lexer} {top spaces stop : Nat} {rest : List Nat} (hstack : st.indents = top :: rest)
      (hdeep : top < spaces) (hline : st.bracketDepth = 0) (hle : st.pos ≤ stop) (hb : s.IsBoundary stop) :
      Step s ov st ({ st with pos := stop, indents := spaces :: st.indents }.push s .indent st.pos stop)
  | dedent {st : Lexer} {top next : Nat} {rest : List Nat} (hstack : st.indents = top :: next :: rest)
      (hline : st.bracketDepth = 0) :
      Step s ov st ({ st with indents := next :: rest }.push s .dedent st.pos st.pos)
  | startLine {st : Lexer} : Step s ov st { st with atLineStart := false }
  | endLine {st : Lexer} (hline : st.bracketDepth = 0) :
      Step s ov st { emitNewlineIfNeeded s st with atLineStart := true }
  | token {st : Lexer} {kind : TokenKind} {stop : Nat} {depth : Int}
      (hfrom : s.TokenFrom st.pos (kind, stop)) (hdepth : depthAfter ov kind st.bracketDepth = .ok depth) :
      Step s ov st { { st with pos := stop, bracketDepth := depth }.push s kind st.pos stop with
        lastEmittedNewline := false }

abbrev Steps (s : Source) (ov : Overflow) : Lexer → Lexer → Prop :=
  Relation.ReflTransGen (Step s ov)

variable {s : Source} {ov : Overflow} {u : Unicode} {st st' : Lexer}

theorem emitNewlineIfNeeded_pos : (emitNewlineIfNeeded s st).pos = st.pos := by
  unfold emitNewlineIfNeeded
  split <;> rfl

/-- What the lexer relies on: it stands between characters, and the indentations grow from zero. -/
structure Inv (s : Source) (ov : Overflow) (st : Lexer) : Prop where
  boundary : s.IsBoundary st.pos
  sorted : st.indents.Pairwise (· > ·)
  bottom : st.indents.getLast? = some 0
  depth : ov = .panics → 0 ≤ st.bracketDepth ∧ st.bracketDepth ≤ st.pos

theorem inv_new (s : Source) (ov : Overflow) : Inv s ov .new where
  boundary := Option.isSome_iff_exists.2 ⟨s.text, by rw [new, Text.dropBytes]⟩
  sorted := List.pairwise_singleton _ _
  bottom := rfl
  depth := fun _ => ⟨Int.le_refl 0, Int.le_refl 0⟩

theorem depthAfter_bounds {kind : TokenKind} {d depth : Int} (h : depthAfter ov kind d = .ok depth)
    (hov : ov = .panics) (hd : 0 ≤ d) : 0 ≤ depth ∧ depth ≤ d + 1 := by
  subst hov
  have hi32 {n m : Int} (hn : Overflow.panics.i32 n = .ok m) : m = n := by
    unfold Overflow.i32 at hn
    split at hn
    · exact (Except.ok.inj hn).symm
    · cases hn
  unfold depthAfter at h
  split at h
  · rw [hi32 h]
    omega
  · rw [hi32 h]
    omega
  · rw [hi32 h]
    omega
  · obtain ⟨m, hm, h⟩ := except_bind_ok.1 h
    cases h
    rw [hi32 hm]
    omega
  · obtain ⟨m, hm, h⟩ := except_bind_ok.1 h
    cases h
    rw [hi32 hm]
    omega
  · obtain ⟨m, hm, h⟩ := except_bind_ok.1 h
    cases h
    rw [hi32 hm]
    omega
  · cases h
    omega

theorem Inv.step (h : Inv s ov st) (hs : Step s ov st st') : Inv s ov st' := by
  cases hs with
  | move hle hb =>
    refine ⟨hb, h.sorted, h.bottom, fun hov => ?_⟩
    obtain ⟨h0, h1⟩ := h.depth hov
    exact ⟨h0, by dsimp only; omega⟩
  | @indent top spaces stop rest hstack hdeep hline hle hb =>
    refine ⟨hb, ?_, ?_, fun hov => ?_⟩
    · apply List.Pairwise.cons _ h.sorted
      intro x hx
      have hs := h.sorted
      rw [hstack] at hx hs
      rcases List.mem_cons.1 hx with rfl | hx
      · exact hdeep
      · exact (List.rel_of_pairwise_cons hs hx).trans hdeep
    · change (spaces :: st.indents).getLast? = some 0
      rw [hstack, List.getLast?_cons_cons, ← hstack]
      exact h.bottom
    · obtain ⟨h0, h1⟩ := h.depth hov
      exact ⟨h0, by dsimp only [push]; omega⟩
  | @dedent top next rest hstack hline =>
    have hs := h.sorted
    have hb := h.bottom
    rw [hstack] at hs hb
    exact ⟨h.boundary, hs.of_cons, by rwa [List.getLast?_cons_cons] at hb, h.depth⟩
  | startLine => exact ⟨h.boundary, h.sorted, h.bottom, h.depth⟩
  | endLine hline =>
    unfold emitNewlineIfNeeded
    split
    · exact ⟨h.boundary, h.sorted, h.bottom, h.depth⟩
    · exact ⟨h.boundary, h.sorted, h.bottom, h.depth⟩
  | token hfrom hdepth =>
    refine ⟨hfrom.boundary, h.sorted, h.bottom, fun hov => ?_⟩
    obtain ⟨h0, h1⟩ := h.depth hov
    obtain ⟨h2, h3⟩ := depthAfter_bounds hdepth hov h0
    have := hfrom.lt
    exact ⟨h2, by dsimp only [push] at this ⊢; omega⟩

theorem Inv.steps (h : Inv s ov st) (hs : Steps s ov st st') : Inv s ov st' := by
  induction hs with
  | refl => exact h
  | tail _ hstep ih => exact ih.step hstep

/-! ## A turn is a run of steps -/

/-- The white space at the start of a line ends at a boundary. -/
theorem meets_scanIndent (rest : List Char) (i : Indent) (hrest : s.bytes.drop i.pos = rest)
    (hb : s.IsBoundary i.pos) (hspaces : ov = .panics → i.spaces ≤ 8 * i.pos) :
    Meets (Halt.Allowed s ov) (fun i' => i.pos ≤ i'.pos ∧ s.IsBoundary i'.pos) (scanIndent ov rest i) := by
  induction rest generalizing i with
  | nil => exact ⟨Nat.le_refl _, hb⟩
  | cons c rest ih =>
    have hbyte : s.byte i.pos = some c := by
      rw [Source.byte, ← List.head?_drop, hrest, List.head?_cons]
    have htail : s.bytes.drop (i.pos + 1) = rest := by
      rw [← List.drop_drop, hrest, List.drop_one, List.tail_cons]
    have hlt := Source.lt_len_of_byte hbyte
    have next (i' : Indent) (hpos : i'.pos = i.pos + 1) (hascii : c.toNat < 128)
        (hspaces' : ov = .panics → i'.spaces ≤ 8 * i'.pos) :
        Meets (Halt.Allowed s ov) (fun i' => i.pos ≤ i'.pos ∧ s.IsBoundary i'.pos)
          (scanIndent ov rest i') := by
      have hb' : s.IsBoundary i'.pos := by
        rw [hpos]
        exact (Source.isBoundary_of_byte hbyte hascii).2
      apply (ih i' (by rw [hpos, htail]) hb' hspaces').mono
      intro r hr
      exact ⟨by omega, hr.2⟩
    unfold scanIndent
    split
    · next heq =>
      cases heq
      apply (meets_u32 _).bind
      · intro m hm
        apply next
        · rfl
        · decide
        · intro hov
          have := hspaces hov
          rw [hm hov]
          dsimp only
          omega
      · intro hov hlen
        have := hspaces hov
        omega
    · next heq =>
      cases heq
      apply (meets_u32 _).bind
      · intro m hm
        apply next
        · rfl
        · decide
        · intro hov
          have := hspaces hov
          rw [hm hov]
          dsimp only
          omega
      · intro hov hlen
        have := hspaces hov
        omega
    · exact ⟨Nat.le_refl _, hb⟩

/-- Blocks close at the start of the line, before the lexer moves on to `pos`. -/
theorem meets_popIndents {spaces pos : Nat} (stack : List Nat) (st : Lexer) (hstack : st.indents = stack)
    (hbottom : stack.getLast? = some 0) (hline : st.bracketDepth = 0) :
    Meets (Halt.Allowed s ov)
      (fun st' => ∃ st₁, Steps s ov st st₁ ∧ st₁.pos = st.pos ∧ st' = { st₁ with pos })
      (popIndents s spaces st.pos stack { st with pos }) := by
  induction stack generalizing st with
  | nil => cases hbottom
  | cons top rest ih =>
    rw [popIndents]
    split
    · next hlt =>
      cases rest with
      | nil =>
        obtain rfl : top = 0 := Option.some.inj hbottom
        exact absurd hlt (Nat.not_lt_zero _)
      | cons next rest =>
        rw [List.getLast?_cons_cons] at hbottom
        have hstep : Step s ov st _ := Step.dedent hstack hline
        have hrest := ih (push s { st with indents := next :: rest } .dedent st.pos st.pos) rfl hbottom hline
        apply hrest.mono
        rintro st' ⟨st₁, hsteps, hpos, rfl⟩
        exact ⟨st₁, .head hstep hsteps, hpos, rfl⟩
    · refine ⟨st, .refl, rfl, ?_⟩
      rw [← hstack]

theorem meets_handleLineStart (h : Inv s ov st) (hline : st.bracketDepth = 0) :
    Meets (Halt.Allowed s ov) (fun st' => Steps s ov st st' ∧ st.pos ≤ st'.pos) (handleLineStart s ov st) := by
  apply (meets_scanIndent _ ⟨st.pos, 0, false, false⟩ rfl h.boundary fun _ => Nat.zero_le _).bind
  rintro i ⟨hle, hb⟩
  dsimp only at hle ⊢
  have hmove : Step s ov st { st with pos := i.pos } := Step.move hle hb
  split
  · trivial
  · split
    iterate 4 exact ⟨.single hmove, hle⟩
    split
    · next hnone =>
      rw [List.head?_eq_none_iff] at hnone
      have hbottom := h.bottom
      rw [hnone] at hbottom
      cases hbottom
    · next current hcurrent =>
      obtain ⟨rest, hstack⟩ := List.head?_eq_some_iff.1 hcurrent
      split
      · next hdeep =>
        exact ⟨(Relation.ReflTransGen.single (.indent hstack hdeep hline hle hb)).tail .startLine, hle⟩
      · apply (meets_popIndents st.indents st rfl h.bottom hline).bind
        rintro st' ⟨st₁, hsteps, hpos, rfl⟩
        rw [← hpos] at hle
        split
        · trivial
        · refine ⟨(hsteps.tail (.move hle hb)).tail .startLine, ?_⟩
          exact hpos.symm.le.trans hle

theorem isBoundary_commentEnd (hlt : st.pos < s.len) : s.IsBoundary (commentEnd s st.pos) := by
  unfold commentEnd
  have hsplit : (s.bytes.drop st.pos).takeWhile (fun b => decide (b ≠ '\n')) ++
      (s.bytes.drop st.pos).dropWhile (fun b => decide (b ≠ '\n')) = s.bytes.drop st.pos :=
    List.takeWhile_append_dropWhile
  generalize (s.bytes.drop st.pos).takeWhile (fun b => decide (b ≠ '\n')) = comment at hsplit ⊢
  cases hrest : (s.bytes.drop st.pos).dropWhile fun b => decide (b ≠ '\n') with
  | nil =>
    -- The comment ends with the source.
    have hlen : comment.length = s.len - st.pos := by
      rw [Source.len, ← List.length_drop, ← hsplit, hrest, List.append_nil]
    have hend : st.pos + comment.length = s.len := by omega
    rw [hend]
    exact s.isBoundary_len
  | cons b rest =>
    have hb : b = '\n' := by
      have := List.head_dropWhile_not (fun b => decide (b ≠ '\n')) (l := s.bytes.drop st.pos)
        (by rw [hrest]; exact List.cons_ne_nil _ _)
      simp only [hrest, List.head_cons] at this
      simpa using this
    have hbyte : s.byte (st.pos + comment.length) = some b := by
      rw [Source.byte, ← List.getElem?_drop, ← hsplit, hrest, List.getElem?_append_right (Nat.le_refl _),
        Nat.sub_self]
      rfl
    rw [hb] at hbyte
    exact (Source.isBoundary_of_byte hbyte (by decide)).1

theorem lt_commentEnd (hb : s.byte st.pos = some '#') : st.pos < commentEnd s st.pos := by
  have hhead : (s.bytes.drop st.pos).head? = some '#' := by rwa [List.head?_drop]
  obtain ⟨rest, hrest⟩ := List.head?_eq_some_iff.1 hhead
  rw [commentEnd, hrest, List.takeWhile_cons_of_pos rfl, List.length_cons]
  omega

theorem isBoundary_consumeNewline {b : Char} (hb : s.byte st.pos = some b) (hnl : b = '\n' ∨ b = '\r') :
    s.IsBoundary (consumeNewline s st.pos) ∧ st.pos < consumeNewline s st.pos := by
  have hascii : b.toNat < 128 := by rcases hnl with rfl | rfl <;> decide
  unfold consumeNewline
  split
  · next hcrlf =>
    exact ⟨(Source.isBoundary_of_byte hcrlf.2 (by decide)).2, Nat.lt_add_of_pos_right Nat.two_pos⟩
  · exact ⟨(Source.isBoundary_of_byte hb hascii).2, Nat.lt_succ_self _⟩

theorem meets_depthAfter {kind : TokenKind} (h : Inv s ov st) :
    Meets (Halt.Allowed s ov) (fun _ => True) (depthAfter ov kind st.bracketDepth) := by
  have hle := h.boundary.le_len
  have hnear (d : Int) (hd : d = st.bracketDepth + 1 ∨ d = st.bracketDepth - 1) :
      Meets (Halt.Allowed s ov) (fun m => ov = .panics → m = d) (ov.i32 d) := by
    apply meets_i32
    intro hov hlen
    obtain ⟨h0, h1⟩ := h.depth hov
    omega
  unfold depthAfter
  split
  iterate 3 exact (hnear _ (Or.inl rfl)).mono fun _ _ => trivial
  iterate 3 exact (hnear _ (Or.inr rfl)).bind fun _ _ => trivial
  trivial

theorem meets_lexItem (h : Inv s ov st) (hlt : st.pos < s.len) :
    Meets (Halt.Allowed s ov) (fun st' => Steps s ov st st' ∧ st.pos < st'.pos) (lexItem s ov u st) := by
  apply (Source.meets_index hlt).bind
  intro b hb
  split
  · next hblank =>
    have hascii : b.toNat < 128 := by rcases hblank with rfl | rfl <;> decide
    exact ⟨.single (.move (Nat.le_succ _) (Source.isBoundary_of_byte hb hascii).2), Nat.lt_succ_self _⟩
  · split
    · next hcomment =>
      rw [hcomment] at hb
      have hend := lt_commentEnd hb
      exact ⟨.single (.move hend.le (isBoundary_commentEnd hlt)), hend⟩
    · split
      · next hnl =>
        exact ⟨.single (.move (Nat.le_add_right _ _) (Source.isBoundary_of_byte hnl.2 (by decide)).2),
          Nat.lt_add_of_pos_right Nat.two_pos⟩
      · split
        · next hcr =>
          refine ⟨.single (.move (Nat.le_add_right _ _) ?_), ?_⟩
          · split
            · next hlf => exact (Source.isBoundary_of_byte hlf (by decide)).2
            · exact (Source.isBoundary_of_byte hcr.2 (by decide)).2
          · dsimp only
            split <;> omega
        · split
          · next hnl =>
            obtain ⟨hbound, hmore⟩ := isBoundary_consumeNewline hb hnl
            have hmove : Step s ov st { st with pos := consumeNewline s st.pos } := .move hmore.le hbound
            simp only [meets_pure, endLine]
            split
            · next hline =>
              refine ⟨(Relation.ReflTransGen.single hmove).tail (.endLine hline), ?_⟩
              rw [emitNewlineIfNeeded_pos]
              exact hmore
            · exact ⟨.single hmove, hmore⟩
          · apply (meets_lexToken h.boundary hlt).bind
            rintro ⟨kind, stop⟩ hfrom
            apply (meets_depthAfter h).self.bind
            rintro depth ⟨hdepth, -⟩
            exact ⟨.single (.token hfrom hdepth), hfrom.lt⟩

/-- A turn of the main loop takes steps, and reads on. -/
theorem meets_turn (h : Inv s ov st) (hlt : st.pos < s.len) :
    Meets (Halt.Allowed s ov) (fun st' => Steps s ov st st' ∧ st.pos < st'.pos) (turn s ov u st) := by
  have hitem (st₁ : Lexer) (h₁ : Steps s ov st st₁ ∧ st.pos ≤ st₁.pos) :
      Meets (Halt.Allowed s ov) (fun st' => Steps s ov st st' ∧ st.pos < st'.pos)
        (if s.len ≤ st₁.pos then return st₁ else lexItem s ov u st₁) := by
    split
    · next hend => exact ⟨h₁.1, hlt.trans_le hend⟩
    · next hmore =>
      apply (meets_lexItem (h.steps h₁.1) (Nat.lt_of_not_le hmore)).mono
      rintro st' ⟨hsteps', hlt'⟩
      exact ⟨h₁.1.trans hsteps', h₁.2.trans_lt hlt'⟩
  unfold turn
  dsimp only
  split
  · next hline => exact (meets_handleLineStart h hline.2).bind hitem
  · exact hitem st ⟨.refl, Nat.le_refl _⟩

/-- The states that the main loop runs through. -/
abbrev Turns (s : Source) (ov : Overflow) (u : Unicode) : Lexer → Lexer → Prop :=
  Relation.ReflTransGen fun st st' => st.pos < s.len ∧ turn s ov u st = .ok st'

theorem steps_of_turns (h : Turns s ov u .new st) : Steps s ov .new st := by
  induction h with
  | refl => exact .refl
  | tail _ hturn ih =>
    have hmeets := meets_turn (u := u) ((inv_new s ov).steps ih) hturn.1
    rw [hturn.2] at hmeets
    exact ih.trans hmeets.1

theorem meets_loop (fuel : Nat) (st : Lexer) (h : Inv s ov st) (hfuel : s.len < fuel + st.pos) :
    Meets (Halt.Allowed s ov) (fun st' => Steps s ov st st' ∧ st'.pos = s.len) (loop s ov u fuel st) := by
  induction fuel generalizing st with
  | zero => exact absurd h.boundary.le_len (by omega)
  | succ fuel ih =>
    rw [loop]
    split
    · next hlt =>
      apply (meets_turn h hlt).bind
      rintro st₁ ⟨hsteps, hmore⟩
      apply (ih st₁ (h.steps hsteps) (by omega)).mono
      rintro st' ⟨hsteps', hend⟩
      exact ⟨hsteps.trans hsteps', hend⟩
    · next hend => exact ⟨.refl, Nat.le_antisymm h.boundary.le_len (Nat.le_of_not_lt hend)⟩

/-- A run of the lexer is a run of steps to the end of the source, and the flush there. -/
theorem meets_lex (s : Source) (ov : Overflow) (u : Unicode) :
    Meets (Halt.Allowed s ov) (fun out => ∃ st, Steps s ov .new st ∧ st.pos = s.len ∧ out = st.finish s)
      (lex u ov s) := by
  apply (meets_loop (s.len + 1) .new (inv_new s ov) (Nat.lt_succ_self _)).bind
  rintro st ⟨hsteps, hend⟩
  exact ⟨st, hsteps, hend, rfl⟩

end Lexer

end Cobrust.Frontend
