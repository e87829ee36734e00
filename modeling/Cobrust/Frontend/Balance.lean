import Cobrust.Frontend.Layout
import Mathlib.Data.List.Chain

/-!
# Layout tokens are balanced

What the steps of the lexer keep of the tokens that it has emitted: a `Dedent` closes an `Indent`, no two
`Newline`s stand together, and within brackets there is no layout. The flush at the end of the source
closes all that is open, within brackets too.
-/

namespace Cobrust.Frontend

open Control Lexer

/-- The brackets that are open behind some tokens; one that closes nothing is skipped. -/
def openBrackets (out : List Token) : Int :=
  out.foldl (fun depth t =>
    match t.kind with
    | .lParen | .lBracket | .lBrace => depth + 1
    | .rParen | .rBracket | .rBrace => max (depth - 1) 0
    | _ => depth) 0

def indentCount (out : List Token) : Nat :=
  out.countP fun t => t.kind = .indent

def dedentCount (out : List Token) : Nat :=
  out.countP fun t => t.kind = .dedent

/-- Layout tokens have their partners. -/
structure Balanced (out : List Token) : Prop where
  dedents_le : ∀ front, front <+: out → dedentCount front ≤ indentCount front
  newlines : out.IsChain fun a b => ¬ (a.kind = .newline ∧ b.kind = .newline)
  no_eof : ∀ t ∈ out, t.kind ≠ .eof

/-- Outside of brackets only are there layout tokens. -/
def LayoutOutside (out : List Token) : Prop :=
  ∀ front t back, out = front ++ t :: back → t.kind.isLayout = true → openBrackets front = 0

/-- Indentations, from the top of the stack on, grow from zero. -/
def IndentsGrow (stack : List Nat) : Prop :=
  stack.Pairwise (· > ·) ∧ stack.getLast? = some 0

variable {s : Source} {ov : Overflow} {st st' : Lexer} {out : List Token} {t : Token}

theorem openBrackets_push : openBrackets (out ++ [t]) =
    match t.kind with
    | .lParen | .lBracket | .lBrace => openBrackets out + 1
    | .rParen | .rBracket | .rBrace => max (openBrackets out - 1) 0
    | _ => openBrackets out := by
  rw [openBrackets, List.foldl_append]
  rfl

theorem Balanced.push (h : Balanced out) (hdedent : t.kind = .dedent → dedentCount out < indentCount out)
    (hnewline : t.kind = .newline → ∀ l, out.getLast? = some l → l.kind ≠ .newline)
    (heof : t.kind ≠ .eof) : Balanced (out ++ [t]) where
  dedents_le := by
    intro front hfront
    rcases List.prefix_concat_iff.1 hfront with rfl | hfront
    · have hout := h.dedents_le out (List.prefix_refl out)
      simp only [dedentCount, indentCount, List.countP_append, List.countP_singleton] at hout hdedent ⊢
      by_cases hk : t.kind = .dedent
      · have := hdedent hk
        simp only [hk, decide_true, if_true]
        omega
      · simp only [hk, decide_false, Bool.false_eq_true, if_false]
        omega
    · exact h.dedents_le front hfront
  newlines := by
    apply List.isChain_append.2
    refine ⟨h.newlines, List.isChain_singleton _, ?_⟩
    intro a ha b hb
    rw [List.head?_singleton, Option.mem_some_iff] at hb
    subst hb
    exact fun hab => hnewline hab.2 a ha hab.1
  no_eof := by
    intro x hx
    rcases List.mem_append.1 hx with hx | hx
    · exact h.no_eof x hx
    · rwa [List.mem_singleton.1 hx]

theorem indentCount_push : indentCount (out ++ [t]) = indentCount out + if t.kind = .indent then 1 else 0 := by
  simp [indentCount, List.countP_append]

theorem dedentCount_push : dedentCount (out ++ [t]) = dedentCount out + if t.kind = .dedent then 1 else 0 := by
  simp [dedentCount, List.countP_append]

theorem Balanced.dedents (h : Balanced out) (n : Nat) (hn : dedentCount out + n ≤ indentCount out) (span : Span) :
    Balanced (out ++ List.replicate n ⟨.dedent, span⟩) ∧
      dedentCount (out ++ List.replicate n ⟨.dedent, span⟩) = dedentCount out + n ∧
      indentCount (out ++ List.replicate n ⟨.dedent, span⟩) = indentCount out := by
  induction n with
  | zero =>
    rw [List.replicate_zero, List.append_nil]
    exact ⟨h, rfl, rfl⟩
  | succ n ih =>
    obtain ⟨hbal, hded, hind⟩ := ih (by omega)
    rw [List.replicate_succ', ← List.append_assoc]
    refine ⟨hbal.push ?_ ?_ ?_, ?_, ?_⟩
    · intro _
      omega
    · exact fun hk => nomatch hk
    · exact fun hk => nomatch hk
    · rw [dedentCount_push, hded, if_pos rfl, Nat.add_assoc]
    · rw [indentCount_push, hind, if_neg (by exact fun hk => nomatch hk), Nat.add_zero]

theorem LayoutOutside.push (h : LayoutOutside out) (ht : t.kind.isLayout = true → openBrackets out = 0) :
    LayoutOutside (out ++ [t]) := by
  intro front x back hsplit hx
  rcases List.eq_nil_or_concat back with rfl | ⟨back, last, rfl⟩
  · obtain ⟨rfl, hxt⟩ := List.append_inj' hsplit rfl
    cases hxt
    exact ht hx
  · have hsplit' : out ++ [t] = (front ++ x :: back) ++ [last] := by
      rw [hsplit, List.append_assoc, List.cons_append, List.concat_eq_append]
    obtain ⟨rfl, -⟩ := List.append_inj' hsplit' rfl
    exact h front x back rfl hx

namespace Lexer

/-- What the steps keep of the layout. -/
structure Layout (st : Lexer) : Prop where
  balanced : Balanced st.out
  blocks : indentCount st.out + 1 = dedentCount st.out + st.indents.length
  last : st.lastEmittedNewline = false → ∀ l, st.out.getLast? = some l → l.kind ≠ .newline

theorem getLast?_push {l : Token} (h : (out ++ [t]).getLast? = some l) : l = t := by
  rw [List.getLast?_concat] at h
  exact (Option.some.inj h).symm

theorem Layout.emitNewline (h : Layout st) : Layout (emitNewlineIfNeeded s st) := by
  unfold emitNewlineIfNeeded
  split
  · exact h
  · next hlast =>
    refine ⟨h.balanced.push ?_ ?_ ?_, ?_, ?_⟩
    · exact fun hk => nomatch hk
    · exact fun _ => h.last (Bool.eq_false_iff.2 hlast)
    · exact fun hk => nomatch hk
    · change indentCount (st.out ++ [_]) + 1 = dedentCount (st.out ++ [_]) + st.indents.length
      rw [indentCount_push, dedentCount_push]
      exact h.blocks
    · exact fun hk => nomatch hk

theorem Layout.step (h : Layout st) (hs : Step s ov st st') : Layout st' := by
  cases hs with
  | move hle hb => exact ⟨h.balanced, h.blocks, h.last⟩
  | @indent top spaces stop rest hstack hdeep hline hle hb =>
    refine ⟨h.balanced.push ?_ ?_ ?_, ?_, ?_⟩
    · exact fun hk => nomatch hk
    · exact fun hk => nomatch hk
    · exact fun hk => nomatch hk
    · change indentCount (st.out ++ [_]) + 1 = dedentCount (st.out ++ [_]) + (st.indents.length + 1)
      rw [indentCount_push, dedentCount_push, if_pos rfl, if_neg (by exact fun hk => nomatch hk), h.blocks]
      rfl
    · intro _ l hl
      rw [getLast?_push hl]
      exact fun hk => nomatch hk
  | @dedent top next rest hstack hline =>
    have hblocks := h.blocks
    rw [hstack, List.length_cons, List.length_cons] at hblocks
    refine ⟨h.balanced.push ?_ ?_ ?_, ?_, ?_⟩
    · intro _
      omega
    · exact fun hk => nomatch hk
    · exact fun hk => nomatch hk
    · change indentCount (st.out ++ [_]) + 1 = dedentCount (st.out ++ [_]) + (rest.length + 1)
      rw [indentCount_push, dedentCount_push, if_pos rfl, if_neg (by exact fun hk => nomatch hk)]
      omega
    · intro _ l hl
      rw [getLast?_push hl]
      exact fun hk => nomatch hk
  | startLine => exact ⟨h.balanced, h.blocks, h.last⟩
  | endLine hline =>
    have hnew := h.emitNewline (s := s)
    exact ⟨hnew.balanced, hnew.blocks, hnew.last⟩
  | @token kind stop depth hfrom hdepth =>
    have hkind := hfrom.kind
    have hne (layout : TokenKind) (hl : layout.isLayout = true) : kind ≠ layout := by
      rintro rfl
      rw [hl] at hkind
      cases hkind
    refine ⟨h.balanced.push ?_ ?_ ?_, ?_, ?_⟩
    · exact fun hk => absurd hk (hne _ rfl)
    · exact fun hk => absurd hk (hne _ rfl)
    · exact hne _ rfl
    · change indentCount (st.out ++ [_]) + 1 = dedentCount (st.out ++ [_]) + st.indents.length
      rw [indentCount_push, dedentCount_push, if_neg (hne _ rfl), if_neg (hne _ rfl)]
      exact h.blocks
    · intro _ l hl
      rw [getLast?_push hl]
      exact hne _ rfl

theorem Layout.steps (hs : Steps s ov .new st) : Layout st := by
  induction hs with
  | refl =>
    refine ⟨⟨?_, List.isChain_nil, ?_⟩, rfl, ?_⟩
    · intro front hfront
      rw [List.prefix_nil.1 hfront]
      exact Nat.le_refl _
    · exact fun t ht => absurd ht List.not_mem_nil
    · exact fun hk => nomatch hk
  | tail _ hstep ih => exact ih.step hstep

theorem indentsGrow_steps (hs : Steps s ov .new st) : IndentsGrow st.indents := by
  have hinv := (inv_new s ov).steps hs
  exact ⟨hinv.sorted, hinv.bottom⟩

/-- The counter of the lexer is the number of open brackets, where an `i32` holds it. -/
structure Brackets (st : Lexer) : Prop where
  depth : st.bracketDepth = openBrackets st.out
  nonneg : 0 ≤ st.bracketDepth
  le_pos : st.bracketDepth ≤ st.pos
  outside : LayoutOutside st.out

theorem i32_eq {n m : Int} (h : ov.i32 n = .ok m) (hfit : ov = .panics ∨ -2 ^ 31 ≤ n ∧ n < 2 ^ 31) :
    m = n := by
  unfold Overflow.i32 at h
  split at h
  · exact (Except.ok.inj h).symm
  · next hn =>
    rcases hfit with rfl | hfit
    · cases h
    · exact absurd hfit hn

theorem depthAfter_eq {kind : TokenKind} {span : Span} {depth : Int}
    (h : depthAfter ov kind (openBrackets out) = .ok depth)
    (hfit : ov = .panics ∨ 0 ≤ openBrackets out ∧ openBrackets out + 1 < 2 ^ 31) :
    depth = openBrackets (out ++ [⟨kind, span⟩]) := by
  have hnear (d : Int) (hd : d = openBrackets out + 1 ∨ d = openBrackets out - 1) :
      ov = .panics ∨ -2 ^ 31 ≤ d ∧ d < 2 ^ 31 :=
    hfit.imp id (by omega)
  rw [openBrackets_push]
  unfold depthAfter at h
  split at h
  iterate 3 exact i32_eq h (hnear _ (Or.inl rfl))
  iterate 3
    obtain ⟨m, hm, h⟩ := except_bind_ok.1 h
    cases h
    rw [i32_eq hm (hnear _ (Or.inr rfl))]
  next =>
    cases h
    first
      | rfl
      | split <;> first | rfl | contradiction

theorem openBrackets_layout (h : t.kind.isLayout = true) : openBrackets (out ++ [t]) = openBrackets out := by
  rw [openBrackets_push]
  split
  iterate 6
    next hk =>
      rw [hk] at h
      cases h
  rfl

theorem Brackets.pushLayout (h : Brackets st) (hline : st.bracketDepth = 0) (ht : t.kind.isLayout = true) :
    st.bracketDepth = openBrackets (st.out ++ [t]) ∧ LayoutOutside (st.out ++ [t]) := by
  rw [openBrackets_layout ht]
  exact ⟨h.depth, h.outside.push fun _ => h.depth.symm.trans hline⟩

theorem Brackets.step (h : Brackets st) (hs : Step s ov st st')
    (hfit : ov = .panics ∨ s.len < 2 ^ 31) : Brackets st' := by
  have hle := h.le_pos
  cases hs with
  | move hle' hb => exact ⟨h.depth, h.nonneg, by dsimp only; omega, h.outside⟩
  | indent hstack hdeep hline hle' hb =>
    obtain ⟨hdepth, hout⟩ := h.pushLayout hline (t := ⟨.indent, _⟩) rfl
    exact ⟨hdepth, h.nonneg, by dsimp only [push]; omega, hout⟩
  | dedent hstack hline =>
    obtain ⟨hdepth, hout⟩ := h.pushLayout hline (t := ⟨.dedent, _⟩) rfl
    exact ⟨hdepth, h.nonneg, hle, hout⟩
  | startLine => exact ⟨h.depth, h.nonneg, hle, h.outside⟩
  | endLine hline =>
    unfold emitNewlineIfNeeded
    split
    · exact ⟨h.depth, h.nonneg, hle, h.outside⟩
    · obtain ⟨hdepth, hout⟩ := h.pushLayout hline (t := ⟨.newline, _⟩) rfl
      exact ⟨hdepth, h.nonneg, hle, hout⟩
  | @token kind stop depth hfrom hdepth =>
    have hlt := hfrom.lt
    have hlen := hfrom.boundary.le_len
    have hnonneg := h.nonneg
    rw [h.depth] at hdepth hle hnonneg
    have heq : depth = openBrackets (st.out ++ [⟨kind, s.span st.pos stop⟩]) :=
      depthAfter_eq hdepth (hfit.imp id fun _ => by
        dsimp only at hlt hlen
        omega)
    have hkind := hfrom.kind
    refine ⟨heq, ?_, ?_, h.outside.push fun ht => ?_⟩
    · change 0 ≤ depth
      rw [heq, openBrackets_push]
      split <;> omega
    · change depth ≤ (stop : Int)
      dsimp only at hlt
      rw [heq, openBrackets_push]
      split <;> omega
    · rw [hkind] at ht
      cases ht

theorem Brackets.steps (hs : Steps s ov .new st) (hfit : ov = .panics ∨ s.len < 2 ^ 31) : Brackets st := by
  induction hs with
  | refl =>
    refine ⟨rfl, Int.le_refl 0, Int.le_refl 0, ?_⟩
    intro front t back hsplit
    exact absurd hsplit (by simp [new])
  | tail _ hstep ih => exact ih.step hstep hfit

/-! ## The end of the source -/

theorem flushIndents_out (stack : List Nat) (st : Lexer) :
    (flushIndents s stack st).out =
      st.out ++ List.replicate (stack.length - 1) ⟨.dedent, s.span st.pos st.pos⟩ := by
  induction stack generalizing st with
  | nil => exact (List.append_nil _).symm
  | cons top stack ih =>
    cases stack with
    | nil => exact (List.append_nil _).symm
    | cons next rest =>
      rw [flushIndents, ih, push, List.append_assoc, List.singleton_append, List.length_cons, List.length_cons,
        List.length_cons, Nat.add_sub_cancel, Nat.add_sub_cancel, List.replicate_succ]

/-- The tokens at the end of the source: of the line, of the blocks and of the source itself. -/
def flushed (lines blocks : Nat) (span : Span) : List Token :=
  List.replicate lines ⟨.newline, span⟩ ++ List.replicate blocks ⟨.dedent, span⟩ ++ [⟨.eof, span⟩]

theorem finish_eq (st : Lexer) (s : Source) :
    st.finish s = st.out ++
      flushed (if st.lastEmittedNewline then 0 else 1) (st.indents.length - 1) (s.span st.pos st.pos) := by
  unfold finish emitNewlineIfNeeded flushed
  split
  · dsimp only
    rw [push, flushIndents_out, List.replicate_zero, List.nil_append, List.append_assoc]
  · dsimp only
    rw [push, flushIndents_out, push]
    simp only [List.replicate_one, List.append_assoc]

end Lexer

/-- The layout of a token list: pairs of `Indent` and `Dedent`, single `Newline`s and one `Eof`. -/
structure LayoutSound (out : List Token) : Prop where
  paired : dedentCount out = indentCount out
  dedents_le : ∀ front, front <+: out → dedentCount front ≤ indentCount front
  newlines : out.IsChain fun a b => ¬ (a.kind = .newline ∧ b.kind = .newline)
  eof : ∃ front span, out = front ++ [⟨.eof, span⟩] ∧ ∀ t ∈ front, t.kind ≠ .eof

theorem layoutSound_finish (hs : Steps s ov .new st) : LayoutSound (st.finish s) := by
  have hline := (Layout.steps hs).emitNewline (s := s)
  obtain ⟨top, hbottom⟩ : ∃ top, st.indents.getLast? = some top := ⟨0, (indentsGrow_steps hs).2⟩
  have hpos := List.length_pos_of_mem (List.mem_of_getLast? hbottom)
  have hsame : (emitNewlineIfNeeded s st).indents = st.indents := by
    unfold emitNewlineIfNeeded
    split <;> rfl
  have hblocks := hline.blocks
  rw [hsame] at hblocks
  obtain ⟨hbal, hded, hind⟩ := hline.balanced.dedents (st.indents.length - 1) (by omega)
    (s.span (emitNewlineIfNeeded s st).pos (emitNewlineIfNeeded s st).pos)
  rw [finish, push, flushIndents_out, hsame]
  generalize (emitNewlineIfNeeded s st).out ++ List.replicate (st.indents.length - 1) _ = front at hbal hded hind ⊢
  refine ⟨?_, ?_, ?_, front, _, rfl, hbal.no_eof⟩
  · rw [dedentCount_push, indentCount_push, hded, hind]
    simp only [reduceCtorEq, if_false]
    omega
  · intro f hf
    rcases List.prefix_concat_iff.1 hf with rfl | hf
    · have hle := hbal.dedents_le front (List.prefix_refl front)
      rw [dedentCount_push, indentCount_push]
      simp only [reduceCtorEq, if_false]
      exact hle
    · exact hbal.dedents_le f hf
  · apply List.isChain_append.2
    refine ⟨hbal.newlines, List.isChain_singleton _, ?_⟩
    intro a _ b hb
    rw [List.head?_singleton, Option.mem_some_iff] at hb
    subst hb
    exact fun hab => nomatch hab.2

/-- What the lexer emits is balanced. Up to the end of the source there is no layout token within brackets;
there the open line and the open blocks are closed, within brackets too. On the way, indentations grow. -/
theorem lex_layout (u : Unicode) (ov : Overflow) (s : Source) (out : List Token) (h : lex u ov s = .ok out) :
    LayoutSound out ∧
      (∃ st lines blocks, Steps s ov .new st ∧ out = st.out ++ flushed lines blocks (s.span s.len s.len) ∧
        lines ≤ 1 ∧ (ov = .panics ∨ s.len < 2 ^ 31 → LayoutOutside st.out)) ∧
      (∀ st, Turns s ov u .new st → Steps s ov .new st) ∧
      ∀ st, Steps s ov .new st → IndentsGrow st.indents := by
  have hlex := meets_lex s ov u
  rw [h] at hlex
  obtain ⟨st, hsteps, hend, rfl⟩ := hlex
  refine ⟨layoutSound_finish hsteps, ?_, fun _ => steps_of_turns, fun _ => indentsGrow_steps⟩
  refine ⟨st, if st.lastEmittedNewline then 0 else 1, st.indents.length - 1, hsteps, ?_, ?_, ?_⟩
  · rw [finish_eq, hend]
  · split <;> omega
  · exact fun hfit => (Brackets.steps hsteps hfit).outside

/-- Tables that know no letters beyond ASCII. -/
def asciiTables : Unicode where
  isXidStart _ := false
  isXidContinue _ := false
  nfkc := id

theorem lex_block : lex asciiTables .panics ⟨"a:\n b".toList, 0⟩ = .ok
    [⟨.ident "a".toList, ⟨0, 0, 1⟩⟩, ⟨.colon, ⟨0, 1, 2⟩⟩, ⟨.newline, ⟨0, 3, 3⟩⟩, ⟨.indent, ⟨0, 3, 4⟩⟩,
      ⟨.ident "b".toList, ⟨0, 4, 5⟩⟩, ⟨.newline, ⟨0, 5, 5⟩⟩, ⟨.dedent, ⟨0, 5, 5⟩⟩, ⟨.eof, ⟨0, 5, 5⟩⟩] := by
  rfl

theorem lex_layout_block :
    ∃ out, lex asciiTables .panics ⟨"a:\n b".toList, 0⟩ = .ok out ∧ LayoutSound out :=
  ⟨_, lex_block, (lex_layout asciiTables .panics _ _ lex_block).1⟩

/-- The line ends at the end of the source although its bracket is open. -/
theorem newline_in_bracket :
    ¬ ∀ (u : Unicode) (ov : Overflow) (s : Source) (out : List Token), lex u ov s = .ok out →
      ∀ front t back, out = front ++ t :: back →
        t.kind = .newline ∨ t.kind = .indent ∨ t.kind = .dedent → openBrackets front = 0 := by
  intro h
  have hlex : lex asciiTables .panics ⟨"(".toList, 0⟩ =
      .ok [⟨.lParen, ⟨0, 0, 1⟩⟩, ⟨.newline, ⟨0, 1, 1⟩⟩, ⟨.eof, ⟨0, 1, 1⟩⟩] := by
    rfl
  have hopen : openBrackets [⟨.lParen, ⟨0, 0, 1⟩⟩] = 0 :=
    h _ _ _ _ hlex [⟨.lParen, ⟨0, 0, 1⟩⟩] ⟨.newline, ⟨0, 1, 1⟩⟩ [⟨.eof, ⟨0, 1, 1⟩⟩] rfl (Or.inl rfl)
  cases hopen

end Cobrust.Frontend
