import Cobrust.Frontend.Layout

/-!
# The lexer and its source

The lexer never reads outside of its source or within a character, and stops only for an error
(`lex_total`); the spans of its tokens follow one another, each between two characters. Positions are
narrowed to 32 bits, and a debug build checks the width of an indentation.
-/

namespace Cobrust.Frontend

open Control Lexer

/-- The spans stand in order and between characters. -/
structure Source.SpansSound (s : Source) (out : List Token) : Prop where
  ordered : out.Pairwise fun a b => a.span.stop ≤ b.span.start
  within : ∀ t ∈ out, t.span.start ≤ t.span.stop ∧ t.span.stop ≤ s.len
  boundary : ∀ t ∈ out, s.IsBoundary t.span.start ∧ s.IsBoundary t.span.stop

/-- The spans are sound, and none goes on behind `p`. -/
structure Source.SpansTo (s : Source) (p : Nat) (out : List Token) : Prop where
  sound : s.SpansSound out
  stop_le : ∀ t ∈ out, t.span.stop ≤ p

variable {s : Source} {ov : Overflow} {st st' : Lexer} {p start stop : Nat} {out : List Token}

theorem span_eq (h : start ≤ stop) (hlt : stop < 2 ^ 32) : s.span start stop = ⟨s.file, start, stop⟩ := by
  rw [Source.span, Nat.mod_eq_of_lt hlt, Nat.mod_eq_of_lt (h.trans_lt hlt), if_pos h]

namespace Source.SpansTo

theorem mono (h : s.SpansTo p out) (hle : p ≤ stop) : s.SpansTo stop out :=
  ⟨h.sound, fun t ht => (h.stop_le t ht).trans hle⟩

theorem push (h : s.SpansTo p out) (kind : TokenKind) (hp : p ≤ start) (hle : start ≤ stop)
    (hstart : s.IsBoundary start) (hstop : s.IsBoundary stop) (hlen : s.len < 2 ^ 32) :
    s.SpansTo stop (out ++ [⟨kind, s.span start stop⟩]) := by
  rw [span_eq hle (hstop.le_len.trans_lt hlen)]
  refine ⟨⟨?_, ?_, ?_⟩, ?_⟩
  · apply List.pairwise_append.2
    refine ⟨h.sound.ordered, List.pairwise_singleton _ _, ?_⟩
    intro a ha b hb
    obtain rfl := List.mem_singleton.1 hb
    exact (h.stop_le a ha).trans hp
  · intro t ht
    rcases List.mem_append.1 ht with ht | ht
    · exact h.sound.within t ht
    · obtain rfl := List.mem_singleton.1 ht
      exact ⟨hle, hstop.le_len⟩
  · intro t ht
    rcases List.mem_append.1 ht with ht | ht
    · exact h.sound.boundary t ht
    · obtain rfl := List.mem_singleton.1 ht
      exact ⟨hstart, hstop⟩
  · intro t ht
    rcases List.mem_append.1 ht with ht | ht
    · exact (h.stop_le t ht).trans (hp.trans hle)
    · obtain rfl := List.mem_singleton.1 ht
      exact Nat.le_refl _

theorem emitNewline (h : s.SpansTo st.pos st.out) (hb : s.IsBoundary st.pos) (hlen : s.len < 2 ^ 32) :
    s.SpansTo st.pos (emitNewlineIfNeeded s st).out := by
  unfold emitNewlineIfNeeded
  split
  · exact h
  · exact h.push .newline (Nat.le_refl _) (Nat.le_refl _) hb hb hlen

theorem step (h : s.SpansTo st.pos st.out) (hinv : Inv s ov st) (hs : Step s ov st st')
    (hlen : s.len < 2 ^ 32) : s.SpansTo st'.pos st'.out := by
  cases hs with
  | move hle hb => exact h.mono hle
  | indent hstack hdeep hline hle hb => exact h.push .indent (Nat.le_refl _) hle hinv.boundary hb hlen
  | dedent hstack hline =>
    exact h.push .dedent (Nat.le_refl _) (Nat.le_refl _) hinv.boundary hinv.boundary hlen
  | startLine => exact h
  | endLine hline =>
    change s.SpansTo (emitNewlineIfNeeded s st).pos (emitNewlineIfNeeded s st).out
    rw [emitNewlineIfNeeded_pos]
    exact h.emitNewline hinv.boundary hlen
  | token hfrom hdepth =>
    exact h.push _ (Nat.le_refl _) hfrom.lt.le hinv.boundary hfrom.boundary hlen

theorem steps (hs : Steps s ov .new st) (hlen : s.len < 2 ^ 32) : s.SpansTo st.pos st.out := by
  induction hs with
  | refl =>
    refine ⟨⟨List.Pairwise.nil, ?_, ?_⟩, ?_⟩
    all_goals exact fun t ht => absurd ht List.not_mem_nil
  | tail hsteps hstep ih => exact ih.step ((inv_new s ov).steps hsteps) hstep hlen

theorem flush (h : s.SpansTo st.pos st.out) (stack : List Nat) (hb : s.IsBoundary st.pos)
    (hlen : s.len < 2 ^ 32) :
    s.SpansTo st.pos (flushIndents s stack st).out := by
  induction stack generalizing st with
  | nil => exact h
  | cons top stack ih =>
    cases stack with
    | nil => exact h
    | cons next rest =>
      have hpush := h.push .dedent (Nat.le_refl _) (Nat.le_refl _) hb hb hlen
      have hrest := @ih (Lexer.push s { st with indents := next :: rest } .dedent st.pos st.pos)
      exact hrest hpush hb

end Source.SpansTo

end Cobrust.Frontend
