import Cobrust.Control.Reading
import Cobrust.Frontend.Parser.Stmt

/-!
# What stands ahead

The functions of the cursor, by the kinds of the tokens ahead. The last token is never read, so something stands ahead
behind every token that is.
-/

namespace Cobrust.Frontend.Parser

open Ast Control

/-- The kinds of the tokens ahead, and the depth. -/
structure Ahead (ks : List TokenKind) (depth : Nat) (p : Parser) : Prop where
  kinds : (p.toks.drop p.pos).map Token.kind = ks
  depth : p.depth = depth

variable {α β γ : Type} {k k' : TokenKind} {ks rest : List TokenKind} {depth : Nat} {p : Parser}

theorem ahead_new {toks : List Token} : Ahead (toks.map Token.kind) 0 (new toks) :=
  ⟨rfl, rfl⟩

theorem Ahead.markTurn {q : Parser} (h : Ahead ks depth p) : Ahead ks depth (q.markTurn p) :=
  ⟨h.kinds, h.depth⟩

theorem Ahead.exists_drop (h : Ahead (k :: ks) depth p) : ∃ t toks, p.toks.drop p.pos = t :: toks ∧ t.kind = k ∧
    toks.map Token.kind = ks := by
  obtain ⟨t, toks, hdrop, hk, hks⟩ := List.map_eq_cons_iff.1 h.kinds
  exact ⟨t, toks, hdrop, hk, hks⟩

theorem Ahead.tokenAt_zero (h : Ahead (k :: ks) depth p) : ∃ t, p.tokenAt 0 = some t ∧ t.kind = k := by
  obtain ⟨t, toks, hdrop, hk, -⟩ := h.exists_drop
  have hlt : p.pos < p.toks.length := by
    by_contra hge
    rw [List.drop_eq_nil_of_le (Nat.le_of_not_lt hge)] at hdrop
    cases hdrop
  refine ⟨t, ?_, hk⟩
  rw [tokenAt, Nat.add_zero, Nat.min_eq_left (by omega)]
  have hhead := congrArg (fun l => l[0]?) hdrop
  simpa using hhead

theorem Ahead.tokenAt_one (h : Ahead (k :: ks) depth p) : ∃ t, p.tokenAt 1 = some t ∧ t.kind = ks.headD k := by
  obtain ⟨t, toks, hdrop, hk, hks⟩ := h.exists_drop
  have hlen : p.toks.length - p.pos = toks.length + 1 := by
    rw [← List.length_drop, hdrop, List.length_cons]
  cases toks with
  | nil =>
    obtain ⟨t, ht, hk⟩ := h.tokenAt_zero
    refine ⟨t, ?_, ?_⟩
    · rw [tokenAt] at ht ⊢
      rw [← ht]
      simp only [List.length_nil] at hlen
      congr 1
      omega
    · rw [← hks, hk]
      rfl
  | cons t' toks =>
    refine ⟨t', ?_, ?_⟩
    · rw [tokenAt, Nat.min_eq_left (by simp only [List.length_cons] at hlen; omega)]
      have hnext := congrArg (fun l => l[1]?) hdrop
      simpa using hnext
    · rw [← hks]
      rfl

/-! ## Looking -/

theorem peek_ok (h : Ahead (k :: ks) depth p) : ∃ t, peek p = .ok t p ∧ t.kind = k := by
  obtain ⟨t, ht, hk⟩ := h.tokenAt_zero
  exact ⟨t, by rw [peek, peekToken, ht], hk⟩

theorem peekKind_eq (h : Ahead (k :: ks) depth p) : peekKind p = .ok k p := by
  obtain ⟨t, ht, rfl⟩ := peek_ok h
  exact bind_of_ok ht

theorem peekAt_eq (h : Ahead (k :: ks) depth p) : peekAt 1 p = .ok (ks.headD k) p := by
  obtain ⟨t, ht, hk⟩ := h.tokenAt_one
  rw [← hk]
  exact bind_of_ok (by rw [peekToken, ht])

theorem atKind_eq (h : Ahead (k :: ks) depth p) : atKind k' p = .ok (decide (k = k')) p :=
  bind_of_ok (peekKind_eq h)

theorem currentSpan_ok (h : Ahead (k :: ks) depth p) : ∃ span, currentSpan p = .ok span p := by
  obtain ⟨t, ht, -⟩ := peek_ok h
  exact ⟨t.span, bind_of_ok ht⟩

variable {R : β → Parser → Prop}

theorem gives_peek {f : Token → ParserM β} (hf : ∀ t : Token, t.kind = k → Gives (Ahead (k :: ks) depth) (f t) R) :
    Gives (Ahead (k :: ks) depth) (peek >>= f) R :=
  .look (fun _ => peek_ok) hf

theorem gives_peekKind {f : TokenKind → ParserM β} (hf : Gives (Ahead (k :: ks) depth) (f k) R) :
    Gives (Ahead (k :: ks) depth) (peekKind >>= f) R :=
  .look (S := fun a => a = k) (fun _ h => ⟨k, peekKind_eq h, rfl⟩) fun _ ha => ha ▸ hf

theorem gives_peekAt {f : TokenKind → ParserM β} (hf : Gives (Ahead (k :: ks) depth) (f (ks.headD k)) R) :
    Gives (Ahead (k :: ks) depth) (peekAt 1 >>= f) R :=
  .look (S := fun a => a = ks.headD k) (fun _ h => ⟨_, peekAt_eq h, rfl⟩) fun _ ha => ha ▸ hf

theorem gives_currentSpan {f : Span → ParserM β} (hf : ∀ span, Gives (Ahead (k :: ks) depth) (f span) R) :
    Gives (Ahead (k :: ks) depth) (currentSpan >>= f) R :=
  .look (S := fun _ => True) (fun _ h => (currentSpan_ok h).imp fun _ hspan => ⟨hspan, trivial⟩) fun span _ => hf span

theorem gives_bump : Gives (Ahead (k :: k' :: ks) depth) bump fun _ p => Ahead (k' :: ks) depth p := by
  intro p h
  obtain ⟨t, ht, -⟩ := peek_ok h
  obtain ⟨_, toks, hdrop, -, hks⟩ := h.exists_drop
  have hlen : p.toks.length - p.pos = toks.length + 1 := by
    rw [← List.length_drop, hdrop, List.length_cons]
  have hpos : toks.length = ks.length + 1 := by
    rw [← List.length_map (f := Token.kind), hks, List.length_cons]
  have hmodify : (modify fun p => if p.pos < p.toks.length - 1 then p.step else p : ParserM Unit) p = .ok () p.step := by
    change EStateM.Result.ok () (if p.pos < p.toks.length - 1 then p.step else p) = _
    rw [if_pos (by omega)]
  refine ⟨t, p.step, (bind_of_ok ht).trans (bind_of_ok hmodify), ?_, h.depth⟩
  rw [step, ← List.tail_drop, hdrop, List.tail_cons, hks]

theorem gives_bumpBind {f : Token → ParserM β} (hf : ∀ t, Gives (Ahead (k' :: ks) depth) (f t) R) :
    Gives (Ahead (k :: k' :: ks) depth) (bump >>= f) R :=
  gives_bump.bind hf

theorem gives_atKind {f : Bool → ParserM β} (hf : Gives (Ahead (k :: ks) depth) (f (k = k')) R) :
    Gives (Ahead (k :: ks) depth) (atKind k' >>= f) R :=
  .look (S := fun b => b = decide (k = k')) (fun _ h => ⟨_, atKind_eq h, rfl⟩) fun _ hb => hb ▸ hf

theorem gives_notEat {f : Bool → ParserM β} (hk : k ≠ k') (hf : Gives (Ahead (k :: ks) depth) (f false) R) :
    Gives (Ahead (k :: ks) depth) (eat k' >>= f) R := by
  refine .look (S := fun b => b = false) (fun p h => ⟨false, ?_, rfl⟩) fun _ hb => hb ▸ hf
  refine (bind_of_ok (atKind_eq h)).trans ?_
  rw [decide_eq_false hk]
  rfl

theorem gives_expect : Gives (Ahead (k :: k' :: ks) depth) (expect k) fun _ p => Ahead (k' :: ks) depth p := by
  refine gives_atKind ?_
  rw [decide_eq_true rfl, if_pos rfl]
  exact gives_bump

theorem gives_deeper {m : ParserM α} {Q : α → Prop} (hdepth : depth < maxDepth)
    (hm : Gives (Ahead ks (depth + 1)) m fun a p => Q a ∧ Ahead rest (depth + 1) p) :
    Gives (Ahead ks depth) (deeper m) fun a p => Q a ∧ Ahead rest depth p := by
  have hcheck : Gives (Ahead ks depth) checkExprDepth fun _ => Ahead ks depth := by
    intro p h
    refine ⟨(), p, ?_, h⟩
    rw [checkExprDepth, if_neg (by rw [h.depth]; omega)]
  refine hcheck.bind fun _ => hm.between (fun p h => ⟨h.kinds, ?_⟩) fun a p h => ⟨h.1, h.2.kinds, ?_⟩
  · rw [h.depth]
  · rw [h.2.depth]
    rfl

end Cobrust.Frontend.Parser
