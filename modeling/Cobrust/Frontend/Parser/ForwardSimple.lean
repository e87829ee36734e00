import Cobrust.Frontend.Parser.Forward
import Cobrust.Frontend.Parser.Simple

/-!
# Types, parameters and patterns move forward
-/

namespace Cobrust.Frontend.Parser

open Ast Control

/-- With `r` tokens left in `toks` the level goes on, and its loops have turns enough. -/
structure Feeds (toks : List Token) (r : Nat) (d : Descent) : Prop where
  turns : r ≤ d.fuel
  stmt : Eats (reading toks) r d.parseStmt
  expr : Eats (reading toks) r d.parseExpr
  pratt : ∀ prec, Eats (reading toks) r (d.parsePratt prec)
  type : Eats (reading toks) r d.parseType
  typeAtom : Eats (reading toks) r d.parseTypeAtom
  pattern : Eats (reading toks) r d.parsePatternSimple

variable {toks : List Token} {α : Type} {P : Parser → Prop} {Q : α → Prop} {r : Nat} {d : Descent} {start : Span}

theorem Feeds.le {r' : Nat} (h : Feeds toks r d) (hr : r' ≤ r) : Feeds toks r' d where
  turns := Nat.le_trans hr h.turns
  stmt := h.stmt.le hr
  expr := h.expr.le hr
  pratt prec := (h.pratt prec).le hr
  type := h.type.le hr
  typeAtom := h.typeAtom.le hr
  pattern := h.pattern.le hr

variable (hends : EndsInEof toks)
include hends

theorem eats_parseLiteralDefault : Eats (reading toks) r parseLiteralDefault := by
  refine reads_peek hends fun t => ?_
  split
  case h_9 hk =>
    refine reads_seen (hk ▸ nofun) (reads_bumpBind hends fun _ r' _ => reads_peekKind hends fun k => ?_)
    split
    · exact reads_seen nofun ((reads_bump hends).first fun _ _ _ => .pure)
    · exact reads_seen nofun ((reads_bump hends).first fun _ _ _ => .pure)
    · exact reads_fail
  case h_10 => exact reads_fail
  all_goals
    next hk => exact reads_seen (hk ▸ nofun) (reads_bumpBind hends fun _ _ _ => .pure)

theorem eats_parseType (hatom : Eats (reading toks) r d.parseTypeAtom) (h : ∀ r' < r, Feeds toks r' d) :
    Eats (reading toks) r (parseType d) := by
  refine hatom.first fun t r₁ h₁ => fed_turns (h r₁ h₁).turns fun acc => ?_
  refine reads_ifAt hends nofun (reads_bumpBind hends fun _ r₂ h₂ => ?_) (.pure id)
  exact (h r₂ (h₂.trans h₁)).typeAtom.andThen fun _ => .pure id

section Fed

variable (h : Feeds toks r d)
include h

theorem fed_parseArrayType : Fed (reading toks) r (parseArrayType d start) := by
  refine h.type.andThen fun elem => (eats_expect hends (by decide)).andThen fun _ => reads_peek hends fun t => ?_
  split
  · next hk =>
    split
    · refine reads_seen (hk ▸ nofun) (reads_bumpBind hends fun _ _ _ => reads_currentSpan hends fun _ => ?_)
      exact (eats_expect hends (by decide)).andThen fun _ => .pure id
    · exact reads_failText
  · exact reads_failText

theorem fed_parseTypeItems {close : TokenKind} (hclose : close ≠ .eof) :
    Fed (reading toks) r (parseTypeItems d close) := by
  refine reads_ifAt hends hclose (.pure id) ?_
  exact h.type.andThen fun _ => fed_commaItems hends hclose h.turns fun _ hr => (h.le (Nat.le_of_lt hr)).type.fed

theorem fed_parseParenType : Fed (reading toks) r (parseParenType d start) := by
  refine (fed_parseTypeItems hends h (by decide)).andThen fun _ => (eats_expect hends (by decide)).andThen fun _ => ?_
  refine reads_ifEat hends nofun (fun r' hr => ?_) (reads_currentSpan hends fun _ => .pure id)
  exact (h.le (Nat.le_of_lt hr)).type.andThen fun _ => .pure id

theorem eats_parseOneParam : Eats (reading toks) r (parseOneParam d) := by
  refine reads_currentSpan hends fun _ => (eats_expectIdent hends).first fun name r₁ h₁ => ?_
  have h := h.le (Nat.le_of_lt h₁)
  refine (fed_optionally hends (by decide) fun _ hr => (h.le (Nat.le_of_lt hr)).type.fed).andThen fun annot => ?_
  refine (fed_optionally hends (by decide) fun _ _ => (eats_parseLiteralDefault hends).fed).andThen fun default => ?_
  exact reads_currentSpan hends fun _ => .pure id

end Fed

theorem eats_parseNamedType (hturns : r ≤ d.fuel) (h : ∀ r' < r, Feeds toks r' d) :
    Eats (reading toks) r (parseNamedType d start) := by
  refine (eats_parseDottedName hends hturns).first fun path r₁ h₁ => ?_
  refine reads_ifEat hends nofun (fun r₂ h₂ => ?_) (reads_currentSpan hends fun _ => .pure id)
  refine (fed_parseTypeItems hends (h r₂ (h₂.trans h₁)) (by decide)).andThen fun _ => ?_
  exact reads_currentSpan hends fun _ => (eats_expect hends (by decide)).andThen fun _ => .pure id

theorem eats_parseTypeAtom (hturns : r ≤ d.fuel) (h : ∀ r' < r, Feeds toks r' d) :
    Eats (reading toks) r (parseTypeAtom d) := by
  refine reads_currentSpan hends fun start => ?_
  refine reads_ifAt hends nofun (reads_bumpBind hends fun _ _ _ => .pure) ?_
  refine reads_ifEat hends nofun (fun r' hr => (h r' hr).typeAtom.andThen fun _ => .pure id) ?_
  refine reads_ifEat hends nofun (fun r' hr => fed_parseArrayType hends (h r' hr)) ?_
  refine reads_ifEat hends nofun (fun r' hr => fed_parseParenType hends (h r' hr)) ?_
  exact eats_parseNamedType hends hturns h

theorem eats_parseOneLambdaParam : Eats (reading toks) r parseOneLambdaParam := by
  refine reads_currentSpan hends fun _ => (eats_expectIdent hends).first fun name _ _ => ?_
  refine (fed_optionally hends (by decide) fun _ _ => (eats_parseLiteralDefault hends).fed).andThen fun default => ?_
  exact reads_currentSpan hends fun _ => .pure id

theorem eats_paramTurn {one : ParserM Param} {acc : Params × Bool} (hone : Eats (reading toks) r one) :
    Eats (reading toks) r (paramTurn one acc) := by
  refine reads_ifAt hends nofun (reads_bumpBind hends fun _ r' hr => reads_peekKind hends fun k => ?_) ?_
  · refine .ite (fun _ => ?_) fun _ => .pure id
    exact reads_any ((hone.le (Nat.le_of_lt hr)).andThen fun _ => .pure id)
  · refine reads_ifEat hends nofun (fun r' hr => (hone.le (Nat.le_of_lt hr)).andThen fun _ => .pure id) ?_
    exact hone.first fun p r' _ => .ite (fun _ => .pure id) fun _ => .pure id

theorem fed_paramList {one : ParserM Param} {closes : TokenKind → Bool} (hturns : r ≤ d.fuel)
    (hone : Eats (reading toks) r one) : Fed (reading toks) r (paramList d one closes) := by
  refine fed_turns hturns fun acc => (eats_paramTurn hends hone).first fun acc r' _ => ?_
  refine reads_ifEat hends nofun (fun _ _ => reads_peekKind hends fun k => ?_) (.pure id)
  exact .ite (fun _ => .pure id) fun _ => .pure id

/-! ## Patterns -/

/-- A name and an equals sign come next. -/
def KeywordNext (p : Parser) : Prop :=
  (∃ s, p.kind? = some (.ident s)) ∧ (p.tokenAt 1).map Token.kind = some .eq

theorem reads_atKeyword {f : Bool → ParserM α} (h : Reads (reading toks) KeywordNext r Q (f true))
    (h' : Reads (reading toks) P r Q (f false)) : Reads (reading toks) P r Q (atKeyword >>= f) := by
  refine Reads.look (S := fun b p => b = true → KeywordNext p) (fun p hp => ?_) fun b => ?_
  · obtain ⟨t, ht, hpeek⟩ := peekKind_ok hends hp
    obtain ⟨t', ht', hpeek'⟩ := peekAt_ok hends hp 1
    refine ⟨isIdent t.kind && decide (t'.kind = .eq), ?_, fun hb => ?_⟩
    · exact (bind_of_ok hpeek).trans (bind_of_ok hpeek')
    · obtain ⟨hident, heq⟩ := Bool.and_eq_true_iff.mp hb
      refine ⟨?_, by rw [ht', ← of_decide_eq_true heq]; rfl⟩
      rw [kind?, ht]
      unfold isIdent at hident
      split at hident
      · next s hk => exact ⟨s, congrArg some hk⟩
      · exact absurd hident Bool.false_ne_true
  · cases b with
    | true => exact h.mono (fun p hp => hp.2 rfl) (Nat.le_refl r) fun _ h => h
    | false => exact h'.mono (fun _ hp => hp.1) (Nat.le_refl r) fun _ h => h

theorem reads_keywordName {f : Text → ParserM α} (h : ∀ name, ∀ r' < r, Reads (reading toks) NotEof r' Q (f name)) :
    Reads (reading toks) KeywordNext r Q (expectIdent >>= f) := by
  intro p hp hnext hr
  obtain ⟨⟨s, hs⟩, heq⟩ := hnext
  have hlt := pos_lt_of_notEof hends hp (by rw [NotEof, hs]; intro h; cases h)
  obtain ⟨t, ht, hbump⟩ := bump_ok hends hp hlt
  have hpeek : Parser.peek p = .ok t p := by rw [Parser.peek, peekToken, ht]
  have hkind : t.kind = .ident s := by
    rw [kind?, ht] at hs
    exact Option.some.inj hs
  have hident : expectIdent p = .ok s p.step := by
    refine (bind_of_ok hpeek).trans ?_
    rw [hkind]
    exact bind_of_ok hbump
  have hless : eofIndex toks - (p.pos + 1) < eofIndex toks - p.pos := by omega
  rw [bind_of_ok hident]
  have hnext : p.step.NotEof := by
    have hstep : p.step.kind? = some .eq := heq
    rw [NotEof, hstep]
    intro h
    cases h
  exact (h s _ (Nat.lt_of_lt_of_le hless hr) p.step (forward_step hp hlt) hnext (Nat.le_refl _)).gone hless

section Patterns

variable (h : Feeds toks r d)
include h

theorem eats_parsePatternOr : Eats (reading toks) r (parsePatternOr d) := by
  refine h.pattern.first fun first r' hr => ?_
  have hd := h.le (Nat.le_of_lt hr)
  refine reads_ifAt hends nofun (reads_any ?_) (.pure id)
  refine (fed_whileEat hends (by decide) hd.turns fun _ hr => ?_).andThen fun _ => .pure id
  exact (hd.le (Nat.le_of_lt hr)).pattern.fed

theorem fed_parsePatternSeq {terminator : TokenKind} : Fed (reading toks) r (parsePatternSeq d terminator) := by
  refine fed_turns h.turns fun acc => reads_peekKind hends fun k => .ite (fun _ => .pure id) fun _ => ?_
  refine reads_ifEat hends nofun (fun r' hr => ?_) (h.pattern.first fun item r' hr => ?_)
  · refine (h.le (Nat.le_of_lt hr)).pattern.andThen fun inner => ?_
    exact reads_ifEat hends nofun (fun _ _ => .pure) (.pure id)
  · exact reads_ifEat hends nofun (fun _ _ => .pure) (.pure id)

theorem fed_parseSequencePattern {terminator : TokenKind} (hterm : terminator ≠ .eof) :
    Fed (reading toks) r (parseSequencePattern d start terminator) := by
  refine (fed_parsePatternSeq hends h).andThen fun seq => reads_currentSpan hends fun _ => ?_
  exact (eats_expect hends hterm).andThen fun _ => .pure id

theorem eats_parsePatternArg {acc : PatternArgs} : Eats (reading toks) r (parsePatternArg d acc) := by
  refine reads_atKeyword hends ?_ (h.pattern.first fun _ _ _ => .pure)
  refine reads_keywordName hends fun name r₁ h₁ => reads_bumpBind hends fun _ r₂ h₂ => ?_
  exact (h.le (Nat.le_of_lt (h₂.trans h₁))).pattern.andThen fun _ => .pure id

theorem fed_parsePatternArgs : Fed (reading toks) r (parsePatternArgs d) := by
  refine reads_ifAt hends nofun (.pure id) (fed_turns h.turns fun acc => ?_)
  refine (eats_parsePatternArg hends h).first fun acc r' _ => ?_
  refine reads_ifEat hends nofun (fun _ _ => reads_ifAt hends nofun (.pure id) (.pure id)) (.pure id)

theorem fed_parseNamedPattern {name : Text} : Fed (reading toks) r (parseNamedPattern d start name) := by
  refine (fed_whileEat hends (by decide) h.turns fun _ _ => (eats_expectIdent hends).fed).andThen fun path => ?_
  refine reads_ifAt hends nofun (reads_bumpBind hends fun _ r' hr => ?_) (.ite (fun _ => .pure id) fun _ => .pure id)
  refine (fed_parsePatternArgs hends (h.le (Nat.le_of_lt hr))).andThen fun args => ?_
  exact reads_currentSpan hends fun _ => (eats_expect hends (by decide)).andThen fun _ => .pure id

theorem fed_parseMappingPattern : Fed (reading toks) r (parseMappingPattern d start) := by
  have hloop : ∀ acc, Fed (reading toks) r (turns d (mappingTurn d) acc) := fun acc => by
    refine fed_turns h.turns fun acc => reads_ifAt hends nofun (.pure id) ?_
    refine reads_ifEat hends nofun (fun _ _ => (eats_expectIdent hends).andThen fun _ => .pure id) ?_
    refine h.expr.first fun key r' hr => (eats_expect hends (by decide)).andThen fun _ => ?_
    refine (h.le (Nat.le_of_lt hr)).pattern.andThen fun p => ?_
    exact reads_ifEat hends nofun (fun _ _ => .pure) (.pure id)
  refine (hloop []).andThen fun entries => reads_currentSpan hends fun _ => ?_
  exact (eats_expect hends (by decide)).andThen fun _ => .pure id

end Patterns

theorem eats_parsePatternSimple (h : ∀ r' < r, Feeds toks r' d) :
    Eats (reading toks) r (parsePatternSimple d) := by
  have hlit : ∀ span, Eats (reading toks) r (literalPattern span) :=
    fun span => (eats_parseLiteralDefault hends).first fun _ _ _ => .pure
  refine reads_peek hends fun t => ?_
  split
  case h_1 hk => exact reads_seen (hk ▸ nofun) (reads_bumpBind hends fun _ _ _ => .pure)
  case h_2 hk =>
    exact reads_seen (hk ▸ nofun) (reads_bumpBind hends fun _ r' hr => fed_parseNamedPattern hends (h r' hr))
  case h_3 hk =>
    refine reads_seen (hk ▸ nofun) (reads_bumpBind hends fun _ r' hr => ?_)
    exact fed_parseSequencePattern hends (h r' hr) nofun
  case h_4 hk =>
    refine reads_seen (hk ▸ nofun) (reads_bumpBind hends fun _ r' hr => ?_)
    exact fed_parseSequencePattern hends (h r' hr) nofun
  case h_5 hk =>
    exact reads_seen (hk ▸ nofun) (reads_bumpBind hends fun _ r' hr => fed_parseMappingPattern hends (h r' hr))
  case h_15 => exact reads_failText
  all_goals exact reads_any (hlit _)

theorem eats_parseForTarget (hpattern : Eats (reading toks) r d.parsePatternSimple) (h : ∀ r' < r, Feeds toks r' d) :
    Eats (reading toks) r (parseForTarget d) := by
  refine hpattern.first fun first r' hr => ?_
  have hd := h r' hr
  refine reads_ifAt hends nofun (reads_any ?_) (.pure id)
  refine (fed_commaItems hends (by decide) hd.turns fun _ hr => ?_).andThen fun _ => .pure id
  exact (hd.le (Nat.le_of_lt hr)).pattern.fed

end Cobrust.Frontend.Parser
