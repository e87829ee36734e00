import Cobrust.Frontend.Balance
import Cobrust.Frontend.Parser.Expr
import Cobrust.Frontend.Parser.ForwardSimple

/-!
# Expressions move forward

The atoms ask that the interpolations of the f-strings can be parsed one level further down.
-/

namespace Cobrust.Frontend.Parser

open Ast Control

variable {toks : List Token} {α : Type} {P : Parser → Prop} {Q : α → Prop} {r : Nat} {d : Descent} {start : Span}
variable (hends : EndsInEof toks)
include hends

omit hends in
theorem fed_validateBorrowOperand (e : Expr) : Fed (reading toks) r (validateBorrowOperand e) := by
  fun_induction validateBorrowOperand e with
  | case1 => exact .pure
  | case2 _ _ _ ih => exact ih
  | case3 _ _ _ ih => exact ih
  | case9 _ _ _ _ _ ih => exact ih
  | _ => exact reads_failText

section Fed

variable (h : ∀ r' < r, Feeds toks r' d)
include h

theorem reads_parsePrefix {prec : Prec} {build : Expr → ExprKind} :
    Reads (reading toks) NotEof r (fun _ => True) (parsePrefix d start prec build) :=
  reads_bumpBind hends fun _ r' hr => ((h r' hr).pratt prec).andThen fun _ => .pure id

theorem reads_parseBorrow : Reads (reading toks) NotEof r (fun _ => True) (parseBorrow d start) := by
  refine reads_bumpBind hends fun _ r' hr => ((h r' hr).pratt 100).andThen fun operand => ?_
  exact (fed_validateBorrowOperand operand).andThen fun _ => .pure id

theorem reads_parseYield : Reads (reading toks) NotEof r (fun _ => True) (parseYield d start) := by
  refine reads_bumpBind hends fun _ r₁ h₁ => reads_ifEat hends nofun (fun r₂ h₂ => ?_) ?_
  · exact (h r₂ (h₂.trans h₁)).expr.andThen fun _ => .pure id
  · refine reads_peekKind hends fun k => .ite (fun _ => .pure id) fun _ => reads_any ?_
    exact (h r₁ h₁).expr.andThen fun _ => .pure id

theorem eats_parseLambda : Eats (reading toks) r (parseLambda d) := by
  refine reads_currentSpan hends fun _ => (eats_expect hends (by decide)).first fun _ r' hr => ?_
  have hd := h r' hr
  have hparams : Fed (reading toks) r' (lambdaParams d) :=
    reads_ifAt hends nofun (.pure id) (fed_paramList hends hd.turns (eats_parseOneLambdaParam hends))
  refine hparams.andThen fun _ => (eats_expect hends (by decide)).andThen fun _ => ?_
  exact hd.expr.andThen fun _ => .pure id

end Fed

/-! ## Calls, indices and attributes -/

section Lists

variable (h : Feeds toks r d)
include h

theorem eats_parseCallArg : Eats (reading toks) r (parseCallArg d) := by
  refine reads_ifEat hends nofun (fun _ hr => (h.le (Nat.le_of_lt hr)).expr.andThen fun _ => .pure id) ?_
  refine reads_ifEat hends nofun (fun _ hr => (h.le (Nat.le_of_lt hr)).expr.andThen fun _ => .pure id) ?_
  refine reads_atKeyword hends (reads_any ?_) (h.expr.first fun _ _ _ => .pure)
  refine (eats_expectIdent hends).first fun name r' hr => (eats_expect hends (by decide)).andThen fun _ => ?_
  exact (h.le (Nat.le_of_lt hr)).expr.andThen fun _ => .pure id

theorem fed_itemsUntil {close : TokenKind} {item : ParserM α} {acc : List α} (hclose : close ≠ .eof)
    (hitem : Eats (reading toks) r item) : Fed (reading toks) r (itemsUntil d close item acc) := by
  refine fed_turns h.turns fun acc => reads_ifAt hends hclose (.pure id) (hitem.first fun a r' _ => ?_)
  exact reads_ifEat hends nofun (fun _ _ => .pure) (.pure id)

theorem fed_exprUnless {stops : TokenKind → Bool} :
    Fed (reading toks) r (exprUnless d stops) :=
  reads_peekKind hends fun _ => .ite (fun _ => .pure id) fun _ => reads_any (h.expr.andThen fun _ => .pure id)

theorem fed_parseIndexOne : Fed (reading toks) r (parseIndexOne d) := by
  refine (fed_exprUnless hends h).andThen fun first => reads_ifAt hends nofun ?_ ?_
  · refine reads_bumpBind hends fun _ r₁ h₁ => ?_
    have h₁ := h.le (Nat.le_of_lt h₁)
    have hstep : Fed (reading toks) r₁ (parseSliceStep d) :=
      reads_ifAt hends nofun (reads_bumpBind hends fun _ _ hr => fed_exprUnless hends (h₁.le (Nat.le_of_lt hr)))
        (.pure id)
    exact (fed_exprUnless hends h₁).andThen fun stop => hstep.andThen fun _ => .pure id
  · split
    · exact .pure id
    · exact reads_currentSpan hends fun _ => reads_failText

theorem fed_parseIndex : Fed (reading toks) r (parseIndex d) := by
  refine (fed_parseIndexOne hends h).andThen fun first => reads_ifAt hends nofun (reads_any ?_) (.pure id)
  refine (fed_commaItems hends (by decide) h.turns fun _ hr => ?_).andThen fun _ => .pure id
  exact fed_parseIndexOne hends (h.le (Nat.le_of_lt hr))

end Lists

theorem reads_peekBinop {f : Option (BinOp × Prec × Bool) → ParserM α} (hnone : Reads (reading toks) P r Q (f none))
    (hsome : ∀ op prec rightAssoc, Reads (reading toks) NotEof r Q (f (some (op, prec, rightAssoc)))) :
    Reads (reading toks) P r Q (peekBinop >>= f) := by
  refine Reads.look (S := fun o p => o ≠ none → NotEof p) (fun p hp => ?_) fun o => ?_
  · obtain ⟨t, ht, hpeek⟩ := peekKind_ok hends hp
    obtain ⟨t', ht', hpeek'⟩ := peekAt_ok hends hp 1
    refine ⟨binopOf t.kind t'.kind, (bind_of_ok hpeek).trans (bind_of_ok hpeek'), fun ho heof => ho ?_⟩
    rw [kind?, ht] at heof
    rw [Option.some.inj heof]
    rfl
  · cases o with
    | none => exact hnone.mono (fun p hp => hp.1) (Nat.le_refl r) fun _ h => h
    | some o => exact (hsome o.1 o.2.1 o.2.2).mono (fun p hp => hp.2 fun h => by cases h) (Nat.le_refl r) fun _ h => h

theorem eats_parseAttributeName : Eats (reading toks) r parseAttributeName := by
  refine reads_peekKind hends fun k => ?_
  split
  · exact reads_seen nofun (reads_bumpBind hends fun _ _ _ => .pure)
  · exact reads_any (eats_expectIdent hends)

theorem reads_postfixTurn (h : ∀ r' < r, Feeds toks r' d) (e : Expr) :
    Reads (reading toks) (fun _ => True) r Turn.GoesOn (postfixTurn d e) := by
  refine reads_peekKind hends fun k => ?_
  split
  · refine reads_seen nofun (reads_bumpBind hends fun _ r' hr => ?_)
    refine (fed_itemsUntil hends (h r' hr) (by decide) (eats_parseCallArg hends (h r' hr))).andThen fun _ => ?_
    exact reads_currentSpan hends fun _ => (eats_expect hends (by decide)).andThen fun _ => .pure id
  · refine reads_seen nofun (reads_bumpBind hends fun _ r' hr => ?_)
    exact (eats_parseAttributeName hends).andThen fun _ => reads_currentSpan hends fun _ => .pure id
  · refine reads_seen nofun (reads_bumpBind hends fun _ r' hr => ?_)
    refine (fed_parseIndex hends (h r' hr)).andThen fun _ => ?_
    exact reads_currentSpan hends fun _ => (eats_expect hends (by decide)).andThen fun _ => .pure id
  · exact .pure id

/-! ## Comprehensions and collections -/

theorem fed_closeCollection {close : TokenKind} {lit : CollectionLit} (hclose : close ≠ .eof) :
    Fed (reading toks) r (closeCollection start close lit) :=
  reads_currentSpan hends fun _ => (eats_expect hends hclose).andThen fun _ => .pure id

section Collections

variable (h : Feeds toks r d)
include h

theorem fed_parseComprehensionClause : Fed (reading toks) r (parseComprehensionClause d) := by
  have htarget := eats_parseForTarget hends h.pattern fun _ hr => h.le (Nat.le_of_lt hr)
  refine htarget.andThen fun target => (eats_expect hends (by decide)).andThen fun _ => ?_
  refine (h.pratt 0).andThen fun iter => ?_
  refine (fed_whileEat hends (by decide) h.turns fun _ hr => ?_).andThen fun _ => .pure id
  exact ((h.le (Nat.le_of_lt hr)).pratt 0).fed

theorem fed_parseComprehension {close : TokenKind} {kind : ComprehensionKind} {element : ComprehensionElem}
    (hclose : close ≠ .eof) : Fed (reading toks) r (parseComprehension d start close kind element) := by
  refine (fed_whileEat hends (by decide) h.turns fun _ hr => ?_).andThen fun clauses => ?_
  · exact fed_parseComprehensionClause hends (h.le (Nat.le_of_lt hr))
  · exact reads_currentSpan hends fun _ => (eats_expect hends hclose).andThen fun _ => .pure id

theorem fed_parseItems {close : TokenKind} {acc : List Expr} {build : List Expr → CollectionLit}
    (hclose : close ≠ .eof) : Fed (reading toks) r (commaItems d close d.parseExpr acc >>= fun items =>
      closeCollection start close (build items)) := by
  refine (fed_commaItems hends hclose h.turns fun _ hr => ?_).andThen fun _ => fed_closeCollection hends hclose
  exact (h.le (Nat.le_of_lt hr)).expr.fed

theorem eats_parseDictEntry : Eats (reading toks) r (parseDictEntry d) := by
  refine reads_ifEat hends nofun (fun _ hr => (h.le (Nat.le_of_lt hr)).expr.andThen fun _ => .pure id) ?_
  refine h.expr.first fun k r' hr => (eats_expect hends (by decide)).andThen fun _ => ?_
  exact (h.le (Nat.le_of_lt hr)).expr.andThen fun _ => .pure id

theorem fed_parseDictAfterFirst {first : Option DictEntry} :
    Fed (reading toks) r (parseDictAfterFirst d start first) := by
  have hrest : Fed (reading toks) r (itemsUntil d .rBrace (parseDictEntry d) first.toList >>= fun entries =>
      closeCollection start .rBrace (.dict entries)) :=
    (fed_itemsUntil hends h (by decide) (eats_parseDictEntry hends h)).andThen fun _ =>
      fed_closeCollection hends nofun
  refine reads_peekKind hends fun k => .ite (fun _ => reads_any ?_) fun _ => reads_any hrest
  exact (eats_expect hends (by decide)).andThen fun _ => hrest

end Collections

section Brackets

variable (h : ∀ r' < r, Feeds toks r' d)
include h

theorem eats_parseParenExpr : Eats (reading toks) r (parseParenExpr d) := by
  refine reads_currentSpan hends fun start => (eats_expect hends (by decide)).first fun _ r₁ h₁ => ?_
  have hd := h r₁ h₁
  refine reads_ifAt hends nofun (reads_any (fed_closeCollection hends nofun)) (hd.expr.andThen fun first => ?_)
  refine reads_ifAt hends nofun (reads_any (fed_parseComprehension hends hd nofun)) ?_
  refine reads_ifEat hends nofun (fun r₂ h₂ => ?_) ?_
  · have hd := hd.le (Nat.le_of_lt h₂)
    exact (fed_itemsUntil hends hd (by decide) hd.expr).andThen fun _ => fed_closeCollection hends nofun
  · exact reads_currentSpan hends fun _ => (eats_expect hends (by decide)).andThen fun _ => .pure id

theorem eats_parseBracketExpr : Eats (reading toks) r (parseBracketExpr d) := by
  refine reads_currentSpan hends fun start => (eats_expect hends (by decide)).first fun _ r₁ h₁ => ?_
  have hd := h r₁ h₁
  refine reads_ifAt hends nofun (reads_any (fed_closeCollection hends nofun)) (hd.expr.andThen fun first => ?_)
  refine reads_ifAt hends nofun (reads_any (fed_parseComprehension hends hd nofun)) ?_
  exact fed_parseItems hends hd nofun

theorem eats_parseBraceExpr : Eats (reading toks) r (parseBraceExpr d) := by
  refine reads_currentSpan hends fun start => (eats_expect hends (by decide)).first fun _ r₁ h₁ => ?_
  have hd := h r₁ h₁
  refine reads_peekKind hends fun k => .ite (fun _ => reads_any (fed_closeCollection hends nofun)) fun _ => ?_
  refine .ite (fun _ => reads_any (fed_parseDictAfterFirst hends hd)) fun _ => reads_any ?_
  refine hd.expr.andThen fun first => reads_ifEat hends nofun (fun r₂ h₂ => ?_) ?_
  · have hd := hd.le (Nat.le_of_lt h₂)
    refine hd.expr.andThen fun v => ?_
    exact reads_ifAt hends nofun (reads_any (fed_parseComprehension hends hd nofun))
      (fed_parseDictAfterFirst hends hd)
  · exact reads_ifAt hends nofun (reads_any (fed_parseComprehension hends hd nofun))
      (fed_parseItems hends hd nofun)

end Brackets

variable {u : Unicode} {ov : Overflow}

/-- The source of an interpolation in an f-string among the tokens. -/
def Interpolates (toks : List Token) (s : Source) : Prop :=
  ∃ t ∈ toks, s.file = t.span.file ∧ ∃ pieces, t.kind = .fString pieces ∧
    ∃ debugEquals formatSpec, .expr s.text debugEquals formatSpec ∈ pieces

/-- A parser of its own gets through the tokens of a source. -/
def Subparses (u : Unicode) (ov : Overflow) (d : Descent) (s : Source) : Prop :=
  ∀ out, lex u ov s = .ok out → Eats (reading out) (eofIndex out) d.parseExpr

omit hends in
theorem reads_lexPiece {source : Text} {outer : Span} {f : List Token → ParserM α}
    (h : ∀ out, lex u ov ⟨source, outer.file⟩ = .ok out → Reads (reading toks) P r Q (f out)) :
    Reads (reading toks) P r Q (lexPiece u ov source outer >>= f) := by
  have hlex := Lexer.meets_lex ⟨source, outer.file⟩ ov u
  unfold lexPiece
  split
  · next out hout => exact fun p hp hP hr => h out hout p hp hP hr
  · exact .throwBind ⟨nofun, nofun⟩
  · exact .throwBind ⟨nofun, nofun⟩
  · next hpanic =>
    rw [hpanic] at hlex
    exact hlex.elim
  · exact .throwBind ⟨nofun, nofun⟩
  · next hfuel =>
    rw [hfuel] at hlex
    exact hlex.elim

omit hends in
theorem forward_new (out : List Token) : Forward out (new out) where
  toks_eq := rfl
  pos_le := Nat.zero_le _
  moves := nofun

omit hends in
/-- The parser of an interpolation leaves the place of this one as it is. -/
theorem fed_subParse {out : List Token} (h : Eats (reading out) (eofIndex out) d.parseExpr) :
    Fed (reading toks) r (subParse d out) := by
  intro p hp _ hr
  have hsub := h (new out) (forward_new out) trivial (Nat.sub_le _ _)
  unfold subParse
  cases hrun : d.parseExpr (new out) with
  | ok e sub =>
    rw [hrun] at hsub
    refine ⟨⟨hp.toks_eq, hp.pos_le, ?_⟩, Nat.le_refl _, False.elim⟩
    exact List.forall_mem_append.mpr ⟨hsub.1.moves, hp.moves⟩
  | error e sub =>
    rw [hrun] at hsub
    refine ⟨⟨hp.toks_eq, hp.pos_le, ?_⟩, Nat.le_refl _, hsub.2.2⟩
    exact List.forall_mem_append.mpr ⟨hsub.1.moves, hp.moves⟩

omit hends in
theorem fed_fstringPiecesToParts {outer : Span} {pieces : List FStringPiece}
    (h : ∀ source debugEquals formatSpec, .expr source debugEquals formatSpec ∈ pieces →
      Subparses u ov d ⟨source, outer.file⟩) :
    Fed (reading toks) r (fstringPiecesToParts d u ov outer pieces) := by
  induction pieces with
  | nil => exact .pure
  | cons piece rest ih =>
    have hrest := ih fun source b f hmem => h source b f (List.mem_cons_of_mem _ hmem)
    cases piece with
    | lit s => exact hrest.andThen fun _ => .pure id
    | expr source debugEquals formatSpec =>
      refine reads_lexPiece fun out hout => ?_
      refine (fed_subParse (h source _ _ List.mem_cons_self out hout)).andThen fun e => ?_
      exact hrest.andThen fun _ => .pure id

/-! ## Atoms -/

theorem reads_parseLiteralAtom {t : Token} {lit : Ast.Literal} :
    Reads (reading toks) NotEof r (fun _ => True) (parseLiteralAtom t lit) :=
  reads_bumpBind hends fun _ _ _ => .pure

theorem reads_parseNameAtom {t : Token} {name : Text} :
    Reads (reading toks) NotEof r (fun _ => True) (parseNameAtom t name) :=
  reads_bumpBind hends fun _ _ _ => reads_peek hends fun _ => .ite (fun _ => reads_fail) fun _ => .pure id

section Operands

variable (h : ∀ r' < r, Feeds toks r' d) (hsub : ∀ s, Interpolates toks s → Subparses u ov d s)
include h hsub

theorem eats_parseAtom : Eats (reading toks) r (parseAtom d u ov) := by
  refine reads_peekMem hends fun t ht => ?_
  split
  case h_6 pieces hk =>
    refine reads_seen (hk ▸ nofun) (reads_bumpBind hends fun _ _ _ => ?_)
    refine (fed_fstringPiecesToParts fun source b f hmem => ?_).andThen fun _ => .pure id
    exact hsub _ ⟨t, ht, rfl, pieces, hk, b, f, hmem⟩
  case h_10 hk => exact reads_seen (hk ▸ nofun) (reads_parseNameAtom hends)
  case h_11 => exact reads_deeper hends (eats_parseParenExpr hends h)
  case h_12 => exact reads_any (eats_parseBracketExpr hends h)
  case h_13 => exact reads_any (eats_parseBraceExpr hends h)
  case h_14 => exact reads_failText
  all_goals
    next hk => exact reads_seen (hk ▸ nofun) (reads_parseLiteralAtom hends)

theorem eats_parsePostfix : Eats (reading toks) r (parsePostfix d u ov) := by
  refine (eats_parseAtom hends h hsub).first fun e r₁ h₁ => fed_turns (h r₁ h₁).turns fun e => ?_
  exact reads_postfixTurn hends (fun r₂ h₂ => h r₂ (h₂.trans h₁)) e

theorem eats_parseUnary : Eats (reading toks) r (parseUnary d u ov) := by
  refine reads_peek hends fun t => ?_
  split
  case h_5 hk => exact reads_seen (hk ▸ nofun) (reads_parseBorrow hends h)
  case h_7 hk => exact reads_seen (hk ▸ nofun) (reads_parseYield hends h)
  case h_8 => exact reads_any (eats_parseLambda hends h)
  case h_9 => exact reads_any (eats_parsePostfix hends h hsub)
  all_goals
    next hk => exact reads_seen (hk ▸ nofun) (reads_parsePrefix hends h)

omit hsub in
theorem reads_prattTurn {min : Prec} (lhs : Expr) :
    Reads (reading toks) (fun _ => True) r Turn.GoesOn (prattTurn d min lhs) := by
  refine reads_peekKind hends fun kind => reads_peekAt hends fun next => .ite (fun hcast => ?_) fun _ => ?_
  · refine reads_seen (hcast.1 ▸ nofun) (reads_bumpBind hends fun _ r' hr => ?_)
    exact (h r' hr).type.andThen fun _ => .pure id
  · refine reads_peekBinop hends (.pure id) fun op prec rightAssoc => .ite (fun _ => .pure id) fun _ => ?_
    exact reads_bumpBind hends fun _ r' hr => ((h r' hr).pratt _).andThen fun _ => .pure id

theorem eats_parsePratt (min : Prec) : Eats (reading toks) r (parsePratt d u ov min) := by
  refine reads_deeper hends ((eats_parseUnary hends h hsub).first fun lhs r₁ h₁ => ?_)
  exact fed_turns (h r₁ h₁).turns fun lhs => reads_prattTurn hends (fun r₂ h₂ => h r₂ (h₂.trans h₁)) lhs

end Operands

theorem eats_parseExpr (hpratt : Eats (reading toks) r (d.parsePratt 0)) (h : ∀ r' < r, Feeds toks r' d) :
    Eats (reading toks) r (parseExpr d) := by
  refine hpratt.first fun thenBranch r₁ h₁ => reads_ifAt hends nofun ?_ (.pure id)
  refine reads_bumpBind hends fun _ r₂ h₂ => ?_
  have hd := h r₂ (h₂.trans h₁)
  refine (hd.pratt 0).andThen fun cond => (eats_expect hends (by decide)).andThen fun _ => ?_
  exact hd.expr.andThen fun _ => .pure id

end Cobrust.Frontend.Parser
