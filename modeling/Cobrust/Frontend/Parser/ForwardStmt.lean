import Cobrust.Frontend.Parser.ForwardExpr
import Cobrust.Frontend.Parser.Stmt

/-!
# Statements move forward
-/

namespace Cobrust.Frontend.Parser

open Ast Control

variable {toks : List Token} {α : Type} {P : Parser → Prop} {Q : α → Prop} {r : Nat} {d : Descent} {start : Span}
variable (hends : EndsInEof toks)
include hends

section Blocks

variable (h : Feeds toks r d)
include h

theorem eats_parseBlock : Eats (reading toks) r (parseBlock d) := by
  refine reads_currentSpan hends fun start => (eats_expect hends (by decide)).first fun _ r₁ h₁ => ?_
  have hd := h.le (Nat.le_of_lt h₁)
  refine (fed_skipNewlines hends hd.turns).andThen fun _ => (eats_expect hends (by decide)).andThen fun _ => ?_
  refine Reads.andThen (fed_turns hd.turns fun stmts => ?_) fun stmts => ?_
  · refine (fed_skipNewlines hends hd.turns).andThen fun _ => reads_peekKind hends fun k => ?_
    exact .ite (fun _ => .pure id) fun _ => reads_any (hd.stmt.first fun _ _ _ => .pure)
  · exact (reads_eat hends (by decide)).andThen fun _ => .pure id

theorem eats_parseSuite : Eats (reading toks) r (parseSuite d) :=
  (eats_expect hends (by decide)).first fun _ _ hr => (eats_parseBlock hends (h.le (Nat.le_of_lt hr))).fed

theorem fed_parseLoopElse : Fed (reading toks) r (parseLoopElse d) :=
  (fed_skipNewlines hends h.turns).andThen fun _ =>
    fed_optionally hends nofun fun _ hr => (eats_parseSuite hends (h.le (Nat.le_of_lt hr))).fed

end Blocks

/-! ## Simple statements -/

theorem eats_parseImportTarget : Eats (reading toks) r parseImportTarget :=
  (eats_expectIdent hends).first fun _ _ _ =>
    (fed_optionally hends (by decide) fun _ _ => (eats_expectIdent hends).fed).andThen fun _ => .pure id

theorem reads_parseKeyword {kind : StmtKind} :
    Reads (reading toks) NotEof r (fun _ => True) (parseKeyword kind) :=
  reads_bumpBind hends fun _ _ _ => (fed_expectEos hends).andThen fun _ => .pure id

section Simple

variable (h : ∀ r' < r, Feeds toks r' d)
include h

theorem reads_parseImport : Reads (reading toks) NotEof r (fun _ => True) (parseImport d) := by
  have hname : ∀ r' < r, Fed (reading toks) r' (parseDottedName d) :=
    fun r' hr => (eats_parseDottedName hends (h r' hr).turns).fed
  refine reads_currentSpan hends fun start => reads_ifAt hends nofun ?_ ?_
  · refine reads_bumpBind hends fun _ r' hr => (hname r' hr).andThen fun path => ?_
    refine (fed_optionally hends (by decide) fun _ _ => (eats_expectIdent hends).fed).andThen fun asName => ?_
    exact (fed_expectEos hends).andThen fun _ => .pure id
  · refine reads_bumpBind hends fun _ r' hr => (hname r' hr).andThen fun path => ?_
    refine (eats_expect hends (by decide)).andThen fun _ => reads_ifAt hends nofun ?_ ?_
    · exact reads_currentSpan hends fun _ => reads_failText
    · refine Reads.andThen (fed_turns (h r' hr).turns fun targets => ?_) fun targets => ?_
      · refine (eats_parseImportTarget hends).first fun target _ _ => ?_
        exact reads_ifEat hends nofun (fun _ _ => .pure) (.pure id)
      · exact (fed_expectEos hends).andThen fun _ => .pure id

theorem eats_parseTypeAlias : Eats (reading toks) r (parseTypeAlias d) := by
  refine reads_currentSpan hends fun start => (eats_expect hends (by decide)).first fun _ r' hr => ?_
  have hd := h r' hr
  refine (eats_expectIdent hends).andThen fun name => (fed_optionally hends (by decide) fun r₁ h₁ => ?_).andThen
    fun params => ?_
  · have hnames : Fed (reading toks) r₁ (expectIdent >>= fun first =>
        whileEat d .comma expectIdent [first] >>= fun params => expect .rBracket >>= fun _ => pure params) := by
      refine (eats_expectIdent hends).andThen fun first => ?_
      refine (fed_whileEat hends (by decide) (hd.le (Nat.le_of_lt h₁)).turns fun _ _ =>
        (eats_expectIdent hends).fed).andThen fun params => ?_
      exact (eats_expect hends (by decide)).andThen fun _ => .pure id
    exact reads_ifAt hends nofun (reads_any ((eats_expect hends (by decide)).andThen fun _ => .pure id)) hnames
  · refine (eats_expect hends (by decide)).andThen fun _ => hd.type.andThen fun value => ?_
    exact (fed_expectEos hends).andThen fun _ => .pure id

theorem eats_parseLet : Eats (reading toks) r (parseLet d) := by
  refine reads_currentSpan hends fun start => (eats_expect hends (by decide)).first fun _ r' hr => ?_
  have hd := h r' hr
  refine hd.pattern.andThen fun target => ?_
  refine (fed_optionally hends (by decide) fun _ hr => (hd.le (Nat.le_of_lt hr)).type.fed).andThen fun annot => ?_
  refine (eats_expect hends (by decide)).andThen fun _ => hd.expr.andThen fun value => ?_
  exact (fed_expectEos hends).andThen fun _ => .pure id

theorem eats_parseReturn : Eats (reading toks) r (parseReturn d) := by
  refine reads_currentSpan hends fun start => (eats_expect hends (by decide)).first fun _ r' hr => ?_
  refine (fed_exprUnless hends (h r' hr)).andThen fun value => ?_
  exact (fed_expectEos hends).andThen fun _ => .pure id

theorem eats_parseRaise : Eats (reading toks) r (parseRaise d) := by
  refine reads_currentSpan hends fun start => (eats_expect hends (by decide)).first fun _ r' hr => ?_
  have hd := h r' hr
  refine (fed_exprUnless hends hd).andThen fun exc => ?_
  refine (fed_optionally hends (by decide) fun _ hr => (hd.le (Nat.le_of_lt hr)).expr.fed).andThen fun cause => ?_
  exact (fed_expectEos hends).andThen fun _ => .pure id

end Simple

theorem fed_parseClassField {fieldName : Text} (h : Feeds toks r d) :
    Fed (reading toks) r (parseClassField d fieldName start) := by
  have hwhere : Fed (reading toks) r (parseWhere d fieldName) := by
    refine reads_ifAt hends nofun (reads_bumpBind hends fun _ r' hr => ?_) (.pure id)
    refine (h.le (Nat.le_of_lt hr)).expr.andThen fun pred => ?_
    exact fun p hp _ _ => ⟨⟨hp.toks_eq, hp.pos_le, hp.moves⟩, Nat.le_refl _, False.elim⟩
  refine (eats_expect hends (by decide)).andThen fun _ => h.type.andThen fun annot => ?_
  exact hwhere.andThen fun _ => (fed_expectEos hends).andThen fun _ => .pure id

theorem eats_parseExprOrAssignStmt (hexpr : Eats (reading toks) r d.parseExpr) (h : ∀ r' < r, Feeds toks r' d) :
    Eats (reading toks) r (parseExprOrAssignStmt d) := by
  refine hexpr.first fun lhs r₁ h₁ => reads_peekKind hends fun kind => ?_
  have hassign : ∀ op, Reads (reading toks) NotEof r₁ (fun _ => False) (parseAssign d lhs op) := fun op =>
    reads_bumpBind hends fun _ r₂ h₂ => (h r₂ (h₂.trans h₁)).expr.andThen fun rhs =>
      (fed_expectEos hends).andThen fun _ => .pure id
  refine Reads.look (S := fun _ _ => True) (fun p _ => ⟨p, rfl, trivial⟩) fun p => ?_
  split
  · exact reads_any (fed_parseClassField hends (h r₁ h₁))
  · split
    · next hop =>
      have hkind : kind ≠ .eof := by
        intro heof
        rw [heof] at hop
        cases hop
      exact (reads_seen hkind (hassign _)).mono (fun _ hp => hp.1) (Nat.le_refl _) fun _ h => h
    · refine .ite (fun heq => ?_) fun _ => reads_any ((fed_expectEos hends).andThen fun _ => .pure id)
      have hkind : kind ≠ .eof := by
        rw [heq]
        exact TokenKind.noConfusion
      exact (reads_seen hkind (hassign _)).mono (fun _ hp => hp.1) (Nat.le_refl _) fun _ h => h

/-! ## Definitions -/

section Definitions

variable (h : ∀ r' < r, Feeds toks r' d)
include h

theorem eats_parseFnDef : Eats (reading toks) r (parseFnDef d) := by
  refine (eats_expect hends (by decide)).first fun _ r' hr => ?_
  have hd := h r' hr
  have hone : Eats (reading toks) r' (parseOneParam d) := eats_parseOneParam hends hd
  refine (eats_expectIdent hends).andThen fun name => (eats_expect hends (by decide)).andThen fun _ => ?_
  have hparams : Fed (reading toks) r' (parseParams d) :=
    reads_ifAt hends nofun (.pure id) (fed_paramList hends hd.turns hone)
  refine hparams.andThen fun params => (eats_expect hends (by decide)).andThen fun _ => ?_
  refine (fed_optionally hends (by decide) fun _ hr => (hd.le (Nat.le_of_lt hr)).type.fed).andThen fun ret => ?_
  exact (eats_parseSuite hends hd).andThen fun body => .pure id

omit h in
theorem fed_parseBase (h : Feeds toks r d) : Fed (reading toks) r (parseBase d) := by
  refine reads_ifAt hends nofun (reads_any ((eats_expect hends (by decide)).andThen fun _ => .pure id)) ?_
  refine h.expr.andThen fun base => reads_peek hends fun next => .ite (fun _ => reads_failText) fun _ => ?_
  split
  · exact reads_failText
  · exact reads_any ((eats_expect hends (by decide)).andThen fun _ => .pure id)

omit h in
theorem fed_parseTraits (h : Feeds toks r d) : Fed (reading toks) r (parseTraits d) := by
  refine (reads_eat hends (by decide)).andThen fun colon => reads_peekKind hends fun k => reads_any ?_
  refine .ite (fun _ => h.type.andThen fun first => ?_) fun _ => .ite (fun _ => .pure id) fun _ => ?_
  · refine (fed_whileEat hends (by decide) h.turns fun _ hr => (h.le (Nat.le_of_lt hr)).type.fed).andThen
      fun traits => ?_
    exact (eats_expect hends (by decide)).andThen fun _ => .pure id
  · exact (eats_expect hends (by decide)).andThen fun _ => .pure id

omit h in
theorem fed_parseClassBody (h : Feeds toks r d) : Fed (reading toks) r (parseClassBody d) := by
  have hset : ∀ (f : Parser → Parser), (∀ p, (f p).toks = p.toks ∧ (f p).pos = p.pos ∧ (f p).moves = p.moves) →
      Fed (reading toks) r (modify f) := by
    intro f hf p hp _ _
    obtain ⟨htoks, hpos, hmoves⟩ := hf p
    refine ⟨⟨htoks.trans hp.toks_eq, hpos.trans_le hp.pos_le, ?_⟩, ?_, False.elim⟩
    · rw [hmoves]
      exact hp.moves
    · exact Nat.le_of_eq (congrArg (eofIndex toks - ·) hpos)
  refine Reads.look (S := fun _ _ => True) (fun p _ => ⟨p, rfl, trivial⟩) fun p => ?_
  refine Reads.andThen (reads_any (hset _ fun _ => ⟨rfl, rfl, rfl⟩)) fun _ => ?_
  refine (eats_parseBlock hends h).andThen fun body => ?_
  refine Reads.look (S := fun _ _ => True) (fun p _ => ⟨p, rfl, trivial⟩) fun p => ?_
  exact Reads.andThen (reads_any (hset _ fun _ => ⟨rfl, rfl, rfl⟩)) fun _ => .pure id

theorem eats_parseClassDef : Eats (reading toks) r (parseClassDef d) := by
  refine (eats_expect hends (by decide)).first fun _ r' hr => ?_
  have hd := h r' hr
  refine (eats_expectIdent hends).andThen fun name => ?_
  refine (fed_optionally hends (by decide) fun _ hr => fed_parseBase hends (hd.le (Nat.le_of_lt hr))).andThen
    fun base => ?_
  refine (fed_parseTraits hends hd).andThen fun traits => ?_
  exact (fed_parseClassBody hends hd).andThen fun body => .pure id

theorem eats_fnStmt : Eats (reading toks) r (fnStmt d) :=
  (eats_parseFnDef hends h).first fun _ _ _ => .pure

theorem eats_classStmt : Eats (reading toks) r (classStmt d) :=
  (eats_parseClassDef hends h).first fun _ _ _ => .pure

theorem eats_decoratedStmt : Eats (reading toks) r (decoratedStmt d) := by
  refine reads_peek hends fun t => ?_
  split
  · exact reads_any (eats_fnStmt hends h)
  · exact reads_any (eats_classStmt hends h)
  · exact reads_failText

theorem eats_parseDecorated (hturns : r ≤ d.fuel) : Eats (reading toks) r (parseDecorated d) := by
  refine reads_currentSpan hends fun start => Reads.andThen (fed_turns hturns fun decorators => ?_) fun decorators => ?_
  · refine reads_ifAt hends nofun (reads_bumpBind hends fun _ r' hr => ?_) (.pure id)
    refine (h r' hr).expr.andThen fun expr => (eats_expect hends (by decide)).andThen fun _ => ?_
    exact (fed_skipNewlines hends (h r' hr).turns).andThen fun _ => .pure id
  · exact (eats_decoratedStmt hends h).first fun _ _ _ => .pure

end Definitions

/-! ## Compound statements -/

section Compound

variable (h : ∀ r' < r, Feeds toks r' d)
include h

theorem eats_parseIf : Eats (reading toks) r (parseIf d) := by
  refine reads_currentSpan hends fun start => (eats_expect hends (by decide)).first fun _ r' hr => ?_
  have hd := h r' hr
  refine hd.expr.andThen fun cond => (eats_parseSuite hends hd).andThen fun thenBlock => ?_
  refine Reads.andThen (fed_turns hd.turns fun elifs => ?_) fun tail => .pure id
  refine (fed_skipNewlines hends hd.turns).andThen fun _ => reads_ifEat hends nofun (fun r₁ h₁ => ?_) ?_
  · have hd := hd.le (Nat.le_of_lt h₁)
    exact hd.expr.andThen fun c => (eats_parseSuite hends hd).andThen fun b => .pure id
  · refine reads_ifAt hends nofun (reads_bumpBind hends fun _ r₁ h₁ => ?_) (.pure id)
    exact (eats_parseSuite hends (hd.le (Nat.le_of_lt h₁))).andThen fun b => .pure id

theorem eats_parseWhile : Eats (reading toks) r (parseWhile d) := by
  refine reads_currentSpan hends fun start => (eats_expect hends (by decide)).first fun _ r' hr => ?_
  have hd := h r' hr
  refine hd.expr.andThen fun cond => (eats_parseSuite hends hd).andThen fun body => ?_
  exact (fed_parseLoopElse hends hd).andThen fun _ => .pure id

theorem eats_parseFor : Eats (reading toks) r (parseFor d) := by
  refine reads_currentSpan hends fun start => (eats_expect hends (by decide)).first fun _ r' hr => ?_
  have hd := h r' hr
  have htarget := eats_parseForTarget hends hd.pattern fun _ hr => hd.le (Nat.le_of_lt hr)
  refine htarget.andThen fun target => (eats_expect hends (by decide)).andThen fun _ => ?_
  refine hd.expr.andThen fun iter => (eats_parseSuite hends hd).andThen fun body => ?_
  exact (fed_parseLoopElse hends hd).andThen fun _ => .pure id

theorem eats_parseMatchArm : Eats (reading toks) r (parseMatchArm d) := by
  refine (eats_expect hends (by decide)).first fun _ r' hr => ?_
  have hd := h r' hr
  refine (eats_parsePatternOr hends hd).andThen fun pattern => ?_
  refine (fed_optionally hends (by decide) fun _ hr => (hd.le (Nat.le_of_lt hr)).expr.fed).andThen fun guard => ?_
  exact (eats_parseSuite hends hd).andThen fun body => .pure id

theorem eats_parseMatch : Eats (reading toks) r (parseMatch d) := by
  refine reads_currentSpan hends fun start => (eats_expect hends (by decide)).first fun _ r' hr => ?_
  have hd := h r' hr
  refine hd.expr.andThen fun scrutinee => (eats_expect hends (by decide)).andThen fun _ => ?_
  refine (eats_expect hends (by decide)).andThen fun _ => (eats_expect hends (by decide)).andThen fun _ => ?_
  refine Reads.andThen (fed_turns hd.turns fun arms => ?_) fun arms => ?_
  · refine (fed_skipNewlines hends hd.turns).andThen fun _ => reads_ifAt hends nofun (.pure id) ?_
    exact (eats_parseMatchArm hends fun r₁ h₁ => hd.le (Nat.le_of_lt h₁)).first fun arm _ _ => .pure
  · exact (eats_expect hends (by decide)).andThen fun _ => .pure id

theorem eats_parseWith : Eats (reading toks) r (parseWith d) := by
  refine reads_currentSpan hends fun start => (eats_expect hends (by decide)).first fun _ r' hr => ?_
  have hd := h r' hr
  have hitem : Eats (reading toks) r' (parseWithItem d) := by
    refine hd.expr.first fun context r₁ h₁ => ?_
    refine (fed_optionally hends (by decide) fun _ h₂ => ?_).andThen fun _ => .pure id
    exact (hd.le (Nat.le_of_lt (h₂.trans h₁))).pattern.fed
  refine Reads.andThen (fed_turns hd.turns fun items => ?_) fun items => ?_
  · exact hitem.first fun item _ _ => reads_ifEat hends nofun (fun _ _ => .pure) (.pure id)
  · exact (eats_parseSuite hends hd).andThen fun body => .pure id

omit h in
theorem reads_handlersTurn (h : Feeds toks r d) (acc : Handlers) :
    Reads (reading toks) (fun _ => True) r Turn.GoesOn (handlersTurn d acc) := by
  refine (fed_skipNewlines hends h.turns).andThen fun _ => reads_ifEat hends nofun (fun r₁ h₁ => ?_) ?_
  · have hd := h.le (Nat.le_of_lt h₁)
    have hhandler : Fed (reading toks) r₁ (parseHandler d) := by
      refine hd.type.andThen fun excType => ?_
      refine (fed_optionally hends (by decide) fun _ _ => (eats_expectIdent hends).fed).andThen fun binding => ?_
      exact (eats_parseSuite hends hd).andThen fun body => .pure id
    exact hhandler.andThen fun handler => .pure id
  · refine reads_ifEat hends nofun (fun r₁ h₁ => ?_) (reads_ifEat hends nofun (fun r₁ h₁ => ?_) (.pure id))
    · exact (eats_parseSuite hends (h.le (Nat.le_of_lt h₁))).andThen fun b => .pure id
    · exact (eats_parseSuite hends (h.le (Nat.le_of_lt h₁))).andThen fun b => .pure id

theorem eats_parseTry : Eats (reading toks) r (parseTry d) := by
  refine reads_currentSpan hends fun start => (eats_expect hends (by decide)).first fun _ r' hr => ?_
  have hd := h r' hr
  refine (eats_parseSuite hends hd).andThen fun body => ?_
  exact Reads.andThen (fed_turns hd.turns fun acc => reads_handlersTurn hends hd acc) fun tail => .pure id

theorem eats_parseStmt (hturns : r ≤ d.fuel) (hexpr : Eats (reading toks) r d.parseExpr) :
    Eats (reading toks) r (parseStmt d) := by
  have hother := eats_parseExprOrAssignStmt hends hexpr h
  refine reads_peek hends fun t => ?_
  split
  · exact reads_any (eats_parseDecorated hends h hturns)
  · next hk => exact reads_seen (hk ▸ nofun) (reads_parseImport hends h)
  · next hk => exact reads_seen (hk ▸ nofun) (reads_parseImport hends h)
  · exact reads_any (eats_fnStmt hends h)
  · exact reads_any (eats_classStmt hends h)
  · exact reads_any (eats_parseTypeAlias hends h)
  · exact reads_any (eats_parseLet hends h)
  · exact reads_any (eats_parseIf hends h)
  · exact reads_any (eats_parseWhile hends h)
  · exact reads_any (eats_parseFor hends h)
  · exact reads_any (eats_parseMatch hends h)
  · exact reads_any (eats_parseWith hends h)
  · exact reads_any (eats_parseTry hends h)
  · exact reads_any (eats_parseReturn hends h)
  · next hk => exact reads_seen (hk ▸ nofun) (reads_parseKeyword hends)
  · next hk => exact reads_seen (hk ▸ nofun) (reads_parseKeyword hends)
  · exact reads_any (eats_parseRaise hends h)
  · next hk => exact reads_seen (hk ▸ nofun) (reads_parseKeyword hends)
  · split
    · exact reads_fail
    · exact reads_any hother
  · exact reads_any hother

omit h in
theorem fed_parseModule (h : Feeds toks r d) : Fed (reading toks) r (parseModule d) := by
  refine reads_currentSpan hends fun start => (fed_skipNewlines hends h.turns).andThen fun _ => ?_
  have hdoc : Fed (reading toks) r (peekModuleDocstring d) := by
    refine reads_peekKind hends fun k => ?_
    split
    · refine reads_peekAt hends fun next => .ite (fun _ => ?_) fun _ => .pure id
      refine reads_seen nofun (reads_bumpBind hends fun _ r₁ h₁ => ?_)
      exact (fed_skipNewlines hends (h.le (Nat.le_of_lt h₁)).turns).andThen fun _ => .pure id
    · exact .pure id
  refine hdoc.andThen fun docstring => Reads.andThen (fed_turns h.turns fun items => ?_) fun items => ?_
  · refine reads_peekKind hends fun k => .ite (fun _ => .pure id) fun _ => reads_any ?_
    refine (fed_skipNewlines hends h.turns).andThen fun _ => reads_peekKind hends fun k => ?_
    exact .ite (fun _ => .pure id) fun _ => reads_any (h.stmt.first fun _ _ _ => .pure)
  · exact reads_currentSpan hends fun _ => .pure id

end Compound

end Cobrust.Frontend.Parser
