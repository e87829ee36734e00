import Cobrust.Hir.Tree

/-!
# Capture analysis

The walkers of `cobrust-hir/src/lower.rs` that collect the captures of a function or lambda body, once the body is
lowered. The counter of definition ids as it stood when the body was opened tells what was bound before.
-/

namespace Cobrust.Hir

def captureKindIsGlobal : DefKind → Bool
  | .fn | .class | .typeAlias | .importAlias => true
  | _ => false

/-- The captures found, and the ids that were seen. -/
structure CaptureState where
  out : List CaptureSpec := []
  seen : List DefId := []

def recordNameCapture (start : DefId) (rn : ResolvedName) (span : Span) (s : CaptureState) : CaptureState :=
  if start ≤ rn.defId then s
  else if captureKindIsGlobal rn.kind then s
  else if rn.defId ∈ s.seen then s
  else ⟨s.out ++ [⟨rn.name, rn.defId, span⟩], rn.defId :: s.seen⟩

mutual

def walkExpr (start : DefId) : Expr → CaptureState → CaptureState
  | .mk kind span, s => walkKind start span kind s

def walkKind (start : DefId) (span : Span) : ExprKind → CaptureState → CaptureState
  | .lit _, s => s
  | .format parts, s => walkParts start parts s
  | .name rn, s => recordNameCapture start rn span s
  | .tuple items, s | .list items, s | .set items, s => walkExprs start items s
  | .dict entries, s => walkEntries start entries s
  | .comp _ element clauses _, s => walkElement start element (walkClauses start clauses s)
  | .lambda _ body _, s => walkExpr start body s
  | .call callee args, s => walkArgs start args (walkExpr start callee s)
  | .attr base _, s => walkExpr start base s
  | .index base index, s => walkIndex start index (walkExpr start base s)
  | .bin _ lhs rhs, s => walkExpr start rhs (walkExpr start lhs s)
  | .un _ operand, s => walkExpr start operand s
  | .borrow inner, s => walkExpr start inner s
  | .await inner, s => walkExpr start inner s
  | .yield inner, s => walkOption start inner s
  | .yieldFrom inner, s => walkExpr start inner s
  | .cast expr _, s => walkExpr start expr s
  | .ifExpr cond thenBranch elseBranch, s =>
    walkExpr start elseBranch (walkExpr start thenBranch (walkExpr start cond s))

def walkExprs (start : DefId) : List Expr → CaptureState → CaptureState
  | [], s => s
  | e :: rest, s => walkExprs start rest (walkExpr start e s)

def walkOption (start : DefId) : Option Expr → CaptureState → CaptureState
  | none, s => s
  | some e, s => walkExpr start e s

def walkParts (start : DefId) : List FormatPart → CaptureState → CaptureState
  | [], s => s
  | .lit _ :: rest, s => walkParts start rest s
  | .hole expr _ _ :: rest, s => walkParts start rest (walkExpr start expr s)

def walkEntries (start : DefId) : List DictEntry → CaptureState → CaptureState
  | [], s => s
  | .pair key value :: rest, s => walkEntries start rest (walkExpr start value (walkExpr start key s))
  | .spread expr :: rest, s => walkEntries start rest (walkExpr start expr s)

def walkElement (start : DefId) : CompElem → CaptureState → CaptureState
  | .single expr, s => walkExpr start expr s
  | .keyValue key value, s => walkExpr start value (walkExpr start key s)

def walkClauses (start : DefId) : List CompClause → CaptureState → CaptureState
  | [], s => s
  | .mk _ _ iter guards :: rest, s => walkClauses start rest (walkExprs start guards (walkExpr start iter s))

def walkArgs (start : DefId) : List CallArg → CaptureState → CaptureState
  | [], s => s
  | .positional e :: rest, s | .keyword _ e :: rest, s | .starArgs e :: rest, s | .starStarKwargs e :: rest, s =>
    walkArgs start rest (walkExpr start e s)

def walkIndex (start : DefId) : IndexKind → CaptureState → CaptureState
  | .expr e, s => walkExpr start e s
  | .slice first last step, s => walkOption start step (walkOption start last (walkOption start first s))
  | .tuple items, s => walkIndexes start items s

def walkIndexes (start : DefId) : List IndexKind → CaptureState → CaptureState
  | [], s => s
  | i :: rest, s => walkIndexes start rest (walkIndex start i s)

end

mutual

def walkBlock (start : DefId) : Block → CaptureState → CaptureState
  | .mk stmts _, s => walkStmts start stmts s

def walkStmts (start : DefId) : List Stmt → CaptureState → CaptureState
  | [], s => s
  | .mk kind _ :: rest, s => walkStmts start rest (walkStmt start kind s)

def walkStmt (start : DefId) : StmtKind → CaptureState → CaptureState
  | .let body, s => walkExpr start body.value s
  | .assign target value, s => walkExpr start value (walkExpr start target s)
  | .if arms elseBlock, s => walkBlockOption start elseBlock (walkIfArms start arms s)
  | .loop kind, s => walkLoop start kind s
  | .match scrutinee arms, s => walkMatchArms start arms (walkExpr start scrutinee s)
  | .with item body, s => walkBlock start body (walkExpr start item.context s)
  | .try body handlers elseBlock finallyBlock, s =>
    walkBlockOption start finallyBlock (walkBlockOption start elseBlock
      (walkHandlers start handlers (walkBlock start body s)))
  | .return value, s => walkOption start value s
  | .raise exc cause, s => walkOption start cause (walkOption start exc s)
  | .expr e, s => walkExpr start e s
  | .break, s | .continue, s | .pass, s => s
  -- a nested item is skipped
  | .item _, s => s

def walkBlockOption (start : DefId) : Option Block → CaptureState → CaptureState
  | none, s => s
  | some block, s => walkBlock start block s

def walkIfArms (start : DefId) : List (Expr × Block) → CaptureState → CaptureState
  | [], s => s
  | (cond, body) :: rest, s => walkIfArms start rest (walkBlock start body (walkExpr start cond s))

def walkLoop (start : DefId) : LoopKind → CaptureState → CaptureState
  | .while cond body elseBlock _, s =>
    walkBlockOption start elseBlock (walkBlock start body (walkExpr start cond s))
  | .for _ _ iter body elseBlock _, s =>
    walkBlockOption start elseBlock (walkBlock start body (walkExpr start iter s))

def walkMatchArms (start : DefId) : List MatchArm → CaptureState → CaptureState
  | [], s => s
  | .mk _ _ guard body _ :: rest, s => walkMatchArms start rest (walkBlock start body (walkOption start guard s))

def walkHandlers (start : DefId) : List ExceptHandler → CaptureState → CaptureState
  | [], s => s
  | .mk _ _ body _ :: rest, s => walkHandlers start rest (walkBlock start body s)

end

/-- The body of a function, or of a lambda. -/
inductive ClosureBody where
  | block (body : Block)
  | expr (body : Expr)

/-- What captures are asked for. -/
structure Closure where
  params : Params
  body : ClosureBody

def collectCapturesBlock (block : Block) (start : DefId) : List CaptureSpec :=
  (walkBlock start block {}).out

def collectCapturesExpr (e : Expr) (start : DefId) : List CaptureSpec :=
  (walkExpr start e {}).out

def ClosureBody.captures (start : DefId) : ClosureBody → List CaptureSpec
  | block body => collectCapturesBlock body start
  | expr body => collectCapturesExpr body start

def Closure.captures (c : Closure) (start : DefId) : List CaptureSpec :=
  c.body.captures start

/-! ## Uses and binders -/

/-- A use of a name, which is hidden when it stands in a nested item or in the key of a mapping pattern; or a
definition that is made. -/
inductive Mention where
  | use (name : ResolvedName) (span : Span) (hidden : Bool)
  | bind (defId : DefId)

/-- The mention as one of a place that the walkers pass over. -/
def Mention.hide : Mention → Mention
  | use name span _ => use name span true
  | bind id => bind id

def Params.mentions (params : Params) : List Mention :=
  (params.positional ++ params.varPositional.toList ++ params.keywordOnly ++ params.varKeyword.toList).map
    fun p => .bind p.defId

mutual

/-- What an expression mentions. -/
def exprMentions : Expr → List Mention
  | .mk kind span => kindMentions span kind

def kindMentions (span : Span) : ExprKind → List Mention
  | .lit _ => []
  | .format parts => partsMentions parts
  | .name rn => [.use rn span false]
  | .tuple items | .list items | .set items => exprsMentions items
  | .dict entries => entriesMentions entries
  | .comp _ element clauses _ => clausesMentions clauses ++ elementMentions element
  | .lambda params body _ => params.mentions ++ exprMentions body
  | .call callee args => exprMentions callee ++ argsMentions args
  | .attr base _ => exprMentions base
  | .index base index => exprMentions base ++ indexMentions index
  | .bin _ lhs rhs => exprMentions lhs ++ exprMentions rhs
  | .un _ operand => exprMentions operand
  | .borrow inner | .await inner | .yieldFrom inner => exprMentions inner
  | .yield inner => optionMentions inner
  | .cast expr _ => exprMentions expr
  | .ifExpr cond thenBranch elseBranch =>
    exprMentions cond ++ (exprMentions thenBranch ++ exprMentions elseBranch)

def exprsMentions : List Expr → List Mention
  | [] => []
  | e :: rest => exprMentions e ++ exprsMentions rest

def optionMentions : Option Expr → List Mention
  | none => []
  | some e => exprMentions e

def partsMentions : List FormatPart → List Mention
  | [] => []
  | .lit _ :: rest => partsMentions rest
  | .hole expr _ _ :: rest => exprMentions expr ++ partsMentions rest

def entriesMentions : List DictEntry → List Mention
  | [] => []
  | .pair key value :: rest => exprMentions key ++ (exprMentions value ++ entriesMentions rest)
  | .spread expr :: rest => exprMentions expr ++ entriesMentions rest

def elementMentions : CompElem → List Mention
  | .single expr => exprMentions expr
  | .keyValue key value => exprMentions key ++ exprMentions value

def clausesMentions : List CompClause → List Mention
  | [] => []
  | .mk ids target iter guards :: rest =>
    exprMentions iter ++ (ids.map Mention.bind ++ ((patternMentions target).map Mention.hide ++
      (exprsMentions guards ++ clausesMentions rest)))

def argsMentions : List CallArg → List Mention
  | [] => []
  | .positional e :: rest | .keyword _ e :: rest | .starArgs e :: rest | .starStarKwargs e :: rest =>
    exprMentions e ++ argsMentions rest

def indexMentions : IndexKind → List Mention
  | .expr e => exprMentions e
  | .slice first last step =>
    optionMentions first ++ (optionMentions last ++ optionMentions step)
  | .tuple items => indexesMentions items

def indexesMentions : List IndexKind → List Mention
  | [] => []
  | i :: rest => indexMentions i ++ indexesMentions rest

/-- A pattern binds; the keys of a mapping pattern are expressions. -/
def patternMentions : Pattern → List Mention
  | .mk kind _ => patternKindMentions kind

def patternKindMentions : PatternKind → List Mention
  | .wildcard | .literal _ => []
  | .binding _ id => [.bind id]
  | .sequence items rest => patternsMentions items ++ restMentions rest
  | .mapping entries rest => keysMentions entries ++ rest.toList.map fun r => .bind r.2
  | .class _ positional keyword => patternsMentions positional ++ keywordMentions keyword
  | .or branches => patternsMentions branches

def patternsMentions : List Pattern → List Mention
  | [] => []
  | p :: rest => patternMentions p ++ patternsMentions rest

def restMentions : Option Pattern → List Mention
  | none => []
  | some p => patternMentions p

def keysMentions : List (Expr × Pattern) → List Mention
  | [] => []
  | (key, p) :: rest => exprMentions key ++ (patternMentions p ++ keysMentions rest)

def keywordMentions : List (String × Pattern) → List Mention
  | [] => []
  | (_, p) :: rest => patternMentions p ++ keywordMentions rest

end

/-- The binding of a `with` item. -/
def WithItem.mentions (item : WithItem) : List Mention :=
  match item.binding with
  | some (id, pattern) => .bind id :: (patternMentions pattern).map Mention.hide
  | none => []

mutual

/-- What a block mentions, nested items included. -/
def blockMentions : Block → List Mention
  | .mk stmts _ => stmtsMentions stmts

def stmtsMentions : List Stmt → List Mention
  | [] => []
  | .mk kind _ :: rest => stmtMentions kind ++ stmtsMentions rest

def stmtMentions : StmtKind → List Mention
  | .let body => exprMentions body.value ++ (patternMentions body.pattern).map Mention.hide
  | .assign target value => exprMentions target ++ exprMentions value
  | .if arms elseBlock => ifArmsMentions arms ++ blockOptionMentions elseBlock
  | .loop kind => loopMentions kind
  | .match scrutinee arms => exprMentions scrutinee ++ matchArmsMentions arms
  | .with item body => exprMentions item.context ++ (item.mentions ++ blockMentions body)
  | .try body handlers elseBlock finallyBlock =>
    blockMentions body ++ (handlersMentions handlers ++
      (blockOptionMentions elseBlock ++ blockOptionMentions finallyBlock))
  | .return value => optionMentions value
  | .raise exc cause => optionMentions exc ++ optionMentions cause
  | .expr e => exprMentions e
  | .break | .continue | .pass => []
  | .item it => (itemMentions it).map Mention.hide

def blockOptionMentions : Option Block → List Mention
  | none => []
  | some block => blockMentions block

def ifArmsMentions : List (Expr × Block) → List Mention
  | [] => []
  | (cond, body) :: rest => exprMentions cond ++ (blockMentions body ++ ifArmsMentions rest)

def loopMentions : LoopKind → List Mention
  | .while cond body elseBlock _ =>
    exprMentions cond ++ (blockMentions body ++ blockOptionMentions elseBlock)
  | .for ids pattern iter body elseBlock _ =>
    exprMentions iter ++ (ids.map Mention.bind ++ ((patternMentions pattern).map Mention.hide ++
      (blockMentions body ++ blockOptionMentions elseBlock)))

def matchArmsMentions : List MatchArm → List Mention
  | [] => []
  | .mk pattern ids guard body _ :: rest =>
    (patternMentions pattern).map Mention.hide ++ (ids.map Mention.bind ++ (optionMentions guard ++
      (blockMentions body ++ matchArmsMentions rest)))

def handlersMentions : List ExceptHandler → List Mention
  | [] => []
  | .mk _ binding body _ :: rest =>
    (binding.toList.map fun b => .bind b.1) ++ (blockMentions body ++ handlersMentions rest)

/-- What a nested item mentions. -/
def itemMentions : Item → List Mention
  | .mk kind _ => itemKindMentions kind

def itemKindMentions : ItemKind → List Mention
  | .import id _ _ _ | .typeAlias id _ _ _ => [.bind id]
  | .fn (.mk id _ params body _) => .bind id :: (params.mentions ++ blockMentions body)
  | .class id _ members _ => .bind id :: itemsMentions members
  | .decorated decorators inner => exprsMentions decorators ++ itemMentions inner
  | .let body => exprMentions body.value ++ patternMentions body.pattern
  | .exprStmt e => exprMentions e

def itemsMentions : List Item → List Mention
  | [] => []
  | it :: rest => itemMentions it ++ itemsMentions rest

end

def ClosureBody.mentions : ClosureBody → List Mention
  | block body => blockMentions body
  | expr body => exprMentions body

def Closure.mentions (c : Closure) : List Mention :=
  c.params.mentions ++ c.body.mentions

/-- The name, when it is used. -/
def Mention.used : Mention → Option ResolvedName
  | use name _ _ => some name
  | bind _ => none

/-- The id of the definition, when one is made. -/
def Mention.bound : Mention → Option DefId
  | use _ _ _ => none
  | bind id => some id

/-- The use, when the walkers come by it. -/
def Mention.visible : Mention → Option (ResolvedName × Span)
  | use name span false => some (name, span)
  | _ => none

def Closure.uses (c : Closure) : List ResolvedName :=
  c.mentions.filterMap Mention.used

def Closure.bound (c : Closure) : List DefId :=
  c.mentions.filterMap Mention.bound

/-- The uses outside nested items and the keys of mapping patterns. -/
def Closure.visibleUses (c : Closure) : List ResolvedName :=
  (c.mentions.filterMap Mention.visible).map Prod.fst

/-- A definition in scope: its kind, and whether it was made within a function. -/
structure Definition where
  kind : DefKind
  inFunction : Bool
  deriving DecidableEq

def Definition.isLocalVariable (d : Definition) : Bool :=
  d.inFunction && !captureKindIsGlobal d.kind && d.kind != .typeParam

/-- What the lowering of a function or lambda keeps to, when the counter of definition ids stands at `start` and
`outer` is in scope as it opens: what was defined before has an id below, what is defined within an id from there on, and
a name resolves to one or the other. -/
structure Closure.Opened (c : Closure) (start : DefId) (outer : DefId → Option Definition) : Prop where
  before : ∀ id d, outer id = some d → id < start
  within : ∀ id ∈ c.bound, start ≤ id
  resolved : ∀ rn ∈ c.uses, start ≤ rn.defId ∨ ∃ d, outer rn.defId = some d ∧ d.kind = rn.kind

/-- The id of a local variable of an enclosing function that is used. -/
def Closure.FreeLocal (c : Closure) (outer : DefId → Option Definition) (id : DefId) : Prop :=
  (∃ rn ∈ c.uses, rn.defId = id) ∧ ∃ d, outer id = some d ∧ d.isLocalVariable

/-- The captures are the free local variables, each once, and nothing that is defined within. -/
def Closure.Exact (c : Closure) (start : DefId) (outer : DefId → Option Definition) : Prop :=
  let ids := (c.captures start).map CaptureSpec.defId
  ids.Nodup ∧ (∀ id, id ∈ ids ↔ c.FreeLocal outer id) ∧ ∀ id ∈ ids, id ∉ c.bound

end Cobrust.Hir
