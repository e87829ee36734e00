import Cobrust.Frontend.Parser.Expr

/-!
# Statements

The statements of `cobrust-frontend/src/parser.rs`, and the parser as a whole: `descent n` is the parser with
`n` levels below it.
-/

namespace Cobrust.Frontend.Parser

open Ast Control

def peekAssignOp (kind : TokenKind) : Option AssignOp :=
  match kind with
  | .plusEq => some .plusEq
  | .minusEq => some .minusEq
  | .starEq => some .starEq
  | .starStarEq => some .starStarEq
  | .slashEq => some .slashEq
  | .slashSlashEq => some .slashSlashEq
  | .percentEq => some .percentEq
  | .ampEq => some .ampEq
  | .pipeEq => some .pipeEq
  | .caretEq => some .caretEq
  | .shlEq => some .shlEq
  | .shrEq => some .shrEq
  | _ => none

/-- The initial value of a field that is only declared. -/
def defaultInitForType (annot : TypeExpr) (span : Span) : Expr :=
  let lit : Ast.Literal :=
    match annot.kind with
    | .name [seg] =>
      if seg = "str".toList then .str []
      else if ["i64", "int", "i8", "i16", "i32"].any fun word => word.toList = seg then .int "0".toList
      else if ["f64", "float"].any fun word => word.toList = seg then .float "0.0".toList
      else if seg = "bool".toList then .bool false
      else .none
    | _ => .none
  .mk (.literal lit) span

section Descending

variable (d : Descent)

def parseBlock : ParserM Block := do
  let start ← currentSpan
  let _ ← expect .newline
  skipNewlines d
  let _ ← expect .indent
  let stmts ← turns d (fun (stmts : List Stmt) => do
    skipNewlines d
    let k ← peekKind
    if k = .dedent ∨ k = .eof then return .done stmts
    else
      let stmt ← d.parseStmt
      return .again (stmts ++ [stmt])) []
  let _ ← eat .dedent
  return .mk stmts (start.merge ((stmts.getLast?.map Stmt.span).getD start))

/-- A colon and a block. -/
def parseSuite : ParserM Block := do
  let _ ← expect .colon
  parseBlock d

/-! ## Simple statements -/

def parseImportTarget : ParserM ImportTarget := do
  let name ← expectIdent
  let asName ← optionally .kwAs expectIdent
  return .mk name asName

def parseImport : ParserM Stmt := do
  let start ← currentSpan
  if (← peekKind) = .kwImport then
    let _ ← bump
    let path ← parseDottedName d
    let asName ← optionally .kwAs expectIdent
    expectEos
    return .mk (.importStmt (.importPath path asName)) start
  else
    let _ ← bump
    let path ← parseDottedName d
    let _ ← expect .kwImport
    if (← peekKind) = .star then
      let span ← currentSpan
      failText "`from … import *` is not supported" span
        (some "list specific names: `from <module> import name1, name2`")
    else
      let targets ← turns d (fun (targets : List ImportTarget) => do
        let target ← parseImportTarget
        if ← eat .comma then return .again (targets ++ [target]) else return .done (targets ++ [target])) []
      expectEos
      return .mk (.importStmt (.fromPath path targets)) start

def parseTypeAlias : ParserM Stmt := do
  let start ← currentSpan
  let _ ← expect .kwType
  let name ← expectIdent
  let params ← optionally .lBracket (do
    if (← peekKind) = .rBracket then
      let _ ← expect .rBracket
      return []
    else
      let first ← expectIdent
      let params ← whileEat d .comma expectIdent [first]
      let _ ← expect .rBracket
      return params)
  let _ ← expect .eq
  let value ← d.parseType
  expectEos
  return .mk (.typeAlias ⟨name, params.getD [], value⟩) (start.merge value.span)

def parseLet : ParserM Stmt := do
  let start ← currentSpan
  let _ ← expect .kwLet
  let target ← d.parsePatternSimple
  let annot ← optionally .colon d.parseType
  let _ ← expect .eq
  let value ← d.parseExpr
  expectEos
  return .mk (.letStmt target annot value) (start.merge value.span)

def parseReturn : ParserM Stmt := do
  let start ← currentSpan
  let _ ← expect .kwReturn
  let value ← exprUnless d isEos
  expectEos
  return .mk (.returnStmt value) (start.merge ((value.map Expr.span).getD start))

def parseRaise : ParserM Stmt := do
  let start ← currentSpan
  let _ ← expect .kwRaise
  let exc ← exprUnless d fun k => isEos k || k = .kwFrom
  let cause ← optionally .kwFrom d.parseExpr
  expectEos
  return .mk (.raise exc cause) (start.merge (((cause.or exc).map Expr.span).getD start))

/-- A keyword that is a statement of its own. -/
def parseKeyword (kind : StmtKind) : ParserM Stmt := do
  let t ← bump
  expectEos
  return .mk kind t.span

/-- The refinement of a field, kept for the class. -/
def parseWhere (fieldName : Text) : ParserM Unit := do
  if (← peekKind) = .ident "where".toList then
    let _ ← bump
    let pred ← d.parseExpr
    modify fun p => { p with pendingFieldRefinements := p.pendingFieldRefinements ++ [(fieldName, pred)] }
  else return ()

/-- A field of a class that is only declared, behind its name. -/
def parseClassField (fieldName : Text) (start : Span) : ParserM Stmt := do
  let _ ← expect .colon
  let annot ← d.parseType
  parseWhere d fieldName
  expectEos
  return .mk (.letStmt (.mk (.binding fieldName) start) (some annot) (defaultInitForType annot annot.span))
    (start.merge annot.span)

/-- An assignment, at its operator. -/
def parseAssign (lhs : Expr) (op : AssignOp) : ParserM Stmt := do
  let _ ← bump
  let rhs ← d.parseExpr
  expectEos
  return .mk (.assign lhs op rhs) (lhs.span.merge rhs.span)

/-- The name of a field that is declared here, if one is. -/
def fieldNameOf (lhs : Expr) (next : TokenKind) (inClassBody : Nat) : Option Text :=
  match lhs.kind with
  | .name name => if 0 < inClassBody ∧ next = .colon then some name else none
  | _ => none

def parseExprOrAssignStmt : ParserM Stmt := do
  let lhs ← d.parseExpr
  let kind ← peekKind
  let p ← get
  match fieldNameOf lhs kind p.inClassBody with
  | some fieldName => parseClassField d fieldName lhs.span
  | none =>
    match peekAssignOp kind with
    | some op => parseAssign d lhs op
    | none =>
      if kind = .eq then parseAssign d lhs .eq
      else do
        expectEos
        return .mk (.expr lhs) lhs.span

/-! ## Definitions -/

def parseFnDef : ParserM FnDef := do
  let _ ← expect .kwFn
  let name ← expectIdent
  let _ ← expect .lParen
  let params ← parseParams d
  let _ ← expect .rParen
  let returnType ← optionally .arrow d.parseType
  let body ← parseSuite d
  return .mk name params returnType body

def multiBase : String :=
  "multi-base class is forbidden (constitution §2.2: composition + traits, no MRO; ADR-0041 §H7)"

def multiBaseHelp : String :=
  "use composition + traits instead of multi-inheritance (constitution §2.2)"

/-- The base of a class, behind the parenthesis. -/
def parseBase : ParserM (Option Expr) := do
  if (← peekKind) = .rParen then
    let _ ← expect .rParen
    return none
  else
    let base ← d.parseExpr
    let next ← peek
    if next.kind = .comma then failText multiBase (base.span.merge next.span) (some multiBaseHelp)
    else
      match base.kind with
      | .collection (.tuple _) => failText multiBase base.span (some multiBaseHelp)
      | _ => do
        let _ ← expect .rParen
        return some base

def isBlockStart (k : TokenKind) : Bool :=
  k = .newline || k = .indent

/-- The traits of a class, with the colons around them. Without a trait the body may come without a
colon. -/
def parseTraits : ParserM (List TypeExpr) := do
  let colon ← eat .colon
  let k ← peekKind
  if colon ∧ !isBlockStart k then
    let first ← d.parseType
    let traits ← whileEat d .comma d.parseType [first]
    let _ ← expect .colon
    return traits
  else if isBlockStart k then return []
  else
    let _ ← expect .colon
    return []

/-- A class body collects the refinements of its own fields. -/
def parseClassBody : ParserM (Block × List (Text × Expr)) := do
  let outer ← get
  modify fun p => { p with inClassBody := p.inClassBody + 1, pendingFieldRefinements := [] }
  let body ← parseBlock d
  let inner ← get
  modify fun p =>
    { p with inClassBody := p.inClassBody - 1, pendingFieldRefinements := outer.pendingFieldRefinements }
  return (body, inner.pendingFieldRefinements)

def parseClassDef : ParserM ClassDef := do
  let _ ← expect .kwClass
  let name ← expectIdent
  let base ← optionally .lParen (parseBase d)
  let traits ← parseTraits d
  let body ← parseClassBody d
  return .mk name base.join traits body.1 body.2

def fnStmt : ParserM Stmt := do
  let fd ← parseFnDef d
  return .mk (.fnDef fd) fd.body.span

def classStmt : ParserM Stmt := do
  let cd ← parseClassDef d
  return .mk (.classDef cd) cd.body.span

/-- What a decorator stands before. -/
def decoratedStmt : ParserM Stmt := do
  let t ← peek
  match t.kind with
  | .kwFn => fnStmt d
  | .kwClass => classStmt d
  | other =>
    failText ("decorators must precede `fn` or `class`, got " ++ other.classify) t.span
      (some "move the decorator immediately above an `fn` or `class` definition")

def parseDecorated : ParserM Stmt := do
  let start ← currentSpan
  let decorators ← turns d (fun (decorators : List Expr) => do
    if (← peekKind) = .at then
      let _ ← bump
      let expr ← d.parseExpr
      let _ ← expect .newline
      skipNewlines d
      return .again (decorators ++ [expr])
    else return .done decorators) []
  let inner ← decoratedStmt d
  return .mk (.decorated decorators inner) (start.merge inner.span)

/-! ## Compound statements -/

/-- What follows the first block of an `if`. -/
structure Elifs where
  elifs : List (Expr × Block)
  elseBlock : Option Block

def parseIf : ParserM Stmt := do
  let start ← currentSpan
  let _ ← expect .kwIf
  let cond ← d.parseExpr
  let thenBlock ← parseSuite d
  let tail ← turns d (fun (elifs : List (Expr × Block)) => do
    skipNewlines d
    if ← eat .kwElif then
      let c ← d.parseExpr
      let b ← parseSuite d
      return .again (elifs ++ [(c, b)])
    else if (← peekKind) = .kwElse then
      let _ ← bump
      let b ← parseSuite d
      return .done (Elifs.mk elifs (some b))
    else return .done (Elifs.mk elifs none)) []
  let stop := (tail.elseBlock.map Block.span).getD thenBlock.span
  return .mk (.ifStmt cond thenBlock tail.elifs tail.elseBlock) (start.merge stop)

/-- The `else` of a loop. -/
def parseLoopElse : ParserM (Option Block) := do
  skipNewlines d
  optionally .kwElse (parseSuite d)

def parseWhile : ParserM Stmt := do
  let start ← currentSpan
  let _ ← expect .kwWhile
  let cond ← d.parseExpr
  let body ← parseSuite d
  let elseBlock ← parseLoopElse d
  return .mk (.whileStmt cond body elseBlock) (start.merge ((elseBlock.map Block.span).getD body.span))

def parseFor : ParserM Stmt := do
  let start ← currentSpan
  let _ ← expect .kwFor
  let target ← parseForTarget d
  let _ ← expect .kwIn
  let iter ← d.parseExpr
  let body ← parseSuite d
  let elseBlock ← parseLoopElse d
  return .mk (.forStmt target iter body elseBlock) (start.merge ((elseBlock.map Block.span).getD body.span))

def parseMatchArm : ParserM MatchArm := do
  let _ ← expect .kwCase
  let pattern ← parsePatternOr d
  let guard ← optionally .kwIf d.parseExpr
  let body ← parseSuite d
  return .mk pattern guard body

def parseMatch : ParserM Stmt := do
  let start ← currentSpan
  let _ ← expect .kwMatch
  let scrutinee ← d.parseExpr
  let _ ← expect .colon
  let _ ← expect .newline
  let _ ← expect .indent
  let arms ← turns d (fun (arms : List MatchArm) => do
    skipNewlines d
    if (← peekKind) = .dedent then return .done arms
    else
      let arm ← parseMatchArm d
      return .again (arms ++ [arm])) []
  let _ ← expect .dedent
  return .mk (.matchStmt scrutinee arms) (start.merge ((arms.getLast?.map fun a => a.body.span).getD start))

def parseWithItem : ParserM WithItem := do
  let context ← d.parseExpr
  let target ← optionally .kwAs d.parsePatternSimple
  return ⟨context, target⟩

def parseWith : ParserM Stmt := do
  let start ← currentSpan
  let _ ← expect .kwWith
  let items ← turns d (fun (items : List WithItem) => do
    let item ← parseWithItem d
    if ← eat .comma then return .again (items ++ [item]) else return .done (items ++ [item])) []
  let body ← parseSuite d
  return .mk (.withStmt items body) (start.merge body.span)

/-- What follows the first block of a `try`. -/
structure Handlers where
  handlers : List ExceptHandler
  elseBlock : Option Block
  finallyBlock : Option Block

def parseHandler : ParserM ExceptHandler := do
  let excType ← d.parseType
  let binding ← optionally .kwAs expectIdent
  let body ← parseSuite d
  return .mk excType binding body

/-- One turn behind the block of a `try`; an `else` replaces the one before it. -/
def handlersTurn (acc : Handlers) : ParserM (Turn Handlers Handlers) := do
  skipNewlines d
  if ← eat .kwExcept then
    let handler ← parseHandler d
    return .again { acc with handlers := acc.handlers ++ [handler] }
  else if ← eat .kwElse then
    let b ← parseSuite d
    return .again { acc with elseBlock := some b }
  else if ← eat .kwFinally then
    let b ← parseSuite d
    return .done { acc with finallyBlock := some b }
  else return .done acc

def parseTry : ParserM Stmt := do
  let start ← currentSpan
  let _ ← expect .kwTry
  let body ← parseSuite d
  let tail ← turns d (handlersTurn d) ⟨[], none, none⟩
  let lastBlock := (tail.handlers.getLast?.map fun h => h.body.span).getD body.span
  let stop := ((tail.finallyBlock.or tail.elseBlock).map Block.span).getD lastBlock
  return .mk (.tryStmt body tail.handlers tail.elseBlock tail.finallyBlock) (start.merge stop)

/-- The words that the language does not have. -/
def droppedWords : List String :=
  ["is", "global", "nonlocal", "del"]

def parseStmt : ParserM Stmt := do
  let t ← peek
  match t.kind with
  | .at => parseDecorated d
  | .kwImport | .kwFrom => parseImport d
  | .kwFn => fnStmt d
  | .kwClass => classStmt d
  | .kwType => parseTypeAlias d
  | .kwLet => parseLet d
  | .kwIf => parseIf d
  | .kwWhile => parseWhile d
  | .kwFor => parseFor d
  | .kwMatch => parseMatch d
  | .kwWith => parseWith d
  | .kwTry => parseTry d
  | .kwReturn => parseReturn d
  | .kwBreak => parseKeyword (.breakContinue .breaks)
  | .kwContinue => parseKeyword (.breakContinue .continues)
  | .kwRaise => parseRaise d
  | .kwPass => parseKeyword .pass
  | .ident name =>
    match droppedWords.find? fun word => word.toList = name with
    | some word =>
      fail (.droppedByConstitution word t.span
        (some "remove this construct; see CLAUDE.md §2.2 for the supported alternative"))
    | none => parseExprOrAssignStmt d
  | _ => parseExprOrAssignStmt d

/-- A leading string on a line of its own. -/
def peekModuleDocstring : ParserM (Option Text) := do
  match ← peekKind with
  | .str value _ => do
    let next ← peekAt 1
    if next = .newline ∨ next = .eof then
      let _ ← bump
      skipNewlines d
      return some value
    else return none
  | _ => return none

def parseModule : ParserM Ast.Module := do
  let start ← currentSpan
  skipNewlines d
  let docstring ← peekModuleDocstring d
  let items ← turns d (fun (items : List Stmt) => do
    if (← peekKind) = .eof then return .done items
    else
      skipNewlines d
      if (← peekKind) = .eof then return .done items
      else
        let stmt ← d.parseStmt
        return .again (items ++ [stmt])) []
  let stop ← currentSpan
  return ⟨docstring, items, start.merge stop⟩

end Descending

section Whole

variable (u : Unicode) (ov : Overflow)

/-- A parser with no level below it. -/
def noDescent : Descent where
  fuel := 0
  parseStmt := throw .fuel
  parseExpr := throw .fuel
  parsePratt _ := throw .fuel
  parseType := throw .fuel
  parseTypeAtom := throw .fuel
  parsePatternSimple := throw .fuel

def descent : Nat → Descent
  | 0 => noDescent
  | n + 1 =>
    let below := descent n
    { fuel := n + 1
      parseStmt := Parser.parseStmt below
      parseExpr := Parser.parseExpr below
      parsePratt := Parser.parsePratt below u ov
      parseType := Parser.parseType below
      parseTypeAtom := Parser.parseTypeAtom below
      parsePatternSimple := Parser.parsePatternSimple below }

/-- `parse`, with the state that the parser ends in. -/
def parse (fuel : Nat) (toks : List Token) : EStateM.Result ParseHalt Parser Ast.Module :=
  parseModule (descent u ov fuel) (new toks)

end Whole

end Cobrust.Frontend.Parser
