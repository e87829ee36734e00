import Cobrust.Frontend.Parser.Simple

/-!
# Expressions

The expressions of `cobrust-frontend/src/parser.rs`: operators by precedence, postfix chains, atoms, and
f-strings, whose interpolations a parser of their own reads.
-/

namespace Cobrust.Frontend.Parser

open Ast Control

def precOr : Prec := 40
def precAnd : Prec := 45
def precNot : Prec := 50
def precCmp : Prec := 60
def precBitOr : Prec := 65
def precBitXor : Prec := 70
def precBitAnd : Prec := 75
def precShift : Prec := 80
def precAdd : Prec := 85
def precCast : Prec := 88
def precMul : Prec := 90
def precPow : Prec := 95

def isCastTypeToken : TokenKind → Bool
  | .ident name =>
    ["i64", "f64", "int", "float", "str", "bool", "bytes", "None", "Never", "list", "dict", "set"].any
      fun word => word.toList = name
  | _ => false

/-- The operator of a kind, given the kind behind it, with its precedence; the flag is for operators that
group to the right. -/
def binopOf (kind next : TokenKind) : Option (BinOp × Prec × Bool) :=
  match kind with
  | .kwOr => some (.or, precOr, false)
  | .kwAnd => some (.and, precAnd, false)
  | .eqEq => some (.eq, precCmp, false)
  | .notEq => some (.notEq, precCmp, false)
  | .lt => some (.lt, precCmp, false)
  | .ltEq => some (.ltEq, precCmp, false)
  | .gt => some (.gt, precCmp, false)
  | .gtEq => some (.gtEq, precCmp, false)
  | .kwIn => some (.isIn, precCmp, false)
  | .kwNot => if next = .kwIn then some (.notIn, precCmp, false) else none
  | .pipe => some (.bitOr, precBitOr, false)
  | .caret => some (.bitXor, precBitXor, false)
  | .amp => some (.bitAnd, precBitAnd, false)
  | .shl => some (.shl, precShift, false)
  | .shr => some (.shr, precShift, false)
  | .plus => some (.add, precAdd, false)
  | .minus => some (.sub, precAdd, false)
  | .star => some (.mul, precMul, false)
  | .at => some (.matMul, precMul, false)
  | .slash => some (.div, precMul, false)
  | .slashSlash => some (.floorDiv, precMul, false)
  | .percent => some (.mod, precMul, false)
  | .starStar => some (.pow, precPow, true)
  | _ => none

def peekBinop : ParserM (Option (BinOp × Prec × Bool)) := do
  let kind ← peekKind
  let next ← peekAt 1
  return binopOf kind next

section Descending

variable (d : Descent)

/-- One turn behind the left operand: a cast, an operator that binds tightly enough, or the end. -/
def prattTurn (min : Prec) (lhs : Expr) : ParserM (Turn Expr Expr) := do
  let kind ← peekKind
  let next ← peekAt 1
  if kind = .kwAs ∧ min ≤ precCast ∧ isCastTypeToken next then
    let _ ← bump
    let target ← d.parseType
    return .again (.mk (.cast lhs target) (lhs.span.merge target.span))
  else
    match ← peekBinop with
    | none => return .done lhs
    | some (op, prec, rightAssoc) =>
      if prec < min then return .done lhs
      else do
        let _ ← bump
        let rhs ← d.parsePratt (if rightAssoc then prec else prec + 1)
        return .again (.mk (.binary op lhs rhs) (lhs.span.merge rhs.span))

/-- An operand is checked before it is borrowed: a place, or a method call on one. -/
def validateBorrowOperand : Expr → ParserM Unit
  | .mk (.name _) _ => return ()
  | .mk (.access (.attribute base _)) _ => validateBorrowOperand base
  | .mk (.access (.index base _)) _ => validateBorrowOperand base
  | .mk (.borrow _) span =>
    failText "nested borrow `&&` is not supported in Wave-1 (ADR-0052a §8)" span
      (some "use a single `&` borrow (ADR-0052a §8)")
  | .mk (.literal _) span =>
    failText ("borrow of a literal is not supported in Wave-1 (ADR-0052a §8 cap: borrow operand must be " ++
      "`Name`, `Name.field`, or `Name[idx]`)") span
      (some "bind the literal to a name first: `let x = …; &x`")
  | .mk (.fString _) span =>
    failText "borrow of an f-string is not supported in Wave-1 (ADR-0052a §8 cap)" span
      (some "bind the f-string to a name first: `let s = f\"…\"; &s`")
  | .mk (.collection _) span | .mk (.comprehension _) span =>
    failText "borrow of a collection / comprehension literal is not supported in Wave-1 (ADR-0052a §8 cap)"
      span (some "bind the collection to a name first: `let xs = [...]; &xs`")
  | .mk (.call (.mk (.access (.attribute base _)) _) _) _ => validateBorrowOperand base
  | .mk (.call _ _) span =>
    failText ("borrow of a free-function call-result is not supported (ADR-0052f only relaxes method-form " ++
      "`&recv.method(...)`; borrow operand must be `Name`, `Name.field`, `Name[idx]`, or `Name.method(...)`)")
      span (some "bind the call result to a name first: `let v = f(...); &v`")
  | .mk _ span =>
    failText "borrow operand must be `Name`, `Name.field`, or `Name[idx]` in Wave-1 (ADR-0052a §8 cap)" span
      (some "borrow a place: `Name`, `Name.field`, or `Name[idx]`")

def lambdaParams : ParserM Params := do
  if (← peekKind) = .colon then return .empty else parseLambdaParams d

def parseLambda : ParserM Expr := do
  let start ← currentSpan
  let _ ← expect .kwLambda
  let params ← lambdaParams d
  let _ ← expect .colon
  let body ← d.parseExpr
  return .mk (.lambda params body) (start.merge body.span)

/-- A prefix operator, at its token, with the precedence of its operand. -/
def parsePrefix (start : Span) (prec : Prec) (build : Expr → ExprKind) : ParserM Expr := do
  let _ ← bump
  let operand ← d.parsePratt prec
  return .mk (build operand) (start.merge operand.span)

def parseBorrow (start : Span) : ParserM Expr := do
  let _ ← bump
  let operand ← d.parsePratt 100
  validateBorrowOperand operand
  return .mk (.borrow operand) (start.merge operand.span)

/-- What ends a `yield` without a value. -/
def endsYield : TokenKind → Bool
  | .newline | .eof | .rParen | .rBracket | .rBrace | .semicolon | .comma => true
  | _ => false

def parseYield (start : Span) : ParserM Expr := do
  let _ ← bump
  if ← eat .kwFrom then
    let inner ← d.parseExpr
    return .mk (.yieldFrom inner) (start.merge inner.span)
  else if endsYield (← peekKind) then return .mk (.yield none) start
  else
    let inner ← d.parseExpr
    return .mk (.yield (some inner)) (start.merge inner.span)

/-! ## Calls, indices and attributes -/

/-- One argument of a call. -/
def parseCallArg : ParserM CallArg := do
  if ← eat .starStar then
    let v ← d.parseExpr
    return .starStarKwargs v
  else if ← eat .star then
    let v ← d.parseExpr
    return .starArgs v
  else if ← atKeyword then
    let name ← expectIdent
    let _ ← expect .eq
    let v ← d.parseExpr
    return .keyword name v
  else
    let v ← d.parseExpr
    return .positional v

/-- Items up to `close`, which is not read; a comma stands between two of them. -/
def itemsUntil {α : Type} (close : TokenKind) (item : ParserM α) (acc : List α) : ParserM (List α) :=
  turns d (fun acc => do
    if (← peekKind) = close then return .done acc
    else
      let a ← item
      if ← eat .comma then return .again (acc ++ [a]) else return .done (acc ++ [a])) acc

def parseCallArgs : ParserM (List CallArg) :=
  itemsUntil d .rParen (parseCallArg d) []

/-- An expression, unless `stops` holds of the next kind. -/
def exprUnless (stops : TokenKind → Bool) : ParserM (Option Expr) := do
  if stops (← peekKind) then return none
  else
    let e ← d.parseExpr
    return some e

/-- The step of a slice, with its colon. -/
def parseSliceStep : ParserM (Option Expr) := do
  if (← peekKind) = .colon then
    let _ ← bump
    exprUnless d fun k => k = .rBracket || k = .comma
  else return none

def parseIndexOne : ParserM IndexKind := do
  let start ← exprUnless d fun k => k = .colon
  if (← peekKind) = .colon then
    let _ ← bump
    let stop ← exprUnless d fun k => k = .colon || k = .rBracket || k = .comma
    let step ← parseSliceStep d
    return .slice start stop step
  else
    match start with
    | some e => return .expr e
    | none => do
      let span ← currentSpan
      failText "empty index" span (some "index with at least one bound: `x[i]`, `x[i:j]`, or `x[:j]`")

def parseIndex : ParserM IndexKind := do
  let first ← parseIndexOne d
  if (← peekKind) = .comma then
    let items ← commaItems d .rBracket (parseIndexOne d) [first]
    return .tuple items
  else return first

/-- The name behind a dot; a number projects from a tuple. -/
def parseAttributeName : ParserM Text := do
  match ← peekKind with
  | .int s => do
    let _ ← bump
    return s
  | _ => expectIdent

/-- One turn of a postfix chain. -/
def postfixTurn (e : Expr) : ParserM (Turn Expr Expr) := do
  match ← peekKind with
  | .lParen => do
    let _ ← bump
    let args ← parseCallArgs d
    let stop ← currentSpan
    let _ ← expect .rParen
    return .again (.mk (.call e args) (e.span.merge stop))
  | .dot => do
    let _ ← bump
    let name ← parseAttributeName
    let stop ← currentSpan
    return .again (.mk (.access (.attribute e name)) (e.span.merge stop))
  | .lBracket => do
    let _ ← bump
    let index ← parseIndex d
    let stop ← currentSpan
    let _ ← expect .rBracket
    return .again (.mk (.access (.index e index)) (e.span.merge stop))
  | _ => return .done e

/-! ## Comprehensions and collections -/

/-- One clause of a comprehension, behind its `for`. -/
def parseComprehensionClause : ParserM ComprehensionClause := do
  let target ← parseForTarget d
  let _ ← expect .kwIn
  let iter ← d.parsePratt 0
  let guards ← whileEat d .kwIf (d.parsePratt 0) []
  return .mk target iter guards

def parseComprehensionClauses : ParserM (List ComprehensionClause) :=
  whileEat d .kwFor (parseComprehensionClause d) []

/-- The clauses of a comprehension, up to the bracket that closes it. -/
def parseComprehension (start : Span) (close : TokenKind) (kind : ComprehensionKind)
    (element : ComprehensionElem) : ParserM Expr := do
  let clauses ← parseComprehensionClauses d
  let stop ← currentSpan
  let _ ← expect close
  return .mk (.comprehension (.mk kind element clauses)) (start.merge stop)

/-- The bracket that closes a collection. -/
def closeCollection (start : Span) (close : TokenKind) (lit : CollectionLit) : ParserM Expr := do
  let stop ← currentSpan
  let _ ← expect close
  return .mk (.collection lit) (start.merge stop)

def parseParenExpr : ParserM Expr := do
  let start ← currentSpan
  let _ ← expect .lParen
  if (← peekKind) = .rParen then closeCollection start .rParen (.tuple [])
  else
    let first ← d.parseExpr
    if (← peekKind) = .kwFor then parseComprehension d start .rParen .generator (.single first)
    else if ← eat .comma then
      let items ← itemsUntil d .rParen d.parseExpr [first]
      closeCollection start .rParen (.tuple items)
    else
      let stop ← currentSpan
      let _ ← expect .rParen
      return .mk first.kind (start.merge stop)

def parseBracketExpr : ParserM Expr := do
  let start ← currentSpan
  let _ ← expect .lBracket
  if (← peekKind) = .rBracket then closeCollection start .rBracket (.list [])
  else
    let first ← d.parseExpr
    if (← peekKind) = .kwFor then parseComprehension d start .rBracket .list (.single first)
    else
      let items ← commaItems d .rBracket d.parseExpr [first]
      closeCollection start .rBracket (.list items)

def parseDictEntry : ParserM DictEntry := do
  if ← eat .starStar then
    let e ← d.parseExpr
    return .spread e
  else
    let k ← d.parseExpr
    let _ ← expect .colon
    let v ← d.parseExpr
    return .pair k v

/-- The entries of a dictionary; a first one may have been read. -/
def parseDictAfterFirst (start : Span) (first : Option DictEntry) : ParserM Expr := do
  let k ← peekKind
  if first.isSome ∧ k ≠ .rBrace then
    let _ ← expect .comma
    let entries ← itemsUntil d .rBrace (parseDictEntry d) first.toList
    closeCollection start .rBrace (.dict entries)
  else
    let entries ← itemsUntil d .rBrace (parseDictEntry d) first.toList
    closeCollection start .rBrace (.dict entries)

def parseBraceExpr : ParserM Expr := do
  let start ← currentSpan
  let _ ← expect .lBrace
  let k ← peekKind
  if k = .rBrace then closeCollection start .rBrace (.dict [])
  else if k = .starStar then parseDictAfterFirst d start none
  else
    let first ← d.parseExpr
    if ← eat .colon then
      let v ← d.parseExpr
      if (← peekKind) = .kwFor then parseComprehension d start .rBrace .dict (.keyValue first v)
      else parseDictAfterFirst d start (some (.pair first v))
    else if (← peekKind) = .kwFor then parseComprehension d start .rBrace .set (.single first)
    else
      let items ← commaItems d .rBrace d.parseExpr [first]
      closeCollection start .rBrace (.set items)

section FStrings

variable (u : Unicode) (ov : Overflow)

/-- The tokens of an interpolation; an error of the lexer becomes one of the parser. -/
def lexPiece (source : Text) (outer : Span) : ParserM (List Token) :=
  match lex u ov ⟨source, outer.file⟩ with
  | .ok toks => return toks
  | .error (.error (.invalidUtf8 byteOffset)) =>
    failText ("invalid UTF-8 in f-string at byte " ++ toString byteOffset) outer
      (some "ensure the f-string body is valid UTF-8")
  | .error (.error e) => fail (.syntaxError (.lexError e) outer none)
  | .error .panic => throw .panic
  | .error .overflow => throw .overflow
  | .error .fuel => throw .fuel

/-- `Parser::new(&toks)` reads an expression. The moves of its cursor join those of this one. -/
def subParse (toks : List Token) : ParserM Expr := fun p =>
  match d.parseExpr (new toks) with
  | .ok e sub => .ok e { p with moves := sub.moves ++ p.moves }
  | .error e sub => .error e { p with moves := sub.moves ++ p.moves }

/-- The pieces of an f-string; what an interpolation has behind its expression is not looked at. -/
def fstringPiecesToParts (outer : Span) : List FStringPiece → ParserM (List FStrPart)
  | [] => return []
  | .lit s :: rest => do
    let parts ← fstringPiecesToParts outer rest
    return .lit s :: parts
  | .expr source debugEquals formatSpec :: rest => do
    let toks ← lexPiece u ov source outer
    let e ← subParse d toks
    let parts ← fstringPiecesToParts outer rest
    return .expr e debugEquals formatSpec :: parts

end FStrings

/-! ## Atoms -/

variable (u : Unicode) (ov : Overflow)

/-- A token that is a literal. -/
def parseLiteralAtom (t : Token) (lit : Ast.Literal) : ParserM Expr := do
  let _ ← bump
  return .mk (.literal lit) t.span

def parseNameAtom (t : Token) (name : Text) : ParserM Expr := do
  let _ ← bump
  let next ← peek
  if next.kind = .walrus then
    fail (.droppedByConstitution "walrus :=" (t.span.merge next.span)
      (some "split into separate `let` and use: `let x = …; if x: …`"))
  else return .mk (.name name) t.span

def parseAtom : ParserM Expr := do
  let t ← peek
  match t.kind with
  | .int s => parseLiteralAtom t (.int s)
  | .float s => parseLiteralAtom t (.float s)
  | .imag s => parseLiteralAtom t (.imag s)
  | .str value _ => parseLiteralAtom t (.str value)
  | .bytes value _ => parseLiteralAtom t (.bytes value)
  | .fString pieces => do
    let _ ← bump
    let parts ← fstringPiecesToParts d u ov t.span pieces
    return .mk (.fString parts) t.span
  | .kwTrue => parseLiteralAtom t (.bool true)
  | .kwFalse => parseLiteralAtom t (.bool false)
  | .kwNone => parseLiteralAtom t .none
  | .ident name => parseNameAtom t name
  | .lParen => deeper (parseParenExpr d)
  | .lBracket => parseBracketExpr d
  | .lBrace => parseBraceExpr d
  | other => failText ("unexpected token " ++ other.classify ++ " in expression") t.span none

def parsePostfix : ParserM Expr := do
  let e ← parseAtom d u ov
  turns d (postfixTurn d) e

def parseUnary : ParserM Expr := do
  let t ← peek
  match t.kind with
  | .kwNot => parsePrefix d t.span precNot (.unary .not)
  | .plus => parsePrefix d t.span 100 (.unary .plus)
  | .minus => parsePrefix d t.span 100 (.unary .neg)
  | .tilde => parsePrefix d t.span 100 (.unary .bitNot)
  | .amp => parseBorrow d t.span
  | .kwAwait => parsePrefix d t.span 100 .await
  | .kwYield => parseYield d t.span
  | .kwLambda => parseLambda d
  | _ => parsePostfix d u ov

def parsePrattInner (min : Prec) : ParserM Expr := do
  let lhs ← parseUnary d u ov
  turns d (prattTurn d min) lhs

def parsePratt (min : Prec) : ParserM Expr :=
  deeper (parsePrattInner d u ov min)

def parseExpr : ParserM Expr := do
  let thenBranch ← d.parsePratt 0
  if (← peekKind) = .kwIf then
    let _ ← bump
    let cond ← d.parsePratt 0
    let _ ← expect .kwElse
    let elseBranch ← d.parseExpr
    return .mk (.ifExpr cond thenBranch elseBranch) (thenBranch.span.merge elseBranch.span)
  else return thenBranch

end Descending

end Cobrust.Frontend.Parser
