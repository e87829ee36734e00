import Cobrust.Frontend.Parser.Cursor

/-!
# Types, parameters and patterns

The parts of `cobrust-frontend/src/parser.rs` that read annotations, literal defaults, parameter lists and
patterns.
-/

namespace Cobrust.Frontend.Parser

open Ast Control

def literalDefaultHelp : String :=
  "use a literal default (int / float / str / bool / None); mutable defaults are forbidden per CLAUDE.md §2.2"

def parseLiteralDefault : ParserM Ast.Literal := do
  let t ← peek
  match t.kind with
  | .int s => do
    let _ ← bump
    return .int s
  | .float s => do
    let _ ← bump
    return .float s
  | .imag s => do
    let _ ← bump
    return .imag s
  | .str value _ => do
    let _ ← bump
    return .str value
  | .bytes value _ => do
    let _ ← bump
    return .bytes value
  | .kwTrue => do
    let _ ← bump
    return .bool true
  | .kwFalse => do
    let _ ← bump
    return .bool false
  | .kwNone => do
    let _ ← bump
    return .none
  | .minus => do
    let _ ← bump
    match ← peekKind with
    | .int s => do
      let _ ← bump
      return .int ('-' :: s)
    | .float s => do
      let _ ← bump
      return .float ('-' :: s)
    | _ => fail (.nonLiteralDefault t.span (some literalDefaultHelp))
  | _ => fail (.nonLiteralDefault t.span (some literalDefaultHelp))

/-- `s.parse::<usize>()`. -/
def parseUsize (s : Text) : Option Nat :=
  let digits := if s.head? = some '+' then s.tail else s
  let value := digits.foldl (fun n c => n * 10 + (c.toNat - '0'.toNat)) 0
  if digits ≠ [] ∧ digits.all Char.isDigit ∧ value < 2 ^ 64 then some value else none

section Descending

variable (d : Descent)

/-- The loop behind the first part of a type; a union is built anew with every part. -/
def parseType : ParserM TypeExpr := do
  let t ← d.parseTypeAtom
  turns d (fun (acc : TypeExpr × List TypeExpr) => do
    if (← peekKind) = .pipe then
      let _ ← bump
      let next ← d.parseTypeAtom
      let last := (acc.2.getLast?.getD acc.1).span
      let parts := acc.2 ++ [next]
      return .again (.mk (.union parts) (last.merge next.span), parts)
    else return .done acc.1) (t, [t])

/-- `[T; N]`, behind the bracket. -/
def parseArrayType (start : Span) : ParserM TypeExpr := do
  let elem ← d.parseType
  let _ ← expect .semicolon
  let lenTok ← peek
  match lenTok.kind with
  | .int s =>
    match parseUsize s with
    | some len => do
      let _ ← bump
      let stop ← currentSpan
      let _ ← expect .rBracket
      return .mk (.array elem len) (start.merge stop)
    | none =>
      failText ("array length must be a non-negative integer literal, got `" ++ String.ofList s ++ "`")
        lenTok.span (some "use a non-negative integer literal for the array length")
  | _ =>
    failText "array type `[T; N]` expects an integer length after `;`" lenTok.span
      (some "supply an integer length: `[T; N]` where N is a non-negative int")

/-- The types up to `close`, which is not read. -/
def parseTypeItems (close : TokenKind) : ParserM (List TypeExpr) := do
  if (← peekKind) = close then return []
  else
    let first ← d.parseType
    commaItems d close d.parseType [first]

/-- A tuple type or a function type, behind the parenthesis. -/
def parseParenType (start : Span) : ParserM TypeExpr := do
  let params ← parseTypeItems d .rParen
  let _ ← expect .rParen
  if ← eat .arrow then
    let ret ← d.parseType
    return .mk (.fn params ret) (start.merge ret.span)
  else
    let stop ← currentSpan
    return .mk (.tuple params) (start.merge stop)

/-- A name, with the types it is applied to. -/
def parseNamedType (start : Span) : ParserM TypeExpr := do
  let path ← parseDottedName d
  if ← eat .lBracket then
    let args ← parseTypeItems d .rBracket
    let stop ← currentSpan
    let _ ← expect .rBracket
    return .mk (.generic path args) (start.merge stop)
  else
    let stop ← currentSpan
    return .mk (.name path) (start.merge stop)

def parseTypeAtom : ParserM TypeExpr := do
  let start ← currentSpan
  if (← peekKind) = .kwNone then
    let _ ← bump
    return .mk (.name ["None".toList]) start
  else if ← eat .amp then
    let inner ← d.parseTypeAtom
    return .mk (.ref inner) (start.merge inner.span)
  else if ← eat .lBracket then parseArrayType d start
  else if ← eat .lParen then parseParenType d start
  else parseNamedType d start

/-! ## Parameters -/

def parseOneParam : ParserM Param := do
  let start ← currentSpan
  let name ← expectIdent
  let annot ← optionally .colon d.parseType
  let default ← optionally .eq parseLiteralDefault
  let stop ← currentSpan
  return ⟨name, annot, default, start.merge stop⟩

def parseOneLambdaParam : ParserM Param := do
  let start ← currentSpan
  let name ← expectIdent
  let default ← optionally .eq parseLiteralDefault
  let stop ← currentSpan
  return ⟨name, none, default, start.merge stop⟩

def isIdent : TokenKind → Bool
  | .ident _ => true
  | _ => false

/-- A parameter, or a star with or without one. The flag says that a star has been read. -/
def paramTurn (one : ParserM Param) (acc : Params × Bool) : ParserM (Params × Bool) := do
  if (← peekKind) = .star then
    let _ ← bump
    if isIdent (← peekKind) then
      let p ← one
      return ({ acc.1 with varPositional := some p }, true)
    else return (acc.1, true)
  else if ← eat .starStar then
    let p ← one
    return ({ acc.1 with varKeyword := some p }, acc.2)
  else
    let p ← one
    if acc.2 then return ({ acc.1 with keywordOnly := acc.1.keywordOnly ++ [p] }, acc.2)
    else return ({ acc.1 with positional := acc.1.positional ++ [p] }, acc.2)

/-- The loop over parameters, up to a kind that closes the list behind a comma. -/
def paramList (one : ParserM Param) (closes : TokenKind → Bool) : ParserM Params :=
  turns d (fun acc => do
    let acc ← paramTurn one acc
    if ← eat .comma then
      if closes (← peekKind) then return .done acc.1 else return .again acc
    else return .done acc.1) (Params.empty, false)

def parseParamsNoParen : ParserM Params :=
  paramList d (parseOneParam d) fun k => k = .rParen || k = .colon

def parseParams : ParserM Params := do
  if (← peekKind) = .rParen then return .empty
  else parseParamsNoParen d

def parseLambdaParams : ParserM Params :=
  paramList d parseOneLambdaParam fun k => k = .colon

/-! ## Patterns -/

def parsePatternOr : ParserM Pattern := do
  let first ← d.parsePatternSimple
  if (← peekKind) = .pipe then
    let alts ← whileEat d .pipe d.parsePatternSimple [first]
    let last := (alts.getLast?.getD first).span
    return .mk (.or alts) (first.span.merge last)
  else return first

/-- The items up to a closing parenthesis or bracket, which is not read, and the last starred one. -/
def parsePatternSeq (terminator : TokenKind) : ParserM (List Pattern × Option Pattern) :=
  turns d (fun (acc : List Pattern × Option Pattern) => do
    let k ← peekKind
    if k = .rParen ∨ k = .rBracket ∨ k = terminator then return .done acc
    else if ← eat .star then
      let inner ← d.parsePatternSimple
      if ← eat .comma then return .again (acc.1, some inner) else return .done (acc.1, some inner)
    else
      let item ← d.parsePatternSimple
      if ← eat .comma then return .again (acc.1 ++ [item], acc.2) else return .done (acc.1 ++ [item], acc.2)) ([], none)

/-- A sequence pattern, behind its bracket. -/
def parseSequencePattern (start : Span) (terminator : TokenKind) : ParserM Pattern := do
  let seq ← parsePatternSeq d terminator
  let stop ← currentSpan
  let _ ← expect terminator
  return .mk (.sequence seq.1 seq.2) (start.merge stop)

/-- `IDENT =` comes next. -/
def atKeyword : ParserM Bool := do
  let k ← peekKind
  let next ← peekAt 1
  return isIdent k && next = .eq

/-- The arguments of a class pattern: the positional ones, and those with a name. -/
abbrev PatternArgs := List Pattern × List (Text × Pattern)

def parsePatternArg (acc : PatternArgs) : ParserM PatternArgs := do
  if ← atKeyword then
    let name ← expectIdent
    let _ ← bump
    let p ← d.parsePatternSimple
    return (acc.1, acc.2 ++ [(name, p)])
  else
    let p ← d.parsePatternSimple
    return (acc.1 ++ [p], acc.2)

def parsePatternArgs : ParserM PatternArgs := do
  if (← peekKind) = .rParen then return ([], [])
  else
    turns d (fun acc => do
      let acc ← parsePatternArg d acc
      if ← eat .comma then
        if (← peekKind) = .rParen then return .done acc else return .again acc
      else return .done acc) ([], [])

/-- A capture or a class pattern, behind its first name. -/
def parseNamedPattern (start : Span) (name : Text) : ParserM Pattern := do
  let path ← whileEat d .dot expectIdent [name]
  if (← peekKind) = .lParen then
    let _ ← bump
    let args ← parsePatternArgs d
    let stop ← currentSpan
    let _ ← expect .rParen
    return .mk (.classOf path args.1 args.2) (start.merge stop)
  else if path.length = 1 then return .mk (.binding name) start
  else return .mk (.classOf path [] []) start

/-- One turn over the entries of a mapping pattern. A starred name ends it. -/
def mappingTurn (acc : List (Expr × Pattern)) :
    ParserM (Turn (List (Expr × Pattern)) (List (Expr × Pattern) × Option Text)) := do
  if (← peekKind) = .rBrace then return .done (acc, none)
  else if ← eat .starStar then
    let name ← expectIdent
    return .done (acc, some name)
  else
    let key ← d.parseExpr
    let _ ← expect .colon
    let p ← d.parsePatternSimple
    if ← eat .comma then return .again (acc ++ [(key, p)]) else return .done (acc ++ [(key, p)], none)

/-- A mapping pattern, behind its brace. -/
def parseMappingPattern (start : Span) : ParserM Pattern := do
  let entries ← turns d (mappingTurn d) []
  let stop ← currentSpan
  let _ ← expect .rBrace
  return .mk (.mapping entries.1 entries.2) (start.merge stop)

def literalPattern (span : Span) : ParserM Pattern := do
  let lit ← parseLiteralDefault
  return .mk (.literal lit) span

def parsePatternSimple : ParserM Pattern := do
  let t ← peek
  match t.kind with
  | .underscore => do
    let _ ← bump
    return .mk .wildcard t.span
  | .ident name => do
    let _ ← bump
    parseNamedPattern d t.span name
  | .lParen => do
    let _ ← bump
    parseSequencePattern d t.span .rParen
  | .lBracket => do
    let _ ← bump
    parseSequencePattern d t.span .rBracket
  | .lBrace => do
    let _ ← bump
    parseMappingPattern d t.span
  | .int _ | .float _ | .imag _ | .str _ _ | .bytes _ _ | .kwTrue | .kwFalse | .kwNone | .minus => literalPattern t.span
  | other => failText ("invalid pattern start: " ++ other.classify) t.span none

/-- The target of a `for`: a pattern, or several without parentheses. -/
def parseForTarget : ParserM Pattern := do
  let first ← d.parsePatternSimple
  if (← peekKind) = .comma then
    let items ← commaItems d .kwIn d.parsePatternSimple [first]
    let last := (items.getLast?.getD first).span
    return .mk (.sequence items none) (first.span.merge last)
  else return first

end Descending

end Cobrust.Frontend.Parser
