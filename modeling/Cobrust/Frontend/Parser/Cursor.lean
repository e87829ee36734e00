import Cobrust.Control.Reading
import Cobrust.Frontend.Ast
import Cobrust.Frontend.Lexer

/-!
# The cursor of the parser

The state of the parser of `cobrust-frontend/src/parser.rs`, its errors, and the functions that read a
token. The functions of the parser call one another without end, so a function takes the functions it
calls as a `Descent`: the parser one level further down, which also bounds the turns of a loop.
-/

namespace Cobrust

def Span.merge (a b : Span) : Span :=
  ⟨a.file, min a.start b.start, max a.stop b.stop⟩

end Cobrust

namespace Cobrust.Frontend

open Ast Control

/-- The word of a keyword or an operator, and what stands for the other kinds. -/
def TokenKind.classify : TokenKind → String
  | .ident _ => "identifier"
  | .int _ => "integer literal"
  | .float _ => "float literal"
  | .imag _ => "imaginary literal"
  | .str _ _ => "string literal"
  | .bytes _ _ => "bytes literal"
  | .fString _ => "f-string literal"
  | .underscore => "`_`"
  | .newline => "newline"
  | .indent => "indent"
  | .dedent => "dedent"
  | .eof => "end of input"
  | kind => "`" ++ (((keywords ++ operators).find? fun k => k.2 = kind).map Prod.fst).getD "" ++ "`"

/-- The message of a syntax error; an error of the lexer stands for its own text. -/
inductive Message where
  | text (s : String)
  | lexError (e : LexError)

inductive ParseError where
  | expected (expected : List TokenKind) (found : TokenKind) (span : Span) (suggestion : Option String)
  | syntaxError (message : Message) (span : Span) (suggestion : Option String)
  | droppedByConstitution (name : String) (span : Span) (suggestion : Option String)
  | nonLiteralDefault (span : Span) (suggestion : Option String)
  | expressionTooDeep (depth max : Nat) (span : Span) (suggestion : Option String)

/-- Why there is no tree: a read outside of the tokens, an integer that does not fit, the bound on the
descent, or an error. -/
inductive ParseHalt where
  | panic
  | overflow
  | fuel
  | error (e : ParseError)

/-- A move of the cursor, or a turn of a loop that another one has followed. `eof` is where the first
`Eof` stands. -/
structure Move where
  start : Nat
  stop : Nat
  eof : Nat
  turn : Bool

/-- The cursor does not move backwards nor past `Eof`, and a turn consumes a token. -/
def Move.Forward (m : Move) : Prop :=
  m.start ≤ m.stop ∧ m.stop ≤ m.eof ∧ (m.turn = true → m.start < m.stop)

instance (m : Move) : Decidable m.Forward :=
  inferInstanceAs (Decidable (_ ∧ _ ∧ _))

/-- The state of a parser. `moves` only records what the cursor has done, the last move first. -/
structure Parser where
  toks : List Token
  pos : Nat
  depth : Nat
  inClassBody : Nat
  pendingFieldRefinements : List (Text × Expr)
  moves : List Move

abbrev ParserM : Type → Type := EStateM ParseHalt Parser

abbrev Prec := Nat

/-- The functions of the parser that others call again, one level further down. -/
structure Descent where
  fuel : Nat
  parseStmt : ParserM Stmt
  parseExpr : ParserM Expr
  parsePratt : Prec → ParserM Expr
  parseType : ParserM TypeExpr
  parseTypeAtom : ParserM TypeExpr
  parsePatternSimple : ParserM Pattern

namespace Parser

def new (toks : List Token) : Parser where
  toks := toks
  pos := 0
  depth := 0
  inClassBody := 0
  pendingFieldRefinements := []
  moves := []

def maxDepth : Nat := 50

/-- The token that is `off` tokens ahead. -/
def tokenAt (p : Parser) (off : Nat) : Option Token :=
  p.toks[min (p.pos + off) (p.toks.length - 1)]?

/-- Where the first `Eof` stands. -/
def eofIndex (toks : List Token) : Nat :=
  toks.findIdx fun t => t.kind = .eof

/-- `self.pos += 1`. -/
def step (p : Parser) : Parser :=
  { p with pos := p.pos + 1, moves := ⟨p.pos, p.pos + 1, eofIndex p.toks, false⟩ :: p.moves }

/-- A turn of a loop, from `p` to `p'`. -/
def markTurn (p p' : Parser) : Parser :=
  { p' with moves := ⟨p.pos, p'.pos, eofIndex p'.toks, true⟩ :: p'.moves }

/-! ## Tokens -/

def peekToken (off : Nat) : ParserM Token := fun p =>
  match p.tokenAt off with
  | some t => .ok t p
  | none => .error .panic p

def peek : ParserM Token :=
  peekToken 0

def peekKind : ParserM TokenKind := do
  return (← peek).kind

def peekAt (off : Nat) : ParserM TokenKind := do
  return (← peekToken off).kind

def currentSpan : ParserM Span := do
  return (← peek).span

def bump : ParserM Token := do
  let t ← peek
  modify fun p => if p.pos < p.toks.length - 1 then p.step else p
  return t

/-- `at`, for a kind that carries nothing. -/
def atKind (k : TokenKind) : ParserM Bool := do
  return (← peekKind) = k

def eat (k : TokenKind) : ParserM Bool := do
  if ← atKind k then
    let _ ← bump
    return true
  else return false

def fail {α : Type} (e : ParseError) : ParserM α :=
  throw (.error e)

/-- A syntax error with a text of its own. -/
def failText {α : Type} (message : String) (span : Span) (suggestion : Option String) : ParserM α :=
  fail (.syntaxError (.text message) span suggestion)

def expect (k : TokenKind) : ParserM Token := do
  if ← atKind k then bump
  else
    let t ← peek
    fail (.expected [k] t.kind t.span none)

/-- `if self.eat(k) { Some(m?) } else { None }`. -/
def optionally {α : Type} (k : TokenKind) (m : ParserM α) : ParserM (Option α) := do
  if ← eat k then
    let a ← m
    return some a
  else return none

def expectIdent : ParserM Text := do
  let t ← peek
  match t.kind with
  | .ident s => do
    let _ ← bump
    return s
  | .kwMatch => do
    let _ ← bump
    return "match".toList
  | other => fail (.expected [.ident []] other t.span (some "expected an identifier here"))

def isEos : TokenKind → Bool
  | .newline | .eof | .semicolon => true
  | _ => false

def expectEos : ParserM Unit := do
  let t ← peek
  match t.kind with
  | .newline | .semicolon => do
    let _ ← bump
    return ()
  | .eof => return ()
  | other =>
    failText ("expected end of statement, found " ++ other.classify) t.span
      (some "end the statement with a newline or `;`")

def checkExprDepth : ParserM Unit := fun p =>
  if maxDepth ≤ p.depth then
    (do
      let span ← currentSpan
      fail (.expressionTooDeep (p.depth + 1) maxDepth span
        (some "flatten nested parentheses or split into multiple statements"))) p
  else .ok () p

/-- A descent into an expression: the depth is checked, and put back behind it. -/
def deeper {α : Type} (m : ParserM α) : ParserM α := do
  checkExprDepth
  between (fun p => { p with depth := p.depth + 1 }) (fun p => { p with depth := p.depth - 1 }) m

section Loops

variable (d : Descent)

/-- A loop of the source. -/
def turns {β γ : Type} (body : β → ParserM (Turn β γ)) (b : β) : ParserM γ :=
  loop .fuel markTurn body (d.fuel + 1) b

def skipNewlines : ParserM Unit :=
  turns d (fun _ => do
    if (← peekKind) = .newline then
      modify step
      return .again ()
    else return .done ()) ()

/-- `while self.eat(k) { acc.push(m?) }`. -/
def whileEat {α : Type} (k : TokenKind) (m : ParserM α) (acc : List α) : ParserM (List α) :=
  turns d (fun acc => do
    if ← eat k then
      let a ← m
      return .again (acc ++ [a])
    else return .done acc) acc

/-- `while self.eat(&Comma) { if the list closes { break } acc.push(m?) }`. -/
def commaItems {α : Type} (close : TokenKind) (m : ParserM α) (acc : List α) : ParserM (List α) :=
  turns d (fun acc => do
    if ← eat .comma then
      if (← peekKind) = close then return .done acc
      else
        let a ← m
        return .again (acc ++ [a])
    else return .done acc) acc

def parseDottedName : ParserM (List Text) := do
  let first ← expectIdent
  whileEat d .dot expectIdent [first]

end Loops

end Parser

end Cobrust.Frontend
