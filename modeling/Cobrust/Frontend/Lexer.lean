import Cobrust.Frontend.Number
import Cobrust.Text.Utf8

/-!
# The lexer

`cobrust-frontend/src/lexer.rs`. The lexer walks over the bytes of a text with a hand-kept position, so
reads of bytes and of slices are the partial ones of the source, and a panic is an outcome of its own.
A function for one token returns the kind and the position behind it; `lexOneToken` pushes the token.
Identifier characters and the normal form of identifiers are parameters.
-/

namespace Cobrust.Frontend

/-- What a build does with an integer that does not fit. -/
inductive Overflow where
  | panics
  | wraps

/-- Why there are no tokens: a read outside of the source, an integer that does not fit, the bound on the
loops below, or an error. -/
inductive Halt where
  | panic
  | overflow
  | fuel
  | error (e : LexError)

def Overflow.u32 (ov : Overflow) (n : Nat) : Except Halt Nat :=
  if n < 2 ^ 32 then .ok n
  else
    match ov with
    | panics => .error .overflow
    | wraps => .ok (n % 2 ^ 32)

def Overflow.i32 (ov : Overflow) (n : Int) : Except Halt Int :=
  if -2 ^ 31 ≤ n ∧ n < 2 ^ 31 then .ok n
  else
    match ov with
    | panics => .error .overflow
    | wraps => .ok (n.bmod (2 ^ 32))

/-- The Unicode tables of the crates that the lexer uses. -/
structure Unicode where
  isXidStart : Char → Bool
  isXidContinue : Char → Bool
  nfkc : Text → Text

/-! ## Reading the source -/

structure Source where
  text : Text
  file : Nat

namespace Source

variable (s : Source)

def bytes : List Char := Text.bytes s.text

def len : Nat := s.bytes.length

/-- `peek_byte`, from the start of the source. -/
def byte (p : Nat) : Option Char :=
  s.bytes[p]?

/-- `self.bytes[p]`. -/
def index (p : Nat) : Except Halt Char :=
  match s.byte p with
  | some b => .ok b
  | none => .error .panic

/-- `&self.src[start..stop]`. -/
def slice (start stop : Nat) : Except Halt Text :=
  match Text.slice s.text start stop with
  | some text => .ok text
  | none => .error .panic

/-- `&self.src[p..]`. -/
def sliceFrom (p : Nat) : Except Halt Text :=
  match Text.dropBytes s.text p with
  | some rest => .ok rest
  | none => .error .panic

/-- A span, with positions narrowed to 32 bits and put in order. -/
def span (start stop : Nat) : Span :=
  let a := start % 2 ^ 32
  let b := stop % 2 ^ 32
  if a ≤ b then ⟨s.file, a, b⟩ else ⟨s.file, b, a⟩

def currentChar (p : Nat) : Except Halt Char := do
  match ← s.sliceFrom p with
  | [] => throw (.error (.invalidUtf8 (p % 2 ^ 32)))
  | ch :: _ => return ch

def startsWith (p : Nat) (needle : String) : Bool :=
  needle.toList.isPrefixOf (s.bytes.drop p)

/-- The two bytes behind `p` are quotes too. -/
def isTriple (p : Nat) (quote : Char) : Bool :=
  s.byte (p + 1) = some quote && s.byte (p + 2) = some quote

end Source

/-! ## Operators, words and numbers -/

/-- The operators, an operator before its prefixes. -/
def operators : List (String × TokenKind) :=
  [("(", .lParen), (")", .rParen), ("[", .lBracket), ("]", .rBracket), ("\x7b", .lBrace), ("\x7d", .rBrace),
   (",", .comma), (";", .semicolon), ("@", .at), ("~", .tilde),
   ("...", .dotDotDot), (".", .dot), (":=", .walrus), (":", .colon),
   ("+=", .plusEq), ("+", .plus), ("->", .arrow), ("-=", .minusEq), ("-", .minus),
   ("**=", .starStarEq), ("**", .starStar), ("*=", .starEq), ("*", .star),
   ("//=", .slashSlashEq), ("//", .slashSlash), ("/=", .slashEq), ("/", .slash),
   ("%=", .percentEq), ("%", .percent), ("&=", .ampEq), ("&", .amp), ("|=", .pipeEq), ("|", .pipe),
   ("^=", .caretEq), ("^", .caret),
   ("<<=", .shlEq), ("<<", .shl), ("<=", .ltEq), ("<", .lt),
   (">>=", .shrEq), (">>", .shr), (">=", .gtEq), (">", .gt),
   ("==", .eqEq), ("=", .eq), ("!=", .notEq)]

def keywords : List (String × TokenKind) :=
  [("and", .kwAnd), ("as", .kwAs), ("await", .kwAwait), ("break", .kwBreak), ("case", .kwCase),
   ("class", .kwClass), ("continue", .kwContinue), ("elif", .kwElif), ("else", .kwElse),
   ("except", .kwExcept), ("False", .kwFalse), ("finally", .kwFinally), ("fn", .kwFn), ("for", .kwFor),
   ("from", .kwFrom), ("if", .kwIf), ("import", .kwImport), ("in", .kwIn), ("lambda", .kwLambda),
   ("let", .kwLet), ("match", .kwMatch), ("None", .kwNone), ("not", .kwNot), ("or", .kwOr),
   ("pass", .kwPass), ("raise", .kwRaise), ("return", .kwReturn), ("True", .kwTrue), ("try", .kwTry),
   ("type", .kwType), ("while", .kwWhile), ("with", .kwWith), ("yield", .kwYield)]

def matchKeyword (word : Text) : Option TokenKind :=
  (keywords.find? fun k => k.1.toList = word).map Prod.snd

/-- `r`, `b`, `f`, `rb`, `br`, `rf` and `fr`, in any case of their letters. -/
def isStringPrefix (word : Text) : Bool :=
  ["r", "b", "f", "rb", "br", "rf", "fr"].any fun p => word.map Char.toLower = p.toList

def parseStrPrefix (word : Text) : StrPrefix where
  raw := word.any fun c => c = 'r' || c = 'R'
  bytes := word.any fun c => c = 'b' || c = 'B'

/-- A prefix that makes an f-string. -/
def isFStringPrefix (word : Text) : Bool :=
  ["f", "rf", "fr"].any fun p => word.map Char.toLower = p.toList

/-- The last token can be the receiver of a projection. -/
def completesPostfix : Option TokenKind → Bool
  | some (.ident _) | some (.int _) | some .rParen | some .rBracket | some (.str _ _)
  | some (.bytes _ _) => true
  | _ => false

section Tokens

variable (s : Source)

def lexNumberToken (start : Nat) : Except Halt (TokenKind × Nat) := do
  let rest ← s.sliceFrom start
  match lexNumber s.file start rest with
  | .error (.malformedNumber span) => .error (.error (.malformedNumber (s.span start span.stop)))
  | .error e => .error (.error e)
  | .ok (tok, _) => .ok (tok.kind.token, tok.span.stop)

/-! ## Strings -/

/-- What a string literal has become, up to `pos`. -/
structure StrBody where
  pos : Nat
  value : Text
  bytesValue : List UInt8

/-- Push a character; a bytes literal takes its bytes. -/
def StrBody.push (pre : StrPrefix) (body : StrBody) (c : Char) (width : Nat) : StrBody :=
  if pre.bytes then ⟨body.pos + width, body.value, body.bytesValue ++ String.utf8EncodeChar c⟩
  else ⟨body.pos + width, body.value ++ [c], body.bytesValue⟩

def hexValue (c : Char) : Nat :=
  if c.isDigit then c.toNat - '0'.toNat
  else if 'a' ≤ c ∧ c ≤ 'f' then c.toNat - 'a'.toNat + 10
  else c.toNat - 'A'.toNat + 10

def isHexDigit (c : Char) : Bool :=
  c.isDigit || ('a' ≤ c && c ≤ 'f') || ('A' ≤ c && c ≤ 'F')

/-- The value of the next `n` bytes, where they are hexadecimal digits. -/
def readHex (p n : Nat) : Option Nat :=
  let digits := (s.bytes.drop p).take n
  if digits.length = n && digits.all isHexDigit then
    some (digits.foldl (fun v c => v * 16 + hexValue c) 0)
  else none

/-- The escapes of one character. -/
def simpleEscape : Char → Option Char
  | '\\' => some '\\'
  | '\'' => some '\''
  | '"' => some '"'
  | 'n' => some '\n'
  | 't' => some '\t'
  | 'r' => some '\r'
  | '0' => some '\x00'
  | _ => none

def invalidEscape {α : Type} (start stop : Nat) : Except Halt α :=
  .error (.error (.invalidEscape (s.span start stop)))

def unterminated {α : Type} (start stop : Nat) : Except Halt α :=
  .error (.error (.unterminatedString (s.span start stop)))

/-- An escape; `body.pos` is at its backslash. -/
def lexEscape (start : Nat) (pre : StrPrefix) (body : StrBody) : Except Halt StrBody :=
  let p := body.pos + 1
  match s.byte p with
  | none => unterminated s start p
  | some '\n' => .ok { body with pos := p + 1 }
  | some 'x' =>
    match readHex s (p + 1) 2 with
    | none => invalidEscape s body.pos (p + 1)
    | some v =>
      if pre.bytes then .ok ⟨p + 3, body.value, body.bytesValue ++ [UInt8.ofNat v]⟩
      else .ok ⟨p + 3, body.value ++ [Char.ofNat v], body.bytesValue⟩
  | some 'u' =>
    match readHex s (p + 1) 4 with
    | none => invalidEscape s body.pos (p + 1)
    | some v =>
      if pre.bytes ∨ ¬ v.isValidChar then invalidEscape s body.pos (p + 5)
      else .ok ⟨p + 5, body.value ++ [Char.ofNat v], body.bytesValue⟩
  | some c =>
    match simpleEscape c with
    | some r => .ok (body.push pre r 2)
    | none => invalidEscape s body.pos p

/-- The loop over the body of a string. -/
def lexStringBody (start : Nat) (pre : StrPrefix) (quote : Char) (triple : Bool) :
    Nat → StrBody → Except Halt StrBody
  | 0, _ => .error .fuel
  | fuel + 1, body =>
    match s.byte body.pos with
    | none => unterminated s start body.pos
    | some b =>
      if !triple && (b = '\n' || b = '\r') then unterminated s start body.pos
      else if b = quote then
        if triple && s.isTriple body.pos quote then .ok { body with pos := body.pos + 3 }
        else if !triple then .ok { body with pos := body.pos + 1 }
        else lexStringBody start pre quote triple fuel (body.push pre b 1)
      else if b = '\\' && !pre.raw then do
        lexStringBody start pre quote triple fuel (← lexEscape s start pre body)
      else do
        let ch ← s.currentChar body.pos
        lexStringBody start pre quote triple fuel (body.push pre ch ch.utf8Size)

/-- `lex_string`, with `p` at the quote. -/
def lexString (start p : Nat) (pre : StrPrefix) : Except Halt (TokenKind × Nat) := do
  let quote ← s.index p
  let triple := s.isTriple p quote
  let body ← lexStringBody s start pre quote triple (s.len + 1) ⟨p + if triple then 3 else 1, [], []⟩
  return (if pre.bytes then .bytes body.bytesValue pre else .str body.value pre, body.pos)

/-! ## F-strings -/

variable (ov : Overflow)

/-- The length of a format specification: up to the brace that closes the interpolation. -/
def specLength : List Char → Int → Except Halt Nat
  | [], _ => .ok 0
  | c :: rest, depth => do
    if c = '\x7b' then
      return 1 + (← specLength rest (← ov.i32 (depth + 1)))
    else if c = '\x7d' then
      if depth = 0 then return 0 else return 1 + (← specLength rest (← ov.i32 (depth - 1)))
    else return 1 + (← specLength rest depth)

/-- Where the scan of an interpolation stands. -/
structure Interp where
  pos : Nat
  depth : Int
  inStr : Option Char
  debugEquals : Bool

/-- What the scan of an interpolation ends with. -/
structure InterpEnd where
  pos : Nat
  depth : Int
  piece : Option FStringPiece

def unterminatedFString {α : Type} (start stop : Nat) : Except Halt α :=
  .error (.error (.unterminatedFString (s.span start stop)))

/-- The format specification behind a colon at `i.pos`. -/
def lexFormatSpec (start interpStart : Nat) (i : Interp) : Except Halt InterpEnd := do
  let source ← s.slice interpStart i.pos
  let specStart := i.pos + 1
  let specEnd := specStart + (← specLength ov (s.bytes.drop specStart) 0)
  if s.len ≤ specEnd then unterminatedFString s start specEnd
  else
    let spec ← s.slice specStart specEnd
    return ⟨specEnd + 1, 0, some (.expr (Text.trim source) i.debugEquals (some spec))⟩

/-- The loop over an interpolation, from behind its opening brace on. -/
def lexInterp (start interpStart : Nat) : Nat → Interp → Except Halt InterpEnd
  | 0, _ => .error .fuel
  | fuel + 1, i =>
    if s.len ≤ i.pos ∨ i.depth ≤ 0 then .ok ⟨i.pos, i.depth, none⟩
    else do
      let c ← s.index i.pos
      match i.inStr with
      | some q =>
        if c = '\\' then lexInterp start interpStart fuel { i with pos := min (i.pos + 2) s.len }
        else
          lexInterp start interpStart fuel
            { i with pos := i.pos + 1, inStr := if c = q then none else some q }
      | none =>
        if c = '\'' ∨ c = '"' then
          lexInterp start interpStart fuel { i with pos := i.pos + 1, inStr := some c }
        else if c = '\x7b' ∨ c = '(' ∨ c = '[' then
          lexInterp start interpStart fuel { i with pos := i.pos + 1, depth := ← ov.i32 (i.depth + 1) }
        else if c = ')' ∨ c = ']' then
          lexInterp start interpStart fuel { i with pos := i.pos + 1, depth := i.depth - 1 }
        else if c = '\x7d' then
          if i.depth = 1 then
            let source ← s.slice interpStart i.pos
            return ⟨i.pos + 1, 0, some (.expr (Text.trim source) i.debugEquals none)⟩
          else lexInterp start interpStart fuel { i with pos := i.pos + 1, depth := i.depth - 1 }
        else if c = ':' ∧ i.depth = 1 then lexFormatSpec s ov start interpStart i
        else if c = '=' ∧ i.depth = 1 ∧ s.byte (i.pos + 1) ≠ some '=' ∧ !i.debugEquals then
          lexInterp start interpStart fuel { i with pos := i.pos + 1, debugEquals := true }
        else
          let ch ← s.currentChar i.pos
          lexInterp start interpStart fuel { i with pos := i.pos + ch.utf8Size }

/-- What an f-string has become, up to `pos`. -/
structure FBody where
  pos : Nat
  pieces : List FStringPiece
  currentLit : Text

/-- The pieces, with the open literal at their end. -/
def FBody.flush (body : FBody) : List FStringPiece :=
  if body.currentLit = [] then body.pieces else body.pieces ++ [.lit body.currentLit]

def FBody.push (body : FBody) (c : Char) (width : Nat) : FBody :=
  ⟨body.pos + width, body.pieces, body.currentLit ++ [c]⟩

/-- The loop over the body of an f-string. -/
def lexFStringBody (start : Nat) (quote : Char) (triple : Bool) : Nat → FBody → Except Halt FBody
  | 0, _ => .error .fuel
  | fuel + 1, body =>
    match s.byte body.pos with
    | none => unterminated s start body.pos
    | some b =>
      if !triple && (b = '\n' || b = '\r') then unterminated s start body.pos
      else if b = quote then
        if triple && s.isTriple body.pos quote then .ok { body with pos := body.pos + 3 }
        else if !triple then .ok { body with pos := body.pos + 1 }
        else lexFStringBody start quote triple fuel (body.push b 1)
      else if b = '\x7b' ∧ s.byte (body.pos + 1) = some '\x7b' then
        lexFStringBody start quote triple fuel (body.push '\x7b' 2)
      else if b = '\x7d' ∧ s.byte (body.pos + 1) = some '\x7d' then
        lexFStringBody start quote triple fuel (body.push '\x7d' 2)
      else if b = '\x7b' then do
        let interp ← lexInterp s ov start (body.pos + 1) (s.len + 1) ⟨body.pos + 1, 1, none, false⟩
        if interp.depth ≠ 0 then unterminatedFString s start interp.pos
        else
          lexFStringBody start quote triple fuel
            ⟨interp.pos, body.flush ++ interp.piece.toList, []⟩
      else do
        let ch ← s.currentChar body.pos
        lexFStringBody start quote triple fuel (body.push ch ch.utf8Size)

/-- `lex_fstring`, with `p` at the quote. -/
def lexFString (start p : Nat) : Except Halt (TokenKind × Nat) := do
  let quote ← s.index p
  let triple := s.isTriple p quote
  let body ← lexFStringBody s ov start quote triple (s.len + 1) ⟨p + if triple then 3 else 1, [], []⟩
  return (.fString body.flush, body.pos)

variable (u : Unicode)

def isXidStart (ch : Char) : Bool :=
  ch.isAlpha || ch = '_' || u.isXidStart ch

def isXidContinue (ch : Char) : Bool :=
  ch.isAlphanum || ch = '_' || u.isXidContinue ch

/-- The end of the word that goes on at `p`. -/
def wordEnd (p : Nat) : Except Halt Nat := do
  let rest ← s.sliceFrom p
  return p + (Text.bytes (rest.takeWhile (isXidContinue u))).length

/-- A word that is no string prefix. -/
def wordKind (word : Text) : TokenKind :=
  if word = "inf".toList ∨ word = "nan".toList then .float word
  else (matchKeyword word).getD (.ident (u.nfkc word))

/-- `lex_word_or_string_with_prefix`. Whatever byte comes behind a `_`, it is taken for a continuation. -/
def lexWord (start : Nat) : Except Halt (TokenKind × Nat) := do
  let firstCh ← s.currentChar start
  if firstCh = '_' ∧ s.byte (start + 1) = none then return (.underscore, start + 1)
  else if !isXidStart u firstCh && firstCh ≠ '_' then
    throw (.error (.unexpectedChar firstCh (s.span start (start + firstCh.utf8Size))))
  else
    let stop ← wordEnd s u (start + firstCh.utf8Size)
    let word ← s.slice start stop
    if (s.byte stop = some '"' ∨ s.byte stop = some '\'') ∧ isStringPrefix word then
      if isFStringPrefix word then lexFString s ov start stop
      else lexString s start stop (parseStrPrefix word)
    else return (wordKind u word, stop)

/-- The kind of the token at `start`, and the position behind it. -/
def lexToken (last : Option TokenKind) (start : Nat) : Except Halt (TokenKind × Nat) := do
  let b ← s.index start
  if b = '.' && !s.startsWith start "..." && (s.byte (start + 1)).any Char.isDigit &&
      !completesPostfix last then
    lexNumberToken s start
  else
    match operators.find? fun op => s.startsWith start op.1 with
    | some op => return (op.2, start + op.1.length)
    | none =>
      if b = '!' then throw (.error (.unexpectedChar '!' (s.span start (start + 1))))
      else if b = '\'' ∨ b = '"' then lexString s start start ⟨false, false⟩
      else if b.isDigit then lexNumberToken s start
      else lexWord s ov u start

end Tokens

/-! ## Lines -/

/-- The state of the lexer; the top of the stack of indentations stands first. -/
structure Lexer where
  pos : Nat
  indents : List Nat
  atLineStart : Bool
  bracketDepth : Int
  lastEmittedNewline : Bool
  out : List Token

namespace Lexer

def new : Lexer where
  pos := 0
  indents := [0]
  atLineStart := true
  bracketDepth := 0
  lastEmittedNewline := true
  out := []

section Lines

variable (s : Source) (ov : Overflow) (u : Unicode)

def push (st : Lexer) (kind : TokenKind) (start stop : Nat) : Lexer :=
  { st with out := st.out ++ [⟨kind, s.span start stop⟩] }

/-- The white space at the start of a line. -/
structure Indent where
  pos : Nat
  spaces : Nat
  sawTab : Bool
  sawSpace : Bool

def scanIndent : List Char → Indent → Except Halt Indent
  | ' ' :: rest, i => do
    scanIndent rest { i with pos := i.pos + 1, spaces := ← ov.u32 (i.spaces + 1), sawSpace := true }
  | '\t' :: rest, i => do
    scanIndent rest { i with pos := i.pos + 1, spaces := ← ov.u32 ((i.spaces / 8 + 1) * 8), sawTab := true }
  | _, i => .ok i

/-- Close the indentations that are deeper than `spaces`. -/
def popIndents (spaces lineStart : Nat) : List Nat → Lexer → Except Halt Lexer
  | [], _ => .error .panic
  | top :: rest, st =>
    if spaces < top then popIndents spaces lineStart rest ({ st with indents := rest }.push s .dedent lineStart lineStart)
    else .ok { st with indents := top :: rest }

def inconsistentIndent {α : Type} (start stop : Nat) : Except Halt α :=
  .error (.error (.inconsistentIndent (s.span start stop)))

def handleLineStart (st : Lexer) : Except Halt Lexer := do
  let lineStart := st.pos
  let i ← scanIndent ov (s.bytes.drop st.pos) ⟨st.pos, 0, false, false⟩
  let st := { st with pos := i.pos }
  if i.sawTab && i.sawSpace then inconsistentIndent s lineStart i.pos
  else
    match s.byte i.pos with
    | none | some '\n' | some '\r' | some '#' => return st
    | some _ =>
      match st.indents.head? with
      | none => .error .panic
      | some current =>
        if current < i.spaces then
          return { { st with indents := i.spaces :: st.indents }.push s .indent lineStart i.pos with
            atLineStart := false }
        else
          let st ← popIndents s i.spaces lineStart st.indents st
          if st.indents.head? ≠ some i.spaces then inconsistentIndent s lineStart i.pos
          else return { st with atLineStart := false }

/-- The position behind the line feed, carriage return or both at `p`. -/
def consumeNewline (p : Nat) : Nat :=
  if s.byte p = some '\r' ∧ s.byte (p + 1) = some '\n' then p + 2 else p + 1

def emitNewlineIfNeeded (st : Lexer) : Lexer :=
  if st.lastEmittedNewline then st
  else { st.push s .newline st.pos st.pos with lastEmittedNewline := true }

/-- The bracket depth behind a token. -/
def depthAfter (kind : TokenKind) (depth : Int) : Except Halt Int :=
  match kind with
  | .lParen | .lBracket | .lBrace => ov.i32 (depth + 1)
  | .rParen | .rBracket | .rBrace => do return max (← ov.i32 (depth - 1)) 0
  | _ => .ok depth

def lexOneToken (st : Lexer) : Except Halt Lexer := do
  let (kind, stop) ← lexToken s ov u (st.out.getLast?.map Token.kind) st.pos
  let depth ← depthAfter ov kind st.bracketDepth
  return { { st with pos := stop, bracketDepth := depth }.push s kind st.pos stop with
    lastEmittedNewline := false }

/-- The end of the comment at `p`. -/
def commentEnd (p : Nat) : Nat :=
  p + ((s.bytes.drop p).takeWhile fun b => b ≠ '\n').length

/-- A newline outside of brackets ends the line. -/
def endLine (st : Lexer) : Lexer :=
  let st := { st with pos := consumeNewline s st.pos }
  if st.bracketDepth = 0 then { emitNewlineIfNeeded s st with atLineStart := true } else st

/-- What stands at the position. -/
def lexItem (st : Lexer) : Except Halt Lexer := do
  let b ← s.index st.pos
  if b = ' ' ∨ b = '\t' then return { st with pos := st.pos + 1 }
  else if b = '#' then return { st with pos := commentEnd s st.pos }
  else if b = '\\' ∧ s.byte (st.pos + 1) = some '\n' then return { st with pos := st.pos + 2 }
  else if b = '\\' ∧ s.byte (st.pos + 1) = some '\r' then
    return { st with pos := st.pos + if s.byte (st.pos + 2) = some '\n' then 3 else 2 }
  else if b = '\n' ∨ b = '\r' then return endLine s st
  else lexOneToken s ov u st

/-- One turn of the main loop. -/
def turn (st : Lexer) : Except Halt Lexer := do
  let st ← if st.atLineStart ∧ st.bracketDepth = 0 then handleLineStart s ov st else pure st
  if s.len ≤ st.pos then return st else lexItem s ov u st

def loop : Nat → Lexer → Except Halt Lexer
  | 0, _ => .error .fuel
  | fuel + 1, st => if st.pos < s.len then do loop fuel (← turn s ov u st) else .ok st

/-- Close every indentation at the end. -/
def flushIndents : List Nat → Lexer → Lexer
  | _ :: next :: rest, st =>
    flushIndents (next :: rest) ({ st with indents := next :: rest }.push s .dedent st.pos st.pos)
  | _, st => st

def finish (st : Lexer) : List Token :=
  let st := emitNewlineIfNeeded s st
  ((flushIndents s st.indents st).push s .eof st.pos st.pos).out

end Lines

end Lexer

def lex (u : Unicode) (ov : Overflow) (s : Source) : Except Halt (List Token) := do
  let st ← Lexer.loop s ov u (s.len + 1) .new
  return st.finish s

end Cobrust.Frontend
