import Cobrust.Text.Split
import Cobrust.Types.Ty

/-!
# Tokens and syntax trees

`cobrust-frontend/src/token.rs` with the errors of the lexer, and `cobrust-frontend/src/ast.rs`.
-/

/-! ## Tokens -/

namespace Cobrust.Frontend

structure StrPrefix where
  raw : Bool
  bytes : Bool
  deriving DecidableEq, Repr

inductive FStringPiece where
  | lit (s : Text)
  | expr (source : Text) (debugEquals : Bool) (formatSpec : Option Text)
  deriving DecidableEq, Repr

/-- Literals keep their text. -/
inductive TokenKind where
  | ident (name : Text)
  | int (text : Text)
  | float (text : Text)
  | imag (text : Text)
  | str (value : Text) (strPrefix : StrPrefix)
  | bytes (value : List UInt8) (strPrefix : StrPrefix)
  | fString (pieces : List FStringPiece)
  | kwAnd | kwAs | kwAwait | kwBreak | kwCase | kwClass | kwContinue | kwElif | kwElse | kwExcept
  | kwFalse | kwFinally | kwFn | kwFor | kwFrom | kwIf | kwImport | kwIn | kwLambda | kwLet | kwMatch
  | kwNone | kwNot | kwOr | kwPass | kwRaise | kwReturn | kwTrue | kwTry | kwType | kwWhile | kwWith
  | kwYield
  | lParen | rParen | lBracket | rBracket | lBrace | rBrace
  | comma | colon | semicolon | dot | dotDotDot | arrow | at | eq | walrus
  | plus | minus | star | starStar | slash | slashSlash | percent | amp | pipe | caret | tilde
  | shl | shr | eqEq | notEq | lt | ltEq | gt | gtEq
  | plusEq | minusEq | starEq | starStarEq | slashEq | slashSlashEq | percentEq | ampEq | pipeEq
  | caretEq | shlEq | shrEq
  | underscore
  | newline | indent | dedent | eof
  deriving DecidableEq, Repr

structure Token where
  kind : TokenKind
  span : Span
  deriving DecidableEq, Repr

inductive LexError where
  | invalidUtf8 (byteOffset : Nat)
  | unexpectedChar (ch : Char) (span : Span)
  | unterminatedString (span : Span)
  | unterminatedFString (span : Span)
  | malformedNumber (span : Span)
  | inconsistentIndent (span : Span)
  | invalidEscape (span : Span)
  deriving DecidableEq, Repr

end Cobrust.Frontend

/-!
## Syntax trees

Names are texts, and numbers keep their spelling.
-/

namespace Cobrust.Frontend.Ast

inductive BreakKind where
  | breaks
  | continues
  deriving DecidableEq, Repr

inductive AssignOp where
  | eq | plusEq | minusEq | starEq | starStarEq | slashEq | slashSlashEq | percentEq | ampEq | pipeEq
  | caretEq | shlEq | shrEq
  deriving DecidableEq, Repr

inductive BinOp where
  | add | sub | mul | matMul | div | floorDiv | mod | pow | shl | shr | bitAnd | bitOr | bitXor
  | eq | notEq | lt | ltEq | gt | gtEq | and | or | isIn | notIn
  deriving DecidableEq, Repr

inductive UnaryOp where
  | plus | neg | bitNot | not
  deriving DecidableEq, Repr

inductive ComprehensionKind where
  | list | set | dict | generator
  deriving DecidableEq, Repr

inductive Literal where
  | int (text : Text)
  | float (text : Text)
  | imag (text : Text)
  | str (value : Text)
  | bytes (value : List UInt8)
  | bool (b : Bool)
  | none
  deriving DecidableEq, Repr

mutual

/-- A type annotation. -/
inductive TypeExpr where
  | mk (kind : TypeKind) (span : Span)

inductive TypeKind where
  | name (path : List Text)
  | generic (base : List Text) (args : List TypeExpr)
  | union (parts : List TypeExpr)
  | fn (params : List TypeExpr) (returnType : TypeExpr)
  | tuple (elems : List TypeExpr)
  | ref (inner : TypeExpr)
  | array (elem : TypeExpr) (len : Nat)

end

def TypeExpr.kind : TypeExpr → TypeKind
  | .mk kind _ => kind

def TypeExpr.span : TypeExpr → Span
  | .mk _ span => span

structure Param where
  name : Text
  annot : Option TypeExpr
  default : Option Literal
  span : Span

structure Params where
  positional : List Param
  varPositional : Option Param
  keywordOnly : List Param
  varKeyword : Option Param

/-- `Params::default()`. -/
def Params.empty : Params := ⟨[], none, [], none⟩

/-! ## Expressions and patterns -/

mutual

inductive Pattern where
  | mk (kind : PatternKind) (span : Span)

inductive PatternKind where
  | wildcard
  | binding (name : Text)
  | literal (lit : Literal)
  | sequence (items : List Pattern) (rest : Option Pattern)
  | mapping (entries : List (Expr × Pattern)) (rest : Option Text)
  | classOf (base : List Text) (positional : List Pattern) (keyword : List (Text × Pattern))
  | or (alts : List Pattern)

inductive Expr where
  | mk (kind : ExprKind) (span : Span)

inductive ExprKind where
  | literal (lit : Literal)
  | fString (parts : List FStrPart)
  | name (name : Text)
  | collection (lit : CollectionLit)
  | comprehension (comp : Comprehension)
  | lambda (params : Params) (body : Expr)
  | call (callee : Expr) (args : List CallArg)
  | access (kind : AccessKind)
  | binary (op : BinOp) (lhs rhs : Expr)
  | unary (op : UnaryOp) (operand : Expr)
  | borrow (operand : Expr)
  | await (operand : Expr)
  | yield (value : Option Expr)
  | yieldFrom (value : Expr)
  | cast (expr : Expr) (target : TypeExpr)
  | ifExpr (cond thenBranch elseBranch : Expr)

inductive FStrPart where
  | lit (s : Text)
  | expr (expr : Expr) (debugEquals : Bool) (formatSpec : Option Text)

inductive CollectionLit where
  | tuple (elems : List Expr)
  | list (elems : List Expr)
  | set (elems : List Expr)
  | dict (entries : List DictEntry)

inductive DictEntry where
  | pair (key value : Expr)
  | spread (value : Expr)

inductive Comprehension where
  | mk (kind : ComprehensionKind) (element : ComprehensionElem) (clauses : List ComprehensionClause)

inductive ComprehensionElem where
  | single (expr : Expr)
  | keyValue (key value : Expr)

inductive ComprehensionClause where
  | mk (target : Pattern) (iter : Expr) (guards : List Expr)

inductive CallArg where
  | positional (expr : Expr)
  | keyword (name : Text) (expr : Expr)
  | starArgs (expr : Expr)
  | starStarKwargs (expr : Expr)

inductive AccessKind where
  | attribute (base : Expr) (name : Text)
  | index (base : Expr) (index : IndexKind)

inductive IndexKind where
  | expr (expr : Expr)
  | slice (start stop step : Option Expr)
  | tuple (items : List IndexKind)

end

def Pattern.span : Pattern → Span
  | .mk _ span => span

def Expr.kind : Expr → ExprKind
  | .mk kind _ => kind

def Expr.span : Expr → Span
  | .mk _ span => span

/-! ## Statements -/

inductive ImportTarget where
  | mk (name : Text) (asName : Option Text)

inductive ImportStmt where
  | importPath (path : List Text) (asName : Option Text)
  | fromPath (path : List Text) (targets : List ImportTarget)

structure TypeAlias where
  name : Text
  typeParams : List Text
  value : TypeExpr

structure WithItem where
  context : Expr
  target : Option Pattern

mutual

inductive Block where
  | mk (stmts : List Stmt) (span : Span)

inductive Stmt where
  | mk (kind : StmtKind) (span : Span)

inductive FnDef where
  | mk (name : Text) (params : Params) (returnType : Option TypeExpr) (body : Block)

inductive ClassDef where
  | mk (name : Text) (base : Option Expr) (traits : List TypeExpr) (body : Block)
      (fieldRefinements : List (Text × Expr))

inductive MatchArm where
  | mk (pattern : Pattern) (guard : Option Expr) (body : Block)

inductive ExceptHandler where
  | mk (excType : TypeExpr) (binding : Option Text) (body : Block)

inductive StmtKind where
  | importStmt (stmt : ImportStmt)
  | fnDef (d : FnDef)
  | classDef (d : ClassDef)
  | decorated (decorators : List Expr) (inner : Stmt)
  | typeAlias (d : TypeAlias)
  | letStmt (target : Pattern) (annot : Option TypeExpr) (value : Expr)
  | assign (target : Expr) (op : AssignOp) (value : Expr)
  | ifStmt (cond : Expr) (thenBlock : Block) (elifs : List (Expr × Block)) (elseBlock : Option Block)
  | whileStmt (cond : Expr) (body : Block) (elseBlock : Option Block)
  | forStmt (target : Pattern) (iter : Expr) (body : Block) (elseBlock : Option Block)
  | matchStmt (scrutinee : Expr) (arms : List MatchArm)
  | withStmt (items : List WithItem) (body : Block)
  | tryStmt (body : Block) (handlers : List ExceptHandler) (elseBlock finallyBlock : Option Block)
  | returnStmt (value : Option Expr)
  | breakContinue (kind : BreakKind)
  | raise (exc cause : Option Expr)
  | pass
  | expr (expr : Expr)

end

def Block.span : Block → Span
  | .mk _ span => span

def Stmt.span : Stmt → Span
  | .mk _ span => span

def FnDef.body : FnDef → Block
  | .mk _ _ _ body => body

def ClassDef.body : ClassDef → Block
  | .mk _ _ _ body _ => body

def MatchArm.body : MatchArm → Block
  | .mk _ _ body => body

def ExceptHandler.body : ExceptHandler → Block
  | .mk _ _ body => body

structure Module where
  docstring : Option Text
  items : List Stmt
  span : Span

end Cobrust.Frontend.Ast
