import Cobrust.Types.Ty

/-!
# The HIR tree

The data types of `cobrust-hir/src/tree.rs`: what name resolution and desugaring leave of a module.
Every name carries the definition it resolved to, and every literal still carries its source text.
-/

namespace Cobrust.Hir

/-- Literal values; a number keeps the text that the lexer read. -/
inductive Lit where
  | bool (b : Bool)
  | none
  | int (s : String)
  | float (s : String)
  | imag (s : String)
  | str (s : String)
  | bytes (b : List UInt8)
  deriving DecidableEq, Repr, Inhabited

inductive DefKind where
  | fn | «class» | typeAlias | param | letBinding | loopBinding | patternBinding | withBinding
  | importAlias | exceptBinding | typeParam
  deriving DecidableEq, Repr

/-- A name use after resolution. -/
structure ResolvedName where
  name : String
  defId : DefId
  kind : DefKind
  deriving DecidableEq, Repr

inductive BinOp where
  | add | sub | mul | matMul | div | floorDiv | mod | pow | shl | shr | bitAnd | bitOr | bitXor
  | eq | notEq | lt | ltEq | gt | gtEq | and | or | in | notIn
  deriving DecidableEq, Repr

inductive UnaryOp where
  | plus | neg | bitNot | not
  deriving DecidableEq, Repr

inductive CompKind where
  | list | set | dict | generator
  deriving DecidableEq, Repr

/-- Type annotations. The span of each node is kept beside its kind. -/
inductive TypeExpr where
  | name (path : List String) (span : Span)
  | generic (base : List String) (args : List TypeExpr) (span : Span)
  | union (items : List TypeExpr) (span : Span)
  | fn (params : List TypeExpr) (returnType : TypeExpr) (span : Span)
  | tuple (items : List TypeExpr) (span : Span)
  | ref (inner : TypeExpr) (span : Span)
  | array (elem : TypeExpr) (len : Nat) (span : Span)
  deriving Repr

structure Param where
  defId : DefId
  name : String
  annot : Option TypeExpr
  default : Option Lit
  span : Span
  deriving Repr

structure Params where
  positional : List Param
  varPositional : Option Param
  keywordOnly : List Param
  varKeyword : Option Param
  deriving Repr

structure CaptureSpec where
  name : String
  defId : DefId
  span : Span
  deriving Repr

mutual

/-- An expression: its kind and its span. -/
inductive Expr where
  | mk (kind : ExprKind) (span : Span)

inductive ExprKind where
  | lit (l : Lit)
  | format (parts : List FormatPart)
  | name (rn : ResolvedName)
  | tuple (items : List Expr)
  | list (items : List Expr)
  | set (items : List Expr)
  | dict (entries : List DictEntry)
  | comp (kind : CompKind) (element : CompElem) (clauses : List CompClause) (span : Span)
  | lambda (params : Params) (body : Expr) (captures : List CaptureSpec)
  | call (callee : Expr) (args : List CallArg)
  | attr (base : Expr) (name : String)
  | index (base : Expr) (index : IndexKind)
  | bin (op : BinOp) (lhs rhs : Expr)
  | un (op : UnaryOp) (operand : Expr)
  | borrow (inner : Expr)
  | await (inner : Expr)
  | yield (inner : Option Expr)
  | yieldFrom (inner : Expr)
  | cast (expr : Expr) (target : TypeExpr)
  | ifExpr (cond thenBranch elseBranch : Expr)

inductive FormatPart where
  | lit (s : String)
  | hole (expr : Expr) (debugEquals : Bool) (formatSpec : Option String)

inductive DictEntry where
  | pair (key value : Expr)
  | spread (expr : Expr)

inductive CompElem where
  | single (expr : Expr)
  | keyValue (key value : Expr)

inductive CompClause where
  | mk (bindingDefIds : List DefId) (target : Pattern) (iter : Expr) (guards : List Expr)

inductive CallArg where
  | positional (expr : Expr)
  | keyword (name : String) (expr : Expr)
  | starArgs (expr : Expr)
  | starStarKwargs (expr : Expr)

inductive IndexKind where
  | expr (e : Expr)
  | slice (start stop step : Option Expr)
  | tuple (items : List IndexKind)

/-- A pattern: its kind and its span. -/
inductive Pattern where
  | mk (kind : PatternKind) (span : Span)

inductive PatternKind where
  | wildcard
  | binding (name : String) (defId : DefId)
  | literal (l : Lit)
  | sequence (items : List Pattern) (rest : Option Pattern)
  | mapping (entries : List (Expr × Pattern)) (rest : Option (String × DefId))
  | «class» (base : List String) (positional : List Pattern) (keyword : List (String × Pattern))
  | or (branches : List Pattern)

end

def Expr.kind : Expr → ExprKind
  | mk kind _ => kind

def Expr.span : Expr → Span
  | mk _ span => span

def Pattern.kind : Pattern → PatternKind
  | mk kind _ => kind

def Pattern.span : Pattern → Span
  | mk _ span => span

/-- The expression of a call argument, whichever form it has. -/
def CallArg.value : CallArg → Expr
  | positional e => e
  | keyword _ e => e
  | starArgs e => e
  | starStarKwargs e => e

structure LetBody where
  defId : DefId
  pattern : Pattern
  annot : Option TypeExpr
  value : Expr
  span : Span

structure WithItem where
  context : Expr
  binding : Option (DefId × Pattern)
  span : Span

mutual

/-- A statement: its kind and its span. -/
inductive Stmt where
  | mk (kind : StmtKind) (span : Span)

inductive StmtKind where
  | «let» (body : LetBody)
  | assign (target value : Expr)
  | «if» (arms : List (Expr × Block)) (elseBlock : Option Block)
  | loop (kind : LoopKind)
  | «match» (scrutinee : Expr) (arms : List MatchArm)
  | «with» (item : WithItem) (body : Block)
  | «try» (body : Block) (handlers : List ExceptHandler) (elseBlock finallyBlock : Option Block)
  | «return» (value : Option Expr)
  | «break»
  | «continue»
  | raise (exc cause : Option Expr)
  | pass
  | expr (e : Expr)
  | item (it : Item)

inductive Block where
  | mk (stmts : List Stmt) (span : Span)

inductive LoopKind where
  | «while» (cond : Expr) (body : Block) (elseBlock : Option Block) (span : Span)
  | «for» (bindingDefIds : List DefId) (pattern : Pattern) (iter : Expr) (body : Block)
      (elseBlock : Option Block) (span : Span)

inductive MatchArm where
  | mk (pattern : Pattern) (bindingDefIds : List DefId) (guard : Option Expr) (body : Block)
      (span : Span)

inductive ExceptHandler where
  | mk (excType : TypeExpr) (binding : Option (DefId × String)) (body : Block) (span : Span)

inductive Item where
  | mk (kind : ItemKind) (span : Span)

inductive ItemKind where
  | «import» (defId : DefId) (path : List String) (localName : String) (fromName : Option String)
  | fn (body : FnBody)
  | «class» (defId : DefId) (name : String) (members : List Item) (span : Span)
  | typeAlias (defId : DefId) (name : String) (value : TypeExpr) (span : Span)
  | decorated (decorators : List Expr) (inner : Item)
  | «let» (body : LetBody)
  | exprStmt (e : Expr)

inductive FnBody where
  | mk (defId : DefId) (name : String) (params : Params) (body : Block) (span : Span)

end

def Block.stmts : Block → List Stmt
  | mk stmts _ => stmts

structure Module where
  items : List Item
  span : Span

end Cobrust.Hir
