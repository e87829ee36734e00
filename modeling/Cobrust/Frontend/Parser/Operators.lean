import Cobrust.Frontend.Parser.Ahead

/-!
# The operator table

Expressions of operators as trees, and their tokens, with the parentheses that the table in the header of
`cobrust-frontend/src/parser.rs` asks for.
-/

namespace Cobrust.Frontend

open Ast Control

def noSpan : Span :=
  ⟨0, 0, 0⟩

namespace Ast

mutual

/-- The type without its spans. -/
def TypeExpr.erase : TypeExpr → TypeExpr
  | .mk kind _ => .mk kind.erase noSpan

def TypeKind.erase : TypeKind → TypeKind
  | .name path => .name path
  | .generic base args => .generic base (eraseTypes args)
  | .union parts => .union (eraseTypes parts)
  | .fn params returnType => .fn (eraseTypes params) returnType.erase
  | .tuple elems => .tuple (eraseTypes elems)
  | .ref inner => .ref inner.erase
  | .array elem len => .array elem.erase len

def eraseTypes : List TypeExpr → List TypeExpr
  | [] => []
  | t :: ts => t.erase :: eraseTypes ts

end

def BinOp.prec : BinOp → Nat
  | .pow => 95
  | .mul | .div | .floorDiv | .mod | .matMul => 90
  | .add | .sub => 85
  | .shl | .shr => 80
  | .bitAnd => 75
  | .bitXor => 70
  | .bitOr => 65
  | .lt | .ltEq | .gt | .gtEq | .eq | .notEq | .isIn | .notIn => 60
  | .and => 45
  | .or => 40

def BinOp.rightAssoc : BinOp → Bool
  | .pow => true
  | _ => false

/-- What the left operand has to bind with. -/
def BinOp.leftMin (op : BinOp) : Nat :=
  if op.rightAssoc then op.prec + 1 else op.prec

def BinOp.rightMin (op : BinOp) : Nat :=
  if op.rightAssoc then op.prec else op.prec + 1

def BinOp.kinds : BinOp → List TokenKind
  | .add => [.plus]
  | .sub => [.minus]
  | .mul => [.star]
  | .matMul => [.at]
  | .div => [.slash]
  | .floorDiv => [.slashSlash]
  | .mod => [.percent]
  | .pow => [.starStar]
  | .shl => [.shl]
  | .shr => [.shr]
  | .bitAnd => [.amp]
  | .bitOr => [.pipe]
  | .bitXor => [.caret]
  | .eq => [.eqEq]
  | .notEq => [.notEq]
  | .lt => [.lt]
  | .ltEq => [.ltEq]
  | .gt => [.gt]
  | .gtEq => [.gtEq]
  | .and => [.kwAnd]
  | .or => [.kwOr]
  | .isIn => [.kwIn]
  | .notIn => [.kwNot, .kwIn]

/-- A sign binds tighter than every operator, `not` looser than a comparison. -/
def UnaryOp.prec : UnaryOp → Nat
  | .not => 50
  | _ => 100

def UnaryOp.kind : UnaryOp → TokenKind
  | .plus => .plus
  | .neg => .minus
  | .bitNot => .tilde
  | .not => .kwNot

end Ast

/-! ## Trees -/

/-- A token that is an expression. -/
inductive Atom where
  | name (s : Text)
  | int (s : Text)
  | float (s : Text)
  | imag (s : Text)
  | str (value : Text) (strPrefix : StrPrefix)
  | bytes (value : List UInt8) (strPrefix : StrPrefix)
  | bool (b : Bool)
  | none

def Atom.kind : Atom → TokenKind
  | .name s => .ident s
  | .int s => .int s
  | .float s => .float s
  | .imag s => .imag s
  | .str value strPrefix => .str value strPrefix
  | .bytes value strPrefix => .bytes value strPrefix
  | .bool true => .kwTrue
  | .bool false => .kwFalse
  | .none => .kwNone

def Atom.expr : Atom → ExprKind
  | .name s => .name s
  | .int s => .literal (.int s)
  | .float s => .literal (.float s)
  | .imag s => .literal (.imag s)
  | .str value _ => .literal (.str value)
  | .bytes value _ => .literal (.bytes value)
  | .bool b => .literal (.bool b)
  | .none => .literal .none

/-- The type of a cast, with its tokens. -/
structure CastTarget where
  kinds : List TokenKind
  type : TypeExpr

/-- An expression of operators; it may have more parentheses than it needs. -/
inductive OpTree where
  | atom (a : Atom)
  | paren (inner : OpTree)
  | unary (op : UnaryOp) (operand : OpTree)
  | binary (op : BinOp) (lhs rhs : OpTree)
  | cast (operand : OpTree) (target : CastTarget)
  | ternary (thenBranch cond elseBranch : OpTree)

namespace OpTree

def prec : OpTree → Nat
  | .atom _ => 110
  | .paren _ => 110
  | .unary op _ => op.prec
  | .binary op _ _ => op.prec
  | .cast _ _ => 88
  | .ternary _ _ _ => 0

def parens (needed : Prop) [Decidable needed] (ks : List TokenKind) : List TokenKind :=
  if needed then .lParen :: (ks ++ [.rParen]) else ks

/-- The tokens of an expression; an operand that binds looser than it has to is put in parentheses. -/
def kinds : OpTree → List TokenKind
  | .atom a => [a.kind]
  | .paren inner => .lParen :: (inner.kinds ++ [.rParen])
  | .unary op operand => op.kind :: parens (operand.prec < op.prec) operand.kinds
  | .binary op lhs rhs => parens (lhs.prec < op.leftMin) lhs.kinds ++ (op.kinds ++
      parens (rhs.prec < op.rightMin) rhs.kinds)
  | .cast operand target => parens (operand.prec < 88) operand.kinds ++ (.kwAs :: target.kinds)
  | .ternary thenBranch cond elseBranch => parens (thenBranch.prec < 1) thenBranch.kinds ++
      (.kwIf :: (parens (cond.prec < 1) cond.kinds ++ (.kwElse :: elseBranch.kinds)))

/-- The expression that a parser should read, whatever its spans. -/
inductive Denotes : OpTree → Expr → Prop where
  | atom (a : Atom) (span : Span) : Denotes (.atom a) (.mk a.expr span)
  | paren {inner : OpTree} {kind : ExprKind} {span span' : Span} :
      Denotes inner (.mk kind span) → Denotes (.paren inner) (.mk kind span')
  | unary {op : UnaryOp} {operand : OpTree} {e : Expr} {span : Span} :
      Denotes operand e → Denotes (.unary op operand) (.mk (.unary op e) span)
  | binary {op : BinOp} {lhs rhs : OpTree} {l r : Expr} {span : Span} :
      Denotes lhs l → Denotes rhs r → Denotes (.binary op lhs rhs) (.mk (.binary op l r) span)
  | cast {operand : OpTree} {target : CastTarget} {e : Expr} {type : TypeExpr} {span : Span} :
      Denotes operand e → type.erase = target.type.erase → Denotes (.cast operand target) (.mk (.cast e type) span)
  | ternary {thenBranch cond elseBranch : OpTree} {t c e : Expr} {span : Span} :
      Denotes thenBranch t → Denotes cond c → Denotes elseBranch e →
        Denotes (.ternary thenBranch cond elseBranch) (.mk (.ifExpr c t e) span)

/-- The levels of nesting that the parser takes. -/
def levels : OpTree → Nat
  | .atom _ => 1
  | .paren inner => inner.levels + 2
  | .unary op operand => (if operand.prec < op.prec then operand.levels + 2 else operand.levels) + 1
  | .binary op lhs rhs => max (if lhs.prec < op.leftMin then lhs.levels + 2 else lhs.levels)
      ((if rhs.prec < op.rightMin then rhs.levels + 2 else rhs.levels) + 1)
  | .cast operand _ => if operand.prec < 88 then operand.levels + 2 else operand.levels
  | .ternary thenBranch cond elseBranch => max (if thenBranch.prec < 1 then thenBranch.levels + 2 else thenBranch.levels)
      (max (if cond.prec < 1 then cond.levels + 2 else cond.levels) elseBranch.levels)

/-- The last token of the expression is one of a cast's type. -/
def endsInType : OpTree → Prop
  | .atom _ => False
  | .paren _ => False
  | .unary op operand => ¬ operand.prec < op.prec ∧ operand.endsInType
  | .binary op _ rhs => ¬ rhs.prec < op.rightMin ∧ rhs.endsInType
  | .cast _ _ => True
  | .ternary _ _ elseBranch => elseBranch.endsInType

end OpTree

/-- A kind behind which a type goes on. -/
def goesOnType : TokenKind → Bool
  | .dot | .lBracket | .pipe => true
  | _ => false

section Supported

variable (u : Unicode) (ov : Overflow)

/-- The type parser reads the kinds as the type, if they begin with the word of a type that is known behind `as`. -/
structure CastTarget.Supported (target : CastTarget) : Prop where
  word : ∃ k ks, target.kinds = k :: ks ∧ Parser.isCastTypeToken k = true
  reads : ∃ levels, ∀ n, levels ≤ n → ∀ k ks depth, goesOnType k = false →
    Gives (Parser.Ahead (target.kinds ++ (k :: ks)) depth) (Parser.descent u ov n).parseType
      fun type p => type.erase = target.type.erase ∧ Parser.Ahead (k :: ks) depth p

/-- No `not in`; the casts are to types that are known behind `as`, and no `|` follows a type. -/
def OpTree.Supported : OpTree → Prop
  | .atom _ => True
  | .paren inner => inner.Supported
  | .unary _ operand => operand.Supported
  | .binary op lhs rhs => op ≠ .notIn ∧ (op = .bitOr → ¬ lhs.prec < op.leftMin → ¬ lhs.endsInType) ∧ lhs.Supported ∧
      rhs.Supported
  | .cast operand target => operand.Supported ∧ target.Supported u ov
  | .ternary thenBranch cond elseBranch => thenBranch.Supported ∧ cond.Supported ∧ elseBranch.Supported

end Supported

end Cobrust.Frontend
