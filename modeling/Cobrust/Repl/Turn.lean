import Cobrust.Frontend.Ast
import Cobrust.Repl.Eval
import Cobrust.Text.Utf8
import Cobrust.Types.CheckCtx

/-!
# Turns of the REPL

`Session::step` of `cobrust-cli/src/repl.rs`: the statements of an input are evaluated one by one into the bindings, and
the same input is checked into the type context beside that. The check is followed for inputs of plain statements:
`let` without an annotation, expressions and `pass`, over literals, names and operators.
-/

/-!
## The input

`is_input_incomplete`, `wrap_for_eval` and `wrap_for_typecheck_stmts`: whether an input still needs a line, and the two
texts that are parsed in its place.
-/

namespace Cobrust.Cli

def trimStart (s : Text) : Text :=
  s.dropWhile Text.isWhitespace

def trimEnd (s : Text) : Text :=
  (s.reverse.dropWhile Text.isWhitespace).reverse

def isBlank (s : Text) : Bool :=
  (Text.trim s).isEmpty

/-- The counters of the scan over the characters, and the quote of the string that it is in. -/
structure Brackets where
  paren : Int
  bracket : Int
  brace : Int
  inStr : Option Char
  prevBackslash : Bool

def Brackets.start : Brackets where
  paren := 0
  bracket := 0
  brace := 0
  inStr := none
  prevBackslash := false

def Brackets.next (s : Brackets) (c : Char) : Brackets :=
  match s.inStr with
  | some q =>
    { s with
      inStr := if !s.prevBackslash && c = q then none else some q
      prevBackslash := c = '\\' && !s.prevBackslash }
  | none =>
    let s := { s with prevBackslash := false }
    match c with
    | '"' => { s with inStr := some c }
    | '\'' => { s with inStr := some c }
    | '(' => { s with paren := s.paren + 1 }
    | ')' => { s with paren := s.paren - 1 }
    | '[' => { s with bracket := s.bracket + 1 }
    | ']' => { s with bracket := s.bracket - 1 }
    | '{' => { s with brace := s.brace + 1 }
    | '}' => { s with brace := s.brace - 1 }
    | _ => s

/-- A string or a bracket is left open. -/
def Brackets.isOpen (s : Brackets) : Bool :=
  s.inStr.isSome || 0 < s.paren || 0 < s.bracket || 0 < s.brace

/-- The bytes that a line is indented by. -/
def indentOf (line : Text) : Nat :=
  (Text.bytes line).length - (Text.bytes (trimStart line)).length

/-- The line ends with a colon, once its comment is cut off. -/
def opensBlock (line : Text) : Bool :=
  (trimEnd ((trimEnd line).takeWhile (· ≠ '#'))).getLast? = some ':'

/-- The last line that is not blank opens a block, and no line behind it is in the block. -/
def endsInOpener (input : Text) : Bool :=
  let behind := (Text.lines input).reverse.takeWhile isBlank
  match (Text.lines input).reverse.dropWhile isBlank with
  | [] => false
  | line :: _ => opensBlock line && !behind.any fun next => !isBlank next && indentOf line < indentOf next

def isInputIncomplete (input : Text) : Bool :=
  (input.foldl Brackets.next .start).isOpen || endsInOpener input

def wrapForEval (input : Text) : Text :=
  "fn _repl() -> i64:\n".toList ++ (Text.lines input).flatMap (fun line => "    ".toList ++ line ++ ['\n']) ++
    if isBlank input then "    pass\n".toList else "    return 0\n".toList

def wrapForTypecheckStmts (input : Text) : Text :=
  (Text.lines input).flatMap fun line => line ++ ['\n']

end Cobrust.Cli

namespace Cobrust.Cli

open Frontend (Ast.Stmt Ast.Expr Ast.Literal Ast.BinOp Ast.UnaryOp Ast.FStrPart Ast.Pattern Ast.Module)
open Store (Table)

/-- The floats of the evaluator; the texts that do not parse come with an error. -/
structure Floats (F : Type) where
  parse : Text → Except String F
  add : F → F → F
  sub : F → F → F
  mul : F → F → F
  div : F → F → F
  neg : F → F
  eq : F → F → Bool
  lt : F → F → Bool
  le : F → F → Bool

inductive Value (F : Type) where
  | int (n : BitVec 64)
  | float (f : F)
  | bool (b : Bool)
  | str (s : Text)
  | none

variable {F : Type}

def Value.typeName : Value F → String
  | .int _ => "i64"
  | .float _ => "f64"
  | .bool _ => "bool"
  | .str _ => "str"
  | .none => "None"

/-- The errors of the evaluator, each with what its message names. -/
inductive EvalError (F : Type) where
  | invalidInteger (literal : Text) (kind : Repl.IntErrorKind)
  | invalidFloat (literal : Text) (why : String)
  | bytesLiteral
  | imaginaryLiteral
  | interpolation
  | unbound (name : Text)
  | divisionByZero
  | moduloByZero
  | unsupportedBinary (op : Ast.BinOp) (l r : Value F)
  | unsupportedUnary (op : Ast.UnaryOp) (v : Value F)
  | expressionForm
  | destructuring
  | returnOutside
  | statementForm

variable (fl : Floats F)

def evalLiteral : Ast.Literal → Except (EvalError F) (Value F)
  | .int s =>
    match Repl.parseInteger s with
    | .ok n => .ok (.int (BitVec.ofNat 64 n))
    | .error kind => .error (.invalidInteger s kind)
  | .float s =>
    match fl.parse (s.filter (· != '_')) with
    | .ok f => .ok (.float f)
    | .error why => .error (.invalidFloat s why)
  | .str s => .ok (.str s)
  | .bool b => .ok (.bool b)
  | .none => .ok .none
  | .bytes _ => .error .bytesLiteral
  | .imag _ => .error .imaginaryLiteral

def valuesEq : Value F → Value F → Bool
  | .int x, .int y => x == y
  | .float x, .float y => fl.eq x y
  | .bool x, .bool y => x == y
  | .str x, .str y => x == y
  | .none, .none => true
  | _, _ => false

def evalBinary (op : Ast.BinOp) (l r : Value F) : Except (EvalError F) (Value F) :=
  match op, l, r with
  | .add, .int a, .int b => .ok (.int (a + b))
  | .sub, .int a, .int b => .ok (.int (a - b))
  | .mul, .int a, .int b => .ok (.int (a * b))
  | .div, .int a, .int b => if b = 0#64 then .error .divisionByZero else .ok (.int (a.sdiv b))
  | .mod, .int a, .int b => if b = 0#64 then .error .moduloByZero else .ok (.int (a.srem b))
  | .add, .float a, .float b => .ok (.float (fl.add a b))
  | .sub, .float a, .float b => .ok (.float (fl.sub a b))
  | .mul, .float a, .float b => .ok (.float (fl.mul a b))
  | .div, .float a, .float b => .ok (.float (fl.div a b))
  | .add, .str a, .str b => .ok (.str (a ++ b))
  | .eq, a, b => .ok (.bool (valuesEq fl a b))
  | .notEq, a, b => .ok (.bool (!valuesEq fl a b))
  | .lt, .int a, .int b => .ok (.bool (a.slt b))
  | .ltEq, .int a, .int b => .ok (.bool (a.sle b))
  | .gt, .int a, .int b => .ok (.bool (b.slt a))
  | .gtEq, .int a, .int b => .ok (.bool (b.sle a))
  | .lt, .float a, .float b => .ok (.bool (fl.lt a b))
  | .ltEq, .float a, .float b => .ok (.bool (fl.le a b))
  | .gt, .float a, .float b => .ok (.bool (fl.lt b a))
  | .gtEq, .float a, .float b => .ok (.bool (fl.le b a))
  | .and, .bool a, .bool b => .ok (.bool (a && b))
  | .or, .bool a, .bool b => .ok (.bool (a || b))
  | op, l, r => .error (.unsupportedBinary op l r)

def evalUnary (op : Ast.UnaryOp) (v : Value F) : Except (EvalError F) (Value F) :=
  match op, v with
  | .neg, .int n => .ok (.int (-n))
  | .neg, .float f => .ok (.float (fl.neg f))
  | .not, .bool b => .ok (.bool !b)
  | .plus, .int n => .ok (.int n)
  | .plus, .float f => .ok (.float f)
  | op, v => .error (.unsupportedUnary op v)

/-- The texts of an f-string one after another. -/
def joinParts : List Ast.FStrPart → Except (EvalError F) Text
  | [] => .ok []
  | .lit s :: parts => (joinParts parts).map (s ++ ·)
  | .expr _ _ _ :: _ => .error .interpolation

mutual

def evalExpr (bindings : Table Text (Value F)) : Ast.Expr → Except (EvalError F) (Value F)
  | .mk kind _ => evalKind bindings kind

def evalKind (bindings : Table Text (Value F)) : Frontend.Ast.ExprKind → Except (EvalError F) (Value F)
  | .literal lit => evalLiteral fl lit
  | .fString parts => (joinParts parts).map .str
  | .name name =>
    match bindings name with
    | some v => .ok v
    | none => .error (.unbound name)
  | .binary op lhs rhs => do
    let l ← evalExpr bindings lhs
    let r ← evalExpr bindings rhs
    evalBinary fl op l r
  | .unary op operand => do
    let v ← evalExpr bindings operand
    evalUnary fl op v
  | _ => .error .expressionForm

end

def Stmt.kind : Ast.Stmt → Frontend.Ast.StmtKind
  | .mk kind _ => kind

def isFn (st : Ast.Stmt) : Bool :=
  match Stmt.kind st with
  | .fnDef _ => true
  | _ => false

/-- `eval_stmt`: the bindings behind the statement, and the value to print. -/
def evalStmt (bindings : Table Text (Value F)) (st : Ast.Stmt) :
    Except (EvalError F) (Table Text (Value F) × Option (Value F)) :=
  match Stmt.kind st with
  | .letStmt target _ value => do
    let v ← evalExpr fl bindings value
    match target with
    | .mk (.binding n) _ => return (bindings.insert n v, none)
    | _ => throw .destructuring
  | .expr e => do
    let v ← evalExpr fl bindings e
    return (bindings, some v)
  | .pass => return (bindings, none)
  | .returnStmt _ => throw .returnOutside
  | _ => throw .statementForm

/-- The loop over the statements; it ends at the first error, unless a function definition has it. -/
def evalStmts : List Ast.Stmt → Table Text (Value F) → List (Value F) →
    Table Text (Value F) × Except (EvalError F) (List (Value F))
  | [], bindings, output => (bindings, .ok output)
  | st :: rest, bindings, output =>
    match evalStmt fl bindings st with
    | .ok (bindings', shown) => evalStmts rest bindings' (output ++ shown.toList)
    | .error e => if isFn st then evalStmts rest bindings output else (bindings, .error e)

/-! ## The check of an input -/

def lowerBinOp : Ast.BinOp → Hir.BinOp
  | .add => .add | .sub => .sub | .mul => .mul | .matMul => .matMul | .div => .div | .floorDiv => .floorDiv
  | .mod => .mod | .pow => .pow | .shl => .shl | .shr => .shr | .bitAnd => .bitAnd | .bitOr => .bitOr
  | .bitXor => .bitXor | .eq => .eq | .notEq => .notEq | .lt => .lt | .ltEq => .ltEq | .gt => .gt
  | .gtEq => .gtEq | .and => .and | .or => .or | .isIn => .in | .notIn => .notIn

def lowerUnaryOp : Ast.UnaryOp → Hir.UnaryOp
  | .plus => .plus | .neg => .neg | .bitNot => .bitNot | .not => .not

def lowerLiteral : Ast.Literal → Hir.Lit
  | .int s => .int (String.ofList s)
  | .float s => .float (String.ofList s)
  | .imag s => .imag (String.ofList s)
  | .str s => .str (String.ofList s)
  | .bytes b => .bytes b
  | .bool b => .bool b
  | .none => .none

/-- No holes. -/
def plainParts : List Ast.FStrPart → Bool
  | [] => true
  | .lit _ :: parts => plainParts parts
  | .expr _ _ _ :: _ => false

def lowerPart : Ast.FStrPart → Hir.FormatPart
  | .lit s => .lit (String.ofList s)
  | .expr _ _ _ => .lit ""

mutual

/-- Literals, names and operators. -/
def isPlain : Ast.Expr → Bool
  | .mk kind _ => isPlainKind kind

def isPlainKind : Frontend.Ast.ExprKind → Bool
  | .literal _ => true
  | .fString parts => plainParts parts
  | .name _ => true
  | .binary _ lhs rhs => isPlain lhs && isPlain rhs
  | .unary _ operand => isPlain operand
  | _ => false

end

mutual

/-- `lower_expr` of `cobrust-hir/src/lower.rs`, on plain expressions: every name has to be in the scope. -/
def lowerExpr (scope : Table Text DefId) : Ast.Expr → Option Hir.Expr
  | .mk kind span => (lowerKind scope kind).map (.mk · span)

def lowerKind (scope : Table Text DefId) : Frontend.Ast.ExprKind → Option Hir.ExprKind
  | .literal lit => some (.lit (lowerLiteral lit))
  | .fString parts => some (.format (parts.map lowerPart))
  | .name n => (scope n).map fun id => .name ⟨String.ofList n, id, .patternBinding⟩
  | .binary op lhs rhs => do
    let l ← lowerExpr scope lhs
    let r ← lowerExpr scope rhs
    return .bin (lowerBinOp op) l r
  | .unary op operand => do
    let e ← lowerExpr scope operand
    return .un (lowerUnaryOp op) e
  | _ => none

end

/-- A statement without an annotation, over plain expressions. -/
def isPlainStmt (st : Ast.Stmt) : Bool :=
  match Stmt.kind st with
  | .letStmt (.mk (.binding _) _) none value => isPlain value
  | .expr e => isPlain e
  | .pass => true
  | _ => false

/-- The items of plain statements. A `let` shadows what had its name, and `_` binds nothing. -/
def lowerStmts : List Ast.Stmt → Table Text DefId → DefId → Option (List Hir.Item)
  | [], _, _ => some []
  | .mk (.letStmt (.mk (.binding n) pspan) _ value) span :: rest, scope, next => do
    let value ← lowerExpr scope value
    let wildcard := n = ['_']
    let pattern : Hir.Pattern := .mk (if wildcard then .wildcard else .binding (String.ofList n) next) pspan
    let items ← lowerStmts rest (if wildcard then scope else scope.insert n next) (next + 1)
    return .mk (.let ⟨next, pattern, none, value, span⟩) span :: items
  | .mk (.expr e) span :: rest, scope, next => do
    let e ← lowerExpr scope e
    let items ← lowerStmts rest scope next
    return .mk (.exprStmt e) span :: items
  | .mk .pass _ :: rest, scope, next => lowerStmts rest scope next
  | _ :: _, _, _ => none

/-- `lit_type`. -/
def litType : Hir.Lit → Ty
  | .bool _ => .bool
  | .none => .none
  | .int _ => .int
  | .float _ => .float
  | .imag _ => .imag
  | .str _ => .str
  | .bytes _ => .bytes

/-- The types of plain expressions; two of them unify just if they are equal. -/
def sameBase : Ty → Ty → Bool
  | .bool, .bool | .none, .none | .int, .int | .float, .float | .imag, .imag | .str, .str | .bytes, .bytes => true
  | _, _ => false

/-- `synth_bin` on the types of plain expressions; `rhs` is the right side. -/
def synthBin (op : Hir.BinOp) (rhs : Hir.Expr) (lt rt : Ty) : Option Ty :=
  match op with
  | .add | .sub | .mul | .div | .floorDiv | .mod | .pow | .matMul =>
    match op, lt, rt with
    | .mul, .str, .int => some .str
    | .mul, .int, .str => some .str
    | .pow, .float, .int => some .float
    | .pow, .int, .float => some .float
    | .pow, .int, .int =>
      match Mir.literalIntValueMir rhs with
      | some n => if n < 0 then none else some .int
      | none => some .int
    | .add, .bytes, .bytes => some .bytes
    | .add, .str, .str => some .str
    | _, .int, .int => some .int
    | _, .float, .float => some .float
    | _, _, _ => none
  | .shl | .shr | .bitAnd | .bitOr | .bitXor => if sameBase .int lt && sameBase .int rt then some .int else none
  | .eq | .notEq | .lt | .ltEq | .gt | .gtEq => if sameBase lt rt && !sameBase .bytes lt then some .bool else none
  | .and | .or => if sameBase .bool lt && sameBase .bool rt then some .bool else none
  | .in | .notIn => none

/-- `synth_un` on the types of plain expressions. -/
def synthUn (op : Hir.UnaryOp) (ty : Ty) : Option Ty :=
  match op, ty with
  | .plus, .int | .neg, .int | .bitNot, .int => some .int
  | .plus, .float | .neg, .float => some .float
  | .not, .bool => some .bool
  | _, _ => none

mutual

/-- `synth_expr` on plain expressions. -/
def synthExpr (types : Table DefId Ty) : Hir.Expr → Option Ty
  | .mk kind _ => synthKind types kind

def synthKind (types : Table DefId Ty) : Hir.ExprKind → Option Ty
  | .lit l => some (litType l)
  | .format _ => some .str
  | .name rn => types rn.defId
  | .bin op lhs rhs => do
    let lt ← synthExpr types lhs
    let rt ← synthExpr types rhs
    synthBin op rhs lt rt
  | .un op operand => do
    let ty ← synthExpr types operand
    synthUn op ty
  | _ => none

end

/-- `check_item` on the items of plain statements, one after another. -/
def checkItems : List Hir.Item → Table DefId Ty → Option (Table DefId Ty)
  | [], types => some types
  | .mk (.let b) _ :: rest, types => do
    let ty ← synthExpr types b.value
    match b.pattern with
    | .mk (.binding _ id) _ => checkItems rest (types.insert id ty)
    | _ => checkItems rest types
  | .mk (.exprStmt e) _ :: rest, types => do
    let _ ← synthExpr types e
    checkItems rest types
  | _ :: _, _ => none

/-- Lowering and checking a module from an empty session; `other` does it for all other modules. -/
def checkModule (other : Ast.Module → Option TypedModule) (m : Ast.Module) : Option TypedModule :=
  if m.items.all isPlainStmt then do
    let items ← lowerStmts m.items Table.empty 0
    let types ← checkItems items Table.empty
    return ⟨types, ⟨items, m.span⟩⟩
  else other m

end Cobrust.Cli
