import Cobrust.Repl.Expr

/-!
# The evaluator of the REPL

`eval_expr`, `eval_literal`, `eval_binary` and `eval_unary` of `cobrust-cli/src/repl.rs`, on integers, booleans and
strings.
-/

namespace Cobrust.Repl

open Mir (digitValue)
open Mir.Exec (Value)

/-- `IntErrorKind` of a literal without a sign. -/
inductive IntErrorKind where
  | empty | invalidDigit | posOverflow
  deriving DecidableEq, Repr

def IntErrorKind.text : IntErrorKind → String
  | .empty => "cannot parse integer from empty string"
  | .invalidDigit => "invalid digit found in string"
  | .posOverflow => "number too large to fit in target type"

/-- The errors of the evaluator, each with what its message names. -/
inductive EvalError where
  | invalidInteger (literal : List Char) (kind : IntErrorKind)
  | unbound (name : String)
  | divisionByZero
  | moduloByZero
  | unsupportedBinary (op : Hir.BinOp) (l r : Value)
  | unsupportedUnary (op : Hir.UnaryOp) (v : Value)

def typeName : Value → String
  | .int _ => "int"
  | .bool _ => "bool"
  | .str _ => "str"

/-- The `Debug` text of `ast::BinOp`. -/
def binOpName : Hir.BinOp → String
  | .add => "Add" | .sub => "Sub" | .mul => "Mul" | .matMul => "MatMul" | .div => "Div" | .floorDiv => "FloorDiv"
  | .mod => "Mod" | .pow => "Pow" | .shl => "Shl" | .shr => "Shr" | .bitAnd => "BitAnd" | .bitOr => "BitOr"
  | .bitXor => "BitXor" | .eq => "Eq" | .notEq => "NotEq" | .lt => "Lt" | .ltEq => "LtEq" | .gt => "Gt"
  | .gtEq => "GtEq" | .and => "And" | .or => "Or" | .in => "In" | .notIn => "NotIn"

def unaryOpName : Hir.UnaryOp → String
  | .plus => "Plus" | .neg => "Neg" | .bitNot => "BitNot" | .not => "Not"

def EvalError.message : EvalError → String
  | .invalidInteger literal kind => "invalid integer literal `" ++ String.ofList literal ++ "`: " ++ kind.text
  | .unbound name => "name `" ++ name ++ "` not bound in this REPL session"
  | .divisionByZero => "integer division by zero"
  | .moduloByZero => "integer modulo by zero"
  | .unsupportedBinary op l r =>
    "unsupported binary `" ++ binOpName op ++ "` for " ++ typeName l ++ " and " ++ typeName r
  | .unsupportedUnary op v => "unsupported unary `" ++ unaryOpName op ++ "` for " ++ typeName v

/-- The errors that call the form unsupported. -/
def EvalError.declaresUnsupported : EvalError → Bool
  | .unsupportedBinary _ _ _ | .unsupportedUnary _ _ => true
  | _ => false

/-- `char::to_digit`. -/
def toDigit (radix : Nat) (c : Char) : Option Nat :=
  let isDigit := c.isDigit || ('a' ≤ c && c ≤ 'z') || ('A' ≤ c && c ≤ 'Z')
  let value :=
    if c.isDigit then c.toNat - '0'.toNat
    else if 'a' ≤ c && c ≤ 'z' then c.toNat - 'a'.toNat + 10
    else c.toNat - 'A'.toNat + 10
  if isDigit && value < radix then some value else none

/-- The digits of an `i64`, behind the digits of `n`. -/
def parseRadix (radix : Nat) : List Char → Nat → Except IntErrorKind Nat
  | [], n => .ok n
  | c :: cs, n =>
    match toDigit radix c with
    | none => .error .invalidDigit
    | some d => if n * radix + d < 2 ^ 63 then parseRadix radix cs (n * radix + d) else .error .posOverflow

/-- `i64::from_str_radix` on text without a minus sign. -/
def fromStrRadix (radix : Nat) : List Char → Except IntErrorKind Nat
  | [] => .error .empty
  | ['+'] => .error .invalidDigit
  | '+' :: ds => parseRadix radix ds 0
  | ds => parseRadix radix ds 0

/-- The integer of `eval_literal`: underscores are dropped and a prefix chooses the radix. -/
def parseInteger (text : List Char) : Except IntErrorKind Nat :=
  match text.filter (· != '_') with
  | '0' :: 'x' :: rest => fromStrRadix 16 rest
  | '0' :: 'X' :: rest => fromStrRadix 16 rest
  | '0' :: 'o' :: rest => fromStrRadix 8 rest
  | '0' :: 'O' :: rest => fromStrRadix 8 rest
  | '0' :: 'b' :: rest => fromStrRadix 2 rest
  | '0' :: 'B' :: rest => fromStrRadix 2 rest
  | stripped => fromStrRadix 10 stripped

def evalLiteral : Literal → Except EvalError Value
  | .int s =>
    match parseInteger s.text with
    | .ok n => .ok (.int (BitVec.ofNat 64 n))
    | .error kind => .error (.invalidInteger s.text kind)
  | .str s => .ok (.str s)
  | .bool b => .ok (.bool b)

/-- `values_eq`. -/
def valuesEq : Value → Value → Bool
  | .int x, .int y => x == y
  | .bool x, .bool y => x == y
  | .str x, .str y => x == y
  | _, _ => false

/-- `eval_binary`. The quotient and the remainder are those of `wrapping_div` and `wrapping_rem`. -/
def evalBinary (op : Hir.BinOp) (l r : Value) : Except EvalError Value :=
  match op, l, r with
  | .add, .int a, .int b => .ok (.int (a + b))
  | .sub, .int a, .int b => .ok (.int (a - b))
  | .mul, .int a, .int b => .ok (.int (a * b))
  | .div, .int a, .int b => if b = 0#64 then .error .divisionByZero else .ok (.int (a.sdiv b))
  | .mod, .int a, .int b => if b = 0#64 then .error .moduloByZero else .ok (.int (a.srem b))
  | .add, .str a, .str b => .ok (.str (a ++ b))
  | .eq, a, b => .ok (.bool (valuesEq a b))
  | .notEq, a, b => .ok (.bool (!valuesEq a b))
  | .lt, .int a, .int b => .ok (.bool (a.slt b))
  | .ltEq, .int a, .int b => .ok (.bool (a.sle b))
  | .gt, .int a, .int b => .ok (.bool (b.slt a))
  | .gtEq, .int a, .int b => .ok (.bool (b.sle a))
  | .and, .bool a, .bool b => .ok (.bool (a && b))
  | .or, .bool a, .bool b => .ok (.bool (a || b))
  | op, l, r => .error (.unsupportedBinary op l r)

/-- `eval_unary`. -/
def evalUnary (op : Hir.UnaryOp) (v : Value) : Except EvalError Value :=
  match op, v with
  | .neg, .int n => .ok (.int (-n))
  | .not, .bool b => .ok (.bool !b)
  | .plus, .int n => .ok (.int n)
  | op, v => .error (.unsupportedUnary op v)

/-- `eval_expr`: both sides of every operator are evaluated. -/
def evalExpr (bindings : List (String × Value)) : Expr → Except EvalError Value
  | .literal lit _ => evalLiteral lit
  | .name n _ =>
    match bindings.lookup n with
    | some v => .ok v
    | none => .error (.unbound n)
  | .binary op lhs rhs _ => do
    let l ← evalExpr bindings lhs
    let r ← evalExpr bindings rhs
    evalBinary op l r
  | .unary op operand _ => do
    let v ← evalExpr bindings operand
    evalUnary op v

/-- The value of an expression, or what stands in the way of it first, when both sides of every operator are evaluated. -/
inductive Meaning where
  | value (v : Value)
  | zeroDivisor
  | unsupported
  deriving DecidableEq

def Meaning.bind : Meaning → (Value → Meaning) → Meaning
  | .value v, f => f v
  | .zeroDivisor, _ => .zeroDivisor
  | .unsupported, _ => .unsupported

/-- An integer in 64 bits. -/
def wrap (n : Int) : Value :=
  .int (BitVec.ofInt 64 n)

/-- On integers: `/` truncates and `%` has the sign of the divisor. -/
def meaningBinary (op : Hir.BinOp) (l r : Value) : Meaning :=
  match op, l, r with
  | .add, .int a, .int b => .value (wrap (a.toInt + b.toInt))
  | .sub, .int a, .int b => .value (wrap (a.toInt - b.toInt))
  | .mul, .int a, .int b => .value (wrap (a.toInt * b.toInt))
  | .div, .int a, .int b => if b.toInt = 0 then .zeroDivisor else .value (wrap (a.toInt.tdiv b.toInt))
  | .mod, .int a, .int b => if b.toInt = 0 then .zeroDivisor else .value (wrap (a.toInt.fmod b.toInt))
  | .lt, .int a, .int b => .value (.bool (a.toInt < b.toInt))
  | .ltEq, .int a, .int b => .value (.bool (a.toInt ≤ b.toInt))
  | .gt, .int a, .int b => .value (.bool (b.toInt < a.toInt))
  | .gtEq, .int a, .int b => .value (.bool (b.toInt ≤ a.toInt))
  | .add, .str a, .str b => .value (.str (a ++ b))
  | .eq, a, b => .value (.bool (a = b))
  | .notEq, a, b => .value (.bool (a ≠ b))
  | .and, .bool a, .bool b => .value (.bool (a && b))
  | .or, .bool a, .bool b => .value (.bool (a || b))
  | _, _, _ => .unsupported

def meaningUnary (op : Hir.UnaryOp) (v : Value) : Meaning :=
  match op, v with
  | .neg, .int n => .value (wrap (-n.toInt))
  | .not, .bool b => .value (.bool !b)
  | .plus, .int n => .value (.int n)
  | _, _ => .unsupported

def meaning (bindings : List (String × Value)) : Expr → Meaning
  | .literal (.int s) _ => .value (wrap (Mir.literalValue s.text))
  | .literal (.str t) _ => .value (.str t)
  | .literal (.bool b) _ => .value (.bool b)
  | .name n _ =>
    match bindings.lookup n with
    | some v => .value v
    | none => .unsupported
  | .binary op lhs rhs _ =>
    (meaning bindings lhs).bind fun l => (meaning bindings rhs).bind fun r => meaningBinary op l r
  | .unary op operand _ => (meaning bindings operand).bind (meaningUnary op)

end Cobrust.Repl
