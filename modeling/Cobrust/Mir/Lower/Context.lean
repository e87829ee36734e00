import Cobrust.Types.ClassTable
import Cobrust.Mir.Lower.Literal

/-!
# What lowering knows about a module

`LowerCtx` of `cobrust-mir/src/lower.rs`, and the functions of that file that only read it: the types
that lowering synthesizes for expressions and the names that method calls are rewritten to.
-/

namespace Cobrust.Mir

open Hir (Expr ResolvedName)

/-- What lowering reads of a typed module. -/
structure LowerCtx where
  defTy : DefId → Option Ty
  fnNameToDefId : String → Option DefId
  adtFields : AdtId → Option (List (String × Ty))
  validatedHandlers : DefId → Option (Nat × AdtId)
  /-- The schema text of a validated body and the classes nested in it. -/
  validatedBodySchema : AdtId → String
  eco : Ecosystem
  /-- `str::parse::<f64>`, as the bits of the result. -/
  parseF64 : String → Option UInt64

/-- A module without classes, handlers and functions of other modules. -/
def LowerCtx.plain : LowerCtx where
  defTy _ := none
  fnNameToDefId _ := none
  adtFields _ := none
  validatedHandlers _ := none
  validatedBodySchema _ := ""
  eco := .empty
  parseF64 _ := none

/-- `is_copy_type` of the lowering: the types whose names are read by copy. Lists and dicts are among
them, unlike in `Ty.isCopy` of the drop schedule. -/
def isCopyType : Ty → Bool
  | .bool | .int | .float | .imag | .none | .never | .list _ | .dict _ _ | .ref _ => true
  | _ => false

def binToMir : Hir.BinOp → BinOp
  | .add => .add
  | .sub => .sub
  | .mul => .mul
  | .matMul => .matMul
  | .div => .div
  | .floorDiv => .floorDiv
  | .mod => .mod
  | .pow => .pow
  | .shl => .shl
  | .shr => .shr
  | .bitAnd => .bitAnd
  | .bitOr => .bitOr
  | .bitXor => .bitXor
  | .eq => .eq
  | .notEq => .notEq
  | .lt => .lt
  | .ltEq => .ltEq
  | .gt => .gt
  | .gtEq => .gtEq
  | .and => .and
  | .or => .or
  | .in => .in
  | .notIn => .notIn

def unToMir : Hir.UnaryOp → UnOp
  | .plus => .plus
  | .neg => .neg
  | .bitNot => .bitNot
  | .not => .not

/-- The target of a cast, as the dotted name it is written with; empty for other annotations. -/
def castTargetName : Hir.TypeExpr → String
  | .name path _ => ".".intercalate path
  | _ => ""

/-- `hir_expr_is_float`: whether an expression is a float by its shape. -/
def hirExprIsFloat : Expr → Bool
  | .mk (.lit (.float _)) _ => true
  | .mk (.bin _ lhs rhs) _ => hirExprIsFloat lhs || hirExprIsFloat rhs
  | .mk (.un _ operand) _ => hirExprIsFloat operand
  | .mk (.cast _ target) _ => ["f64", "float"].contains (castTargetName target)
  | _ => false

/-- `literal_int_value_mir`: the value of an integer literal, or of a negated one. -/
def literalIntValueMir : Expr → Option Int
  | .mk (.lit (.int s)) _ => parseI64 s
  | .mk (.un .neg (.mk (.lit (.int s)) _)) _ =>
    (parseI64 s).map fun n => if n = -(2 ^ 63) then n else -n
  | _ => none

/-- `method_form_rewrite_name`, on the type of the receiver. -/
def methodFormRewriteName (baseTy : Ty) (method : String) : Option String :=
  match baseTy.peelRef with
  | .str =>
    match method with
    | "len" => some "str_len"
    | "split" => some "split"
    | "replace" => some "replace"
    | "trim" => some "trim"
    | "strip" => some "trim"
    | "lstrip" => some "lstrip"
    | "rstrip" => some "rstrip"
    | "count" => some "count"
    | "find" => some "find"
    | "contains" => some "contains"
    | "starts_with" => some "starts_with"
    | "startswith" => some "starts_with"
    | "ends_with" => some "ends_with"
    | "endswith" => some "ends_with"
    | "lower" => some "lower"
    | "upper" => some "upper"
    | "encode" => some "bytes_from_str"
    | _ => none
  | .bytes =>
    match method with
    | "decode" => some "bytes_decode"
    | "hex" => some "bytes_hex"
    | _ => none
  | .list _ =>
    match method with
    | "len" => some "list_len"
    | "push" => some "list_push"
    | "get" => some "list_get"
    | "set" => some "list_set"
    | "is_empty" => some "list_is_empty"
    | "append" => some "list_append"
    | "pop" => some "list_pop"
    | _ => none
  | .float =>
    match method with
    | "floor" => some "floor"
    | "ceil" => some "ceil"
    | "is_nan" => some "is_nan"
    | "is_finite" => some "is_finite"
    | "abs" => some "abs_f"
    | _ => none
  | .int =>
    match method with
    | "abs" => some "abs"
    | "pow" => some "pow"
    | "min" => some "min"
    | "max" => some "max"
    | "bit_count" => some "bit_count"
    | _ => none
  | _ => none

/-- `synth_bin_result_ty`. -/
def synthBinResultTy (op : Hir.BinOp) (lt rt : Ty) : Ty :=
  let bothScalar := lt.isScalar && rt.isScalar
  match op with
  | .eq | .notEq | .lt | .ltEq | .gt | .gtEq => if bothScalar then .bool else .none
  | .add | .sub | .mul | .div | .floorDiv | .mod | .pow =>
    if bothScalar then if lt.isFloat || rt.isFloat then .float else .int else .none
  | .shl | .shr | .bitAnd | .bitOr | .bitXor => if lt.isInt && rt.isInt then .int else .none
  | _ => .none

/-- The module and sub-namespace of `module.subns` as the base of an attribute. -/
def subnamespaceOf : Expr → Option (String × String)
  | .mk (.attr (.mk (.name rn) _) subns) _ =>
    if rn.kind = .importAlias && isSubnamespace rn.name subns then some (rn.name, subns) else none
  | _ => none

/-- The ecosystem module that a name stands for. -/
def ecosystemModuleOf : Expr → Option String
  | .mk (.name rn) _ =>
    if rn.kind = .importAlias && isEcosystemModule rn.name then some rn.name else none
  | _ => none

namespace LowerCtx

variable (ctx : LowerCtx)

def lookupTy (id : DefId) : Ty :=
  (ctx.defTy id).getD .none

def lookupFnDefId (name : String) : Option DefId :=
  ctx.fnNameToDefId name

/-- The type of a definition that is called: its return type, or `none` where it is no function. -/
def fnReturnTy (id : DefId) : Option Ty :=
  match ctx.lookupTy id with
  | .fn _ _ _ _ returnTy => some returnTy
  | _ => none

/-- The manifest row that a call of `base.name` resolves to. -/
def ecosystemSig (base : Expr) (baseTy : Ty) (name : String) : Option EcoSig :=
  ((subnamespaceOf base).bind fun (module, subns) => ctx.eco.lookupSubnamespaceFn module subns name)
    <|> ((ecosystemModuleOf base).bind fun module => ctx.eco.lookupModuleFn module name)
    <|> (match baseTy with
      | .adt id _ => if isEcosystemHandle id then ctx.eco.lookupHandleMethod baseTy name else none
      | _ => none)

/-- The type that `synth_expr_ty` gives a call, from the callee and the type of the callee's base. -/
def synthCallTy (callee : Expr) (baseTy : Ty) : Ty :=
  match callee with
  | .mk (.name rn) _ => (ctx.fnReturnTy rn.defId).getD .none
  | .mk (.attr base name) _ =>
    match ctx.ecosystemSig base baseTy name with
    | some sig => sig.ret
    | none =>
      (((methodFormRewriteName baseTy name).bind ctx.lookupFnDefId).bind ctx.fnReturnTy).getD .none
  | _ => .none

/-- `math.pi` and its like: a constant of an imported module. -/
def moduleConst (base : Expr) (name : String) : Option UInt64 :=
  match base with
  | .mk (.name rn) _ =>
    if rn.kind = .importAlias then ctx.eco.lookupModuleConst rn.name name else none
  | _ => none

mutual

/-- `synth_expr_ty`: the type that lowering gives the temporary of an expression. -/
def synthExprTy : Expr → Ty
  | .mk (.lit (.bool _)) _ => .bool
  | .mk (.lit (.int _)) _ => .int
  | .mk (.lit (.float _)) _ => .float
  | .mk (.lit (.imag _)) _ => .imag
  | .mk (.lit (.str _)) _ => .str
  | .mk (.lit .none) _ => .none
  | .mk (.lit (.bytes _)) _ => .bytes
  | .mk (.format _) _ => .str
  | .mk (.name rn) _ => ctx.lookupTy rn.defId
  | .mk (.list items) _ => .list (synthFirstTy items)
  | .mk (.tuple items) _ => .tuple (synthTys items)
  | .mk (.index base index) _ =>
    match synthExprTy base with
    | .list elem => elem
    | .dict _ v => v
    | .str => .str
    | .adt id args =>
      if id = coilBufferAdt then
        match index with
        | .slice _ _ _ => .adt id args
        | _ => .float
      else .adt id args
    | other => other
  | .mk (.call callee _) _ => ctx.synthCallTy callee (synthBaseTy callee)
  | .mk (.borrow inner) _ => .ref (synthExprTy inner)
  | .mk (.un op operand) _ =>
    match op with
    | .neg | .plus => synthExprTy operand
    | .bitNot => .int
    | .not => .bool
  | .mk (.attr base name) _ =>
    match ctx.moduleConst base name with
    | some _ => .float
    | none => ((ctx.eco.lookupHandleAttr (synthExprTy base) name).map EcoSig.ret).getD .none
  | .mk (.bin op lhs rhs) _ => synthBinResultTy op (synthExprTy lhs) (synthExprTy rhs)
  | .mk (.ifExpr _ thenBranch elseBranch) _ =>
    match synthExprTy thenBranch with
    | .none => synthExprTy elseBranch
    | thenTy => thenTy
  | _ => .none

def synthTys : List Expr → List Ty
  | [] => []
  | e :: es => synthExprTy e :: synthTys es

def synthFirstTy : List Expr → Ty
  | [] => .none
  | e :: _ => synthExprTy e

/-- The type of the base of an attribute. -/
def synthBaseTy : Expr → Ty
  | .mk (.attr base _) _ => synthExprTy base
  | _ => .none

end

end LowerCtx

end Cobrust.Mir
