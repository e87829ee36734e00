import Cobrust.Types.Checker
import Cobrust.Types.ClassTable

/-!
# Annotations

`lower_type` and `validate_hashable_dict` of `cobrust-types/src/check.rs`. A name stands for an alias, a class, a handle
of an ecosystem module or a builtin type; any other name stands for an opaque alias whose number is its hash.
-/

namespace Cobrust

open Hir Checker
open Control (Program)

def ecosystemHandle : String → Option AdtId
  | "pit.App" => some (ecoAdtBase + 0x400)
  | "pit.Request" => some (ecoAdtBase + 0x401)
  | "pit.Response" => some (ecoAdtBase + 0x402)
  | "pit.ServerHandle" => some (ecoAdtBase + 0x403)
  | "hood.Command" => some (ecoAdtBase + 0x500)
  | "coil.Buffer" => some coilBufferAdt
  | "dora.Node" => some (ecoAdtBase + 0x600)
  | "dora.Event" => some (ecoAdtBase + 0x601)
  | _ => none

def builtinType : String → Option Ty
  | "bool" => some .bool
  | "i64" | "int" => some .int
  | "i8" => some (.intN 8)
  | "i16" => some (.intN 16)
  | "i32" => some (.intN 32)
  | "f64" | "float" => some .float
  | "str" => some .str
  | "bytes" => some .bytes
  | "None" | "none" => some .none
  | "Never" => some .never
  | _ => none

def utf8 (s : String) : List UInt8 :=
  s.toList.flatMap String.utf8EncodeChar

/-- `hash * 33 + b` for each byte, wrapping. -/
def hashName (s : String) : UInt32 :=
  (utf8 s).foldl (fun hash b => hash * 33 + b.toUInt32) 5381

/-- The number of the alias for an unrecognised name. -/
def opaqueId (s : String) : Nat :=
  (hashName s ||| 0x80000000).toNat

def lowerNamedType (names : Names) (s : String) : Ty :=
  match names.aliasMap s with
  | some t => t
  | none =>
    match names.classNames s with
    | some id => .adt id []
    | none =>
      match ecosystemHandle s with
      | some id => .adt id []
      | none =>
        match builtinType s with
        | some t => t
        | none => .alias (opaqueId s) []

def freshTy : StateM Nat Ty := do
  let v ← get
  set (v + 1)
  return .var v

def lowerGenericType (base : String) (lowered : List Ty) : StateM Nat Ty :=
  match base, lowered with
  | "List", [t] | "list", [t] => return .list t
  | "Set", [t] | "set", [t] => return .set t
  | "Dict", [k, v] | "dict", [k, v] => return .dict k v
  | "Tuple", items | "tuple", items => return .tuple items
  | _, _ => freshTy

mutual

def lowerType (names : Names) : TypeExpr → StateM Nat Ty
  | .name path _ => return lowerNamedType names (".".intercalate path)
  | .generic base args _ => do
    let lowered ← lowerTypes names args
    lowerGenericType (".".intercalate base) lowered
  | .union [] _ => return .never
  | .union (t :: _) _ => lowerType names t
  | .fn params returnType _ => do
    let positional ← lowerTypes names params
    let returnTy ← lowerType names returnType
    return .fn positional [] none none returnTy
  | .tuple items _ => do
    let items ← lowerTypes names items
    return .tuple items
  | .ref inner _ => do
    let inner ← lowerType names inner
    return .ref inner
  | .array elem len _ => do
    let elem ← lowerType names elem
    return .array elem len

def lowerTypes (names : Names) : List TypeExpr → StateM Nat (List Ty)
  | [] => return []
  | t :: rest => do
    let t ← lowerType names t
    let rest ← lowerTypes names rest
    return t :: rest

end

def Checker.lowerType (t : TypeExpr) : Checker Ty :=
  liftFresh fun names => Cobrust.lowerType names t

mutual

def isHashable : Ty → Bool
  | .bool | .int | .str | .bytes | .none | .never | .intN _ => true
  | .tuple items => allHashable items
  | .float | .imag | .list _ | .set _ | .dict _ _ | .record _ | .fn _ _ _ _ _ | .adt _ _ | .alias _ _ | .generic _
  | .var _ | .ref _ | .array _ _ => false

def allHashable : List Ty → Bool
  | [] => true
  | t :: rest => isHashable t && allHashable rest

end

def Hir.TypeExpr.span : TypeExpr → Span
  | .name _ span | .generic _ _ span | .union _ span | .fn _ _ span | .tuple _ span | .ref _ span
  | .array _ _ span => span

/-- The test of the key of `Dict[K, V]`. -/
def validateKey (base : String) : List TypeExpr → Checker Unit
  | [key, _] => do
    if base = "Dict" ∨ base = "dict" then
      let k ← Checker.lowerType key
      let resolved ← apply k
      if isHashable resolved then return ()
      else
        fail (.notHashable resolved key.span (some
          "f64 keys are forbidden (NaN != NaN); use i64 via `f.to_bits() as i64` or a str repr"))
  | _ => return ()

mutual

def validateHashableDict : TypeExpr → Checker Unit
  | .name _ _ => return ()
  | .generic base args _ => do
    validateKey (".".intercalate base) args
    validateAll args
  | .union items _ => validateAll items
  | .tuple items _ => validateAll items
  | .fn params returnType _ => do
    validateAll params
    validateHashableDict returnType
  | .ref inner _ => validateHashableDict inner
  | .array elem _ _ => validateHashableDict elem

def validateAll : List TypeExpr → Checker Unit
  | [] => return ()
  | t :: rest => do
    validateHashableDict t
    validateAll rest

end

end Cobrust
