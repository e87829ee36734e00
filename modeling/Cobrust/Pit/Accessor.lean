import Cobrust.Types.ClassTable
import Cobrust.Pit.Descriptor

/-!
# Reading the fields of a validated body

The `__cobrust_pit_body_get_*` functions of `cobrust-pit/src/cabi.rs`, the choice among them by the type
of the field (`lookup_validated_body_accessor`), and the chain of reads that lowering makes of
`body.outer.inner.field` (`resolve_validated_body_base`). A null pointer is `none`.
-/

namespace Cobrust.Pit

variable {F : Type} [F64 F]

section

/-- What a read gives. A list of floats holds their bits in its slots. -/
inductive BodyValue (F : Type) where
  | i64 (n : Int64)
  | str (s : Text)
  | f64 (x : F)
  | bool (b : Bool)
  | nested (body : Option (Json F))
  | listStr (items : List Text)
  | listI64 (items : List Int64)
  | listF64 (items : List F)
  | listBool (items : List Bool)

variable (body : Option (Json F)) (name : Text)

omit [F64 F] in
def bodyGetI64 : Int64 :=
  ((body.bind (Json.get name)).bind Json.asI64).getD 0

omit [F64 F] in
def bodyGetStr : Text :=
  ((body.bind (Json.get name)).bind Json.asStr).getD []

def bodyGetF64 : F :=
  ((body.bind (Json.get name)).bind Json.asF64).getD (F64.ofInt 0)

omit [F64 F] in
def bodyGetBool : Bool :=
  ((body.bind (Json.get name)).bind Json.asBool).getD false

omit [F64 F] in
def bodyGetNested : Option (Json F) :=
  (body.bind (Json.get name)).filter Json.isObject

omit [F64 F] in
def bodyFieldArray : List (Json F) :=
  ((body.bind (Json.get name)).bind Json.asArray).getD []

omit [F64 F] in
def bodyGetListStr : List Text :=
  (bodyFieldArray body name).map fun elem => elem.asStr.getD []

omit [F64 F] in
def bodyGetListI64 : List Int64 :=
  (bodyFieldArray body name).map fun elem => elem.asI64.getD 0

def bodyGetListF64 : List F :=
  (bodyFieldArray body name).map fun elem => elem.asF64.getD (F64.ofInt 0)

omit [F64 F] in
def bodyGetListBool : List Bool :=
  (bodyFieldArray body name).map fun elem => elem.asBool.getD false

end

/-- `lookup_validated_body_accessor`: the read for a field of this type. -/
def lookupValidatedBodyAccessor : Ty → Option (Option (Json F) → Text → BodyValue F)
  | .int => some fun body name => .i64 (bodyGetI64 body name)
  | .str => some fun body name => .str (bodyGetStr body name)
  | .float => some fun body name => .f64 (bodyGetF64 body name)
  | .bool => some fun body name => .bool (bodyGetBool body name)
  | .adt id _ =>
    if isEcosystemHandle id then none else some fun body name => .nested (bodyGetNested body name)
  | .list .str => some fun body name => .listStr (bodyGetListStr body name)
  | .list .int => some fun body name => .listI64 (bodyGetListI64 body name)
  | .list .float => some fun body name => .listF64 (bodyGetListF64 body name)
  | .list .bool => some fun body name => .listBool (bodyGetListBool body name)
  | _ => none

omit [F64 F] in
/-- The declared type of a field. -/
def fieldTy (g : ClassTable F) (adt : AdtId) (field : Text) : Option Ty :=
  (g.fieldsOf adt).bind fun fields => fields.lookup field

/-- `resolve_validated_body_base`: the object at the end of a chain of nested fields, and its class. -/
def resolveBase (g : ClassTable F) : Option (Json F) × AdtId → List Text → Option (Option (Json F) × AdtId)
  | base, [] => some base
  | (body, adt), field :: rest =>
    match fieldTy g adt field with
    | some (.adt nested args) =>
      match lookupValidatedBodyAccessor (F := F) (.adt nested args) with
      | some _ => resolveBase g (bodyGetNested body field, nested) rest
      | none => none
    | _ => none

/-- The value of `body.path.name` in a handler whose body has the class `root`. -/
def readField (g : ClassTable F) (root : AdtId) (body : Json F) (path : List Text) (name : Text) :
    Option (BodyValue F) := do
  let (base, adt) ← resolveBase g (some body, root) path
  let ty ← fieldTy g adt name
  let accessor ← lookupValidatedBodyAccessor ty
  return accessor base name

end Cobrust.Pit
