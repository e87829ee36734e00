import Cobrust.Hir.Tree
import Cobrust.Types.Ty
import Mathlib.Logic.Relation

/-!
# Validated classes

The classes of a typed module: their fields, their names and the refinements of their fields. A `Shape` says what a field
admits; it is what the schema descriptor is to carry from the compiler to the web runtime.

Under them what lowering asks of `cobrust-types/src/ecosystem.rs`. The manifest's large tables are a record of lookup
functions: lowering never depends on which rows they have.
-/

/-! ## The ecosystem manifest -/

namespace Cobrust

/-- A parameter slot of an ecosystem function: a value or a callback. -/
inductive EcoParam where
  | value (ty : Ty)
  | callback (ty : Ty)
  deriving Repr

structure EcoSig where
  runtimeSymbol : String
  params : List EcoParam
  ret : Ty
  deriving Repr

/-- The lookups of the ecosystem manifest. -/
structure Ecosystem where
  lookupModuleFn : String → String → Option EcoSig
  lookupSubnamespaceFn : String → String → String → Option EcoSig
  lookupHandleMethod : Ty → String → Option EcoSig
  lookupHandleAttr : Ty → String → Option EcoSig
  lookupBufferBinop : Ty → Hir.BinOp → Option EcoSig
  lookupValidatedBodyAccessor : Ty → Option EcoSig
  /-- The value of a module constant, as the bits of the float. -/
  lookupModuleConst : String → String → Option UInt64

/-- The manifest without rows. -/
def Ecosystem.empty : Ecosystem where
  lookupModuleFn _ _ := none
  lookupSubnamespaceFn _ _ _ := none
  lookupHandleMethod _ _ := none
  lookupHandleAttr _ _ := none
  lookupBufferBinop _ _ := none
  lookupValidatedBodyAccessor _ := none
  lookupModuleConst _ _ := none

def ecoAdtBase : AdtId := 0xE0000000

def coilBufferAdt : AdtId := ecoAdtBase + 0x700

def coilBufferTy : Ty := .adt coilBufferAdt []

def isEcosystemHandle (id : AdtId) : Bool :=
  ecoAdtBase ≤ id

def isSubnamespace (module subns : String) : Bool :=
  module == "coil" && subns == "linalg"

def isEcosystemModule (name : String) : Bool :=
  ["den", "nest", "strike", "scale", "molt", "pit", "hood", "coil", "dora", "fang", "redis", "math",
    "re", "random", "time"].contains name

def coilBufferGetitemSymbol : String := "__cobrust_coil_buffer_getitem"

def coilBufferSetitemSymbol : String := "__cobrust_coil_buffer_setitem"

def coilBufferSliceSymbol : String := "__cobrust_coil_buffer_slice"

def lookupBufferScalarBinop : Hir.BinOp → Option String
  | .add => some "__cobrust_coil_buffer_add_scalar"
  | .sub => some "__cobrust_coil_buffer_sub_scalar"
  | .mul => some "__cobrust_coil_buffer_mul_scalar"
  | .div => some "__cobrust_coil_buffer_div_scalar"
  | _ => none

/-- The operations with the scalar on the left; the two that do not commute have their own symbols. -/
def lookupBufferLeftScalarBinop : Hir.BinOp → Option String
  | .add => some "__cobrust_coil_buffer_add_scalar"
  | .mul => some "__cobrust_coil_buffer_mul_scalar"
  | .sub => some "__cobrust_coil_buffer_rsub_scalar"
  | .div => some "__cobrust_coil_buffer_rdiv_scalar"
  | _ => none

namespace Ty

/-- `Ty::Ref` peeled once. -/
def peelRef : Ty → Ty
  | .ref inner => inner
  | other => other

def isStr : Ty → Bool
  | .str => true
  | _ => false

def isInt : Ty → Bool
  | .int => true
  | _ => false

def isFloat : Ty → Bool
  | .float => true
  | _ => false

def isBytes : Ty → Bool
  | .bytes => true
  | _ => false

/-- `Ty::Int | Ty::IntN(_)`. -/
def isIntLike : Ty → Bool
  | .int => true
  | .intN _ => true
  | _ => false

/-- `Ty::Int | Ty::Float`. -/
def isScalar : Ty → Bool
  | .int => true
  | .float => true
  | _ => false

def isCoilBuffer : Ty → Bool
  | .adt id _ => id == coilBufferAdt
  | _ => false

/-- A function type whose first parameter is a list: the shape of the list prelude functions. -/
def isListFn : Ty → Bool
  | .fn (.list _ :: _) _ _ _ _ => true
  | _ => false

end Ty

end Cobrust

/-! ## Classes -/

namespace Cobrust

/-- `adt_fields`, `adt_names` and `adt_refinements` of a typed module. The fields of a class are in the
order of the sorted map that holds them. -/
structure ClassTable (F : Type) where
  adtFields : List (AdtId × List (Text × Ty))
  adtNames : AdtId → Option Text
  adtRefinements : AdtId → Text → Option (Refinement F)

structure Bounds (α : Type) where
  lo : Option α
  hi : Option α

/-- The elements of a list field. -/
inductive Elem where
  | str | i64 | f64 | bool
  | cls (id : AdtId)

/-- What a field admits: a scalar within its bounds, a string that matches a pattern, an object of another
validated class, or a list. Other types are not described. -/
inductive Shape (F : Type) where
  | str (length : Option (Bounds Int64))
  | pattern (regex : Text)
  | i64 (range : Option (Bounds Int64))
  | f64 (range : Option (Bounds F))
  | bool
  | cls (id : AdtId)
  | list (elem : Elem)
  | any

def Elem.shape {F : Type} : Elem → Shape F
  | .str => .str none
  | .i64 => .i64 none
  | .f64 => .f64 none
  | .bool => .bool
  | .cls id => .cls id

/-- The classes that a field refers to. -/
def Shape.classes {F : Type} : Shape F → List AdtId
  | .cls id => [id]
  | .list (.cls id) => [id]
  | _ => []

namespace ClassTable

variable {F : Type}

def fieldsOf (g : ClassTable F) (id : AdtId) : Option (List (Text × Ty)) :=
  g.adtFields.lookup id

/-- A class with a field table and a name. -/
def IsClass (g : ClassTable F) (id : AdtId) : Prop :=
  (g.fieldsOf id).isSome ∧ (g.adtNames id).isSome

instance (g : ClassTable F) (id : AdtId) : Decidable (g.IsClass id) :=
  inferInstanceAs (Decidable (_ ∧ _))

def nameOf (g : ClassTable F) (id : AdtId) : Text :=
  (g.adtNames id).getD []

def elemOf (g : ClassTable F) : Ty → Option Elem
  | .str => some .str
  | .int => some .i64
  | .float => some .f64
  | .bool => some .bool
  | .adt id _ => if g.IsClass id then some (.cls id) else none
  | _ => none

/-- What the field `field` of class `id` admits, by its type and its refinement. -/
def shapeOf (g : ClassTable F) (id : AdtId) (field : Text) : Ty → Shape F
  | .str =>
    match g.adtRefinements id field with
    | some (.strLen lo hi) => .str (some ⟨lo, hi⟩)
    | some (.pattern regex) => .pattern regex
    | _ => .str none
  | .int =>
    match g.adtRefinements id field with
    | some (.intRange lo hi) => .i64 (some ⟨lo, hi⟩)
    | _ => .i64 none
  | .float =>
    match g.adtRefinements id field with
    | some (.floatRange lo hi) => .f64 (some ⟨lo, hi⟩)
    | _ => .f64 none
  | .bool => .bool
  | .adt n _ => if g.IsClass n then .cls n else .any
  | .list elem => ((g.elemOf elem).map Shape.list).getD .any
  | _ => .any

/-- The fields of a class with what they admit. -/
def shapes (g : ClassTable F) (id : AdtId) : List (Text × Shape F) :=
  ((g.fieldsOf id).getD []).map fun field => (field.1, g.shapeOf id field.1 field.2)

/-- The classes that the fields of a class refer to. -/
def refs (g : ClassTable F) (id : AdtId) : List AdtId :=
  (g.shapes id).flatMap fun field => field.2.classes

/-- The classes that a class refers to, directly or through others. -/
def Reachable (g : ClassTable F) : AdtId → AdtId → Prop :=
  Relation.ReflTransGen fun id next => next ∈ g.refs id

end ClassTable

/-- An identifier, as far as its characters matter here. -/
def IsIdentifier (name : Text) : Prop :=
  name ≠ [] ∧ ∀ c ∈ name, Text.isWhitespace c = false ∧ c ≠ '#'

/-- What the checker leaves of the classes of a module. -/
structure ClassTable.WellFormed {F : Type} [F64 F] (g : ClassTable F) : Prop where
  named : ∀ id, (g.fieldsOf id).isSome → (g.adtNames id).isSome
  name : ∀ id, g.IsClass id → IsIdentifier (g.nameOf id)
  distinct : ∀ id id', g.IsClass id → g.IsClass id' → g.nameOf id = g.nameOf id' → id = id'
  field : ∀ id fields, g.fieldsOf id = some fields →
    (fields.map Prod.fst).Nodup ∧ ∀ field ∈ fields, IsIdentifier field.1
  attachable : ∀ id fields, g.fieldsOf id = some fields → ∀ field ∈ fields, ∀ r,
    g.adtRefinements id field.1 = some r → r.Attachable field.2
  adt : ∀ id fields, g.fieldsOf id = some fields → ∀ field ∈ fields, ∀ n args,
    field.2 = .adt n args → g.IsClass n ∨ isEcosystemHandle n

namespace ClassTable

variable {F : Type} {g : ClassTable F}

theorem mem_refs {id next : AdtId} :
    next ∈ g.refs id ↔ ∃ field ∈ g.shapes id, next ∈ field.2.classes :=
  List.mem_flatMap

theorem isClass_of_mem_classes {id next : AdtId} {field : Text} {ty : Ty}
    (h : next ∈ (g.shapeOf id field ty).classes) : g.IsClass next := by
  unfold shapeOf at h
  split at h
  · split at h <;> cases h
  · split at h <;> cases h
  · split at h <;> cases h
  · cases h
  · split at h
    · rename_i hc
      obtain rfl := List.mem_singleton.1 h
      exact hc
    · cases h
  · rename_i elem
    cases elem with
    | adt n args =>
      rw [elemOf] at h
      split at h
      · rename_i hc
        obtain rfl := List.mem_singleton.1 h
        exact hc
      · cases h
    | _ => cases h
  · cases h

theorem isClass_of_mem_refs {id next : AdtId} (h : next ∈ g.refs id) : g.IsClass next := by
  obtain ⟨field, hf, hn⟩ := mem_refs.1 h
  obtain ⟨decl, -, rfl⟩ := List.mem_map.1 hf
  exact isClass_of_mem_classes hn

theorem Reachable.isClass {root id : AdtId} (h : g.Reachable root id) (hroot : g.IsClass root) :
    g.IsClass id := by
  cases h with
  | refl => exact hroot
  | tail _ hstep => exact isClass_of_mem_refs hstep

theorem mem_keys_of_isClass {id : AdtId} (h : g.IsClass id) : id ∈ g.adtFields.map Prod.fst := by
  obtain ⟨fields, hf⟩ := Option.isSome_iff_exists.1 h.1
  obtain ⟨before, after, he, -⟩ := List.lookup_eq_some_iff.1 hf
  rw [he]
  simp

end ClassTable

end Cobrust
