import Cobrust.Codegen.Assign
import Cobrust.Llvm.Numbers
import Cobrust.Types.Annotations

/-!
# Casts

`e as T`, from the check over the cast kind to the instruction: `synth_expr` of `cobrust-types/src/check.rs`, `lower_expr`
of `cobrust-mir/src/lower.rs` and `lower_cast` of `cobrust-codegen/src/llvm_backend.rs`. The checker looks the target up,
the lowering goes by its name.

* `cast_converts_iff`: every cast to a type converts just where its name is not that of an alias.
-/

namespace Cobrust.Codegen

open Control (except_ok_bind)
open Llvm (Val)
open Mir (Operand LocalId CastKind castTargetName)

/-- The pairs of `synth_expr`. -/
def castAllowed : Ty → Ty → Bool
  | .int, .float => true
  | .float, .int => true
  | _, _ => false

def castTarget (names : Names) (target : Hir.TypeExpr) : Ty :=
  lowerNamedType names (castTargetName target)

/-! ## The code -/

/-- The kind and the type of a cast to a name; none for a move. -/
def castKind (name : String) : Option (CastKind × Ty) :=
  if name = "f64" || name = "float" then some (.intToFloat, .float)
  else if name = "i64" || name = "int" then some (.floatToInt, .int)
  else none

mutual

/-- `lower_ty`, with the lengths of arrays held to 32 bits. -/
def lowerTy : Ty → Llvm.Ty
  | .bool => .int .i1
  | .int => .int .i64
  | .float => .double
  | .imag => .double
  | .none => .int .i64
  | .ref inner => lowerTy inner
  | .intN 8 => .int .i8
  | .intN 16 => .int .i16
  | .intN 32 => .int .i32
  | .intN _ => .int .i64
  | .array elem len =>
    match lowerTy elem with
    | .struct _ => .ptr
    | .array _ _ => .ptr
    | ty => .array ty (min len 4294967295)
  | .tuple elems => .struct (lowerTys elems)
  | _ => .ptr

def lowerTys : List Ty → List Llvm.Ty
  | [] => []
  | t :: rest => lowerTy t :: lowerTys rest

end

/-- How code for a value fails: while it is emitted, or when it runs. -/
inductive CodeFault where
  | emit (e : CodegenError)
  /-- `into_int_value` or `into_float_value` of another value. -/
  | panic
  /-- An instruction on a value of another type or size. -/
  | invalid
  | poison

def emitted (r : Except CodegenError α) : Except CodeFault α :=
  r.mapError .emit

/-- `fptosi` to `i64`. -/
def floatToInt (bits : BitVec 64) : Except CodeFault Val :=
  match Llvm.fptosi bits with
  | some n => .ok (.int .i64 n)
  | none => .error .poison

/-- `lower_cast`. -/
def lowerCast : CastKind → Val → Except CodeFault Val
  | .intToFloat, .double bits => .ok (.double bits)
  | .intToFloat, .int _ n => .ok (.double (Llvm.sitofp (n.signExtend 64)))
  | .floatToInt, .int .i64 n => floatToInt n
  | .floatToInt, .int _ _ => .error .invalid
  | .floatToInt, .double bits => floatToInt bits
  | .boolToInt, .int _ n => .ok (.int .i64 (n.setWidth 64))
  | .intToBool, .int _ n => .ok (.int .i1 (if n = 0 then 0 else 1))
  | .strToBytes, v => .ok v
  | .bytesToStr, v => .ok v
  | _, _ => .error .panic

/-- What the operand of a cast expression holds: the local `dest` after the assignment that the lowering emits, or the
operand of the expression itself. -/
def castOperand (m : Machine) (frame : Frame) (name : String) (dest : LocalId) (op : Operand) :
    Except CodeFault Val := do
  let v ← emitted (m.operand op)
  match castKind name with
  | none => return v
  | some (kind, _) =>
    let r ← lowerCast kind v
    emitted do
      let frame ← writePlace m frame (.ofLocal dest) r
      lowerPlaceLoad m frame (.ofLocal dest)

/-- The lowering assigns the cast to a new local of its type. -/
theorem lowerCast_eq (e : Mir.Sub) (target : Hir.TypeExpr) (span : Span) :
    Mir.lowerCast e target span = (do
      let op ← e.lower
      match castKind (castTargetName target) with
      | none => return op
      | some (kind, ty) =>
        let dest ← Mir.declareLocal "_cast" ty span false
        Mir.emitAssign (.ofLocal dest) (.cast kind op ty) span
        return .copy (.ofLocal dest)) := by
  unfold Mir.lowerCast castKind
  dsimp only
  split
  · rfl
  · split <;> rfl

/-- An integer of 64 bits or a double, by its bits. -/
inductive Number where
  | int (n : BitVec 64)
  | float (bits : BitVec 64)
  deriving DecidableEq

/-- The number as one of another type; none where it has no place there. -/
def Number.convert : Number → Ty → Option Number
  | .int n, .int => some (.int n)
  | .int n, .float => some (.float (Llvm.sitofp n))
  | .float bits, .int => (Llvm.fptosi bits).map .int
  | .float bits, .float => some (.float bits)
  | _, _ => none

/-- The values that the code has for a number of a type. The result of an operator on floats is kept in a slot for
integers. -/
inductive Represents : Ty → Number → Val → Prop
  | int (n : BitVec 64) : Represents .int (.int n) (.int .i64 n)
  | double (bits : BitVec 64) : Represents .float (.float bits) (.double bits)
  | slot (bits : BitVec 64) : Represents .float (.float bits) (.int .i64 bits)

/-- The local of a cast has an alloca of its type. -/
def Allocated (frame : Frame) (name : String) (dest : LocalId) : Prop :=
  ∀ kind ty, castKind name = some (kind, ty) → ∃ content, frame.allocas dest = some content ∧ content.ty = lowerTy ty

/-- Every cast to a type that the checker admits converts. -/
def Converts (names : Names) (target : Hir.TypeExpr) : Prop :=
  ∀ (m : Machine) (frame : Frame) (dest : LocalId) (op : Operand) (fromTy : Ty) (x y : Number) (v : Val),
    Allocated frame (castTargetName target) dest → castAllowed fromTy (castTarget names target) = true →
      m.operand op = .ok v → Represents fromTy x v → x.convert (castTarget names target) = some y →
        ∃ r, castOperand m frame (castTargetName target) dest op = .ok r ∧ Represents (castTarget names target) y r

/-- A number type is written with a name of its own. -/
def OwnName (names : Names) (target : Hir.TypeExpr) : Prop :=
  match castTarget names target with
  | .float => castTargetName target = "f64" ∨ castTargetName target = "float"
  | .int => castTargetName target = "i64" ∨ castTargetName target = "int"
  | _ => True

/-! ## Proof -/

section Emitted

variable {m : Machine} {frame : Frame} {name : String} {dest : LocalId} {op : Operand} {v r : Val} {kind : CastKind}
  {ty : Ty}

theorem emitted_ok (a : α) : emitted (.ok a) = .ok a :=
  rfl

theorem castOperand_move (hkind : castKind name = none) (hop : m.operand op = .ok v) :
    castOperand m frame name dest op = .ok v := by
  rw [castOperand, hop, hkind]
  rfl

/-- A value of the type of a local is read back from it. -/
theorem load_store (place : Mir.Place) (hbare : place.projections = []) {content : Val}
    (hcontent : frame.allocas place.localId = some content) (hty : content.ty = r.ty) :
    (writePlace m frame place r >>= fun frame => lowerPlaceLoad m frame place) = .ok r := by
  have hstore : store m content (coerceValueTo r content.ty) = r := by
    rw [hty, coerceValueTo_self, store, if_pos hty.symm]
  rw [writePlace, Frame.localAlloca, hcontent, except_ok_bind]
  dsimp only
  rw [hstore]
  change lowerPlaceLoad m { frame with allocas := Function.update frame.allocas place.localId (some r) } place = _
  unfold lowerPlaceLoad Frame.localAlloca
  rw [hbare]
  dsimp only
  rw [Function.update_self]
  rfl

theorem castOperand_cast (hkind : castKind name = some (kind, ty)) (halloc : Allocated frame name dest)
    (hop : m.operand op = .ok v) (hcast : lowerCast kind v = .ok r) (hty : r.ty = lowerTy ty) :
    castOperand m frame name dest op = .ok r := by
  obtain ⟨content, hcontent, hsame⟩ := halloc kind ty hkind
  rw [castOperand, hop, emitted_ok, except_ok_bind, hkind]
  dsimp only
  rw [hcast, except_ok_bind, load_store (.ofLocal dest) rfl hcontent (hsame.trans hty.symm), emitted_ok]

end Emitted

section Names

variable {name : String}

theorem castKind_float (h : name = "f64" ∨ name = "float") : castKind name = some (.intToFloat, .float) := by
  rcases h with rfl | rfl <;> rfl

theorem castKind_int (h : name = "i64" ∨ name = "int") : castKind name = some (.floatToInt, .int) := by
  rcases h with rfl | rfl <;> rfl

theorem castKind_cases (name : String) :
    (name = "f64" ∨ name = "float") ∧ castKind name = some (.intToFloat, .float) ∨
      (name = "i64" ∨ name = "int") ∧ castKind name = some (.floatToInt, .int) ∨ castKind name = none := by
  by_cases hf : name = "f64" ∨ name = "float"
  · exact .inl ⟨hf, castKind_float hf⟩
  by_cases hi : name = "i64" ∨ name = "int"
  · exact .inr (.inl ⟨hi, castKind_int hi⟩)
  · refine .inr (.inr ?_)
    obtain ⟨h₁, h₂⟩ := not_or.1 hf
    obtain ⟨h₃, h₄⟩ := not_or.1 hi
    simp [castKind, h₁, h₂, h₃, h₄]

end Names

/-- A machine on which every operand holds one value. -/
def constant (v : Val) : Machine where
  overlay old _ := old
  deref _ := 0
  arrayGet _ _ _ _ := none
  operand _ := .ok v
  extractOutOfRange := ""

/-- A frame in which every local holds one value. -/
def filled (content : Val) : Frame :=
  ⟨"", fun _ => some content, fun _ => none⟩

theorem allocated_filled {name : String} {kind : CastKind} {ty : Ty} {content : Val} {dest : LocalId}
    (hkind : castKind name = some (kind, ty)) (hty : content.ty = lowerTy ty) :
    Allocated (filled content) name dest := by
  intro kind' ty' hkind'
  rw [hkind] at hkind'
  cases hkind'
  exact ⟨content, rfl, hty⟩

theorem castAllowed_cases {fromTy toTy : Ty} (h : castAllowed fromTy toTy = true) :
    fromTy = .int ∧ toTy = .float ∨ fromTy = .float ∧ toTy = .int := by
  unfold castAllowed at h
  split at h
  · exact .inl ⟨rfl, rfl⟩
  · exact .inr ⟨rfl, rfl⟩
  · cases h

theorem floatToInt_eq {bits n : BitVec 64} (h : Llvm.fptosi bits = some n) : floatToInt bits = .ok (.int .i64 n) := by
  unfold floatToInt
  rw [h]

theorem lowerCast_int (n : BitVec 64) : lowerCast .intToFloat (.int .i64 n) = .ok (.double (Llvm.sitofp n)) := by
  change Except.ok (Val.double (Llvm.sitofp (n.signExtend 64))) = _
  rw [BitVec.signExtend_eq]

/-- A float is converted from its own type and from a slot for integers alike. -/
theorem lowerCast_float {bits n : BitVec 64} {v : Val} (hv : Represents .float (.float bits) v)
    (hn : Llvm.fptosi bits = some n) : lowerCast .floatToInt v = .ok (.int .i64 n) := by
  cases hv with
  | double => exact floatToInt_eq hn
  | slot => exact floatToInt_eq hn

theorem converts_of_ownName {names : Names} {target : Hir.TypeExpr} (h : OwnName names target) :
    Converts names target := by
  intro m frame dest op fromTy x y v halloc hallowed hop hv hy
  unfold OwnName at h
  rcases castAllowed_cases hallowed with ⟨rfl, hto⟩ | ⟨rfl, hto⟩
  · rw [hto] at h hy ⊢
    cases hv with
    | int n =>
      cases hy
      exact ⟨_, castOperand_cast (castKind_float h) halloc hop (lowerCast_int n) rfl, .double _⟩
  · rw [hto] at h hy ⊢
    obtain ⟨bits, rfl⟩ : ∃ bits, x = .float bits := by
      cases hv <;> exact ⟨_, rfl⟩
    obtain ⟨n, hn, rfl⟩ := Option.map_eq_some_iff.1 hy
    exact ⟨_, castOperand_cast (castKind_int h) halloc hop (lowerCast_float hv hn) rfl, .int n⟩

/-- A name that is not one for floats leaves an integer as it is, or reads its bits as those of a float. -/
theorem not_converts_float {names : Names} {target : Hir.TypeExpr} (hto : castTarget names target = .float)
    (hname : ¬ (castTargetName target = "f64" ∨ castTargetName target = "float")) : ¬ Converts names target := by
  intro h
  have hcast (content : Val) (halloc : Allocated (filled content) (castTargetName target) 0) :=
    h (constant (.int .i64 3)) (filled content) 0 (.copy (.ofLocal 0)) .int (.int 3) (.float (Llvm.sitofp 3))
      (.int .i64 3) halloc (by rw [hto]; rfl) rfl (.int 3) (by rw [hto]; rfl)
  rw [hto] at hcast
  rcases castKind_cases (castTargetName target) with ⟨hf, -⟩ | ⟨-, hkind⟩ | hkind
  · exact hname hf
  · obtain ⟨r, hr, hrep⟩ := hcast (.int .i64 0) (allocated_filled hkind rfl)
    have halloc : Allocated (filled (.int .i64 0)) (castTargetName target) 0 := allocated_filled hkind rfl
    have htrunc : Llvm.fptosi 3 = some 0 := by decide +kernel
    have hzero := lowerCast_float (.slot 3) htrunc
    rw [castOperand_cast hkind halloc rfl hzero rfl] at hr
    cases hr
    generalize hbits : Llvm.sitofp 3 = bits at hrep
    cases hrep
    exact absurd hbits (show Llvm.sitofp 3 ≠ (0 : BitVec 64) by decide)
  · have halloc : Allocated (filled (.int .i64 0)) (castTargetName target) 0 := by
      intro kind ty hkind'
      rw [hkind] at hkind'
      cases hkind'
    obtain ⟨r, hr, hrep⟩ := hcast (.int .i64 0) halloc
    rw [castOperand_move hkind rfl] at hr
    cases hr
    generalize hbits : Llvm.sitofp 3 = bits at hrep
    cases hrep
    exact absurd hbits (show Llvm.sitofp 3 ≠ (3 : BitVec 64) by decide)

/-- A name that is not one for integers leaves a float as it is. -/
theorem not_converts_int {names : Names} {target : Hir.TypeExpr} (hto : castTarget names target = .int)
    (hname : ¬ (castTargetName target = "i64" ∨ castTargetName target = "int")) : ¬ Converts names target := by
  intro h
  have hcast (content : Val) (halloc : Allocated (filled content) (castTargetName target) 0) :=
    h (constant (.double 0x3FF0000000000000)) (filled content) 0 (.copy (.ofLocal 0)) .float
      (.float 0x3FF0000000000000) (.int 1) (.double 0x3FF0000000000000) halloc (by rw [hto]; rfl) rfl (.double _)
      (by rw [hto]; decide)
  rw [hto] at hcast
  rcases castKind_cases (castTargetName target) with ⟨-, hkind⟩ | ⟨hi, -⟩ | hkind
  · have halloc : Allocated (filled (.double 0)) (castTargetName target) 0 := allocated_filled hkind rfl
    obtain ⟨r, hr, hrep⟩ := hcast (.double 0) halloc
    rw [castOperand_cast (r := .double 0x3FF0000000000000) hkind halloc rfl rfl rfl] at hr
    cases hr
    cases hrep
  · exact hname hi
  · have halloc : Allocated (filled (.int .i64 0)) (castTargetName target) 0 := by
      intro kind ty hkind'
      rw [hkind] at hkind'
      cases hkind'
    obtain ⟨r, hr, hrep⟩ := hcast (.int .i64 0) halloc
    rw [castOperand_move hkind rfl] at hr
    cases hr
    cases hrep

/-- Casts to a type convert just where it is no number type, or is written with a name of its own. -/
theorem cast_converts_iff (names : Names) (target : Hir.TypeExpr) : Converts names target ↔ OwnName names target := by
  refine ⟨fun h => ?_, converts_of_ownName⟩
  unfold OwnName
  split
  · next hto => exact Classical.byContradiction fun hname => not_converts_float hto hname h
  · next hto => exact Classical.byContradiction fun hname => not_converts_int hto hname h
  · trivial

/-- `type int = f64`. -/
def intAlias : Names where
  aliasMap name := if name = "int" then some .float else none
  classNames _ := none

def intTarget : Hir.TypeExpr :=
  .name ["int"] default

/-- `3 as int` is checked as a cast to float; the code takes the integer 3 for the bits of a float and cuts that to 0. -/
theorem cast_alias_reads_bits :
    castAllowed .int (castTarget intAlias intTarget) = true ∧
      castOperand (constant (.int .i64 3)) (filled (.int .i64 0)) (castTargetName intTarget) 0 (.copy (.ofLocal 0)) =
        .ok (.int .i64 0) ∧
      Llvm.sitofp 3 = 0x4008000000000000 ∧ ¬ Converts intAlias intTarget := by
  have hkind : castKind (castTargetName intTarget) = some (.floatToInt, .int) := castKind_int (.inr rfl)
  have htrunc : Llvm.fptosi 3 = some 0 := by decide +kernel
  refine ⟨rfl, ?_, by decide, not_converts_float rfl (by decide)⟩
  exact castOperand_cast hkind (allocated_filled hkind rfl) rfl (lowerCast_float (.slot 3) htrunc) rfl

end Cobrust.Codegen
