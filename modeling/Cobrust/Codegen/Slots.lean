import Cobrust.Codegen.Cast

/-!
# Slots of containers

The elements of containers are 64 bits wide. List literals widen an element with `coerce_value_to_i64`, calls of the
helpers for containers with the widening of `lower_call`, and stores with `coerce_value_to`, all of
`cobrust-codegen/src/llvm_backend.rs`. The first extends the sign, the others put zeros.

* `slot_consistent_iff`: where all ways to a slot agree.
-/

namespace Cobrust.Codegen

open Llvm (Val)

/-- `coerce_value_to_i64`, of list literals. -/
def coerceValueToI64 : Val → BitVec 64
  | .int .i64 n => n
  | .int _ n => n.signExtend 64
  | .double bits => bits
  | .ptr a => a
  | _ => 0

/-- What `lower_call` makes of an argument for a parameter. -/
def widenArg : Val → Llvm.Ty → Except CodeFault Val
  | .int w n, .int p => .ok (if w.bits < p.bits then .int p (n.setWidth p.bits) else .int w n)
  | .int _ n, .ptr => .ok (.ptr (n.setWidth 64))
  | .int .i64 n, .double => .ok (.double n)
  | .int _ _, .double => .error .invalid
  | v, _ => .ok v

/-- An argument as the helper sees it. A call is valid only with an argument of the type of its parameter. -/
def callArg (v : Val) (param : Llvm.Ty) : Except CodeFault Val := do
  let v ← widenArg v param
  if v.ty = param then return v else throw .invalid

/-- The bits of a value in a slot; none for a value of another size. -/
def slotBits : Val → Option (BitVec 64)
  | .int .i64 n => some n
  | .double bits => some bits
  | .ptr a => some a
  | _ => none

/-- The bits of a slot, loaded as a value of a type of its size. -/
def loadAs : Llvm.Ty → Val → Val
  | .int .i64, v => ((slotBits v).map fun bits => Val.int .i64 bits).getD v
  | .double, v => ((slotBits v).map Val.double).getD v
  | .ptr, v => ((slotBits v).map Val.ptr).getD v
  | _, v => v

/-! ## Ways to a slot -/

inductive Helper where
  | listAppend | listAppendFloat | listSet | setInsert | setContains
  deriving DecidableEq

/-- The type of the parameter for the element. -/
def Helper.param : Helper → Llvm.Ty
  | listAppendFloat => .double
  | _ => .int .i64

/-- The helper that an append is rewritten to. -/
def appendHelper : Ty → Helper
  | .float => .listAppendFloat
  | .ref .float => .listAppendFloat
  | _ => .listAppend

/-- The bits that a helper stores or compares. -/
def Helper.element (h : Helper) (v : Val) : Except CodeFault (BitVec 64) := do
  match slotBits (← callArg v h.param) with
  | some bits => return bits
  | none => throw .invalid

/-- The types whose values stand in one slot each. -/
def isScalar : Ty → Bool
  | .int => true
  | .intN _ => true
  | .bool => true
  | .float => true
  | .str => true
  | _ => false

/-- A value of a scalar type. -/
structure Scalar where
  ty : Ty
  val : Val
  scalar : isScalar ty = true
  typed : val.ty = lowerTy ty

inductive Way where
  | listLiteral | append | listSet | setInsert | setContains | store
  deriving DecidableEq

section Ways

variable (strClone : BitVec 64 → BitVec 64)

/-- A list literal holds copies of strings. -/
def literalElement (s : Scalar) : Val :=
  match s.ty, s.val with
  | .str, .ptr a => .ptr (strClone a)
  | _, v => v

def Way.slot (s : Scalar) : Way → Except CodeFault (BitVec 64)
  | listLiteral => .ok (coerceValueToI64 (literalElement strClone s))
  | append => (appendHelper s.ty).element s.val
  | listSet => Helper.listSet.element s.val
  | setInsert => Helper.setInsert.element s.val
  | setContains => Helper.setContains.element s.val
  | store =>
    match slotBits (coerceValueTo s.val (.int .i64)) with
    | some bits => .ok bits
    | none => .error .invalid

end Ways

/-- A slot read at a type: stored to a local of the type and loaded from there. -/
def readSlot (bits : BitVec 64) (ty : Ty) : Val :=
  loadAs (lowerTy ty) (coerceValueTo (.int .i64 bits) (lowerTy ty))

/-- All ways give the slot the same bits, which read back as the value. -/
def Consistent (strClone : BitVec 64 → BitVec 64) (s : Scalar) : Prop :=
  ∃ bits, (∀ way : Way, way.slot strClone s = .ok bits) ∧ readSlot bits s.ty = s.val

/-- An integer of the width of a slot, or a narrow one whose first bit is zero. -/
def Plain : Val → Prop
  | .int .i64 _ => True
  | .int _ n => n.msb = false
  | _ => False

section Widths

open Llvm (Width)

variable {w : Width} (n : BitVec w.bits)

/-- The sign and zeros fill a word alike where the first bit is zero, or there is nothing to fill. -/
theorem signExtend_eq_setWidth_iff : n.signExtend 64 = n.setWidth 64 ↔ w = .i64 ∨ n.msb = false := by
  constructor
  · intro h
    by_cases hw : w = .i64
    · exact .inl hw
    · have hlt : w.bits < 64 := by
        cases w <;> first | decide | exact absurd rfl hw
      have hmsb := congrArg BitVec.msb h
      rw [BitVec.msb_signExtend, if_neg (Nat.not_le_of_lt hlt), BitVec.msb_setWidth,
        BitVec.getLsbD_of_ge n 63 (Nat.le_of_lt_succ hlt)] at hmsb
      exact .inr (by simpa using hmsb)
  · rintro (rfl | h)
    · exact BitVec.signExtend_eq_setWidth_of_le n (Nat.le_refl 64)
    · exact BitVec.signExtend_eq_setWidth_of_msb_false h

theorem coerceValueToI64_int : coerceValueToI64 (.int w n) = n.signExtend 64 := by
  cases w with
  | i64 => exact (BitVec.signExtend_eq n).symm
  | _ => rfl

theorem plain_int : Plain (.int w n) ↔ w = .i64 ∨ n.msb = false := by
  cases w <;> simp [Plain]

theorem setWidth_word (n : BitVec 64) : n.setWidth 64 = n :=
  BitVec.setWidth_eq n

theorem callArg_int : callArg (.int w n) (.int .i64) = .ok (.int .i64 (n.setWidth 64)) := by
  cases w with
  | i64 => exact congrArg (fun n => Except.ok (Val.int .i64 n)) (setWidth_word n).symm
  | _ => rfl

theorem coerceValueTo_int : coerceValueTo (.int w n) (.int .i64) = .int .i64 (n.setWidth 64) := by
  cases w with
  | i64 => exact congrArg (Val.int .i64) (setWidth_word n).symm
  | _ => rfl

theorem readSlot_int {ty : Ty} (hty : lowerTy ty = .int w) : readSlot (n.setWidth 64) ty = .int w n := by
  rw [readSlot, hty]
  cases w with
  | i64 => exact congrArg (Val.int .i64) (setWidth_word n)
  | _ => exact congrArg (Val.int _) ((BitVec.setWidth_setWidth_of_le _ (by decide)).trans (BitVec.setWidth_eq n))

end Widths

/-! ## Scalars -/

theorem lowerTy_intN (width : Nat) : ∃ w, lowerTy (.intN width) = .int w := by
  by_cases h₈ : width = 8
  · exact ⟨.i8, h₈ ▸ rfl⟩
  by_cases h₁₆ : width = 16
  · exact ⟨.i16, h₁₆ ▸ rfl⟩
  by_cases h₃₂ : width = 32
  · exact ⟨.i32, h₃₂ ▸ rfl⟩
  · exact ⟨.i64, by simp [lowerTy]⟩

theorem exists_int {v : Val} {w : Llvm.Width} (h : v.ty = .int w) : ∃ n, v = .int w n := by
  cases v with
  | int w' n =>
    cases h
    exact ⟨n, rfl⟩
  | _ => cases h

theorem Scalar.cases (s : Scalar) :
    (∃ w n, s.val = .int w n ∧ lowerTy s.ty = .int w) ∨ s.ty = .float ∧ (∃ bits, s.val = .double bits) ∨
      s.ty = .str ∧ ∃ a, s.val = .ptr a := by
  obtain ⟨ty, val, hscalar, htyped⟩ := s
  have hint {w : Llvm.Width} (hw : lowerTy ty = .int w) : ∃ w n, val = .int w n ∧ lowerTy ty = .int w := by
    obtain ⟨n, rfl⟩ := exists_int (htyped.trans hw)
    exact ⟨w, n, rfl, hw⟩
  cases ty with
  | int => exact .inl (hint rfl)
  | bool => exact .inl (hint rfl)
  | intN width =>
    obtain ⟨w, hw⟩ := lowerTy_intN width
    exact .inl (hint hw)
  | float =>
    cases val with
    | double bits => exact .inr (.inl ⟨rfl, bits, rfl⟩)
    | _ => cases htyped
  | str =>
    cases val with
    | ptr a => exact .inr (.inr ⟨rfl, a, rfl⟩)
    | _ => cases htyped
  | _ => cases hscalar

section Consistency

variable {strClone : BitVec 64 → BitVec 64} {s : Scalar} {w : Llvm.Width} {n : BitVec w.bits}

theorem slot_int (hval : s.val = .int w n) (hty : lowerTy s.ty = .int w) (way : Way) :
    way.slot strClone s =
      .ok (if way = .listLiteral then n.signExtend 64 else n.setWidth 64) := by
  have hword (h : Helper) (hparam : h.param = .int .i64) : h.element s.val = .ok (n.setWidth 64) := by
    rw [Helper.element, hparam, hval, callArg_int]
    rfl
  cases way with
  | listLiteral =>
    have hliteral : literalElement strClone s = .int w n := by
      unfold literalElement
      split
      · next hptr =>
        rw [hval] at hptr
        cases hptr
      · exact hval
    rw [Way.slot, hliteral, coerceValueToI64_int]
    rfl
  | append =>
    rw [Way.slot]
    refine hword _ ?_
    unfold appendHelper
    split
    · next hfloat =>
      rw [hfloat] at hty
      cases hty
    · next hfloat =>
      rw [hfloat] at hty
      cases hty
    · rfl
  | listSet => exact hword _ rfl
  | setInsert => exact hword _ rfl
  | setContains => exact hword _ rfl
  | store =>
    rw [Way.slot, hval, coerceValueTo_int]
    rfl

theorem consistent_int (hval : s.val = .int w n) (hty : lowerTy s.ty = .int w) :
    Consistent strClone s ↔ n.signExtend 64 = n.setWidth 64 := by
  constructor
  · rintro ⟨bits, hways, -⟩
    have hliteral := (slot_int hval hty .listLiteral).symm.trans (hways .listLiteral)
    have hstore := (slot_int hval hty .store).symm.trans (hways .store)
    exact (Except.ok.inj hliteral).trans (Except.ok.inj hstore).symm
  · intro heq
    refine ⟨n.setWidth 64, fun way => ?_, ?_⟩
    · rw [slot_int hval hty, heq, ite_self]
    · rw [readSlot_int n hty, hval]

theorem not_consistent (hval : ∀ w n, s.val ≠ .int w n) (hty : s.val.ty ≠ .int .i64) : ¬ Consistent strClone s := by
  rintro ⟨bits, hways, -⟩
  have hset := hways .listSet
  have hinvalid : callArg s.val (.int .i64) = .error .invalid := by
    have hwiden : widenArg s.val (.int .i64) = .ok s.val := by
      cases hs : s.val with
      | int w n => exact absurd hs (hval w n)
      | _ => rfl
    rw [callArg, hwiden]
    exact if_neg hty
  rw [Way.slot, Helper.element] at hset
  change (callArg s.val (.int .i64) >>= _) = _ at hset
  rw [hinvalid] at hset
  cases hset

/-- All ways to a slot agree on words, and on narrow integers whose first bit is zero. -/
theorem slot_consistent_iff (strClone : BitVec 64 → BitVec 64) (s : Scalar) : Consistent strClone s ↔ Plain s.val := by
  rcases s.cases with ⟨w, n, hval, hty⟩ | ⟨-, bits, hval⟩ | ⟨-, a, hval⟩
  · rw [consistent_int hval hty, hval, plain_int, signExtend_eq_setWidth_iff]
  · refine iff_of_false (not_consistent (fun w n => ?_) ?_) ?_
    all_goals
      rw [hval]
      intro h
      cases h
  · refine iff_of_false (not_consistent (fun w n => ?_) ?_) ?_
    all_goals
      rw [hval]
      intro h
      cases h

/-- `True`. -/
def trueScalar : Scalar :=
  ⟨.bool, .int .i1 1, rfl, rfl⟩

/-- `[True]` holds -1, and a helper is passed 1. -/
theorem true_has_two_slots :
    Way.listLiteral.slot id trueScalar = .ok (-1) ∧ Way.setContains.slot id trueScalar = .ok 1 ∧
      ¬ Consistent id trueScalar := by
  refine ⟨rfl, rfl, fun ⟨bits, hways, _⟩ => ?_⟩
  have heq : (-1 : BitVec 64) = 1 :=
    (Except.ok.inj (hways .listLiteral)).trans (Except.ok.inj (hways .setContains)).symm
  exact absurd heq (by decide)

end Consistency

end Cobrust.Codegen
