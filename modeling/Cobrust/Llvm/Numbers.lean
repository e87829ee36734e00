import Mathlib.Algebra.Group.Nat.Defs
import Mathlib.Algebra.Ring.Int.Defs
import Mathlib.Data.BitVec

/-!
# Numbers of LLVM

The conversions between 64-bit integers and doubles, and the instructions on integers that are not defined on all
operands.
-/

/-!
## Doubles and integers

A double is its bits: the sign, eleven bits of exponent, and the 52 bits behind the leading one of the significand.
-/

namespace Cobrust.Llvm

/-- The quotient by `2 ^ s`, rounded to the nearest, halves to the even one. -/
def roundShift (m s : Nat) : Nat :=
  let q := m / 2 ^ s
  let r := m % 2 ^ s
  if 2 * r > 2 ^ s ∨ 2 * r = 2 ^ s ∧ q % 2 = 1 then q + 1 else q

/-- The bits of the double nearest to a number. The leading bit of the significand, or the carry of its rounding, counts
into the exponent. -/
def doubleBits (m : Nat) : Nat :=
  if m = 0 then 0
  else
    let e := m.log2
    (e + 1022) * 2 ^ 52 + if e ≤ 52 then m * 2 ^ (52 - e) else roundShift m (e - 52)

/-- `sitofp` -/
def sitofp (n : BitVec 64) : BitVec 64 :=
  BitVec.ofNat 64 (doubleBits n.toInt.natAbs + if n.toInt < 0 then 2 ^ 63 else 0)

/-- The number without its fraction; none for infinities and what is no number. -/
def truncate (bits : BitVec 64) : Option Int :=
  let exponent := bits.toNat / 2 ^ 52 % 2 ^ 11
  let fraction := bits.toNat % 2 ^ 52
  if exponent = 2047 then none
  else
    let significand := if exponent = 0 then fraction else 2 ^ 52 + fraction
    let magnitude : Nat := significand * 2 ^ (exponent - 1075) / 2 ^ (1075 - max exponent 1)
    some (if bits.msb then -(magnitude : Int) else magnitude)

/-- `fptosi`; poison where the number has no place in 64 bits. -/
def fptosi (bits : BitVec 64) : Option (BitVec 64) :=
  match truncate bits with
  | some n => if -2 ^ 63 ≤ n ∧ n < 2 ^ 63 then some (BitVec.ofInt 64 n) else none
  | none => none

example : sitofp (-3) = 0xC008000000000000 ∧ fptosi 0xC008000000000000 = some (-3) := by decide

/-- Halves go to the even neighbour. -/
example : sitofp 0x20000000000001 = 0x4340000000000000 ∧ sitofp 0x20000000000003 = 0x4340000000000002 := by decide

end Cobrust.Llvm

/-!
## Integers

The instructions on integers of `w` bits that are not defined on all operands, with their meaning over
the integers. `none` stands for undefined behaviour and for poison alike; the other instructions are
those of `BitVec`.
-/

namespace Cobrust.Llvm

inductive IntPredicate where
  | eq | ne | slt | sle | sgt | sge
  deriving DecidableEq, Repr

variable {w : Nat}

def icmp (pred : IntPredicate) (a b : BitVec w) : Bool :=
  match pred with
  | .eq => a == b
  | .ne => a != b
  | .slt => a.slt b
  | .sle => a.sle b
  | .sgt => b.slt a
  | .sge => b.sle a

/-- What a division needs: a divisor, and a quotient that has a place in `w` bits. -/
abbrev DivDefined (a b : BitVec w) : Prop :=
  b ≠ 0#w ∧ ¬ (a = BitVec.intMin w ∧ b = -1#w)

def sdiv (a b : BitVec w) : Option (BitVec w) :=
  if DivDefined a b then some (a.sdiv b) else none

def srem (a b : BitVec w) : Option (BitVec w) :=
  if DivDefined a b then some (a.srem b) else none

/-- The amount of a shift is read without sign. -/
def shl (a b : BitVec w) : Option (BitVec w) :=
  if b.toNat < w then some (a <<< b.toNat) else none

def ashr (a b : BitVec w) : Option (BitVec w) :=
  if b.toNat < w then some (a.sshiftRight b.toNat) else none

variable {a b : BitVec w}

theorem sdiv_ofInt (a b : BitVec w) : a.sdiv b = BitVec.ofInt w (a.toInt.tdiv b.toInt) := by
  apply BitVec.eq_of_toInt_eq
  rw [BitVec.toInt_sdiv, BitVec.toInt_ofInt]

theorem srem_ofInt (a b : BitVec w) : a.srem b = BitVec.ofInt w (a.toInt.tmod b.toInt) := by
  rw [← BitVec.toInt_srem, BitVec.ofInt_toInt]

theorem shiftLeft_ofInt (a : BitVec w) (n : Nat) : a <<< n = BitVec.ofInt w (a.toInt * 2 ^ n) := by
  apply BitVec.eq_of_toInt_eq
  rw [BitVec.toInt_shiftLeft, BitVec.toInt_ofInt, BitVec.toInt_eq_toNat_bmod, Int.bmod_mul_bmod,
    Nat.shiftLeft_eq, Int.natCast_mul, Int.natCast_pow]
  rfl

theorem sshiftRight_ofInt (a : BitVec w) (n : Nat) :
    a.sshiftRight n = BitVec.ofInt w (a.toInt / 2 ^ n) := by
  rw [← BitVec.ofInt_toInt (x := a.sshiftRight n), BitVec.toInt_sshiftRight,
    Int.shiftRight_eq_div_pow, Int.natCast_pow]
  rfl

theorem sub_ofInt (x y : Int) : BitVec.ofInt w (x - y) = BitVec.ofInt w x - BitVec.ofInt w y := by
  apply BitVec.eq_of_toInt_eq
  simp

theorem toInt_ne_zero : b.toInt ≠ 0 ↔ b ≠ 0#w := by
  rw [ne_eq, ne_eq, ← BitVec.toInt_inj, BitVec.toInt_zero]

/-! ## Division toward minus infinity

A truncated quotient is one too large where it is not exact and the operands have different signs, and a
truncated remainder lacks the divisor there. -/

theorem slt_zero_xor : (a ^^^ b).slt 0#w = true ↔ (a.toInt < 0 ↔ ¬ b.toInt < 0) := by
  rw [BitVec.slt_zero_iff_msb_cond, BitVec.msb_xor, BitVec.msb_eq_toInt, BitVec.msb_eq_toInt]
  by_cases ha : a.toInt < 0 <;> by_cases hb : b.toInt < 0 <;> simp [ha, hb]

theorem srem_ne_zero : a.srem b ≠ 0#w ↔ ¬ b.toInt ∣ a.toInt := by
  rw [ne_eq, ← BitVec.toInt_inj, BitVec.toInt_srem, BitVec.toInt_zero, Int.dvd_iff_tmod_eq_zero]

theorem sign_tmod {x y : Int} (h : ¬ y ∣ x) : x.tmod y < 0 ↔ x < 0 := by
  have hne : x.tmod y ≠ 0 := fun hzero => h (Int.dvd_of_tmod_eq_zero hzero)
  constructor
  · intro hneg
    by_contra hx
    have := Int.tmod_nonneg y (Int.not_lt.1 hx)
    omega
  · intro hx
    have hflip : 0 ≤ (-x).tmod y := Int.tmod_nonneg y (by omega)
    rw [Int.neg_tmod] at hflip
    omega

/-- The quotient of a floor division, from the truncated one. -/
theorem fdiv_of_tdiv {x y : Int} (hy : y ≠ 0) :
    x.fdiv y = if ¬ y ∣ x ∧ (x < 0 ↔ ¬ y < 0) then x.tdiv y - 1 else x.tdiv y := by
  rw [Int.fdiv_eq_tdiv]
  by_cases hdvd : y ∣ x
  · simp [hdvd]
  · rcases Int.lt_or_gt_of_ne hy with hneg | hpos
    · have hsign := Int.sign_eq_neg_one_of_neg hneg
      by_cases hx : x < 0 <;> simp [hdvd, hneg, hx, hsign, Int.not_le.2 hneg]
    · have hsign := Int.sign_eq_one_of_pos hpos
      by_cases hx : x < 0 <;> simp [hdvd, hx, hsign, Int.le_of_lt hpos, Int.not_lt.2 (Int.le_of_lt hpos)]

/-- The remainder of a floor division, from the truncated one. -/
theorem fmod_of_tmod {x y : Int} (hy : y ≠ 0) :
    x.fmod y = if ¬ y ∣ x ∧ (x < 0 ↔ ¬ y < 0) then x.tmod y + y else x.tmod y := by
  rw [Int.fmod_eq_tmod]
  have hsign : y < 0 ∨ 0 < y := Int.lt_or_gt_of_ne hy
  by_cases hdvd : y ∣ x
  · simp only [hdvd, if_true, not_true_eq_false, false_and, if_false, Int.add_zero]
  · simp only [hdvd, if_false, not_false_eq_true, true_and]
    split_ifs <;> omega

end Cobrust.Llvm
