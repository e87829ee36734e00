import Cobrust.Llvm.Numbers
import Cobrust.Mir.Lower.Operator

/-!
# Integer operators in LLVM

`lower_binop` and `lower_unop` of `cobrust-codegen/src/llvm_backend.rs` on two `i64` values: the
instructions they emit, run on the values. A comparison leaves an `i1`; everything else leaves a word.

* `integer_operators`: under the division assert, an operator gives the wrapped mathematical result
  exactly when its operands keep off the cases that LLVM leaves undefined.
-/

namespace Cobrust.Codegen

open Mir (BinOp UnOp)
open Llvm (DivDefined)

inductive CodegenError where
  | invalidMir (msg : String)
  | llvmError (msg : String)
  | unimplementedBinOp (op note : String)
  deriving DecidableEq, Repr

inductive Value where
  | word (v : BitVec 64)
  | bit (b : Bool)
  deriving DecidableEq, Repr

/-- `//`: one less than the truncated quotient where it is not exact and the signs differ. -/
def floorDivWords (a b : BitVec 64) : Option (BitVec 64) := do
  let q ← Llvm.sdiv a b
  let rem ← Llvm.srem a b
  let remNonzero := Llvm.icmp .ne rem 0#64
  let signsDiffer := Llvm.icmp .slt (a ^^^ b) 0#64
  let needAdjust := remNonzero && signsDiffer
  let qMinus1 := q - 1#64
  return if needAdjust then qMinus1 else q

/-- `%`: the divisor is added to a remainder of the other sign. -/
def modWords (a b : BitVec 64) : Option (BitVec 64) := do
  let rem ← Llvm.srem a b
  let remNonzero := Llvm.icmp .ne rem 0#64
  let signsDiffer := Llvm.icmp .slt (rem ^^^ b) 0#64
  let needAdjust := remNonzero && signsDiffer
  let adjusted := rem + b
  return if needAdjust then adjusted else rem

/-- `none` where an instruction has no defined result. -/
def lowerBinop (op : BinOp) (a b : BitVec 64) : Except CodegenError (Option Value) :=
  let word (result : Option (BitVec 64)) : Except CodegenError (Option Value) :=
    .ok (result.map .word)
  let compare (pred : Llvm.IntPredicate) : Except CodegenError (Option Value) :=
    .ok (some (.bit (Llvm.icmp pred a b)))
  match op with
  | .add => word (some (a + b))
  | .sub => word (some (a - b))
  | .mul => word (some (a * b))
  | .div => word (Llvm.sdiv a b)
  | .floorDiv => word (floorDivWords a b)
  | .mod => word (modWords a b)
  | .bitAnd | .and => word (some (a &&& b))
  | .bitOr | .or => word (some (a ||| b))
  | .bitXor => word (some (a ^^^ b))
  | .shl => word (Llvm.shl a b)
  | .shr => word (Llvm.ashr a b)
  | .eq => compare .eq
  | .notEq => compare .ne
  | .lt => compare .slt
  | .ltEq => compare .sle
  | .gt => compare .sgt
  | .gtEq => compare .sge
  | .pow => .error (.unimplementedBinOp "**"
      "integer pow / float pow stdlib helper is M11.x scope (ADR-0041 §H3)")
  | .matMul => .error (.unimplementedBinOp "@"
      "matrix multiplication requires cobrust-coil runtime (ADR-0041 §H3, ADR-0071 cobra-rebrand: numpy → coil)")
  | .in => .error (.unimplementedBinOp "in"
      "container-membership requires cobrust-stdlib iterator equality (ADR-0041 §H3)")
  | .notIn => .error (.unimplementedBinOp "not in"
      "container non-membership requires cobrust-stdlib iterator equality (ADR-0041 §H3)")

def lowerUnop (op : UnOp) (a : BitVec 64) : BitVec 64 :=
  match op with
  | .plus => a
  | .neg => -a
  | .bitNot | .not => ~~~a

def isDivision : BinOp → Bool
  | .div | .floorDiv | .mod => true
  | _ => false

/-- The operators before which `lower_bin` emits the assert, on integers. -/
theorem lowerPlainBin_guard (op : Hir.BinOp) :
    (op = .div || op = .floorDiv || op = .mod) = isDivision (Mir.binToMir op) := by
  cases op <;> rfl

/-- The assert compares the divisor with zero. -/
def assertPasses (op : BinOp) (b : BitVec 64) : Prop :=
  isDivision op = true → lowerBinop .notEq b 0#64 = .ok (some (.bit true))

theorem assertPasses_iff {op : BinOp} {b : BitVec 64} :
    assertPasses op b ↔ (isDivision op = true → b ≠ 0#64) := by
  simp [assertPasses, lowerBinop, Llvm.icmp]

/-- The operator on the integers: `/` truncates, `//` rounds toward minus infinity and `%` has the sign of
the divisor. A shift by a negative amount means nothing. -/
def meaning (op : BinOp) (x y : Int) : Option Int :=
  match op with
  | .add => some (x + y)
  | .sub => some (x - y)
  | .mul => some (x * y)
  | .div => some (x.tdiv y)
  | .floorDiv => some (x.fdiv y)
  | .mod => some (x.fmod y)
  | .shl => if 0 ≤ y then some (x * 2 ^ y.toNat) else none
  | .shr => if 0 ≤ y then some (x / 2 ^ y.toNat) else none
  | _ => none

/-- The operators of integer arithmetic. -/
def isArithmetic : BinOp → Bool
  | .add | .sub | .mul | .div | .floorDiv | .mod | .shl | .shr => true
  | _ => false

/-- All instructions are defined, and leave the two's complement of the meaning. -/
def Computes (op : BinOp) (a b : BitVec 64) : Prop :=
  ∃ v, lowerBinop op a b = .ok (some (.word v)) ∧
    ∀ r, meaning op a.toInt b.toInt = some r → v = BitVec.ofInt 64 r

/-- No quotient that is out of range, no shift amount outside `0..64`. -/
def Safe (op : BinOp) (a b : BitVec 64) : Prop :=
  match op with
  | .div | .floorDiv | .mod => ¬ (a = BitVec.intMin 64 ∧ b = -1#64)
  | .shl | .shr => 0 ≤ b.toInt ∧ b.toInt < 64
  | _ => True

variable {a b v : BitVec 64}

/-! ## One operator each -/

theorem needAdjust_iff {rem : BitVec 64} (hrem : rem = a.srem b) :
    (Llvm.icmp .ne rem 0#64 && Llvm.icmp .slt (a ^^^ b) 0#64) = true ↔
      ¬ b.toInt ∣ a.toInt ∧ (a.toInt < 0 ↔ ¬ b.toInt < 0) := by
  subst hrem
  rw [Bool.and_eq_true, Llvm.icmp, Llvm.icmp, bne_iff_ne, Llvm.srem_ne_zero, Llvm.slt_zero_xor]

/-- The sign of a remainder that is not zero is that of the dividend. -/
theorem needAdjust_rem_iff {rem : BitVec 64} (hrem : rem = a.srem b) :
    (Llvm.icmp .ne rem 0#64 && Llvm.icmp .slt (rem ^^^ b) 0#64) = true ↔
      ¬ b.toInt ∣ a.toInt ∧ (a.toInt < 0 ↔ ¬ b.toInt < 0) := by
  subst hrem
  rw [Bool.and_eq_true, Llvm.icmp, Llvm.icmp, bne_iff_ne, Llvm.srem_ne_zero, Llvm.slt_zero_xor,
    BitVec.toInt_srem]
  exact and_congr_right fun hdvd => by rw [Llvm.sign_tmod hdvd]

theorem floorDivWords_eq : floorDivWords a b =
    if DivDefined a b then some (BitVec.ofInt 64 (a.toInt.fdiv b.toInt)) else none := by
  by_cases hdef : DivDefined a b
  · have hb : b.toInt ≠ 0 := Llvm.toInt_ne_zero.2 hdef.1
    simp only [floorDivWords, Llvm.sdiv, Llvm.srem, if_pos hdef, Option.bind_eq_bind,
      Option.bind_some, needAdjust_iff rfl, Llvm.fdiv_of_tdiv hb]
    split
    · rw [Llvm.sub_ofInt, ← Llvm.sdiv_ofInt]
      rfl
    · rw [← Llvm.sdiv_ofInt]
      rfl
  · simp only [floorDivWords, Llvm.sdiv, if_neg hdef, Option.bind_eq_bind, Option.bind_none]

theorem modWords_eq : modWords a b =
    if DivDefined a b then some (BitVec.ofInt 64 (a.toInt.fmod b.toInt)) else none := by
  by_cases hdef : DivDefined a b
  · have hb : b.toInt ≠ 0 := Llvm.toInt_ne_zero.2 hdef.1
    simp only [modWords, Llvm.srem, if_pos hdef, Option.bind_eq_bind, Option.bind_some,
      needAdjust_rem_iff rfl, Llvm.fmod_of_tmod hb]
    split
    · rw [BitVec.ofInt_add, ← Llvm.srem_ofInt, BitVec.ofInt_toInt]
      rfl
    · rw [← Llvm.srem_ofInt]
      rfl
  · simp only [modWords, Llvm.srem, if_neg hdef, Option.bind_eq_bind, Option.bind_none]

/-- An amount that is read without sign is in range exactly when the signed one is. -/
theorem toNat_lt_iff : b.toNat < 64 ↔ 0 ≤ b.toInt ∧ b.toInt < 64 := by
  rw [BitVec.toInt_eq_toNat_cond]
  have := b.isLt
  split <;> omega

/-- An instruction that is guarded by `P` computes what it means exactly when `P` holds. -/
theorem computes_iff {op : BinOp} {P : Prop} [Decidable P] {r : Int}
    (hlower : lowerBinop op a b = .ok ((if P then some (BitVec.ofInt 64 r) else none).map .word))
    (hmeaning : P → meaning op a.toInt b.toInt = some r) : Computes op a b ↔ P := by
  rw [Computes, hlower]
  by_cases hP : P
  · refine iff_of_true ⟨BitVec.ofInt 64 r, by rw [if_pos hP]; rfl, ?_⟩ hP
    intro r' hr'
    rw [hmeaning hP, Option.some.injEq] at hr'
    rw [hr']
  · refine iff_of_false ?_ hP
    rintro ⟨v, hv, -⟩
    rw [if_neg hP] at hv
    cases hv

theorem computes_div (hb : b ≠ 0#64) {op : BinOp} {r : Int}
    (hlower : lowerBinop op a b =
      .ok ((if DivDefined a b then some (BitVec.ofInt 64 r) else none).map .word))
    (hmeaning : meaning op a.toInt b.toInt = some r) :
    Computes op a b ↔ ¬ (a = BitVec.intMin 64 ∧ b = -1#64) :=
  (computes_iff hlower fun _ => hmeaning).trans (and_iff_right hb)

theorem computes_shift {op : BinOp} {r : Int}
    (hlower : lowerBinop op a b =
      .ok ((if b.toNat < 64 then some (BitVec.ofInt 64 r) else none).map .word))
    (hmeaning : b.toNat < 64 → meaning op a.toInt b.toInt = some r) :
    Computes op a b ↔ 0 ≤ b.toInt ∧ b.toInt < 64 :=
  (computes_iff hlower hmeaning).trans toNat_lt_iff

theorem toInt_toNat (h : b.toNat < 64) : 0 ≤ b.toInt ∧ b.toInt.toNat = b.toNat := by
  rw [BitVec.toInt_eq_toNat_cond]
  split <;> omega

theorem computes_word {op : BinOp} {r : Int} (hlower : lowerBinop op a b = .ok (some (.word (BitVec.ofInt 64 r))))
    (hmeaning : meaning op a.toInt b.toInt = some r) : Computes op a b := by
  refine ⟨BitVec.ofInt 64 r, hlower, ?_⟩
  intro r' hr'
  rw [hmeaning, Option.some.injEq] at hr'
  rw [hr']

theorem computes_iff_safe {op : BinOp} (harith : isArithmetic op = true) (hassert : assertPasses op b) :
    Computes op a b ↔ Safe op a b := by
  have hguard := assertPasses_iff.1 hassert
  cases op with
  | add =>
    refine iff_of_true (computes_word (r := a.toInt + b.toInt) ?_ rfl) trivial
    rw [BitVec.ofInt_add, BitVec.ofInt_toInt, BitVec.ofInt_toInt]
    rfl
  | sub =>
    refine iff_of_true (computes_word (r := a.toInt - b.toInt) ?_ rfl) trivial
    rw [Llvm.sub_ofInt, BitVec.ofInt_toInt, BitVec.ofInt_toInt]
    rfl
  | mul =>
    refine iff_of_true (computes_word (r := a.toInt * b.toInt) ?_ rfl) trivial
    rw [BitVec.ofInt_mul, BitVec.ofInt_toInt, BitVec.ofInt_toInt]
    rfl
  | div =>
    refine computes_div (hguard rfl) (r := a.toInt.tdiv b.toInt) ?_ rfl
    rw [← Llvm.sdiv_ofInt]
    rfl
  | floorDiv =>
    refine computes_div (hguard rfl) (r := a.toInt.fdiv b.toInt) ?_ rfl
    rw [← floorDivWords_eq]
    rfl
  | mod =>
    refine computes_div (hguard rfl) (r := a.toInt.fmod b.toInt) ?_ rfl
    rw [← modWords_eq]
    rfl
  | shl =>
    refine computes_shift (r := a.toInt * 2 ^ b.toNat) ?_ ?_
    · rw [← Llvm.shiftLeft_ofInt]
      rfl
    · intro hlt
      obtain ⟨hnonneg, hamount⟩ := toInt_toNat hlt
      rw [meaning, if_pos hnonneg, hamount]
  | shr =>
    refine computes_shift (r := a.toInt / 2 ^ b.toNat) ?_ ?_
    · rw [← Llvm.sshiftRight_ofInt]
      rfl
    · intro hlt
      obtain ⟨hnonneg, hamount⟩ := toInt_toNat hlt
      rw [meaning, if_pos hnonneg, hamount]
  | _ => cases harith

theorem floorDiv_mod {q r : BitVec 64} (hq : lowerBinop .floorDiv a b = .ok (some (.word q)))
    (hr : lowerBinop .mod a b = .ok (some (.word r))) : q * b + r = a := by
  simp only [lowerBinop, floorDivWords_eq, modWords_eq] at hq hr
  by_cases hdef : DivDefined a b
  · simp only [if_pos hdef, Option.map_some, Except.ok.injEq, Option.some.injEq, Value.word.injEq] at hq hr
    subst hq hr
    calc BitVec.ofInt 64 (a.toInt.fdiv b.toInt) * b + BitVec.ofInt 64 (a.toInt.fmod b.toInt)
        = BitVec.ofInt 64 (a.toInt.fdiv b.toInt * b.toInt + a.toInt.fmod b.toInt) := by
          rw [BitVec.ofInt_add, BitVec.ofInt_mul, BitVec.ofInt_toInt]
      _ = BitVec.ofInt 64 a.toInt := by rw [Int.fdiv_mul_add_fmod]
      _ = a := BitVec.ofInt_toInt
  · simp only [if_neg hdef, Option.map_none] at hq
    cases hq

/-- Behind the division assert an operator computes what it means exactly where it is `Safe`; the negation
always does, and quotient and remainder fit together. -/
theorem integer_operators (a b : BitVec 64) :
    (∀ op, isArithmetic op = true → assertPasses op b → (Computes op a b ↔ Safe op a b)) ∧
      lowerUnop .neg a = BitVec.ofInt 64 (-a.toInt) ∧
      ∀ q r, lowerBinop .floorDiv a b = .ok (some (.word q)) →
        lowerBinop .mod a b = .ok (some (.word r)) → q * b + r = a := by
  refine ⟨fun op harith hassert => computes_iff_safe harith hassert, ?_, fun q r hq hr => floorDiv_mod hq hr⟩
  rw [BitVec.ofInt_neg, BitVec.ofInt_toInt]
  rfl

/-- `-7 // 2` and `-7 % 2`. -/
theorem integer_operators_neg_seven :
    Computes .floorDiv (-7#64) 2#64 ∧ Computes .mod (-7#64) 2#64 ∧ (-4#64) * 2#64 + 1#64 = -7#64 := by
  obtain ⟨hops, -, hfit⟩ := integer_operators (-7#64) 2#64
  refine ⟨(hops .floorDiv rfl ?_).2 ?_, (hops .mod rfl ?_).2 ?_, hfit _ _ ?_ ?_⟩
  · exact assertPasses_iff.2 fun _ => by decide
  · simp [Safe]
  · exact assertPasses_iff.2 fun _ => by decide
  · simp [Safe]
  · rfl
  · rfl

/-- The smallest integer divided by minus one: the divisor is not zero, and `sdiv` is not defined. -/
theorem divides_smallest_by_minus_one :
    ¬ ∀ (op : BinOp) (a b : BitVec 64), isArithmetic op = true → assertPasses op b → Computes op a b := by
  intro hall
  obtain ⟨v, hv, -⟩ := hall .div (BitVec.intMin 64) (-1#64) rfl (assertPasses_iff.2 fun _ => by decide)
  cases hv

end Cobrust.Codegen
