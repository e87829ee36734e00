import Cobrust.Pit.OpenApi
import Cobrust.Pit.RoundTrip
import Cobrust.Pit.Validation
import Cobrust.Types.RefinementGrammar

/-!
# What the predicate of a field means

The predicate of a field is read as an expression over the value of the field, and its interpretation as what the
validation of a request makes of it.

* `interpretRefinement_attachable`: an accepted predicate fits the type of its field.
* `admits_iff_not_atEdge`: the interpretation admits a value as the predicate says, unless the predicate puts the
  value strictly beyond an end of the 64-bit integers and the value is that end, or the value is no number.
-/

namespace Cobrust.Pit

open Hir (Expr ExprKind BinOp)
open Types
open ClassTable (Whole)

variable {F : Type}

/-- The values of a field with a predicate. A text in memory has fewer than `2 ^ 63` characters. -/
inductive FieldValue (F : Type) where
  | int (n : Int64)
  | float (x : F)
  | str (s : Text) (fits : s.length < 2 ^ 63)

/-- What is documented of the comparisons of floats. -/
class LawfulF64Order (F : Type) [F64 F] [F64Order F] : Prop where
  le_iff : ∀ x y : F, F64Order.le x y = true ↔
    F64Order.isNan x = false ∧ F64Order.isNan y = false ∧ F64.lt y x = false
  lt_nan : ∀ x y : F, F64Order.isNan x = true ∨ F64Order.isNan y = true → F64.lt x y = false
  isNan_of_finite : ∀ x : F, F64.isFinite x = true → F64Order.isNan x = false

section Meaning

variable {β : Type}

/-- What an operand of a comparison denotes: the subject, or a literal. -/
def operandValue (isSubject : Expr → Bool) (value : β) (literal : Expr → Option β) (e : Expr) : Option β :=
  if isSubject e then some value else literal e

def compareValues (lt le : β → β → Bool) (op : BinOp) (a b : β) : Option Bool :=
  match op with
  | .lt => some (lt a b)
  | .ltEq => some (le a b)
  | .gt => some (lt b a)
  | .gtEq => some (le b a)
  | _ => none

def evalComparison (operand : Expr → Option β) (lt le : β → β → Bool) (e : Expr) : Option Bool :=
  match e.kind with
  | .bin op lhs rhs => (operand lhs).bind fun a => (operand rhs).bind fun b => compareValues lt le op a b
  | _ => none

def evalConjunction (eval : Expr → Option Bool) (pred : Expr) : Option Bool :=
  match pred.kind with
  | .bin .and lhs rhs => (eval lhs).bind fun a => (eval rhs).map fun b => a && b
  | _ => eval pred

end Meaning

/-- A comparison of an integer subject. -/
def evalIntComparison (isSubject : Expr → Bool) (value : Int) : Expr → Option Bool :=
  evalComparison (operandValue isSubject value fun e => (literalIntValue e).map Int64.toInt)
    (fun a b => decide (a < b)) fun a b => decide (a ≤ b)

section Float

variable [F64 F] [F64Order F]

/-- A comparison of a float; an integer literal beside it is read as a float. -/
def evalFloatComparison (value : F) : Expr → Option Bool :=
  evalComparison (operandValue isSelfName value literalFloat) F64.lt F64Order.le

/-- The value of a predicate for a value of the field. -/
def evalPredicate (isMatch : Text → Text → Bool) (pred : Expr) : FieldValue F → Option Bool
  | .int n => evalConjunction (evalIntComparison isSelfName n.toInt) pred
  | .float x => evalConjunction (evalFloatComparison x) pred
  | .str s _ =>
    match parsePatternCall pred with
    | some regex => some (isMatch regex.toList s)
    | none => evalConjunction (evalIntComparison isLenSelfCall s.length) pred

end Float

/-- The specification of a field with a refinement. -/
def refinementSpec (name : Text) : Refinement F → FieldSpec F
  | .intRange lo hi => ⟨name, .i64, lo, hi, none, none, none⟩
  | .floatRange lo hi => ⟨name, .f64, none, none, lo, hi, none⟩
  | .strLen lo hi => ⟨name, .str, lo, hi, none, none, none⟩
  | .pattern regex => ⟨name, .pat, none, none, none, none, some regex⟩

def FieldValue.json : FieldValue F → Json F
  | .int n => .number (.ofInt64 n)
  | .float x => .number (.float x)
  | .str s _ => .string s

/-- The type of the field that has the value. -/
def FieldValue.ty : FieldValue F → Ty
  | .int _ => .int
  | .float _ => .float
  | .str _ _ => .str

/-- Validation accepts the value in a field with the refinement. -/
def Meets [F64 F] (isMatch : Text → Text → Bool) (name : Text) (r : Refinement F) (v : FieldValue F) : Prop :=
  checkField isMatch ⟨[]⟩ (refinementSpec name r) v.json 0 = .ok ()

/-- The side on which a strict comparison bounds its subject. -/
inductive Side where
  | above
  | below
  deriving DecidableEq, Repr

/-- The side and the literal of a strict comparison. -/
def strictBound {α : Type} (isSubject : Expr → Bool) (literal : Expr → Option α) (e : Expr) : Option (Side × α) :=
  match e.kind with
  | .bin .gt lhs rhs =>
    if isSubject lhs then (literal rhs).map (Side.above, ·) else (literal lhs).map (Side.below, ·)
  | .bin .lt lhs rhs =>
    if isSubject lhs then (literal rhs).map (Side.below, ·) else (literal lhs).map (Side.above, ·)
  | _ => none

/-- The comparison puts the subject strictly beyond an end of the 64-bit integers, and the subject is that end. -/
def IntAtEdge (isSubject : Expr → Bool) (value : Int) (e : Expr) : Prop :=
  (strictBound isSubject literalIntValue e = some (.above, .maxValue) ∧ value = Int64.maxValue.toInt) ∨
    (strictBound isSubject literalIntValue e = some (.below, .minValue) ∧ value = Int64.minValue.toInt)

/-- One of the comparisons is at its edge, and none excludes the value otherwise. -/
def Overlooked (edge : Expr → Prop) (eval : Expr → Option Bool) (pred : Expr) : Prop :=
  match pred.kind with
  | .bin .and lhs rhs =>
    (edge lhs ∨ eval lhs = some true) ∧ (edge rhs ∨ eval rhs = some true) ∧ (edge lhs ∨ edge rhs)
  | _ => edge pred

/-- The predicate puts the value strictly beyond the end of the integers that it is, or the value is no number. -/
def AtEdge [F64 F] [F64Order F] (pred : Expr) : FieldValue F → Prop
  | .int n => Overlooked (IntAtEdge isSelfName n.toInt) (evalIntComparison isSelfName n.toInt) pred
  | .float x => F64Order.isNan x = true
  | .str s _ => Overlooked (IntAtEdge isLenSelfCall s.length) (evalIntComparison isLenSelfCall s.length) pred

/-! ## One comparison -/

section Comparison

variable {α β : Type} {isSubject : Expr → Bool} {literal : Expr → Option α} {above below : α → Option α}
  {bounds : Option α × Option α} {e : Expr}

/-- What one comparison bounds, and its value. -/
inductive Bounded (above below : α → Option α) (ι : α → β) (lt le : β → β → Bool) (value : β) :
    Option (Side × α) → Option α × Option α → Bool → Prop
  | atLeast (n : α) : Bounded above below ι lt le value none (some n, none) (le (ι n) value)
  | moreThan (n m : α) (h : above n = some m) :
      Bounded above below ι lt le value (some (.above, n)) (some m, none) (lt (ι n) value)
  | atMost (n : α) : Bounded above below ι lt le value none (none, some n) (le value (ι n))
  | lessThan (n m : α) (h : below n = some m) :
      Bounded above below ι lt le value (some (.below, n)) (none, some m) (lt value (ι n))

/-- A comparison that is accepted is one of the four. -/
theorem subjectBound_bounded {ι : α → β} {lt le : β → β → Bool} {value : β} {denotes : Expr → Option β}
    (hliteral : ∀ e n, literal e = some n → denotes e = some (ι n))
    (h : subjectBound isSubject literal above below e = some bounds) :
    ∃ b, evalComparison (operandValue isSubject value denotes) lt le e = some b ∧
      Bounded above below ι lt le value (strictBound isSubject literal e) bounds b := by
  unfold subjectBound at h
  split at h
  · next op lhs rhs hkind =>
    split at h
    · next n hl hr hn =>
      have hoperand : operandValue isSubject value denotes lhs = some value := if_pos hl
      have hother : operandValue isSubject value denotes rhs = some (ι n) := by
        rw [operandValue, hr]
        exact hliteral rhs n hn
      simp only [evalComparison, strictBound, hkind, hoperand, hother, Option.bind_some]
      split at h
      · cases h
        exact ⟨_, rfl, .atMost n⟩
      · obtain ⟨m, hm, rfl⟩ := Option.map_eq_some_iff.1 h
        refine ⟨_, rfl, ?_⟩
        simp only [hl, hn, if_true, Option.map_some]
        exact .lessThan n m hm
      · cases h
        exact ⟨_, rfl, .atLeast n⟩
      · obtain ⟨m, hm, rfl⟩ := Option.map_eq_some_iff.1 h
        refine ⟨_, rfl, ?_⟩
        simp only [hl, hn, if_true, Option.map_some]
        exact .moreThan n m hm
      · cases h
    · next n hl hr hn =>
      have hoperand : operandValue isSubject value denotes rhs = some value := if_pos hr
      have hother : operandValue isSubject value denotes lhs = some (ι n) := by
        rw [operandValue, hl]
        exact hliteral lhs n hn
      simp only [evalComparison, strictBound, hkind, hoperand, hother, Option.bind_some]
      split at h
      · cases h
        exact ⟨_, rfl, .atLeast n⟩
      · obtain ⟨m, hm, rfl⟩ := Option.map_eq_some_iff.1 h
        refine ⟨_, rfl, ?_⟩
        simp only [hl, hn, Bool.false_eq_true, if_false, Option.map_some]
        exact .moreThan n m hm
      · cases h
        exact ⟨_, rfl, .atMost n⟩
      · obtain ⟨m, hm, rfl⟩ := Option.map_eq_some_iff.1 h
        refine ⟨_, rfl, ?_⟩
        simp only [hl, hn, Bool.false_eq_true, if_false, Option.map_some]
        exact .lessThan n m hm
      · cases h
    · cases h
  · cases h

/-- The bounds hold, by one test for each of them. -/
def InRange (inLo inHi : α → Prop) (bounds : Option α × Option α) : Prop :=
  (∀ n, bounds.1 = some n → inLo n) ∧ ∀ n, bounds.2 = some n → inHi n

theorem inRange_lower {inLo inHi : α → Prop} {n : α} : InRange inLo inHi (some n, none) ↔ inLo n := by
  simp [InRange]

theorem inRange_upper {inLo inHi : α → Prop} {n : α} : InRange inLo inHi (none, some n) ↔ inHi n := by
  simp [InRange]

/-- What a comparison bounds is what it says, or holds at its edge, where the comparison does not. -/
def BoundsAsSaid (inLo inHi : α → Prop) (edge : Prop) (bounds : Option α × Option α) (b : Bool) : Prop :=
  (InRange inLo inHi bounds ↔ b = true ∨ edge) ∧ (edge → b = false)

theorem inRange_oneOf {inLo inHi : α → Prop} {left right : Option α × Option α} {lo hi : Option α}
    (hlo : oneOf left.1 right.1 = some lo) (hhi : oneOf left.2 right.2 = some hi) :
    InRange inLo inHi (lo, hi) ↔ InRange inLo inHi left ∧ InRange inLo inHi right := by
  obtain ⟨lo₁, hi₁⟩ := left
  obtain ⟨lo₂, hi₂⟩ := right
  cases lo₁ <;> cases lo₂ <;> cases hlo <;> cases hi₁ <;> cases hi₂ <;> cases hhi <;>
    simp [InRange, and_comm]

/-- A predicate is what its comparisons are, unless one of them is overlooked at its edge. -/
theorem boundPredicate_exact {bound : Expr → Option (Option α × Option α)} {eval : Expr → Option Bool}
    {edge : Expr → Prop} {inLo inHi : α → Prop} {pred : Expr}
    (hone : ∀ e bounds, bound e = some bounds → ∃ b, eval e = some b ∧ BoundsAsSaid inLo inHi (edge e) bounds b)
    (h : boundPredicate bound pred = some bounds) :
    (∃ b, evalConjunction eval pred = some b ∧ (InRange inLo inHi bounds ↔ b = true)) ↔
      ¬ Overlooked edge eval pred := by
  unfold boundPredicate at h
  unfold evalConjunction Overlooked
  split at h
  · next lhs rhs hkind =>
    obtain ⟨left, hleft, h⟩ := Option.bind_eq_some_iff.1 h
    obtain ⟨right, hright, h⟩ := Option.bind_eq_some_iff.1 h
    obtain ⟨lo, hlo, h⟩ := Option.bind_eq_some_iff.1 h
    obtain ⟨hi, hhi, rfl⟩ := Option.map_eq_some_iff.1 h
    obtain ⟨a, ha, hrange, hedge⟩ := hone lhs left hleft
    obtain ⟨b, hb, hrange', hedge'⟩ := hone rhs right hright
    simp only [hkind, ha, hb, Option.bind_some, Option.map_some, Option.some.injEq, exists_eq_left',
      inRange_oneOf hlo hhi, hrange, hrange', Bool.and_eq_true]
    constructor
    · rintro hsaid ⟨hl, hr, hsome⟩
      obtain ⟨rfl, rfl⟩ := hsaid.1 ⟨hl.symm, hr.symm⟩
      rcases hsome with hsome | hsome
      · exact absurd (hedge hsome) (by decide)
      · exact absurd (hedge' hsome) (by decide)
    · intro hnot
      refine ⟨fun hboth => ?_, fun hboth => ⟨.inl hboth.1, .inl hboth.2⟩⟩
      by_contra hfalse
      refine hnot ⟨hboth.1.symm, hboth.2.symm, ?_⟩
      by_contra hnone
      rw [not_or] at hnone
      exact hfalse ⟨hboth.1.resolve_right hnone.1, hboth.2.resolve_right hnone.2⟩
  · next hkind =>
    obtain ⟨b, hb, hrange, hedge⟩ := hone pred bounds h
    simp only [hb, Option.some.injEq, exists_eq_left', hrange]
    constructor
    · intro hsaid hatEdge
      exact absurd (hsaid.1 (.inr hatEdge)) (by rw [hedge hatEdge]; decide)
    · intro hnot
      exact ⟨fun h => h.resolve_right hnot, .inl⟩

end Comparison

theorem toInt_saturatingAdd_one (n : Int64) :
    (saturatingAdd n 1).toInt = if n = .maxValue then n.toInt else n.toInt + 1 := by
  have hle := n.toInt_le
  have hge := n.le_toInt
  split
  · next h =>
    subst h
    rfl
  · next h =>
    have hne : n.toInt ≠ Int64.maxValue.toInt := fun heq => h (Int64.toInt_inj.1 heq)
    rw [Int64.toInt_maxValue] at hne hle
    exact Int64.toInt_ofIntClamp (by rw [Int64.toInt_minValue]; simp; omega) (by rw [Int64.toInt_maxValue]; simp; omega)

theorem toInt_saturatingSub_one (n : Int64) :
    (saturatingSub n 1).toInt = if n = .minValue then n.toInt else n.toInt - 1 := by
  have hle := n.toInt_le
  have hge := n.le_toInt
  split
  · next h =>
    subst h
    rfl
  · next h =>
    have hne : n.toInt ≠ Int64.minValue.toInt := fun heq => h (Int64.toInt_inj.1 heq)
    rw [Int64.toInt_minValue] at hne
    rw [Int64.toInt_maxValue] at hle
    exact Int64.toInt_ofIntClamp (by rw [Int64.toInt_minValue]; simp; omega) (by rw [Int64.toInt_maxValue]; simp; omega)

theorem intBound_asSaid {isSubject : Expr → Bool} {value : Int} {e : Expr} {bounds : Option Int64 × Option Int64}
    (hlo : Int64.minValue.toInt ≤ value) (hhi : value ≤ Int64.maxValue.toInt)
    (h : parseSubjectBound isSubject e = some bounds) :
    ∃ b, evalIntComparison isSubject value e = some b ∧
      BoundsAsSaid (fun n => n.toInt ≤ value) (fun n => value ≤ n.toInt) (IntAtEdge isSubject value e) bounds b := by
  have hliteral : ∀ e n, literalIntValue e = some n → (literalIntValue e).map Int64.toInt = some n.toInt := by
    intro e n hn
    rw [hn]
    rfl
  obtain ⟨b, hb, hbounded⟩ : ∃ b, evalIntComparison isSubject value e = some b ∧
      Bounded (fun n => some (saturatingAdd n 1)) (fun n => some (saturatingSub n 1)) Int64.toInt
        (fun a b => decide (a < b)) (fun a b => decide (a ≤ b)) value
        (strictBound isSubject literalIntValue e) bounds b := subjectBound_bounded hliteral h
  refine ⟨b, hb, ?_⟩
  unfold IntAtEdge
  generalize strictBound isSubject literalIntValue e = side at hbounded
  cases hbounded with
  | atLeast n => simp [BoundsAsSaid, inRange_lower]
  | moreThan n m hm =>
    cases hm
    by_cases hn : n = .maxValue
    · subst hn
      have hnot : ¬ Int64.maxValue.toInt < value := Int.not_lt.2 hhi
      rw [decide_eq_false hnot]
      refine ⟨?_, fun _ => rfl⟩
      rw [inRange_lower, toInt_saturatingAdd_one, if_pos rfl]
      constructor
      · exact fun hle => .inr (.inl ⟨rfl, Int.le_antisymm hhi hle⟩)
      · rintro (hfalse | ⟨-, heq⟩ | ⟨hside, -⟩)
        · cases hfalse
        · exact Int.le_of_eq heq.symm
        · cases hside
    · have hinside : ¬ ((some (Side.above, n) = some (.above, .maxValue) ∧ value = Int64.maxValue.toInt) ∨
          (some (Side.above, n) = some (.below, .minValue) ∧ value = Int64.minValue.toInt)) := by simp [hn]
      refine ⟨?_, fun hedge => absurd hedge hinside⟩
      rw [inRange_lower, toInt_saturatingAdd_one, if_neg hn, or_iff_left hinside, decide_eq_true_iff]
      exact Int.add_one_le_iff
  | atMost n => simp [BoundsAsSaid, inRange_upper]
  | lessThan n m hm =>
    cases hm
    by_cases hn : n = .minValue
    · subst hn
      have hnot : ¬ value < Int64.minValue.toInt := Int.not_lt.2 hlo
      rw [decide_eq_false hnot]
      refine ⟨?_, fun _ => rfl⟩
      rw [inRange_upper, toInt_saturatingSub_one, if_pos rfl]
      constructor
      · exact fun hle => .inr (.inr ⟨rfl, Int.le_antisymm hle hlo⟩)
      · rintro (hfalse | ⟨hside, -⟩ | ⟨-, heq⟩)
        · cases hfalse
        · cases hside
        · exact Int.le_of_eq heq
    · have hinside : ¬ ((some (Side.below, n) = some (.above, .maxValue) ∧ value = Int64.maxValue.toInt) ∨
          (some (Side.below, n) = some (.below, .minValue) ∧ value = Int64.minValue.toInt)) := by simp [hn]
      refine ⟨?_, fun hedge => absurd hedge hinside⟩
      rw [inRange_upper, toInt_saturatingSub_one, if_neg hn, or_iff_left hinside, decide_eq_true_iff]
      exact Int.le_sub_one_iff

theorem intBounds_exact {isSubject : Expr → Bool} {value : Int} {pred : Expr} {bounds : Option Int64 × Option Int64}
    (hlo : Int64.minValue.toInt ≤ value) (hhi : value ≤ Int64.maxValue.toInt)
    (h : boundPredicate (parseSubjectBound isSubject) pred = some bounds) :
    (∃ b, evalConjunction (evalIntComparison isSubject value) pred = some b ∧
        (InRange (fun n : Int64 => n.toInt ≤ value) (fun n => value ≤ n.toInt) bounds ↔ b = true)) ↔
      ¬ Overlooked (IntAtEdge isSubject value) (evalIntComparison isSubject value) pred :=
  boundPredicate_exact (fun _ _ => intBound_asSaid hlo hhi) h

section Float

variable [F64 F] [F64Order F] [LawfulF64Order F] {x : F} {e pred : Expr} {bounds : Option F × Option F}

theorem floatBound_asSaid (h : parseSubjectBoundF64 isSelfName e = some bounds) :
    ∃ b, evalFloatComparison x e = some b ∧
      BoundsAsSaid (fun n => F64.lt x n = false) (fun n => F64.lt n x = false) (F64Order.isNan x = true) bounds b := by
  obtain ⟨lo, hi⟩ := bounds
  have hfinite := finite_of_subjectBound h
  have hliteral : ∀ (e : Expr) (n : F), literalFloatValue e = some n → literalFloat e = some (id n) :=
    fun e n hn => (Option.filter_eq_some_iff.1 hn).1
  obtain ⟨b, hb, hbounded⟩ : ∃ b, evalFloatComparison x e = some b ∧
      Bounded (fun _ => none) (fun _ => none) id F64.lt F64Order.le x
        (strictBound isSelfName (literalFloatValue (F := F)) e) (lo, hi) b := subjectBound_bounded hliteral h
  refine ⟨b, hb, ?_⟩
  generalize strictBound isSelfName (literalFloatValue (F := F)) e = side at hbounded
  cases hbounded with
  | atLeast n =>
    have hle := LawfulF64Order.le_iff n x
    have hlt := LawfulF64Order.lt_nan x n
    rw [LawfulF64Order.isNan_of_finite n (hfinite n (.inl rfl))] at hle hlt
    cases hx : F64Order.isNan x <;> simp_all [BoundsAsSaid, InRange]
  | moreThan n m hm => cases hm
  | atMost n =>
    have hle := LawfulF64Order.le_iff x n
    have hlt := LawfulF64Order.lt_nan n x
    rw [LawfulF64Order.isNan_of_finite n (hfinite n (.inr rfl))] at hle hlt
    cases hx : F64Order.isNan x <;> simp_all [BoundsAsSaid, InRange]
  | lessThan n m hm => cases hm

theorem floatBounds_exact (h : boundPredicate (parseSubjectBoundF64 isSelfName) pred = some bounds) :
    (∃ b, evalConjunction (evalFloatComparison (F := F) x) pred = some b ∧
        (InRange (fun n => F64.lt x n = false) (fun n => F64.lt n x = false) bounds ↔ b = true)) ↔
      ¬ F64Order.isNan x = true := by
  rw [boundPredicate_exact (fun _ _ => floatBound_asSaid (x := x)) h, not_iff_not]
  unfold Overlooked
  split
  · exact ⟨fun hall => hall.2.2.elim id id, fun hnan => ⟨.inl hnan, .inl hnan, .inl hnan⟩⟩
  · exact .rfl

end Float

/-! ## The interpretation -/

section Interpretation

variable {isMatch : Text → Text → Bool} {name : Text} {lo hi : Option Int64}

theorem asI64_ofInt64 (n : Int64) : (Json.number (Number.ofInt64 n) : Json F).asI64 = some n := by
  unfold Number.ofInt64
  split
  · rfl
  · next h =>
    have hle : 0 ≤ n := Int64.not_lt.1 h
    have hnonneg : 0 ≤ n.toInt := Int64.le_iff_toInt_le.1 hle
    have hlt := n.toInt_lt
    have hnat : n.toUInt64.toNat = n.toInt.toNat := (Int64.toNat_toUInt64_of_le hle).trans n.toNat_toInt.symm
    rw [Json.asI64, hnat, if_pos (by omega), Int.toNat_of_nonneg hnonneg, Int64.ofInt_toInt]

theorem or_any_eq_false {α : Type} {f g : α → Bool} {lo hi : Option α} :
    (lo.any f || hi.any g) = false ↔ InRange (fun b => f b = false) (fun b => g b = false) (lo, hi) := by
  cases lo <;> cases hi <;> simp [InRange]

theorem rejectIf_eq_ok {ε : Type} {c : Bool} {err : ε} :
    (if c = true then .error err else .ok () : Except ε Unit) = .ok () ↔ c = false := by
  cases c <;> simp

variable [F64 F]

theorem meets_int (n : Int64) : Meets (F := F) isMatch name (.intRange lo hi) (.int n) ↔
    InRange (fun b : Int64 => b.toInt ≤ n.toInt) (fun b => n.toInt ≤ b.toInt) (lo, hi) := by
  have hvalue : (FieldValue.int n : FieldValue F).json.asI64 = some n := asI64_ofInt64 n
  simp only [Meets, refinementSpec, checkField, hvalue, rejectIf_eq_ok, or_any_eq_false, decide_eq_false_iff_not,
    Int64.lt_iff_toInt_lt, Int.not_lt]

theorem meets_float {lo hi : Option F} (x : F) : Meets isMatch name (.floatRange lo hi) (.float x) ↔
    InRange (fun b => F64.lt x b = false) (fun b => F64.lt b x = false) (lo, hi) := by
  have hvalue : (FieldValue.float x).json.asF64 = some x := rfl
  simp only [Meets, refinementSpec, checkField, hvalue, rejectIf_eq_ok, or_any_eq_false]

theorem meets_str (s : Text) (fits : s.length < 2 ^ 63) : Meets (F := F) isMatch name (.strLen lo hi) (.str s fits) ↔
    InRange (fun b : Int64 => b.toInt ≤ s.length) (fun b => (s.length : Int) ≤ b.toInt) (lo, hi) := by
  have hvalue : (FieldValue.str s fits : FieldValue F).json.asStr = some s := rfl
  simp only [Meets, refinementSpec, checkField, hvalue, checkStrLen, rejectIf_eq_ok, or_any_eq_false,
    decide_eq_false_iff_not, Int.not_lt]

theorem meets_pattern (regex s : Text) (fits : s.length < 2 ^ 63) :
    Meets (F := F) isMatch name (.pattern regex) (.str s fits) ↔ isMatch regex s = true := by
  have hvalue : (FieldValue.str s fits : FieldValue F).json.asStr = some s := rfl
  simp only [Meets, refinementSpec, checkField, hvalue, checkPattern]
  cases isMatch regex s <;> simp

theorem not_overlooked_of_pattern {isSubject : Expr → Bool} {value : Int} {eval : Expr → Option Bool} {pred : Expr}
    {regex : String} (h : parsePatternCall pred = some regex) :
    ¬ Overlooked (IntAtEdge isSubject value) eval pred := by
  unfold parsePatternCall at h
  split at h
  · next callee args hkind => simp [Overlooked, IntAtEdge, strictBound, hkind]
  · cases h

/-- An accepted predicate has a value for every value of its field, and validation admits those for which it is true,
unless the value is the end of the integers beyond which the predicate asks for it to be, or no number. -/
theorem admits_iff_not_atEdge [F64Order F] [LawfulF64Order F] {compiles : Text → Bool} {field : String} {pred : Expr}
    {r : Refinement F} {v : FieldValue F} (h : interpretRefinement compiles field pred (some v.ty) = .ok r) :
    (∃ b, evalPredicate isMatch pred v = some b ∧ (Meets isMatch name r v ↔ b = true)) ↔ ¬ AtEdge pred v := by
  cases v with
  | int n =>
    simp only [FieldValue.ty, interpretRefinement, interpretIntRange] at h
    split at h <;> cases h
    next lo hi hbound =>
      simp only [meets_int]
      exact intBounds_exact (by rw [Int64.toInt_minValue]; exact n.le_toInt) n.toInt_le hbound
  | float x =>
    simp only [FieldValue.ty, interpretRefinement, interpretFloatRange] at h
    split at h <;> cases h
    next lo hi hbound =>
      simp only [meets_float]
      exact floatBounds_exact hbound
  | str s fits =>
    simp only [FieldValue.ty, interpretRefinement, interpretStrRefinement] at h
    split at h
    · next regex hregex =>
      split at h <;> cases h
      simp only [meets_pattern, evalPredicate, hregex]
      exact iff_of_true ⟨_, rfl, .rfl⟩ (not_overlooked_of_pattern hregex)
    · next hpattern =>
      split at h <;> cases h
      next lo hi hbound =>
        simp only [meets_str, evalPredicate, hpattern]
        exact intBounds_exact (by rw [Int64.toInt_minValue]; omega) (by rw [Int64.toInt_maxValue]; omega) hbound

end Interpretation

/-! ## The largest integer -/

instance : F64Order Whole where
  le := fun (a b : Int) => decide (a ≤ b)
  neg := fun (a : Int) => -a
  isNan _ := false

instance : LawfulF64Order Whole where
  le_iff := fun (a b : Int) => by
    change decide (a ≤ b) = true ↔ false = false ∧ false = false ∧ decide (b < a) = false
    simp
  lt_nan _ _ h := by rcases h with h | h <;> cases h
  isNan_of_finite _ _ := rfl

def selfName : Expr :=
  .mk (.name ⟨"self", 0, .param⟩) default

def intLiteral (s : String) : Expr :=
  .mk (.lit (.int s)) default

/-- `0 <= self and self < 100` -/
def percent : Expr :=
  .mk (.bin .and (.mk (.bin .ltEq (intLiteral "0") selfName) default)
    (.mk (.bin .lt selfName (intLiteral "100")) default)) default

/-- `self > 9223372036854775807` -/
def beyondMax : Expr :=
  .mk (.bin .gt selfName (intLiteral "9223372036854775807")) default

theorem admits_iff_not_atEdge_percent :
    (∃ b, evalPredicate (F := Whole) (fun _ _ => true) percent (.int 99) = some b ∧
      (Meets (F := Whole) (fun _ _ => true) [] (.intRange (some 0) (some 99)) (.int 99) ↔ b = true)) ↔
      ¬ AtEdge (F := Whole) percent (.int 99) := by
  have haccepted : interpretRefinement (F := Whole) (fun _ => true) "rank" percent (some .int) =
      .ok (.intRange (some 0) (some 99)) := rfl
  exact admits_iff_not_atEdge haccepted

/-- No integer is beyond the largest one, but the interpretation admits that one. -/
theorem admits_beyondMax :
    interpretRefinement (F := Whole) (fun _ => true) "rank" beyondMax (some .int) =
        .ok (.intRange (some .maxValue) none) ∧
      evalPredicate (F := Whole) (fun _ _ => true) beyondMax (.int .maxValue) = some false ∧
      Meets (F := Whole) (fun _ _ => true) [] (.intRange (some .maxValue) none) (.int .maxValue) := by
  refine ⟨rfl, rfl, ?_⟩
  rw [meets_int]
  simp [InRange]

end Cobrust.Pit
