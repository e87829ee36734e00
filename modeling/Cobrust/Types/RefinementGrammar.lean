import Cobrust.Hir.Tree
import Cobrust.Types.Ty

/-!
# The fixed grammar of field predicates

`interpret_refinement` of `cobrust-types/src/check.rs` with its helpers: how the `where` predicate of a class field
becomes a `Refinement`. The predicate is read by its shape. Whether a regular expression compiles is a parameter.
-/

namespace Cobrust.Types

open Hir (Expr ExprKind BinOp UnaryOp CallArg Lit)

/-- `literal_int_value`: an integer literal, perhaps behind a minus sign. -/
def literalIntValue (e : Expr) : Option Int64 :=
  match e.kind with
  | .lit (.int s) => Text.parseInt64 s.toList
  | .un .neg operand =>
    match operand.kind with
    | .lit (.int s) => (Text.parseInt64 s.toList).map fun n => -n
    | _ => none
  | _ => none

/-- The floats beyond what the descriptor needs of them. -/
class F64Order (F : Type) where
  le : F → F → Bool
  neg : F → F
  isNan : F → Bool

section Float

variable {F : Type} [F64 F] [F64Order F]

/-- The float of a float or integer literal, perhaps behind a minus sign. -/
def literalFloat (e : Expr) : Option F :=
  match e.kind with
  | .lit (.float s) => F64.parse s.toList
  | .lit (.int s) => F64.parse s.toList
  | .un .neg operand =>
    match operand.kind with
    | .lit (.float s) => (F64.parse s.toList).map F64Order.neg
    | .lit (.int s) => (F64.parse s.toList).map F64Order.neg
    | _ => none
  | _ => none

/-- `literal_float_value`: no bound is infinite. -/
def literalFloatValue (e : Expr) : Option F :=
  (literalFloat e).filter F64.isFinite

end Float

/-- `is_self_name` -/
def isSelfName (e : Expr) : Bool :=
  match e.kind with
  | .name rn => rn.name = "self"
  | _ => false

/-- `is_len_self_call` -/
def isLenSelfCall (e : Expr) : Bool :=
  match e.kind with
  | .call callee args =>
    match callee.kind, args with
    | .name rn, [.positional arg] => rn.name = "len" && isSelfName arg
    | _, _ => false
  | _ => false

/-- `parse_pattern_call`: the literal regular expression of `pattern(self, "…")`. -/
def parsePatternCall (e : Expr) : Option String :=
  match e.kind with
  | .call callee args =>
    match callee.kind, args with
    | .name rn, [.positional subject, .positional regexArg] =>
      if rn.name = "pattern" && isSelfName subject then
        match regexArg.kind with
        | .lit (.str s) => some s
        | _ => none
      else none
    | _, _ => none
  | _ => none

/-! ## Bounds -/

/-- One comparison of the subject with a literal, as a lower or an upper bound. `above` and `below` make a strict
bound inclusive, where that is admitted. -/
def subjectBound {α : Type} (isSubject : Expr → Bool) (literal : Expr → Option α) (above below : α → Option α)
    (e : Expr) : Option (Option α × Option α) :=
  match e.kind with
  | .bin op lhs rhs =>
    match isSubject lhs, isSubject rhs, literal lhs, literal rhs with
    | true, false, _, some n =>
      match op with
      | .ltEq => some (none, some n)
      | .lt => (below n).map fun n => (none, some n)
      | .gtEq => some (some n, none)
      | .gt => (above n).map fun n => (some n, none)
      | _ => none
    | false, true, some n, _ =>
      match op with
      | .ltEq => some (some n, none)
      | .lt => (above n).map fun n => (some n, none)
      | .gtEq => some (none, some n)
      | .gt => (below n).map fun n => (none, some n)
      | _ => none
    | _, _, _, _ => none
  | _ => none

/-- `i64::saturating_add` -/
def saturatingAdd (a b : Int64) : Int64 :=
  .ofIntClamp (a.toInt + b.toInt)

/-- `i64::saturating_sub` -/
def saturatingSub (a b : Int64) : Int64 :=
  .ofIntClamp (a.toInt - b.toInt)

/-- `parse_subject_bound` -/
def parseSubjectBound (isSubject : Expr → Bool) : Expr → Option (Option Int64 × Option Int64) :=
  subjectBound isSubject literalIntValue (fun n => some (saturatingAdd n 1)) fun n => some (saturatingSub n 1)

/-- `parse_subject_bound_f64`: strict bounds are rejected. -/
def parseSubjectBoundF64 {F : Type} [F64 F] [F64Order F] (isSubject : Expr → Bool) :
    Expr → Option (Option F × Option F) :=
  subjectBound isSubject literalFloatValue (fun _ => none) fun _ => none

/-- The one bound of two, where just one is there. -/
def oneOf {α : Type} : Option α → Option α → Option (Option α)
  | some a, none => some (some a)
  | none, some b => some (some b)
  | _, _ => none

/-- A comparison, or two of them that bound the subject from the two sides. -/
def boundPredicate {α : Type} (bound : Expr → Option (Option α × Option α)) (pred : Expr) :
    Option (Option α × Option α) :=
  match pred.kind with
  | .bin .and lhs rhs =>
    (bound lhs).bind fun left => (bound rhs).bind fun right =>
      (oneOf left.1 right.1).bind fun lo => (oneOf left.2 right.2).map fun hi => (lo, hi)
  | _ => bound pred

section Bounds

variable {α : Type} {P : α → Prop} {lo hi : Option α} {e pred : Expr}

/-- What holds of every literal, and of what strict bounds are made of, holds of the bounds of a comparison. -/
theorem subjectBound_forall {isSubject : Expr → Bool} {literal : Expr → Option α} {above below : α → Option α}
    (hliteral : ∀ e n, literal e = some n → P n) (habove : ∀ n m, above n = some m → P n → P m)
    (hbelow : ∀ n m, below n = some m → P n → P m)
    (h : subjectBound isSubject literal above below e = some (lo, hi)) : ∀ n, lo = some n ∨ hi = some n → P n := by
  unfold subjectBound at h
  split at h
  · split at h
    · next n _ _ hn =>
      have hP := hliteral _ n hn
      split at h
      · cases h
        simpa using hP
      · obtain ⟨m, hm, heq⟩ := Option.map_eq_some_iff.1 h
        cases heq
        simpa using hbelow n m hm hP
      · cases h
        simpa using hP
      · obtain ⟨m, hm, heq⟩ := Option.map_eq_some_iff.1 h
        cases heq
        simpa using habove n m hm hP
      · cases h
    · next n _ _ hn =>
      have hP := hliteral _ n hn
      split at h
      · cases h
        simpa using hP
      · obtain ⟨m, hm, heq⟩ := Option.map_eq_some_iff.1 h
        cases heq
        simpa using habove n m hm hP
      · cases h
        simpa using hP
      · obtain ⟨m, hm, heq⟩ := Option.map_eq_some_iff.1 h
        cases heq
        simpa using hbelow n m hm hP
      · cases h
    · cases h
  · cases h

theorem oneOf_forall {a b c : Option α} (h : oneOf a b = some c) (ha : ∀ n, a = some n → P n)
    (hb : ∀ n, b = some n → P n) : ∀ n, c = some n → P n := by
  cases a <;> cases b <;> cases h
  · exact hb
  · exact ha

theorem boundPredicate_forall {bound : Expr → Option (Option α × Option α)}
    (hone : ∀ e lo hi, bound e = some (lo, hi) → ∀ n, lo = some n ∨ hi = some n → P n)
    (h : boundPredicate bound pred = some (lo, hi)) : ∀ n, lo = some n ∨ hi = some n → P n := by
  unfold boundPredicate at h
  split at h
  · obtain ⟨left, hleft, h⟩ := Option.bind_eq_some_iff.1 h
    obtain ⟨right, hright, h⟩ := Option.bind_eq_some_iff.1 h
    obtain ⟨lo', hlo, h⟩ := Option.bind_eq_some_iff.1 h
    obtain ⟨hi', hhi, heq⟩ := Option.map_eq_some_iff.1 h
    cases heq
    have hleft := hone _ _ _ hleft
    have hright := hone _ _ _ hright
    rintro n (hn | hn)
    · exact oneOf_forall hlo (fun n hn => hleft n (.inl hn)) (fun n hn => hright n (.inl hn)) n hn
    · exact oneOf_forall hhi (fun n hn => hleft n (.inr hn)) (fun n hn => hright n (.inr hn)) n hn
  · exact hone _ _ _ h

theorem finite_of_literal {F : Type} [F64 F] [F64Order F] {x : F} (h : literalFloatValue e = some x) :
    F64.isFinite x = true :=
  (Option.filter_eq_some_iff.1 h).2

theorem finite_of_subjectBound {F : Type} [F64 F] [F64Order F] {lo hi : Option F} {isSubject : Expr → Bool}
    (h : parseSubjectBoundF64 isSubject e = some (lo, hi)) : ∀ x, lo = some x ∨ hi = some x → F64.isFinite x = true :=
  subjectBound_forall (fun _ _ => finite_of_literal) (fun _ _ hm => by cases hm) (fun _ _ hm => by cases hm) h

end Bounds

/-! ## The interpretation -/

structure UnsupportedRefinement where
  field : String
  span : Span
  suggestion : String
  deriving DecidableEq, Repr

def grammarSuggestion : String :=
  "use a fixed refinement grammar: an int-range on an i64 field (`0 <= self`, `self <= 100`, or `0 <= self and " ++
    "self <= 100`); a float-range on an f64 field (`0.0 <= self`, `self <= 1.0`, or `0.0 <= self and self <= 1.0` " ++
    "— inclusive `<=`/`>=` ONLY, a strict `<`/`>` is rejected because the reals are dense); a length bound on a " ++
    "str field (`len(self) <= 20`, `len(self) >= 1`, or `1 <= len(self) and len(self) <= 20`); or a pattern on a " ++
    "str field (`pattern(self, \"<regex>\")`)"

def regexSuggestion : String :=
  "the regex in `pattern(self, \"…\")` failed to compile; use a valid regular expression (Rust `regex` crate syntax)"

section Interpret

variable {F : Type} [F64 F] [F64Order F] (compiles : Text → Bool) (field : String) (pred : Expr)

def interpretIntRange : Except UnsupportedRefinement (Refinement F) :=
  match boundPredicate (parseSubjectBound isSelfName) pred with
  | some (lo, hi) => .ok (.intRange lo hi)
  | none => .error ⟨field, pred.span, grammarSuggestion⟩

def interpretFloatRange : Except UnsupportedRefinement (Refinement F) :=
  match boundPredicate (parseSubjectBoundF64 isSelfName) pred with
  | some (lo, hi) => .ok (.floatRange lo hi)
  | none => .error ⟨field, pred.span, grammarSuggestion⟩

def interpretStrRefinement : Except UnsupportedRefinement (Refinement F) :=
  match parsePatternCall pred with
  | some regex =>
    if compiles regex.toList then .ok (.pattern regex.toList) else .error ⟨field, pred.span, regexSuggestion⟩
  | none =>
    match boundPredicate (parseSubjectBound isLenSelfCall) pred with
    | some (lo, hi) => .ok (.strLen lo hi)
    | none => .error ⟨field, pred.span, grammarSuggestion⟩

/-- `interpret_refinement` -/
def interpretRefinement (fieldTy : Option Ty) : Except UnsupportedRefinement (Refinement F) :=
  match fieldTy with
  | some .int => interpretIntRange field pred
  | some .float => interpretFloatRange field pred
  | some .str => interpretStrRefinement compiles field pred
  | _ => .error ⟨field, pred.span, grammarSuggestion⟩

/-- An accepted predicate fits the type of its field. -/
theorem interpretRefinement_attachable {ty : Ty} {r : Refinement F}
    (h : interpretRefinement compiles field pred (some ty) = .ok r) : r.Attachable ty := by
  cases ty <;> first | cases h | skip
  case int =>
    simp only [interpretRefinement, interpretIntRange] at h
    split at h <;> cases h
    rfl
  case float =>
    simp only [interpretRefinement, interpretFloatRange] at h
    split at h <;> cases h
    next hbound => exact ⟨rfl, boundPredicate_forall (fun _ _ _ => finite_of_subjectBound) hbound⟩
  case str =>
    simp only [interpretRefinement, interpretStrRefinement] at h
    split at h
    · split at h <;> cases h
      rfl
    · split at h <;> cases h
      rfl

end Interpret

end Cobrust.Types
