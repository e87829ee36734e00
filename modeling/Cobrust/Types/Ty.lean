import Cobrust.Text.Split

/-!
# Types and field refinements

`Ty` of `cobrust-types/src/ty.rs` and `Refinement` of `cobrust-types/src/refinement.rs`.
-/

/-!
## The type universe

The types, together with the source spans that every tree carries. A record keeps its fields in the order of the sorted
map that holds them.
-/

namespace Cobrust

/-- A half-open byte range of a source file. -/
structure Span where
  file : Nat
  start : Nat
  stop : Nat
  deriving DecidableEq, Repr, Inhabited

/-- A zero-width span. -/
def Span.point (file pos : Nat) : Span := ⟨file, pos, pos⟩

/-- The span of synthetic input. -/
def Span.synthetic : Span := .point 0 0

/-- The `{:?}` form of a span. -/
def Span.debug (s : Span) : String :=
  "Span \x7b file: FileId(" ++ toString s.file ++ "), start: " ++ toString s.start ++ ", end: " ++
    toString s.stop ++ " \x7d"

/-- Identifier of a definition, allocated by HIR lowering. -/
abbrev DefId := Nat

/-- Identifier of an algebraic data type. -/
abbrev AdtId := Nat

inductive Ty where
  | bool
  | int
  | float
  | imag
  | str
  | bytes
  | none
  | never
  | tuple (elems : List Ty)
  | list (elem : Ty)
  | set (elem : Ty)
  | dict (key value : Ty)
  | record (fields : List (String × Ty))
  | fn (positional : List Ty) (named : List (String × Ty)) (varPositional varKeyword : Option Ty)
      (returnTy : Ty)
  | adt (id : AdtId) (args : List Ty)
  | alias (id : Nat) (args : List Ty)
  | generic (id : Nat)
  | var (id : Nat)
  | ref (inner : Ty)
  | intN (width : Nat)
  | array (elem : Ty) (len : Nat)
  deriving Repr, Inhabited

end Cobrust

/-!
## Field refinements

The value predicate of a class field, and its form in the schema descriptor. The 64-bit floats are a parameter.
-/

namespace Cobrust

/-- The 64-bit floats: their text forms, their order and the conversion of an integer. -/
class F64 (F : Type) where
  display : F → Text
  parse : Text → Option F
  lt : F → F → Bool
  isFinite : F → Bool
  ofInt : Int → F

/-- What is documented about the text form of a finite float: it is a plain decimal, without an exponent,
and it reads back as the same float. -/
class LawfulF64 (F : Type) [F64 F] : Prop where
  parse_display : ∀ x : F, F64.isFinite x → F64.parse (F64.display x) = some x
  parse_nil : F64.parse (F := F) [] = none
  display_chars : ∀ x : F, F64.isFinite x → ∀ c ∈ F64.display x, c.isDigit ∨ c = '-' ∨ c = '.'

inductive Refinement (F : Type) where
  | intRange (lo hi : Option Int64)
  | floatRange (lo hi : Option F)
  | strLen (lo hi : Option Int64)
  | pattern (regex : Text)

/-- The `:lo:hi` suffix; an absent bound is empty. -/
def boundSuffix {α : Type} (display : α → Text) (lo hi : Option α) : Text :=
  ':' :: (lo.elim [] display ++ ':' :: hi.elim [] display)

def intSuffix (lo hi : Option Int64) : Text :=
  boundSuffix Text.displayInt64 lo hi

def floatSuffix {F : Type} [F64 F] (lo hi : Option F) : Text :=
  boundSuffix F64.display lo hi

namespace Refinement

/-- `descriptor_payload`: what stands behind the TAB of a field line. -/
def descriptorPayload {F : Type} [F64 F] (baseKind : Text) : Refinement F → Text
  | intRange lo hi => baseKind ++ intSuffix lo hi
  | floatRange lo hi => baseKind ++ floatSuffix lo hi
  | strLen lo hi => baseKind ++ intSuffix lo hi
  | pattern regex => "pat:".toList ++ regex

/-- What the checker attaches to a field of type `ty`: an integer range to an integer, a range with finite
bounds to a float, a length range or a pattern to a string. -/
def Attachable {F : Type} [F64 F] (ty : Ty) : Refinement F → Prop
  | intRange _ _ => ty = .int
  | floatRange lo hi => ty = .float ∧ ∀ x, lo = some x ∨ hi = some x → F64.isFinite x
  | strLen _ _ => ty = .str
  | pattern _ => ty = .str

end Refinement

end Cobrust
