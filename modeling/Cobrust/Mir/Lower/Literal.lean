import Mathlib.Algebra.Group.Nat.Defs
import Mathlib.Algebra.Ring.Int.Defs
import Cobrust.Frontend.Number
import Cobrust.Hir.Tree
import Cobrust.Mir.Tree

/-!
# Literals on the way to MIR

A number literal is text until `lit_to_constant` of `cobrust-mir/src/lower.rs` parses it: the parser
and `lower_literal` of `cobrust-hir/src/desugar.rs` copy the text. `literalValue` is the value that
the text denotes, and the two are compared at the end.
-/

namespace Cobrust.Hir

/-- `lower_literal`, on the numeric literals. -/
def lowerLiteral : Frontend.Literal → Lit
  | .int s => .int s
  | .float s => .float s
  | .imag s => .imag s

end Cobrust.Hir

namespace Cobrust.Mir

open Frontend (prefixChars isHexChar isOctalChar isBinaryChar isDecimalChar IntText LexError lexNumber
  parseNumber)

/-- The value of a hexadecimal digit; 0 for any other character. -/
def digitValue (c : Char) : Nat :=
  if c.isDigit then c.toNat - '0'.toNat
  else if 'a' ≤ c && c ≤ 'f' then c.toNat - 'a'.toNat + 10
  else if 'A' ≤ c && c ≤ 'F' then c.toNat - 'A'.toNat + 10
  else 0

/-- The digits of a `str::parse::<i64>`: at least one, and all of them decimal. -/
def parseDigits (ds : List Char) : Option Nat :=
  if ds = [] then none
  else ds.foldlM (fun n c => if c.isDigit then some (n * 10 + digitValue c) else none) 0

/-- `str::parse::<i64>`: an optional sign, then digits, and no overflow. -/
def parseI64 (s : String) : Option Int :=
  match s.toList with
  | '-' :: ds => (parseDigits ds).bind fun n => if n ≤ 2 ^ 63 then some (-n) else none
  | '+' :: ds => (parseDigits ds).bind fun n => if n < 2 ^ 63 then some n else none
  | ds => (parseDigits ds).bind fun n => if n < 2 ^ 63 then some n else none

section

-- `str::parse::<f64>`, as the bits of the result
variable (parseF64 : String → Option UInt64)

/-- `parse_float_lit`, followed by `to_bits`. -/
def parseFloatLit (s : String) : UInt64 :=
  if s = "inf" then 0x7FF0000000000000
  else if s = "nan" then 0x7FF8000000000000
  else (parseF64 s).getD 0

def litToConstant : Hir.Lit → Constant
  | .bool b => .bool b
  | .none => .none
  | .int s => .int ((parseI64 s).getD 0)
  | .float s => .float (parseFloatLit parseF64 s)
  | .imag s => .imag (parseFloatLit parseF64 s)
  | .str s => .str s
  | .bytes b => .bytes b

/-- A number literal from source text to MIR constant. Only the lexer can reject it. -/
def compileNumber (file start : Nat) (src : List Char) : Except LexError Constant := do
  let (tok, _) ← lexNumber file start src
  return litToConstant parseF64 (Hir.lowerLiteral (parseNumber tok.kind))

end

/-- The value of a run of digits in a radix; underscores only separate. -/
def digitsValue (radix : Nat) (ds : List Char) : Nat :=
  ds.foldl (fun n c => if c = '_' then n else n * radix + digitValue c) 0

/-- The mathematical value of an integer literal. -/
def literalValue : List Char → Nat
  | '0' :: 'x' :: ds => digitsValue 16 ds
  | '0' :: 'X' :: ds => digitsValue 16 ds
  | '0' :: 'o' :: ds => digitsValue 8 ds
  | '0' :: 'O' :: ds => digitsValue 8 ds
  | '0' :: 'b' :: ds => digitsValue 2 ds
  | '0' :: 'B' :: ds => digitsValue 2 ds
  | ds => digitsValue 10 ds

theorem isDigit_ne {c : Char} (d : Char) (h : c.isDigit = true) (hd : d.isDigit = false) : c ≠ d := by
  intro e
  rw [e, hd] at h
  cases h

theorem parseFold_some {ds : List Char} (n : Nat) (h : ∀ c ∈ ds, c.isDigit = true) :
    ds.foldlM (fun n c => if c.isDigit then some (n * 10 + digitValue c) else none) n =
      some (ds.foldl (fun n c => if c = '_' then n else n * 10 + digitValue c) n) := by
  induction ds generalizing n with
  | nil => rfl
  | cons c ds ih =>
    have hc : c.isDigit = true := h c (by simp)
    have hne : c ≠ '_' := isDigit_ne '_' hc rfl
    simp only [List.foldlM_cons, hc, if_true, Option.bind_eq_bind, Option.bind_some, List.foldl_cons,
      if_neg hne]
    exact ih _ fun d hd => h d (by simp [hd])

theorem parseFold_none {ds : List Char} (n : Nat) (h : ∃ c ∈ ds, c.isDigit = false) :
    ds.foldlM (fun n c => if c.isDigit then some (n * 10 + digitValue c) else none) n = none := by
  induction ds generalizing n with
  | nil => simp at h
  | cons c ds ih =>
    rw [List.foldlM_cons]
    cases hc : c.isDigit with
    | false => rfl
    | true =>
      obtain ⟨d, hd, hnd⟩ := h
      rcases List.mem_cons.1 hd with rfl | hd
      · rw [hc] at hnd
        cases hnd
      · exact ih _ ⟨d, hd, hnd⟩

theorem parseDigits_digits {ds : List Char} (hne : ds ≠ []) (h : ∀ c ∈ ds, c.isDigit = true) :
    parseDigits ds = some (digitsValue 10 ds) := by
  rw [parseDigits, if_neg hne]
  exact parseFold_some 0 h

theorem parseDigits_other {ds : List Char} (h : ∃ c ∈ ds, c.isDigit = false) : parseDigits ds = none := by
  unfold parseDigits
  split
  · rfl
  · exact parseFold_none 0 h

/-- Text that starts with a digit or an underscore carries no sign. -/
theorem parseI64_unsigned {ds : List Char} (h : ∀ c, ds.head? = some c → c ≠ '-' ∧ c ≠ '+') :
    parseI64 (String.ofList ds) =
      (parseDigits ds).bind fun n => if n < 2 ^ 63 then some (n : Int) else none := by
  unfold parseI64
  rw [String.toList_ofList]
  split
  · exact absurd rfl (h '-' rfl).1
  · exact absurd rfl (h '+' rfl).2
  · rfl

theorem literalValue_digits {ds : List Char} (h : ∀ c ∈ ds, c.isDigit = true) :
    literalValue ds = digitsValue 10 ds := by
  unfold literalValue
  split
  all_goals first
    | rfl
    | exact absurd (h _ (List.mem_cons_of_mem _ List.mem_cons_self)) (by decide)

/-- What `parse::<i64>` makes of an integer token: the value of a run of decimal digits that fits,
and an error for a prefix, an underscore or an overflow. -/
theorem parseI64_text {text : List Char} (h : IntText text)
    [Decidable (text ≠ [] ∧ (∀ c ∈ text, c.isDigit = true) ∧ literalValue text < 2 ^ 63)] :
    parseI64 (String.ofList text) =
      if text ≠ [] ∧ (∀ c ∈ text, c.isDigit = true) ∧ literalValue text < 2 ^ 63 then
        some (literalValue text : Int)
      else none := by
  rw [parseI64_unsigned h.head_ne]
  by_cases hd : ∀ c ∈ text, c.isDigit = true
  · by_cases hne : text = []
    · rw [if_neg fun hc => hc.1 hne, hne]
      rfl
    · have hcond : (text ≠ [] ∧ (∀ c ∈ text, c.isDigit = true) ∧ literalValue text < 2 ^ 63) ↔
          literalValue text < 2 ^ 63 :=
        ⟨fun hc => hc.2.2, fun hlt => ⟨hne, hd, hlt⟩⟩
      rw [parseDigits_digits hne hd, Option.bind_some, if_congr hcond rfl rfl, literalValue_digits hd]
  · have hother : ∃ c ∈ text, c.isDigit = false := by
      push Not at hd
      simpa using hd
    rw [parseDigits_other hother, Option.bind_none, if_neg fun hc => hd hc.2.1]

theorem litToConstant_int_iff (parseF64 : String → Option UInt64) {text : List Char} (h : IntText text) :
    litToConstant parseF64 (.int (String.ofList text)) = .int (literalValue text) ↔
      ((∀ c ∈ text, c.isDigit = true) ∧ literalValue text < 2 ^ 63) ∨ literalValue text = 0 := by
  rw [litToConstant, parseI64_text h]
  by_cases hc : text ≠ [] ∧ (∀ c ∈ text, c.isDigit = true) ∧ literalValue text < 2 ^ 63
  · rw [if_pos hc]
    simp only [Option.getD_some, true_iff]
    exact .inl hc.2
  · rw [if_neg hc]
    simp only [Option.getD_none, Constant.int.injEq]
    constructor
    · intro h0
      right
      omega
    · intro h0
      rcases h0 with ⟨hd, hlt⟩ | h0
      · have hnil : text = [] := by
          by_contra hne
          exact hc ⟨hne, hd, hlt⟩
        rw [hnil]
        rfl
      · rw [h0]
        rfl

/-- An integer literal that the lexer accepts reaches MIR with its value, or is rejected, exactly when
it is a run of decimal digits that fits into an `i64`, or its value is zero: the fallback of
`lit_to_constant` turns every other literal into 0. -/
theorem compileNumber_value_iff (parseF64 : String → Option UInt64) {file start : Nat}
    {src text : List Char} {sp : Span} {rest : List Char}
    (h : lexNumber file start src = .ok (⟨.int text, sp⟩, rest)) :
    (compileNumber parseF64 file start src = .ok (.int (literalValue text)) ∨
        ∃ e, compileNumber parseF64 file start src = .error e) ↔
      ((∀ c ∈ text, c.isDigit = true) ∧ literalValue text < 2 ^ 63) ∨ literalValue text = 0 := by
  have hcompile : compileNumber parseF64 file start src =
      .ok (litToConstant parseF64 (.int (String.ofList text))) := by
    simp [compileNumber, h, bind, Except.bind, pure, Except.pure, parseNumber, Hir.lowerLiteral]
  rw [hcompile, ← litToConstant_int_iff parseF64 (Frontend.lexNumber_text h)]
  simp

/-- `42` keeps its value. -/
theorem compileNumber_value_decimal :
    lexNumber 0 0 ['4', '2', ')'] = .ok (⟨.int ['4', '2'], ⟨0, 0, 2⟩⟩, [')']) ∧
      (compileNumber (fun _ => none) 0 0 ['4', '2', ')'] = .ok (.int (literalValue ['4', '2'])) ∨
        ∃ e, compileNumber (fun _ => none) 0 0 ['4', '2', ')'] = .error e) := by
  have hlex : lexNumber 0 0 ['4', '2', ')'] = .ok (⟨.int ['4', '2'], ⟨0, 0, 2⟩⟩, [')']) := rfl
  exact ⟨hlex, (compileNumber_value_iff (fun _ => none) hlex).2 (.inl ⟨by simp [Char.isDigit], by decide⟩)⟩

/-- `0xFF` is accepted and becomes 0. -/
theorem hexLiteral_loses_value :
    lexNumber 0 0 ['0', 'x', 'F', 'F'] = .ok (⟨.int ['0', 'x', 'F', 'F'], ⟨0, 0, 4⟩⟩, []) ∧
      ¬(compileNumber (fun _ => none) 0 0 ['0', 'x', 'F', 'F'] =
            .ok (.int (literalValue ['0', 'x', 'F', 'F'])) ∨
          ∃ e, compileNumber (fun _ => none) 0 0 ['0', 'x', 'F', 'F'] = .error e) := by
  have hzero : compileNumber (fun _ => none) 0 0 ['0', 'x', 'F', 'F'] = .ok (.int 0) := by decide
  have hvalue : literalValue ['0', 'x', 'F', 'F'] = 255 := by decide
  refine ⟨by decide, ?_⟩
  rw [hzero, hvalue]
  simp

end Cobrust.Mir
