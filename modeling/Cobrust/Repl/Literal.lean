import Cobrust.Repl.Eval
import Mathlib

/-!
# Integer literals in the REPL

* `parseInteger_text`: the REPL reads every integer literal as the value that it denotes, and rejects one without a
  digit or out of range.
* `matches_literal_iff`: the literals that the compiler reads in the same way.
-/

namespace Cobrust.Repl

open Frontend (IntText prefixChars isHexChar isOctalChar isBinaryChar isDecimalChar)
open Mir (digitValue digitsValue literalValue)

/-- The digits of an integer literal, behind its prefix. -/
def literalDigits : List Char → List Char
  | '0' :: 'x' :: ds => ds
  | '0' :: 'X' :: ds => ds
  | '0' :: 'o' :: ds => ds
  | '0' :: 'O' :: ds => ds
  | '0' :: 'b' :: ds => ds
  | '0' :: 'B' :: ds => ds
  | ds => ds

theorem toDigit_of_isDigit {radix : Nat} {c : Char} (h : c.isDigit = true) (hradix : c.toNat < 48 + radix) :
    toDigit radix c = some (digitValue c) := by
  have hlow : 48 ≤ c.toNat := (Char.isDigit_iff_toNat.1 h).1
  have hlt : c.toNat - 48 < radix := by omega
  simp [toDigit, digitValue, h, hlt]

theorem toDigit_decimal {c : Char} (h : isDecimalChar c = true) (hc : c ≠ '_') : toDigit 10 c = some (digitValue c) := by
  have hdigit : c.isDigit = true := by simpa [isDecimalChar, hc] using h
  have hhigh : c.toNat ≤ 57 := (Char.isDigit_iff_toNat.1 hdigit).2
  exact toDigit_of_isDigit hdigit (by omega)

theorem toDigit_octal {c : Char} (h : isOctalChar c = true) (hc : c ≠ '_') : toDigit 8 c = some (digitValue c) := by
  have hrange : '0' ≤ c ∧ c ≤ '7' := by simpa [isOctalChar, hc] using h
  have hlow : 48 ≤ c.toNat := hrange.1
  have hhigh : c.toNat ≤ 55 := hrange.2
  have hnine : c.toNat ≤ 57 := by omega
  exact toDigit_of_isDigit (Char.isDigit_iff_toNat.2 ⟨hlow, hnine⟩) (by omega)

theorem toDigit_binary {c : Char} (h : isBinaryChar c = true) (hc : c ≠ '_') : toDigit 2 c = some (digitValue c) := by
  have hbit : c = '0' ∨ c = '1' := by simpa [isBinaryChar, hc] using h
  rcases hbit with rfl | rfl <;> rfl

theorem toDigit_hex {c : Char} (h : isHexChar c = true) (hc : c ≠ '_') : toDigit 16 c = some (digitValue c) := by
  by_cases hdigit : c.isDigit = true
  · have hhigh : c.toNat ≤ 57 := (Char.isDigit_iff_toNat.1 hdigit).2
    exact toDigit_of_isDigit hdigit (by omega)
  · have hletter : ('a' ≤ c ∧ c ≤ 'f') ∨ ('A' ≤ c ∧ c ≤ 'F') := by simpa [isHexChar, hc, hdigit] using h
    rcases hletter with ⟨hlow, hhigh⟩ | ⟨hlow, hhigh⟩
    · have hn : c.toNat ≤ 102 := hhigh
      have hz : c.toNat ≤ 122 := by omega
      have hcz : c ≤ 'z' := hz
      have hlt : c.toNat - 97 < 6 := by omega
      simp [toDigit, digitValue, hdigit, hlow, hhigh, hcz, hlt]
    · have hn : c.toNat ≤ 70 := hhigh
      have hz : c.toNat ≤ 90 := by omega
      have hcz : c ≤ 'Z' := hz
      have hlower : ¬ 'a' ≤ c := fun (h : 97 ≤ c.toNat) => by omega
      have hlt : c.toNat - 65 < 6 := by omega
      simp [toDigit, digitValue, hdigit, hlow, hhigh, hcz, hlower, hlt]

section Runs

variable {radix : Nat} {ds : List Char}

/-- One more character of a run of digits. -/
abbrev addDigit (radix n : Nat) (c : Char) : Nat :=
  if c = '_' then n else n * radix + digitValue c

theorem foldl_ge (hradix : 1 ≤ radix) (ds : List Char) (n : Nat) : n ≤ ds.foldl (addDigit radix) n := by
  induction ds generalizing n with
  | nil => exact le_rfl
  | cons c ds ih =>
    refine Nat.le_trans ?_ (ih _)
    unfold addDigit
    split
    · exact le_rfl
    · exact Nat.le_add_right_of_le (Nat.le_mul_of_pos_right n hradix)

theorem parseRadix_digits (hradix : 1 ≤ radix) (hds : ∀ c ∈ ds, c ≠ '_' ∧ toDigit radix c = some (digitValue c)) {n : Nat}
    (hn : n < 2 ^ 63) :
    parseRadix radix ds n =
      if ds.foldl (addDigit radix) n < 2 ^ 63 then .ok (ds.foldl (addDigit radix) n) else .error .posOverflow := by
  induction ds generalizing n with
  | nil => rw [parseRadix, List.foldl_nil, if_pos hn]
  | cons c ds ih =>
    obtain ⟨hc, hdigit⟩ := hds c List.mem_cons_self
    have hadd : addDigit radix n c = n * radix + digitValue c := if_neg hc
    rw [parseRadix, hdigit, List.foldl_cons, hadd]
    by_cases hlt : n * radix + digitValue c < 2 ^ 63
    · simp only [if_pos hlt]
      exact ih (fun d hd => hds d (List.mem_cons_of_mem c hd)) hlt
    · have hge := foldl_ge hradix ds (n * radix + digitValue c)
      simp only [if_neg hlt]
      rw [if_neg (Nat.not_lt.2 ((Nat.not_lt.1 hlt).trans hge))]

theorem digitsValue_filter (radix : Nat) (ds : List Char) :
    (ds.filter (· != '_')).foldl (addDigit radix) 0 = digitsValue radix ds := by
  rw [List.foldl_filter]
  unfold digitsValue
  congr 1
  funext n c
  by_cases hc : c = '_' <;> simp [addDigit, hc]

theorem fromStrRadix_filter (hradix : 1 ≤ radix)
    (hds : ∀ c ∈ ds, c ≠ '_' → toDigit radix c = some (digitValue c)) (hplus : '+' ∉ ds) :
    fromStrRadix radix (ds.filter (· != '_')) =
      if ∃ c ∈ ds, c ≠ '_' then
        if digitsValue radix ds < 2 ^ 63 then .ok (digitsValue radix ds) else .error .posOverflow
      else .error .empty := by
  have hmem (c : Char) (hc : c ∈ ds.filter (· != '_')) : c ≠ '_' ∧ toDigit radix c = some (digitValue c) := by
    obtain ⟨hin, hne⟩ := List.mem_filter.1 hc
    exact ⟨by simpa using hne, hds c hin (by simpa using hne)⟩
  have hparse := parseRadix_digits hradix hmem (show (0 : Nat) < 2 ^ 63 by decide)
  rw [digitsValue_filter] at hparse
  by_cases hsome : ∃ c ∈ ds, c ≠ '_'
  · rw [if_pos hsome, ← hparse]
    have hplus' : '+' ∉ ds.filter (· != '_') := fun h => hplus (List.mem_filter.1 h).1
    obtain ⟨c, hin, hne⟩ := hsome
    have hc : c ∈ ds.filter (· != '_') := List.mem_filter.2 ⟨hin, by simpa using hne⟩
    generalize ds.filter (· != '_') = ds' at hplus' hc ⊢
    unfold fromStrRadix
    split
    · cases hc
    · exact absurd List.mem_cons_self hplus'
    · exact absurd List.mem_cons_self hplus'
    · rfl
  · have hnil : ds.filter (· != '_') = [] := by
      rw [List.filter_eq_nil_iff]
      intro c hc hne
      exact hsome ⟨c, hc, by simpa using hne⟩
    rw [if_neg hsome, hnil]
    rfl

end Runs

/-! ## Literals -/

/-- What `eval_literal` makes of an integer literal with these digits and this value. -/
def readInteger (ds : List Char) (value : Nat) [Decidable (∃ c ∈ ds, c ≠ '_')] : Except IntErrorKind Nat :=
  if ∃ c ∈ ds, c ≠ '_' then if value < 2 ^ 63 then .ok value else .error .posOverflow else .error .empty

theorem filter_cons {c : Char} (ds : List Char) (hc : c ≠ '_') :
    (c :: ds).filter (· != '_') = c :: ds.filter (· != '_') := by
  rw [List.filter_cons, if_pos (by simpa using hc)]

theorem fromStrRadix_prefixed {next : Char} {valid : Char → Bool} {digits : List Char} {radix : Nat}
    (hdigits : ∀ c ∈ digits, valid c = true) (hradix : 1 ≤ radix)
    (hvalid : ∀ c, valid c = true → c ≠ '_' → toDigit radix c = some (digitValue c)) (hplus : valid '+' = false)
    (hparse : parseInteger ('0' :: next :: digits) = fromStrRadix radix (digits.filter (· != '_')))
    (hvalue : literalValue ('0' :: next :: digits) = digitsValue radix digits)
    (hds : literalDigits ('0' :: next :: digits) = digits) :
    parseInteger ('0' :: next :: digits) =
      readInteger (literalDigits ('0' :: next :: digits)) (literalValue ('0' :: next :: digits)) := by
  rw [hparse, hvalue, hds, readInteger]
  refine fromStrRadix_filter hradix (fun c hc => hvalid c (hdigits c hc)) fun hmem => ?_
  rw [hdigits _ hmem] at hplus
  cases hplus

theorem parseInteger_prefixed {next : Char} {valid : Char → Bool} {digits : List Char}
    (h : prefixChars next = some valid) (hdigits : ∀ c ∈ digits, valid c = true) :
    parseInteger ('0' :: next :: digits) =
      readInteger (literalDigits ('0' :: next :: digits)) (literalValue ('0' :: next :: digits)) := by
  have hfilter (hne : next ≠ '_') : ('0' :: next :: digits).filter (· != '_') =
      '0' :: next :: digits.filter (· != '_') := by
    rw [filter_cons _ (by decide), filter_cons _ hne]
  unfold prefixChars at h
  split at h
  · next hx =>
    cases h
    rcases hx with rfl | rfl <;>
      exact fromStrRadix_prefixed hdigits (by decide) (fun c => toDigit_hex) (by decide)
        (by rw [parseInteger, hfilter (by decide)]; rfl) rfl rfl
  · split at h
    · next ho =>
      cases h
      rcases ho with rfl | rfl <;>
        exact fromStrRadix_prefixed hdigits (by decide) (fun c => toDigit_octal) (by decide)
          (by rw [parseInteger, hfilter (by decide)]; rfl) rfl rfl
    · split at h
      · next hb =>
        cases h
        rcases hb with rfl | rfl <;>
          exact fromStrRadix_prefixed hdigits (by decide) (fun c => toDigit_binary) (by decide)
            (by rw [parseInteger, hfilter (by decide)]; rfl) rfl rfl
      · cases h

theorem parseInteger_decimal {digits : List Char} (h : ∀ c ∈ digits, isDecimalChar c = true) :
    parseInteger digits = readInteger (literalDigits digits) (literalValue digits) := by
  have hno (c : Char) (hc : isDecimalChar c = false) : c ∉ digits := fun hmem => by
    rw [h c hmem] at hc
    cases hc
  have hdigits : literalDigits digits = digits := by
    unfold literalDigits
    split
    all_goals first
      | rfl
      | exact absurd (List.mem_cons_of_mem _ List.mem_cons_self) (hno _ (by decide))
  have hvalue : literalValue digits = digitsValue 10 digits := by
    unfold literalValue
    split
    all_goals first
      | rfl
      | exact absurd (List.mem_cons_of_mem _ List.mem_cons_self) (hno _ (by decide))
  have hno' (c : Char) (hc : isDecimalChar c = false) : c ∉ digits.filter (· != '_') := fun hmem =>
    hno c hc (List.mem_filter.1 hmem).1
  have hparse : parseInteger digits = fromStrRadix 10 (digits.filter (· != '_')) := by
    unfold parseInteger
    generalize digits.filter (· != '_') = ds at hno' ⊢
    split
    all_goals first
      | rfl
      | exact absurd (List.mem_cons_of_mem _ List.mem_cons_self) (hno' _ (by decide))
  rw [hparse, hdigits, hvalue, readInteger]
  exact fromStrRadix_filter (by decide) (fun c hc => toDigit_decimal (h c hc)) (hno '+' (by decide))

/-- The REPL reads an integer literal as the value that it denotes. -/
theorem parseInteger_text (s : IntLiteral) :
    parseInteger s.text = readInteger (literalDigits s.text) (literalValue s.text) := by
  obtain ⟨text, hlexed⟩ := s
  cases hlexed with
  | prefixed h hdigits => exact parseInteger_prefixed h hdigits
  | decimal h => exact parseInteger_decimal h

/-- A literal that the REPL and the compiler read as its value: it is in range, and has no prefix and no underscore
unless it is zero. -/
def RegularLiteral (text : List Char) : Prop :=
  (∃ c ∈ literalDigits text, c ≠ '_') ∧ literalValue text < 2 ^ 63 ∧
    ((∀ c ∈ text, c.isDigit = true) ∨ literalValue text = 0)

theorem evalLiteral_ok {s : IntLiteral} (hdigit : ∃ c ∈ literalDigits s.text, c ≠ '_')
    (hlt : literalValue s.text < 2 ^ 63) : evalLiteral (.int s) = .ok (wrap (literalValue s.text)) := by
  rw [evalLiteral, parseInteger_text, readInteger, if_pos hdigit, if_pos hlt]
  rfl

theorem evalLiteral_error {s : IntLiteral}
    (h : ¬ ((∃ c ∈ literalDigits s.text, c ≠ '_') ∧ literalValue s.text < 2 ^ 63)) :
    ∃ kind, evalLiteral (.int s) = .error (.invalidInteger s.text kind) := by
  rw [evalLiteral, parseInteger_text, readInteger]
  by_cases hdigit : ∃ c ∈ literalDigits s.text, c ≠ '_'
  · rw [if_pos hdigit, if_neg fun hlt => h ⟨hdigit, hlt⟩]
    exact ⟨_, rfl⟩
  · rw [if_neg hdigit]
    exact ⟨_, rfl⟩

/-- The compiler reads a literal in range as its value exactly where it is regular. -/
theorem parseI64_regular {s : IntLiteral} (hdigit : ∃ c ∈ literalDigits s.text, c ≠ '_')
    (hlt : literalValue s.text < 2 ^ 63) :
    BitVec.ofInt 64 ((Mir.parseI64 (String.ofList s.text)).getD 0) = BitVec.ofInt 64 (literalValue s.text) ↔
      RegularLiteral s.text := by
  have hiff := Mir.litToConstant_int_iff (fun _ => none) s.lexed
  rw [Mir.litToConstant, Mir.Constant.int.injEq] at hiff
  have hregular : RegularLiteral s.text ↔
      ((∀ c ∈ s.text, c.isDigit = true) ∧ literalValue s.text < 2 ^ 63) ∨ literalValue s.text = 0 := by
    unfold RegularLiteral
    tauto
  rw [hregular, ← hiff]
  refine ⟨fun h => ?_, fun h => by rw [h]⟩
  classical
  rw [Mir.parseI64_text s.lexed] at h ⊢
  split at h
  · next hc => rw [if_pos hc, Option.getD_some]
  · next hc =>
    rw [if_neg hc, Option.getD_none]
    have hnat : literalValue s.text % 2 ^ 64 = 0 := (congrArg BitVec.toNat h).symm
    rw [Nat.mod_eq_of_lt (by omega)] at hnat
    rw [hnat]
    rfl

end Cobrust.Repl
