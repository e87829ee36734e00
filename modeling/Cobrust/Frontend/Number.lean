import Cobrust.Frontend.Ast
import Mathlib.Data.List.TakeWhile

/-!
# Number literals in the lexer

`lex_number` of `cobrust-frontend/src/lexer.rs`. The lexer walks over bytes; every byte it tests for
or consumes inside a number is ASCII, so the source text is a list of characters here and a position
grows by one for each character read.
-/

namespace Cobrust.Frontend

/-- The kinds of number tokens. Each keeps the text of the literal. -/
inductive NumberKind where
  | int (text : List Char)
  | float (text : List Char)
  | imag (text : List Char)
  deriving DecidableEq, Repr

structure NumberToken where
  kind : NumberKind
  span : Span
  deriving DecidableEq, Repr

def NumberKind.token : NumberKind → TokenKind
  | int text => .int text
  | float text => .float text
  | imag text => .imag text

/-- What was read since the start of the literal, and the text that follows. -/
structure Scan where
  text : List Char
  rest : List Char
  deriving DecidableEq, Repr

namespace Scan

/-- The character `off` places ahead; none at the end of the input. -/
def peek (s : Scan) (off : Nat) : Option Char :=
  s.rest[off]?

def advance (s : Scan) (n : Nat) : Scan :=
  ⟨s.text ++ s.rest.take n, s.rest.drop n⟩

/-- `while valid(current) { pos += 1 }`. -/
def skipWhile (s : Scan) (valid : Char → Bool) : Scan :=
  ⟨s.text ++ s.rest.takeWhile valid, s.rest.dropWhile valid⟩

/-- An optional sign. -/
def skipSign (s : Scan) : Scan :=
  if s.peek 0 = some '+' || s.peek 0 = some '-' then s.advance 1 else s

/-- The span of what was read, for a literal that starts at byte `start`. -/
def span (s : Scan) (file start : Nat) : Span :=
  ⟨file, start, start + s.text.length⟩

end Scan

def isDecimalChar (c : Char) : Bool :=
  c.isDigit || c == '_'

def isHexChar (c : Char) : Bool :=
  c.isDigit || ('a' ≤ c && c ≤ 'f') || ('A' ≤ c && c ≤ 'F') || c == '_'

def isOctalChar (c : Char) : Bool :=
  ('0' ≤ c && c ≤ '7') || c == '_'

def isBinaryChar (c : Char) : Bool :=
  c == '0' || c == '1' || c == '_'

/-- What may follow the prefix that ends in `next`; none where `next` ends no prefix. -/
def prefixChars (next : Char) : Option (Char → Bool) :=
  if next = 'x' ∨ next = 'X' then some isHexChar
  else if next = 'o' ∨ next = 'O' then some isOctalChar
  else if next = 'b' ∨ next = 'B' then some isBinaryChar
  else none

/-- The valid characters behind a `0x`, `0o` or `0b` at the head of the source. -/
def radixPrefix (src : List Char) : Option (Char → Bool) :=
  match src with
  | '0' :: next :: _ => prefixChars next
  | _ => none

def lexPrefixed (file start : Nat) (s : Scan) (valid : Char → Bool) :
    Except LexError (NumberKind × Scan) :=
  let s₁ := s.advance 2
  let s₂ := s₁.skipWhile valid
  if s₂.text.length = s₁.text.length then .error (.malformedNumber (s₂.span file start))
  else .ok (.int s₂.text, s₂)

/-- The fraction: a dot before a name start belongs to a method call, not to the number. -/
def lexFraction (s : Scan) : Scan × Bool :=
  let dotIsMethod := (s.peek 1).any fun c => c == '_' || c.isAlpha
  if s.peek 0 = some '.' && !dotIsMethod then ((s.advance 1).skipWhile isDecimalChar, true)
  else (s, false)

/-- The exponent; it must have a digit or an underscore. -/
def lexExponent (file start : Nat) (s : Scan) : Except LexError (Scan × Bool) :=
  if s.peek 0 = some 'e' || s.peek 0 = some 'E' then
    let s₁ := (s.advance 1).skipSign
    let s₂ := s₁.skipWhile isDecimalChar
    if s₂.text.length = s₁.text.length then .error (.malformedNumber (s₂.span file start))
    else .ok (s₂, true)
  else .ok (s, false)

def lexDecimal (file start : Nat) (s : Scan) : Except LexError (NumberKind × Scan) := do
  let startedWithDot := s.peek 0 = some '.'
  let s₁ := if startedWithDot then s.advance 1 else s
  if startedWithDot && !(s₁.peek 0).any Char.isDigit then
    throw (.malformedNumber (s₁.span file start))
  let s₂ := s₁.skipWhile isDecimalChar
  let (s₃, hasFraction) := if startedWithDot then (s₂, true) else lexFraction s₂
  let (s₄, hasExponent) ← lexExponent file start s₃
  if s₄.peek 0 = some 'j' || s₄.peek 0 = some 'J' then
    let s₅ := s₄.advance 1
    return (.imag s₅.text, s₅)
  else if hasFraction || hasExponent then return (.float s₄.text, s₄)
  else return (.int s₄.text, s₄)

/-- `lex_number`, on the source from byte `start` on: the token and the text after it. -/
def lexNumber (file start : Nat) (src : List Char) : Except LexError (NumberToken × List Char) := do
  let s : Scan := ⟨[], src⟩
  let (kind, s') ← match radixPrefix src with
    | some valid => lexPrefixed file start s valid
    | none => lexDecimal file start s
  return (⟨kind, s'.span file start⟩, s'.rest)

/-- The numeric cases of `ast::Literal`. -/
inductive Literal where
  | int (s : String)
  | float (s : String)
  | imag (s : String)
  deriving DecidableEq, Repr

/-- `parse_atom` on a number token: the literal keeps the token's text. -/
def parseNumber : NumberKind → Literal
  | .int text => .int (String.ofList text)
  | .float text => .float (String.ofList text)
  | .imag text => .imag (String.ofList text)

/-- The text of an integer token: a radix prefix with its digits, or decimal digits and underscores. -/
inductive IntText : List Char → Prop
  | prefixed {next : Char} {valid : Char → Bool} {digits : List Char} (h : prefixChars next = some valid)
      (hdigits : ∀ c ∈ digits, valid c = true) : IntText ('0' :: next :: digits)
  | decimal {digits : List Char} (h : ∀ c ∈ digits, isDecimalChar c = true) : IntText digits

theorem IntText.head_ne {text : List Char} (h : IntText text) :
    ∀ c, text.head? = some c → c ≠ '-' ∧ c ≠ '+' := by
  intro c hc
  cases h with
  | prefixed =>
    obtain rfl : '0' = c := by simpa using hc
    decide
  | decimal h =>
    have hmem : c ∈ text := List.mem_of_mem_head? hc
    have hdec := h c hmem
    constructor <;> (rintro rfl; revert hdec; decide)

theorem lexPrefixed_text {file start : Nat} {src : List Char} {valid : Char → Bool} {kind : NumberKind}
    {s' : Scan} (hp : radixPrefix src = some valid)
    (h : lexPrefixed file start ⟨[], src⟩ valid = .ok (kind, s')) :
    ∃ text, kind = .int text ∧ IntText text := by
  unfold radixPrefix at hp
  split at hp
  · next next tail =>
    simp only [lexPrefixed] at h
    split at h
    · cases h
    · obtain ⟨rfl, rfl⟩ := Prod.mk.inj (Except.ok.inj h)
      refine ⟨_, rfl, ?_⟩
      exact .prefixed hp fun c (hc : c ∈ tail.takeWhile valid) => List.mem_takeWhile_imp hc
  · cases hp

theorem lexFraction_false {s s' : Scan} (h : lexFraction s = (s', false)) : s' = s := by
  unfold lexFraction at h
  simp only at h
  split at h
  · cases h
  · exact (Prod.mk.inj h).1.symm

theorem lexExponent_false {file start : Nat} {s s' : Scan}
    (h : lexExponent file start s = .ok (s', false)) : s' = s := by
  unfold lexExponent at h
  split at h
  · simp only at h
    split at h <;> cases h
  · exact (Prod.mk.inj (Except.ok.inj h)).1.symm

/-- An integer token comes out of the decimal branch only where no dot, exponent or suffix was read,
so its text is the first run of digits. -/
theorem lexDecimal_text {file start : Nat} {src text : List Char} {s' : Scan}
    (h : lexDecimal file start ⟨[], src⟩ = .ok (.int text, s')) : IntText text := by
  unfold lexDecimal at h
  by_cases hdot : (Scan.mk [] src).peek 0 = some '.'
  · simp only [hdot, decide_true, if_true, Bool.true_and] at h
    split at h
    · cases h
    · simp only [bind, Except.bind, pure, Except.pure] at h
      split at h
      · cases h
      · split at h <;> cases h
  · simp only [hdot, decide_false, Bool.false_and, bind, Except.bind, pure, Except.pure,
      Bool.false_eq_true, if_false] at h
    cases hf : lexFraction (Scan.skipWhile ⟨[], src⟩ isDecimalChar) with
    | mk s₃ hasFraction =>
      simp only [hf] at h
      cases he : lexExponent file start s₃ with
      | error e => simp [he] at h
      | ok r =>
        obtain ⟨s₄, hasExponent⟩ := r
        simp only [he] at h
        split at h
        · cases h
        · split at h
          · cases h
          · next hnone =>
            obtain ⟨hfrac, hexp⟩ : hasFraction = false ∧ hasExponent = false := by
              simpa using hnone
            subst hfrac hexp
            obtain rfl := lexExponent_false he
            obtain rfl := lexFraction_false hf
            obtain ⟨rfl, -⟩ : _ = text ∧ _ := by simpa using h
            exact .decimal fun c hc => List.mem_takeWhile_imp hc

theorem lexNumber_text {file start : Nat} {src text : List Char} {sp : Span} {rest : List Char}
    (h : lexNumber file start src = .ok (⟨.int text, sp⟩, rest)) : IntText text := by
  unfold lexNumber at h
  cases hp : radixPrefix src with
  | some valid =>
    cases hl : lexPrefixed file start ⟨[], src⟩ valid with
    | error e => simp [hp, hl, bind, Except.bind] at h
    | ok r =>
      obtain ⟨kind, s'⟩ := r
      obtain ⟨text', rfl, htext⟩ := lexPrefixed_text hp hl
      obtain ⟨⟨rfl, -⟩, -⟩ : (text' = text ∧ _) ∧ _ := by
        simpa [hp, hl, bind, Except.bind, pure, Except.pure] using h
      exact htext
  | none =>
    cases hl : lexDecimal file start ⟨[], src⟩ with
    | error e => simp [hp, hl, bind, Except.bind] at h
    | ok r =>
      obtain ⟨kind, s'⟩ := r
      obtain ⟨⟨rfl, -⟩, -⟩ : (kind = .int text ∧ _) ∧ _ := by
        simpa [hp, hl, bind, Except.bind, pure, Except.pure] using h
      exact lexDecimal_text hl

end Cobrust.Frontend
