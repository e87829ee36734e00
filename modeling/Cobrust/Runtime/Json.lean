import Cobrust.Text.JsonLayout
import Mathlib.Algebra.Order.Field.Rat
import Mathlib.Data.Rat.Lemmas
import Mathlib.Tactic.NormNum.Basic

/-!
# JSON in the standard library

`dumps_str` and `dumps_str_indent` of `cobrust-stdlib/src/json.rs`. The parser of `serde_json`, which is not part of
the repository, is a parameter: it reads every JSON document, keeps an integer that fits `i64` or `u64` as it is and
every other number as a double, and collects the rows of an object into a map. Doubles are a parameter as well. Texts
are as long as they need to be.

* `dumpsStr` and `dumpsStrIndent`: the two writers behind the parser.
* `Reencodes`: the output is a JSON document of the same value in ASCII, and stays as it is when it is written again.
* `reencode_iff`: both writers re-encode a document of integers exactly when its integers outside the 64-bit ranges
  are doubles.
-/

namespace Cobrust.Runtime.Json

open Text (JsonDoc JsonNumber RowMap Blanks readJson readHex4 readEscape readChars readString numberEnds jsonBlank
  hexValue)

/-- The finite doubles: their signs and values, the double nearest to a number, and the text of `{}`. -/
structure Doubles where
  F : Type
  neg : F → Bool
  value : F → ℚ
  read : JsonNumber → Option F
  display : F → Text
  neg_of_lt : ∀ f, value f < 0 → neg f = true
  not_neg_of_lt : ∀ f, 0 < value f → neg f = false
  read_neg : ∀ n f, read n = some f → neg f = n.neg
  /-- A number that is a double is read as this double. -/
  read_exact : ∀ n f, n.neg = neg f → n.value = value f → read n = some f
  /-- An integer is read as an integer. -/
  read_integer : ∀ n f, n.frac = none → n.exp = none → read n = some f → (value f).den = 1

variable (D : Doubles)

/-- `serde_json::Number` -/
inductive Number where
  | int (n : Int)
  | float (f : D.F)

def intValue (n : JsonNumber) : Int :=
  if n.neg then -(JsonNumber.digitsValue n.whole : Int) else JsonNumber.digitsValue n.whole

/-- An integer of `i64` or `u64`. The text `-0` is none. -/
def Fits (n : JsonNumber) : Prop :=
  n.frac = none ∧ n.exp = none ∧
    if n.neg then 0 < JsonNumber.digitsValue n.whole ∧ JsonNumber.digitsValue n.whole ≤ 2 ^ 63
    else JsonNumber.digitsValue n.whole < 2 ^ 64

instance (n : JsonNumber) : Decidable (Fits n) :=
  inferInstanceAs (Decidable (_ ∧ _ ∧ _))

/-- How `serde_json` keeps a number. -/
def keepNumber (n : JsonNumber) : Option (Number D) :=
  if Fits n then some (.int (intValue n)) else (D.read n).map .float

/-- `serde_json::from_str`, with the maps that its objects are. -/
structure SerdeJson where
  map : RowMap
  loads : Text → Option (JsonDoc (Number D))
  loads_doc : ∀ t d, readJson t = some d → loads t = (d.traverse (keepNumber D)).map fun v => v.collect map

/-! ## The writers -/

def hex4 (n : Nat) : Text :=
  [(n / 4096 % 16).digitChar, (n / 256 % 16).digitChar, (n / 16 % 16).digitChar, (n % 16).digitChar]

def unicodeEscape (n : Nat) : Text :=
  '\\' :: 'u' :: hex4 n

def escapeChar (c : Char) : Text :=
  match c with
  | '"' => ['\\', '"']
  | '\\' => ['\\', '\\']
  | '\n' => ['\\', 'n']
  | '\r' => ['\\', 'r']
  | '\t' => ['\\', 't']
  | '\x08' => ['\\', 'b']
  | '\x0c' => ['\\', 'f']
  | c =>
    if c.toNat < 0x20 then unicodeEscape c.toNat
    else if c.toNat < 0x7f then [c]
    else if c.toNat ≤ 0xffff then unicodeEscape c.toNat
    else
      let v := c.toNat - 0x10000
      unicodeEscape (0xd800 + v / 0x400) ++ unicodeEscape (0xdc00 + v % 0x400)

def writePyString (s : String) : Text :=
  '"' :: (s.toList.flatMap escapeChar ++ ['"'])

variable {D}

def formatNumber : Number D → Text
  | .int n => Text.displayInt n
  | .float f =>
    if (D.value f).den = 1 then
      (if D.neg f then ['-'] else []) ++ (Nat.toDigits 10 (D.value f).num.natAbs ++ ".0".toList)
    else D.display f

mutual

def writeCompact : JsonDoc (Number D) → Text
  | .null => "null".toList
  | .bool b => if b then "true".toList else "false".toList
  | .number n => formatNumber n
  | .string s => writePyString s
  | .array items => '[' :: (compactItems 0 items ++ [']'])
  | .object map => '\x7b' :: (compactRows 0 map ++ ['\x7d'])

def compactItems (i : Nat) : List (JsonDoc (Number D)) → Text
  | [] => []
  | item :: items => (if 0 < i then ", ".toList else []) ++ (writeCompact item ++ compactItems (i + 1) items)

def compactRows (i : Nat) : List (String × JsonDoc (Number D)) → Text
  | [] => []
  | (k, v) :: rows =>
    (if 0 < i then ", ".toList else []) ++
      (writePyString k ++ (": ".toList ++ (writeCompact v ++ compactRows (i + 1) rows)))

end

/-- `" ".repeat(..)` of a product that wraps around. -/
def spaces (n : Nat) : Text :=
  List.replicate (n % 2 ^ 64) ' '

mutual

def writePretty (indent level : Nat) : JsonDoc (Number D) → Text
  | .array items =>
    if items = [] then writeCompact (.array items)
    else '[' :: (prettyItems indent level 0 items ++ ('\n' :: (spaces (indent * level) ++ [']'])))
  | .object map =>
    if map = [] then writeCompact (.object map)
    else '\x7b' :: (prettyRows indent level 0 map ++ ('\n' :: (spaces (indent * level) ++ ['\x7d'])))
  | v => writeCompact v

def prettyItems (indent level i : Nat) : List (JsonDoc (Number D)) → Text
  | [] => []
  | item :: items =>
    (if 0 < i then [','] else []) ++ ('\n' :: (spaces (indent * (level + 1)) ++
      (writePretty indent (level + 1) item ++ prettyItems indent level (i + 1) items)))

def prettyRows (indent level i : Nat) : List (String × JsonDoc (Number D)) → Text
  | [] => []
  | (k, v) :: rows =>
    (if 0 < i then [','] else []) ++ ('\n' :: (spaces (indent * (level + 1)) ++
      (writePyString k ++ (": ".toList ++ (writePretty indent (level + 1) v ++ prettyRows indent level (i + 1) rows)))))

end

def dumps (value : JsonDoc (Number D)) : Text :=
  writeCompact value

def dumpsIndent (value : JsonDoc (Number D)) (indent : Nat) : Text :=
  writePretty indent 0 value

variable (serde : SerdeJson D)

def dumpsStr (json_input : Text) : Text :=
  match serde.loads json_input with
  | some v => dumps v
  | none => []

def dumpsStrIndent (json_input : Text) (indent : Nat) : Text :=
  match serde.loads json_input with
  | some v => dumpsIndent v indent
  | none => []

/-! ## Strings are read back -/

theorem hexValue_digitChar : ∀ d < 16, hexValue d.digitChar = some d := by decide

theorem readHex4_hex4 {n : Nat} (h : n < 0x10000) (s : Text) : readHex4 (hex4 n ++ s) = some (n, s) := by
  have hdigit (n : Nat) : hexValue (n % 16).digitChar = some (n % 16) := hexValue_digitChar _ (Nat.mod_lt _ (by decide))
  simp only [hex4, List.cons_append, List.nil_append, readHex4, hdigit, Option.some.injEq, Prod.mk.injEq, and_true]
  omega

/-- A character outside the surrogates is read back from its one escape. -/
theorem readEscape_unicode {c : Char} (h : c.toNat < 0x10000) (s : Text) :
    readEscape ('u' :: (hex4 c.toNat ++ s)) = some (c, s) := by
  have hvalid : c.toNat < 0xd800 ∨ 0xdfff < c.toNat := by
    rcases c.valid with h | h
    · exact .inl h
    · exact .inr h.1
  simp only [readEscape, readHex4_hex4 h]
  rw [if_neg (by omega), if_neg (by omega), Char.ofNat_toNat]

theorem readLow_low {high low : Nat} (h : low < 0x400) (s : Text) :
    Text.readLow high (unicodeEscape (0xdc00 + low) ++ s) =
      some (Char.ofNat (0x10000 + (high - 0xd800) * 0x400 + low), s) := by
  have hlow : 0xdc00 ≤ 0xdc00 + low ∧ 0xdc00 + low < 0xe000 := by omega
  simp only [unicodeEscape, List.cons_append, Text.readLow, readHex4_hex4 (show 0xdc00 + low < 0x10000 by omega)]
  rw [if_pos hlow, Nat.add_sub_cancel_left]

/-- A character above the first plane is read back from its surrogate pair. -/
theorem readEscape_pair {c : Char} (h : 0x10000 ≤ c.toNat) (s : Text) :
    readEscape ('u' :: (hex4 (0xd800 + (c.toNat - 0x10000) / 0x400) ++
      (unicodeEscape (0xdc00 + (c.toNat - 0x10000) % 0x400) ++ s))) = some (c, s) := by
  have hmax : c.toNat < 0x110000 := by
    rcases c.valid with h | h
    · exact h.trans (by decide)
    · exact h.2
  have hhigh : 0xd800 ≤ 0xd800 + (c.toNat - 0x10000) / 0x400 ∧ 0xd800 + (c.toNat - 0x10000) / 0x400 < 0xdc00 := by omega
  have hchar : 0x10000 + (0xd800 + (c.toNat - 0x10000) / 0x400 - 0xd800) * 0x400 + (c.toNat - 0x10000) % 0x400 =
      c.toNat := by
    omega
  simp only [readEscape, readHex4_hex4 (show 0xd800 + (c.toNat - 0x10000) / 0x400 < 0x10000 by omega)]
  rw [if_pos hhigh, readLow_low (Nat.mod_lt _ (by decide)), hchar, Char.ofNat_toNat]

/-- A character is written as itself or as an escape, and read back from it. -/
theorem escapeChar_cases (c : Char) : (escapeChar c = [c] ∧ 0x20 ≤ c.toNat ∧ c.toNat < 0x7f ∧ c ≠ '"' ∧ c ≠ '\\') ∨
    ∃ e, escapeChar c = '\\' :: e ∧ ∀ s, readEscape (e ++ s) = some (c, s) := by
  unfold escapeChar
  split
  · exact .inr ⟨_, rfl, fun _ => rfl⟩
  · exact .inr ⟨_, rfl, fun _ => rfl⟩
  · exact .inr ⟨_, rfl, fun _ => rfl⟩
  · exact .inr ⟨_, rfl, fun _ => rfl⟩
  · exact .inr ⟨_, rfl, fun _ => rfl⟩
  · exact .inr ⟨_, rfl, fun _ => rfl⟩
  · exact .inr ⟨_, rfl, fun _ => rfl⟩
  · next hquote hslash _ _ _ _ _ =>
    by_cases hcontrol : c.toNat < 0x20
    · rw [if_pos hcontrol]
      exact .inr ⟨_, rfl, readEscape_unicode (by omega)⟩
    · rw [if_neg hcontrol]
      by_cases hascii : c.toNat < 0x7f
      · rw [if_pos hascii]
        exact .inl ⟨rfl, by omega, hascii, hquote, hslash⟩
      · rw [if_neg hascii]
        by_cases hplane : c.toNat ≤ 0xffff
        · rw [if_pos hplane]
          exact .inr ⟨_, rfl, readEscape_unicode (by omega)⟩
        · rw [if_neg hplane]
          refine .inr ⟨'u' :: (hex4 _ ++ unicodeEscape _), rfl, fun s => ?_⟩
          rw [List.cons_append, List.append_assoc]
          exact readEscape_pair (by omega) s

theorem readChars_escapes (s : Text) : ∀ fuel, s.length < fuel → ∀ rest,
    readChars fuel (s.flatMap escapeChar ++ '"' :: rest) = some (s, rest) := by
  induction s with
  | nil =>
    intro fuel hfuel rest
    obtain ⟨fuel, rfl⟩ : ∃ fuel', fuel = fuel' + 1 := ⟨fuel - 1, by omega⟩
    rfl
  | cons c s ih =>
    intro fuel hfuel rest
    obtain ⟨fuel, rfl⟩ : ∃ fuel', fuel = fuel' + 1 := ⟨fuel - 1, by omega⟩
    have hrest := ih fuel (by simp only [List.length_cons] at hfuel; omega) rest
    rw [List.flatMap_cons, List.append_assoc]
    rcases escapeChar_cases c with ⟨hc, hcontrol, -, hquote, hslash⟩ | ⟨e, he, hread⟩
    · rw [hc, List.singleton_append]
      unfold readChars
      split
      · next heq => cases heq
      · next heq => cases heq
      · next heq => cases heq; exact absurd rfl hquote
      · next heq => cases heq; exact absurd rfl hslash
      · next heq =>
        cases heq
        rw [if_neg (by omega)]
        simp_all
    · rw [he, List.cons_append, readChars, hread]
      simp only
      rw [hrest]
      rfl

theorem length_le_escapes (s : Text) : s.length ≤ (s.flatMap escapeChar).length := by
  induction s with
  | nil => exact le_rfl
  | cons c s ih =>
    have hpos : 0 < (escapeChar c).length := by
      rcases escapeChar_cases c with ⟨hc, -⟩ | ⟨e, he, -⟩
      · simp [hc]
      · rw [he, List.length_cons]; omega
    rw [List.flatMap_cons, List.length_append, List.length_cons]
    omega

theorem readString_writePyString (s : String) :
    ∃ body, writePyString s = '"' :: body ∧ ∀ rest, readString (body ++ rest) = some (s.toList, rest) := by
  refine ⟨s.toList.flatMap escapeChar ++ ['"'], rfl, fun rest => ?_⟩
  rw [List.append_assoc, List.singleton_append, readString]
  refine readChars_escapes _ _ ?_ _
  have := length_le_escapes s.toList
  simp only [List.length_append, List.length_cons]
  omega

theorem ascii_of_all {s : Text} (h : s.all (·.toNat < 128) = true) : ∀ c ∈ s, c.toNat < 128 :=
  fun c hc => of_decide_eq_true (List.all_eq_true.mp h c hc)

theorem hex4_ascii (n : Nat) : ∀ c ∈ hex4 n, c.toNat < 128 := by
  have hdigit : ∀ d < 16, d.digitChar.toNat < 128 := by decide
  intro c hc
  simp only [hex4, List.mem_cons, List.not_mem_nil, or_false] at hc
  rcases hc with rfl | rfl | rfl | rfl <;> exact hdigit _ (Nat.mod_lt _ (by decide))

theorem unicodeEscape_ascii (n : Nat) : ∀ c ∈ unicodeEscape n, c.toNat < 128 := by
  intro c hc
  simp only [unicodeEscape, List.mem_cons] at hc
  rcases hc with rfl | rfl | hc
  · decide
  · decide
  · exact hex4_ascii n c hc

theorem escapeChar_ascii (c : Char) : ∀ x ∈ escapeChar c, x.toNat < 128 := by
  unfold escapeChar
  split
  all_goals try exact ascii_of_all rfl
  intro x hx
  split at hx
  · exact unicodeEscape_ascii _ x hx
  · split at hx
    · next hascii =>
      rw [List.mem_singleton.mp hx]
      omega
    · split at hx
      · exact unicodeEscape_ascii _ x hx
      · exact (List.mem_append.mp hx).elim (unicodeEscape_ascii _ x) (unicodeEscape_ascii _ x)

theorem writePyString_ascii (s : String) : ∀ c ∈ writePyString s, c.toNat < 128 := by
  intro c hc
  simp only [writePyString, List.mem_cons, List.mem_append, List.mem_flatMap, List.not_mem_nil, or_false] at hc
  rcases hc with rfl | ⟨x, -, hx⟩ | rfl
  · decide
  · exact escapeChar_ascii x c hx
  · decide

/-! ## Both writers are layouts -/

def compactBlanks : Blanks where
  first _ := []
  between _ := [' ']
  last _ := []
  colon := [' ']
  first_blank _ c hc := by cases hc
  between_blank _ c hc := by rw [List.mem_singleton.mp hc]; rfl
  last_blank _ c hc := by cases hc
  colon_blank c hc := by rw [List.mem_singleton.mp hc]; rfl

theorem line_blank (n : Nat) : ∀ c ∈ '\n' :: spaces n, jsonBlank c = true := by
  intro c hc
  rcases List.mem_cons.mp hc with rfl | hc
  · rfl
  · rw [List.eq_of_mem_replicate hc]
    rfl

def prettyBlanks (indent : Nat) : Blanks where
  first l := '\n' :: spaces (indent * (l + 1))
  between l := '\n' :: spaces (indent * (l + 1))
  last l := '\n' :: spaces (indent * l)
  colon := [' ']
  first_blank _ := line_blank _
  between_blank _ := line_blank _
  last_blank _ := line_blank _
  colon_blank c hc := by rw [List.mem_singleton.mp hc]; rfl

mutual

theorem writeCompact_eq (l : Nat) (v : JsonDoc (Number D)) :
    writeCompact v = v.layout formatNumber writePyString compactBlanks l := by
  cases v with
  | null => rfl
  | bool b => cases b <;> rfl
  | number n => rfl
  | string s => rfl
  | array items =>
    cases items with
    | nil => rfl
    | cons item items =>
      have hitems := compactItems_eq l 0 items
      rw [writeCompact, compactItems, JsonDoc.layout, writeCompact_eq (l + 1) item, ← hitems]
      simp [compactBlanks]
  | object map =>
    cases map with
    | nil => rfl
    | cons r rows =>
      obtain ⟨k, v⟩ := r
      have hrows := compactRows_eq l 0 rows
      rw [writeCompact, compactRows, JsonDoc.layout, writeCompact_eq (l + 1) v, ← hrows]
      simp [compactBlanks]

theorem compactItems_eq (l i : Nat) (items : List (JsonDoc (Number D))) :
    compactItems (i + 1) items ++ [']'] = JsonDoc.layoutItems formatNumber writePyString compactBlanks l items := by
  cases items with
  | nil => rfl
  | cons item items =>
    have hitems := compactItems_eq l (i + 1) items
    rw [compactItems, JsonDoc.layoutItems, writeCompact_eq (l + 1) item, ← hitems]
    simp [compactBlanks]

theorem compactRows_eq (l i : Nat) (rows : List (String × JsonDoc (Number D))) :
    compactRows (i + 1) rows ++ ['\x7d'] = JsonDoc.layoutRows formatNumber writePyString compactBlanks l rows := by
  cases rows with
  | nil => rfl
  | cons r rows =>
    obtain ⟨k, v⟩ := r
    have hrows := compactRows_eq l (i + 1) rows
    rw [compactRows, JsonDoc.layoutRows, writeCompact_eq (l + 1) v, ← hrows]
    simp [compactBlanks]

end

mutual

theorem writePretty_eq (indent l : Nat) (v : JsonDoc (Number D)) :
    writePretty indent l v = v.layout formatNumber writePyString (prettyBlanks indent) l := by
  cases v with
  | null => rfl
  | bool b => cases b <;> rfl
  | number n => rfl
  | string s => rfl
  | array items =>
    cases items with
    | nil => rfl
    | cons item items =>
      have hitems := prettyItems_eq indent l 0 items
      rw [writePretty, if_neg (List.cons_ne_nil _ _), prettyItems, JsonDoc.layout,
          writePretty_eq indent (l + 1) item, ← hitems]
      simp [prettyBlanks]
  | object map =>
    cases map with
    | nil => rfl
    | cons r rows =>
      obtain ⟨k, v⟩ := r
      have hrows := prettyRows_eq indent l 0 rows
      rw [writePretty, if_neg (List.cons_ne_nil _ _), prettyRows, JsonDoc.layout, writePretty_eq indent (l + 1) v,
          ← hrows]
      simp [prettyBlanks]

theorem prettyItems_eq (indent l i : Nat) (items : List (JsonDoc (Number D))) :
    prettyItems indent l (i + 1) items ++ ('\n' :: (spaces (indent * l) ++ [']'])) =
      JsonDoc.layoutItems formatNumber writePyString (prettyBlanks indent) l items := by
  cases items with
  | nil => rfl
  | cons item items =>
    have hitems := prettyItems_eq indent l (i + 1) items
    rw [prettyItems, JsonDoc.layoutItems, writePretty_eq indent (l + 1) item, ← hitems]
    simp [prettyBlanks]

theorem prettyRows_eq (indent l i : Nat) (rows : List (String × JsonDoc (Number D))) :
    prettyRows indent l (i + 1) rows ++ ('\n' :: (spaces (indent * l) ++ ['\x7d'])) =
      JsonDoc.layoutRows formatNumber writePyString (prettyBlanks indent) l rows := by
  cases rows with
  | nil => rfl
  | cons r rows =>
    obtain ⟨k, v⟩ := r
    have hrows := prettyRows_eq indent l (i + 1) rows
    rw [prettyRows, JsonDoc.layoutRows, writePretty_eq indent (l + 1) v, ← hrows]
    simp [prettyBlanks]

end

/-- A number as the writer writes it. -/
def written : Number D → JsonNumber
  | .int n => ⟨decide (n < 0), Nat.toDigits 10 n.natAbs, none, none⟩
  | .float f => ⟨D.neg f, Nat.toDigits 10 (D.value f).num.natAbs, some ['0'], none⟩

/-- The doubles that are kept are integers. -/
def Whole : Number D → Prop
  | .int _ => True
  | .float f => (D.value f).den = 1

theorem head_toDigits (n : Nat) : (Nat.toDigits 10 n).head? = some '0' → (Nat.toDigits 10 n).length = 1 := by
  induction n using Nat.strong_induction_on with
  | _ n ih =>
    rw [Nat.toDigits_eq_if (by decide)]
    by_cases hn : n < 10
    · rw [if_pos hn]
      exact fun _ => rfl
    · rw [if_neg hn]
      intro hhead
      obtain ⟨c, digits, hsplit⟩ := List.exists_cons_of_ne_nil (Nat.toDigits_ne_nil (n := n / 10) (b := 10))
      have hzero : (Nat.toDigits 10 (n / 10)).head? = some '0' := by
        rw [hsplit] at hhead ⊢
        simpa using hhead
      have hlength := ih (n / 10) (by omega) hzero
      -- a single digit that is zero is the number zero
      have hvalue := Nat.ofDigitChars_ten_toDigits (n := n / 10)
      rw [hsplit] at hzero hlength hvalue
      have hnil : digits = [] := List.length_eq_zero_iff.mp (by simpa using hlength)
      obtain rfl : c = '0' := by simpa using hzero
      subst hnil
      have : n / 10 = 0 := hvalue.symm
      omega

theorem valid_written (n : Number D) : (written n).Valid := by
  have hdigits (k : Nat) : ∀ c ∈ Nat.toDigits 10 k, c.isDigit = true := fun c hc => Text.isDigit_of_mem_toDigits hc
  cases n with
  | int n =>
    exact ⟨Nat.toDigits_ne_nil, hdigits _, head_toDigits _, by rintro _ ⟨⟩, by rintro _ ⟨⟩⟩
  | float f =>
    refine ⟨Nat.toDigits_ne_nil, hdigits _, head_toDigits _, ?_, by rintro _ ⟨⟩⟩
    rintro _ ⟨⟩
    exact ⟨by decide, List.all_eq_true.mp rfl⟩

theorem formatNumber_eq {n : Number D} (h : Whole n) : formatNumber n = (written n).text := by
  cases n with
  | int n =>
    cases n with
    | ofNat k =>
      simp [formatNumber, written, JsonNumber.text, Text.displayInt]
    | negSucc k => simp [formatNumber, written, JsonNumber.text, Text.displayInt]
  | float f =>
    have hden : (D.value f).den = 1 := h
    cases hneg : D.neg f <;> simp [formatNumber, written, JsonNumber.text, hden, hneg]

theorem reads_written {numbers : List (Number D)} (h : ∀ n ∈ numbers, Whole n) :
    Text.ReadsBack formatNumber written writePyString numbers where
  number n hn rest hrest := by
    rw [formatNumber_eq (h n hn)]
    exact Text.readNumber_text (valid_written n) hrest
  number_head n hn := by
    have hvalid := valid_written n
    rw [formatNumber_eq (h n hn), JsonNumber.text]
    cases (written n).neg with
    | true => exact ⟨'-', _, rfl, .inr rfl⟩
    | false =>
      obtain ⟨c, digits, hsplit⟩ := List.exists_cons_of_ne_nil hvalid.whole_ne
      have hc := hvalid.whole_digits c (by rw [hsplit]; exact List.mem_cons_self)
      rw [hsplit]
      exact ⟨c, _, rfl, .inl hc⟩
  string := readString_writePyString

/-! ## What the parser keeps -/

theorem digitsValue_toDigits (m : Nat) : JsonNumber.digitsValue (Nat.toDigits 10 m) = m :=
  Nat.ofDigitChars_ten_toDigits

theorem value_written_float {f : D.F} (h : (D.value f).den = 1) : (written (D := D) (.float f)).value = D.value f := by
  have hnum : ((D.value f).num : ℚ) = D.value f := (Rat.den_eq_one_iff _).mp h
  have hfrac : JsonNumber.digitsValue ['0'] = 0 := by decide
  have hmantissa : (written (D := D) (.float f)).mantissa = ((D.value f).num.natAbs : ℚ) := by
    simp [written, JsonNumber.mantissa, hfrac, digitsValue_toDigits]
  have hscale : (written (D := D) (.float f)).scale = 1 := rfl
  rw [JsonNumber.value, hmantissa, hscale, mul_one]
  cases hneg : D.neg f with
  | true =>
    have hle : (D.value f).num ≤ 0 := by
      by_contra hpos
      rw [D.not_neg_of_lt f (Rat.num_pos.mp (not_le.mp hpos))] at hneg
      cases hneg
    have habs : ((D.value f).num.natAbs : ℚ) = -D.value f := by
      have : ((D.value f).num.natAbs : Int) = -(D.value f).num := by omega
      rw [← Int.cast_natCast, this, Int.cast_neg, hnum]
    simp [written, hneg, habs]
  | false =>
    have hle : 0 ≤ (D.value f).num := by
      by_contra hlt
      rw [D.neg_of_lt f (Rat.num_neg.mp (not_le.mp hlt))] at hneg
      cases hneg
    have habs : ((D.value f).num.natAbs : ℚ) = D.value f := by
      have : ((D.value f).num.natAbs : Int) = (D.value f).num := by omega
      rw [← Int.cast_natCast, this, hnum]
    simp [written, hneg, habs]

theorem value_of_integer {n : JsonNumber} (hfrac : n.frac = none) (hexp : n.exp = none) : n.value = intValue n := by
  obtain ⟨neg, whole, frac, exp⟩ := n
  obtain rfl : frac = none := hfrac
  obtain rfl : exp = none := hexp
  cases neg <;> simp [JsonNumber.value, JsonNumber.mantissa, JsonNumber.scale, intValue]

theorem intValue_written (n : Int) : intValue (written (D := D) (.int n)) = n := by
  simp only [intValue, written, digitsValue_toDigits]
  by_cases hn : n < 0
  · simp only [hn, decide_true, if_true]
    omega
  · simp only [hn, decide_false, Bool.false_eq_true, if_false]
    omega

theorem intValue_range {n : JsonNumber} (h : Fits n) : -2 ^ 63 ≤ intValue n ∧ intValue n < 2 ^ 64 := by
  obtain ⟨neg, whole, frac, exp⟩ := n
  obtain ⟨-, -, hrange⟩ := h
  cases neg with
  | true =>
    simp only [if_true] at hrange
    simp only [intValue, if_true]
    omega
  | false =>
    simp only [Bool.false_eq_true, if_false] at hrange
    simp only [intValue, Bool.false_eq_true, if_false]
    omega

theorem fits_written {n : Int} (h : -2 ^ 63 ≤ n ∧ n < 2 ^ 64) : Fits (written (D := D) (.int n)) := by
  refine ⟨rfl, rfl, ?_⟩
  simp only [written, digitsValue_toDigits]
  by_cases hn : n < 0
  · simp only [hn, decide_true, if_true]
    omega
  · simp only [hn, decide_false, Bool.false_eq_true, if_false]
    omega

/-- A number that is kept and is an integer stays as it is when its text is read again. -/
theorem keepNumber_written {n : JsonNumber} {k : Number D} (h : keepNumber D n = some k) (hwhole : Whole k) :
    keepNumber D (written k) = some k := by
  unfold keepNumber at h
  split at h
  · next hfits =>
    cases h
    rw [keepNumber, if_pos (fits_written (intValue_range hfits)), intValue_written]
  · obtain ⟨f, hf, rfl⟩ := Option.map_eq_some_iff.mp h
    rw [keepNumber, if_neg fun hfits => by cases hfits.1]
    rw [D.read_exact (written (D := D) (.float f)) f rfl (value_written_float hwhole)]
    rfl

theorem whole_of_keep {n : JsonNumber} {k : Number D} (hfrac : n.frac = none) (hexp : n.exp = none)
    (h : keepNumber D n = some k) : Whole k := by
  unfold keepNumber at h
  split at h
  · cases h
    trivial
  · obtain ⟨f, hf, rfl⟩ := Option.map_eq_some_iff.mp h
    exact D.read_integer n f hfrac hexp hf

/-! ## Documents of integers -/

/-- Every integer is kept, those outside the 64-bit ranges exactly where no later row replaces them. -/
structure IntegersKept (D : Doubles) (d : JsonDoc JsonNumber) : Prop where
  readable : ∀ n ∈ d.numbers, Fits n ∨ (D.read n).isSome
  exact : ∀ n ∈ d.normal.numbers, Fits n ∨ ∃ f, D.read n = some f ∧ D.value f = n.value

/-- A writer gives a document of the same value in ASCII, and gives it again for its own output. -/
structure Reencodes (dumps : Text → Text) (t : Text) (d : JsonDoc JsonNumber) : Prop where
  ascii : ∀ c ∈ dumps t, c.toNat < 128
  denotes : ∃ d', readJson (dumps t) = some d' ∧ d'.value = d.value
  idempotent : dumps (dumps t) = dumps t

/-- What the parser makes of a number that it keeps. -/
def kept (D : Doubles) (n : JsonNumber) : Number D :=
  (keepNumber D n).getD (.int 0)

theorem keepNumber_eq_kept {n : JsonNumber} (h : Fits n ∨ (D.read n).isSome) : keepNumber D n = some (kept D n) := by
  have hsome : (keepNumber D n).isSome := by
    unfold keepNumber
    split
    · rfl
    · next hfits =>
      rw [Option.isSome_map]
      exact h.resolve_left hfits
  obtain ⟨k, hk⟩ := Option.isSome_iff_exists.mp hsome
  rw [kept, hk]
  rfl

theorem readable_of_isSome {n : JsonNumber} (h : (keepNumber D n).isSome) : Fits n ∨ (D.read n).isSome := by
  unfold keepNumber at h
  split at h
  · next hfits => exact .inl hfits
  · rw [Option.isSome_map] at h
    exact .inr h

/-- The text of a number that is kept has its value exactly if the number fits or is a double. -/
theorem value_written_kept {n : JsonNumber} (hfrac : n.frac = none) (hexp : n.exp = none)
    (h : Fits n ∨ (D.read n).isSome) :
    (written (kept D n)).value = n.value ↔ Fits n ∨ ∃ f, D.read n = some f ∧ D.value f = n.value := by
  by_cases hfits : Fits n
  · have hkept : kept D n = .int (intValue n) := by rw [kept, keepNumber, if_pos hfits]; rfl
    have hvalue : (written (kept D n)).value = n.value := by
      rw [hkept, value_of_integer (n := written _) rfl rfl, intValue_written, value_of_integer hfrac hexp]
    exact ⟨fun _ => .inl hfits, fun _ => hvalue⟩
  · obtain ⟨f, hf⟩ := Option.isSome_iff_exists.mp (h.resolve_left hfits)
    have hkept : kept D n = .float f := by rw [kept, keepNumber, if_neg hfits, hf]; rfl
    rw [hkept, value_written_float (D.read_integer n f hfrac hexp hf)]
    constructor
    · exact fun hvalue => .inr ⟨f, hf, hvalue⟩
    · rintro (hfits' | ⟨f', hf', hvalue⟩)
      · exact absurd hfits' hfits
      · obtain rfl : f = f' := Option.some.inj (hf.symm.trans hf')
        exact hvalue

theorem formatNumber_ascii {n : Number D} (h : Whole n) : ∀ c ∈ formatNumber n, c.toNat < 128 := by
  have hdigit (m : Nat) : ∀ c ∈ Nat.toDigits 10 m, c.toNat < 128 := by
    intro c hc
    have := Text.isDigit_of_mem_toDigits hc
    simp only [Char.isDigit, Bool.and_eq_true, decide_eq_true_eq, UInt32.le_iff_toNat_le] at this
    exact lt_of_le_of_lt this.2 (by decide)
  have hsign (b : Bool) : ∀ c ∈ (if b then ['-'] else [] : Text), c.toNat < 128 := by
    cases b <;> exact ascii_of_all rfl
  rw [formatNumber_eq h]
  cases n with
  | int n =>
    intro c hc
    simp only [written, JsonNumber.text, Option.elim_none, List.append_nil, List.mem_append] at hc
    rcases hc with hc | hc
    · exact hsign _ c hc
    · exact hdigit _ c hc
  | float f =>
    intro c hc
    simp only [written, JsonNumber.text, Option.elim_some, Option.elim_none, List.append_nil, List.mem_append,
      List.mem_cons, List.not_mem_nil, or_false] at hc
    rcases hc with hc | hc | rfl | rfl
    · exact hsign _ c hc
    · exact hdigit _ c hc
    · decide
    · decide

section reencode

variable {serde : SerdeJson D} {write : JsonDoc (Number D) → Text} {t : Text} {d : JsonDoc JsonNumber}

/-- A writer behind the parser. -/
def reencode (serde : SerdeJson D) (write : JsonDoc (Number D) → Text) (t : Text) : Text :=
  match serde.loads t with
  | some v => write v
  | none => []

theorem loads_kept (hdoc : readJson t = some d) (hreadable : ∀ n ∈ d.numbers, Fits n ∨ (D.read n).isSome) :
    serde.loads t = some ((d.map (kept D)).collect serde.map) := by
  rw [serde.loads_doc t d hdoc, JsonDoc.traverse_eq_some d fun n hn => keepNumber_eq_kept (hreadable n hn)]
  rfl

/-- What is kept is integers, which their texts give again. -/
theorem kept_numbers (hint : ∀ n ∈ d.numbers, n.frac = none ∧ n.exp = none)
    (hreadable : ∀ n ∈ d.numbers, Fits n ∨ (D.read n).isSome) (m : RowMap) :
    ∀ k ∈ ((d.map (kept D)).collect m).numbers, Whole k ∧ keepNumber D (written k) = some k := by
  intro k hk
  have hmem := JsonDoc.mem_of_mem_collect m _ hk
  rw [JsonDoc.numbers_map, List.mem_map] at hmem
  obtain ⟨n, hn, rfl⟩ := hmem
  have hkeep := keepNumber_eq_kept (hreadable n hn)
  have hwhole := whole_of_keep (hint n hn).1 (hint n hn).2 hkeep
  exact ⟨hwhole, keepNumber_written hkeep hwhole⟩

theorem value_kept (m : RowMap) : (((d.map (kept D)).collect m).map written).value = d.value ↔
    ∀ n ∈ d.normal.numbers, (written (kept D n)).value = n.value := by
  have hnormal : (((d.map (kept D)).collect m).map written).normal = d.normal.map (written ∘ kept D) := by
    rw [← JsonDoc.collect_map, JsonDoc.normal_collect, JsonDoc.map_map, JsonDoc.normal, JsonDoc.collect_map]
    rfl
  rw [JsonDoc.value, JsonDoc.value, hnormal, JsonDoc.map_map, JsonDoc.map_congr]
  rfl

theorem reencodes_iff {b : Blanks} (hwrite : ∀ v, write v = v.layout formatNumber writePyString b 0)
    (hdoc : readJson t = some d) (hint : ∀ n ∈ d.numbers, n.frac = none ∧ n.exp = none) :
    Reencodes (reencode serde write) t d ↔ IntegersKept D d := by
  by_cases hreadable : ∀ n ∈ d.numbers, Fits n ∨ (D.read n).isSome
  · have hloads : serde.loads t = some ((d.map (kept D)).collect serde.map) := loads_kept hdoc hreadable
    have hnumbers := kept_numbers hint hreadable serde.map
    have hvalue := value_kept (D := D) (d := d) serde.map
    have hcollect : ((d.map (kept D)).collect serde.map).collect serde.map = (d.map (kept D)).collect serde.map :=
      JsonDoc.collect_collect serde.map _
    generalize (d.map (kept D)).collect serde.map = v at hloads hnumbers hvalue hcollect
    have hout : reencode serde write t = write v := by rw [reencode, hloads]
    have hread : readJson (write v) = some (v.map written) := by
      rw [hwrite]
      exact Text.readJson_layout b 0 v (reads_written fun k hk => (hnumbers k hk).1)
    have hagain : serde.loads (write v) = some v := by
      rw [serde.loads_doc _ _ hread, JsonDoc.traverse_eq_some (f := kept D)]
      · have hid : v.map (kept D ∘ written) = v.map id := (JsonDoc.map_congr v).mpr fun k hk => by
          rw [Function.comp_apply, kept, (hnumbers k hk).2]
          rfl
        rw [JsonDoc.map_map, Option.map_some, hid, JsonDoc.map_id, hcollect]
      · intro n hn
        rw [JsonDoc.numbers_map, List.mem_map] at hn
        obtain ⟨k, hk, rfl⟩ := hn
        rw [kept, (hnumbers k hk).2]
        rfl
    have hexact : (v.map written).value = d.value ↔
        ∀ n ∈ d.normal.numbers, Fits n ∨ ∃ f, D.read n = some f ∧ D.value f = n.value := by
      rw [hvalue]
      refine forall₂_congr fun n hn => ?_
      have hmem := JsonDoc.mem_of_mem_collect Text.byKey d hn
      exact value_written_kept (hint n hmem).1 (hint n hmem).2 (hreadable n hmem)
    constructor
    · intro h
      obtain ⟨d', hd', hsame⟩ := h.denotes
      rw [hout, hread] at hd'
      cases hd'
      exact ⟨hreadable, hexact.mp hsame⟩
    · intro h
      refine ⟨?_, ⟨v.map written, by rw [hout, hread], hexact.mpr h.exact⟩, ?_⟩
      · rw [hout, hwrite]
        refine JsonDoc.forall_mem_layout b writePyString_ascii ?_ (ascii_of_all rfl) 0 v fun k hk =>
          formatNumber_ascii (hnumbers k hk).1
        intro c hc
        simp only [jsonBlank, Bool.or_eq_true, beq_iff_eq] at hc
        rcases hc with ((rfl | rfl) | rfl) | rfl <;> decide
      · rw [hout, reencode, hagain]
  · refine iff_of_false (fun h => ?_) fun h => hreadable h.readable
    have hnone : serde.loads t = none := by
      rw [serde.loads_doc t d hdoc]
      cases htraverse : d.traverse (keepNumber D) with
      | none => rfl
      | some v =>
        have hsome := JsonDoc.isSome_of_traverse d (by rw [htraverse]; rfl)
        exact absurd (fun n hn => readable_of_isSome (hsome n hn)) hreadable
    obtain ⟨d', hd', -⟩ := h.denotes
    rw [reencode, hnone] at hd'
    cases hd'

end reencode

/-- A document of integers is re-encoded by both writers exactly when every integer is kept: those outside the 64-bit
ranges have to be in the range of the doubles and, where no later row of their key replaces them, doubles. -/
theorem reencode_iff (D : Doubles) (serde : SerdeJson D) (t : Text) (d : JsonDoc JsonNumber)
    (hdoc : readJson t = some d) (hint : ∀ n ∈ d.numbers, n.frac = none ∧ n.exp = none) :
    (Reencodes (dumpsStr serde) t d ∧ ∀ indent, Reencodes (fun t => dumpsStrIndent serde t indent) t d) ↔
      IntegersKept D d := by
  have hcompact : Reencodes (dumpsStr serde) t d ↔ IntegersKept D d :=
    reencodes_iff (writeCompact_eq 0) hdoc hint
  have hpretty (indent : Nat) : Reencodes (fun t => dumpsStrIndent serde t indent) t d ↔ IntegersKept D d :=
    reencodes_iff (writePretty_eq indent 0) hdoc hint
  rw [hcompact]
  exact ⟨fun h => h.1, fun h => ⟨h, fun indent => (hpretty indent).mpr h⟩⟩

/-- The doubles between `2 ^ 64` and `2 ^ 65`: multiples of `4096`, read towards zero. -/
def sampleDoubles : Doubles where
  F := Bool × Nat
  neg f := f.1
  value f := (if f.1 then -1 else 1) * (f.2 * 4096 : ℕ)
  read n := some (n.neg, ((if n.neg then -n.value else n.value) / 4096).floor.toNat)
  display f := Nat.toDigits 10 f.2
  neg_of_lt := by
    rintro ⟨s, m⟩ h
    cases s with
    | true => rfl
    | false =>
      simp only [Bool.false_eq_true, if_false, one_mul] at h
      exact absurd h (not_lt.mpr (Nat.cast_nonneg _))
  not_neg_of_lt := by
    rintro ⟨s, m⟩ h
    cases s with
    | true =>
      simp only [if_true, neg_one_mul, Left.neg_pos_iff] at h
      exact absurd h (not_lt.mpr (Nat.cast_nonneg _))
    | false => rfl
  read_neg := by
    rintro n f ⟨⟩
    rfl
  read_exact := by
    rintro n ⟨s, m⟩ hneg hvalue
    obtain rfl : n.neg = s := hneg
    have hquotient : (if n.neg then -n.value else n.value) / 4096 = (m : ℚ) := by
      rw [hvalue]
      cases n.neg <;> simp
    rw [hquotient, ← Int.cast_natCast, Rat.floor_intCast]
    rfl
  read_integer := by
    rintro n ⟨s, m⟩ - - -
    cases s with
    | true =>
      simp only [if_true, neg_one_mul, Rat.neg_den]
      exact Rat.den_natCast _
    | false =>
      simp only [Bool.false_eq_true, if_false, one_mul]
      exact Rat.den_natCast _

/-- A parser that is the reader itself. -/
def sampleSerde (D : Doubles) : SerdeJson D where
  map := Text.byKey
  loads t := (readJson t).bind fun d => (d.traverse (keepNumber D)).map fun v => v.collect Text.byKey
  loads_doc t d h := by rw [h]; rfl

theorem readJson_pair : readJson "[1, -2]".toList =
    some (.array [.number ⟨false, ['1'], none, none⟩, .number ⟨true, ['2'], none, none⟩]) := by
  have htext : "[1, -2]".toList = ['[', '1', ',', ' ', '-', '2', ']'] := rfl
  rw [htext]
  rfl

def sampleInteger : JsonNumber :=
  ⟨false, "18446744073709551617".toList, none, none⟩

theorem reencode_iff_pair : Reencodes (dumpsStr (sampleSerde sampleDoubles)) "[1, -2]".toList
    (.array [.number ⟨false, ['1'], none, none⟩, .number ⟨true, ['2'], none, none⟩]) ∧
      ∀ indent, Reencodes (fun t => dumpsStrIndent (sampleSerde sampleDoubles) t indent) "[1, -2]".toList
        (.array [.number ⟨false, ['1'], none, none⟩, .number ⟨true, ['2'], none, none⟩]) := by
  have hfits : ∀ n ∈ [(⟨false, ['1'], none, none⟩ : JsonNumber), ⟨true, ['2'], none, none⟩], Fits n := by decide
  refine (reencode_iff sampleDoubles (sampleSerde sampleDoubles) _ _ readJson_pair ?_).mpr ⟨?_, ?_⟩
  · simp [JsonDoc.numbers, JsonDoc.itemNumbers]
  · exact fun n hn => .inl (hfits n hn)
  · exact fun n hn => .inl (hfits n hn)

/-- The integer after the largest of `u64` loses its last digit. -/
theorem integer_rounded :
    ¬ (Reencodes (dumpsStr (sampleSerde sampleDoubles)) "18446744073709551617".toList (.number sampleInteger) ∧
      ∀ indent, Reencodes (fun t => dumpsStrIndent (sampleSerde sampleDoubles) t indent) "18446744073709551617".toList
        (.number sampleInteger)) := by
  intro h
  have hiff : Reencodes (dumpsStr (sampleSerde sampleDoubles)) "18446744073709551617".toList (.number sampleInteger) ↔
      IntegersKept sampleDoubles (.number sampleInteger) :=
    reencodes_iff (writeCompact_eq 0) rfl (by simp [JsonDoc.numbers, sampleInteger])
  have hkept := hiff.mp h.1
  rcases hkept.exact sampleInteger (List.mem_singleton_self _) with hfits | ⟨⟨s, m⟩, hread, hvalue⟩
  · revert hfits
    decide
  · have hinteger : sampleInteger.value = ((18446744073709551617 : ℕ) : ℚ) := by
      rw [value_of_integer rfl rfl]
      rfl
    obtain rfl : false = s := (Prod.mk.inj (Option.some.inj hread)).1
    simp only [sampleDoubles, Bool.false_eq_true, if_false, one_mul] at hvalue
    rw [hinteger, Nat.cast_inj] at hvalue
    omega

end Cobrust.Runtime.Json
