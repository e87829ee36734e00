import Mathlib.Data.List.Basic

/-!
# Strings of TOML

What the grammar of TOML 1.0 says about a text that begins with a quotation mark, and which texts are
read back as themselves when they are written between quotation marks.

* `unescaped_of_readsString`: a text that is read back from between its quotation marks needs no escape.
* `encode_of_readsString`, `basic_encode`: the same for writers that escape some of the characters.
-/

namespace Cobrust.Toml

/-! ## The grammar -/

/-- Characters that stand for themselves between quotation marks. -/
def unescaped (c : Char) : Bool :=
  c == '\t' || (0x20 ≤ c.toNat && c != '"' && c != '\\' && c.toNat != 0x7f)

def hexDigit (c : Char) : Option Nat :=
  if '0' ≤ c ∧ c ≤ '9' then some (c.toNat - '0'.toNat)
  else if 'a' ≤ c ∧ c ≤ 'f' then some (c.toNat - 'a'.toNat + 10)
  else if 'A' ≤ c ∧ c ≤ 'F' then some (c.toNat - 'A'.toNat + 10)
  else none

/-- The value of some digits behind those that are read. -/
def hexValue : Nat → List Char → Option Nat
  | n, [] => some n
  | n, c :: rest => (hexDigit c).bind fun d => hexValue (16 * n + d) rest

/-- What stands behind a backslash, and the character it is for. -/
inductive Escape : List Char → Char → Prop
  | backspace : Escape ['b'] '\x08'
  | tab : Escape ['t'] '\t'
  | newline : Escape ['n'] '\n'
  | formFeed : Escape ['f'] '\x0c'
  | carriageReturn : Escape ['r'] '\r'
  | quote : Escape ['"'] '"'
  | backslash : Escape ['\\'] '\\'
  | short {digits : List Char} {c : Char} (hlen : digits.length = 4) (hvalue : hexValue 0 digits = some c.toNat) :
      Escape ('u' :: digits) c
  | long {digits : List Char} {c : Char} (hlen : digits.length = 8) (hvalue : hexValue 0 digits = some c.toNat) :
      Escape ('U' :: digits) c

/-- A basic string without its quotation marks, and what it stands for. -/
inductive Basic : List Char → List Char → Prop
  | nil : Basic [] []
  | char {c : Char} {raw value : List Char} (hc : unescaped c = true) (h : Basic raw value) :
      Basic (c :: raw) (c :: value)
  | escape {code raw value : List Char} {c : Char} (hc : Escape code c) (h : Basic raw value) :
      Basic ('\\' :: (code ++ raw)) (c :: value)

def isBlank (c : Char) : Bool :=
  c == ' ' || c == '\t' || c == '\n' || c == '\r'

/-- A multi-line basic string without its quotation marks. Where the grammar excludes some characters and
runs of quotation marks, this does not. -/
inductive Multiline : List Char → List Char → Prop
  | nil : Multiline [] []
  | char {c : Char} {raw value : List Char} (hc : c ≠ '\\') (h : Multiline raw value) :
      Multiline (c :: raw) (c :: value)
  | lineEnd {raw value : List Char} (h : Multiline raw value) : Multiline ('\r' :: '\n' :: raw) ('\n' :: value)
  | escape {code raw value : List Char} {c : Char} (hc : Escape code c) (h : Multiline raw value) :
      Multiline ('\\' :: (code ++ raw)) (c :: value)
  | trim {blanks raw value : List Char} (hblanks : ∀ c ∈ blanks, isBlank c = true) (h : Multiline raw value) :
      Multiline ('\\' :: (blanks ++ raw)) value

/-- A string is read at the start of a text that begins with a quotation mark. A line end directly behind the
opening of a multi-line string does not count. -/
inductive ReadsString : List Char → List Char → Prop
  | basic {raw value after : List Char} (h : Basic raw value) : ReadsString ('"' :: (raw ++ '"' :: after)) value
  | multiline {start raw value after : List Char} (hstart : start ∈ [[], ['\n'], ['\r', '\n']])
      (h : Multiline raw value) :
      ReadsString ('"' :: '"' :: '"' :: (start ++ raw ++ '"' :: '"' :: '"' :: after)) value

variable {code code' raw value rest after : List Char} {c : Char}

theorem hexDigit_quote : hexDigit '"' = none := by decide

theorem not_mem_of_hexValue {n m : Nat} {digits : List Char} (h : hexValue n digits = some m) : '"' ∉ digits := by
  induction digits generalizing n with
  | nil => exact List.not_mem_nil
  | cons d digits ih =>
    rw [hexValue] at h
    obtain ⟨k, hk, h⟩ := Option.bind_eq_some_iff.1 h
    rw [List.mem_cons, not_or]
    refine ⟨?_, ih h⟩
    rintro rfl
    rw [hexDigit_quote] at hk
    cases hk

theorem Escape.ne_nil (h : Escape code c) : code ≠ [] := by
  cases h <;> simp

/-- The only code with a quotation mark is that of the quotation mark. -/
theorem Escape.eq_quote (h : Escape code c) (hmem : '"' ∈ code) : code = ['"'] ∧ c = '"' := by
  cases h with
  | quote => exact ⟨rfl, rfl⟩
  | short _ hvalue => exact absurd hmem (by simpa using not_mem_of_hexValue hvalue)
  | long _ hvalue => exact absurd hmem (by simpa using not_mem_of_hexValue hvalue)
  | backspace => simp at hmem
  | tab => simp at hmem
  | newline => simp at hmem
  | formFeed => simp at hmem
  | carriageReturn => simp at hmem
  | backslash => simp at hmem

theorem Basic.length_le (h : Basic raw value) : value.length ≤ raw.length := by
  induction h with
  | nil => exact Nat.le_refl _
  | char _ _ ih => exact Nat.succ_le_succ ih
  | escape _ _ ih =>
    simp only [List.length_cons, List.length_append]
    omega

theorem Multiline.length_le (h : Multiline raw value) : value.length ≤ raw.length := by
  induction h with
  | nil => exact Nat.le_refl _
  | char _ _ ih => exact Nat.succ_le_succ ih
  | lineEnd _ ih =>
    simp only [List.length_cons]
    omega
  | escape _ _ ih =>
    simp only [List.length_cons, List.length_append]
    omega
  | trim _ _ ih =>
    simp only [List.length_cons, List.length_append]
    omega

/-- A string that is as long as it is written has no escape. -/
theorem Basic.unescaped_of_length (h : Basic raw value) (hlen : raw.length ≤ value.length) :
    ∀ c ∈ raw, unescaped c = true := by
  induction h with
  | nil => exact fun c hc => absurd hc List.not_mem_nil
  | char hc _ ih =>
    intro d hd
    rcases List.mem_cons.1 hd with rfl | hd
    · exact hc
    · exact ih (Nat.le_of_succ_le_succ hlen) d hd
  | escape hcode h _ =>
    have hle := h.length_le
    have hpos := List.length_pos_iff.2 hcode.ne_nil
    simp only [List.length_cons, List.length_append] at hlen
    omega

/-- Characters that are copied by every reader behind a quotation mark. -/
def copied (c : Char) : Bool :=
  c != '"' && c != '\\' && c != '\r'

theorem Basic.copy_head {y : Char} (h : Basic (y :: rest) value) (hy : copied y = true) :
    ∃ value', value = y :: value' ∧ Basic rest value' := by
  cases h with
  | char _ h => exact ⟨_, rfl, h⟩
  | escape => exact absurd hy (by decide)

theorem Multiline.copy_head {y : Char} (h : Multiline (y :: rest) value) (hy : copied y = true) :
    ∃ value', value = y :: value' ∧ Multiline rest value' := by
  cases h with
  | char _ h => exact ⟨_, rfl, h⟩
  | lineEnd => exact absurd hy (by decide)
  | escape => exact absurd hy (by decide)
  | trim => exact absurd hy (by decide)

theorem Basic.copy {ys : List Char} (h : Basic (ys ++ rest) value) (hys : ∀ y ∈ ys, copied y = true) :
    ∃ value', value = ys ++ value' ∧ Basic rest value' := by
  induction ys generalizing value with
  | nil => exact ⟨value, rfl, h⟩
  | cons y ys ih =>
    obtain ⟨value', rfl, h'⟩ := h.copy_head (hys y List.mem_cons_self)
    obtain ⟨value'', rfl, h''⟩ := ih h' fun z hz => hys z (List.mem_cons_of_mem _ hz)
    exact ⟨value'', rfl, h''⟩

theorem Multiline.copy {ys : List Char} (h : Multiline (ys ++ rest) value) (hys : ∀ y ∈ ys, copied y = true) :
    ∃ value', value = ys ++ value' ∧ Multiline rest value' := by
  induction ys generalizing value with
  | nil => exact ⟨value, rfl, h⟩
  | cons y ys ih =>
    obtain ⟨value', rfl, h'⟩ := h.copy_head (hys y List.mem_cons_self)
    obtain ⟨value'', rfl, h''⟩ := ih h' fun z hz => hys z (List.mem_cons_of_mem _ hz)
    exact ⟨value'', rfl, h''⟩

/-- A quotation mark in a basic string stands behind a backslash, so it moves to the front. -/
theorem Basic.marker {before ys : List Char} (h : Basic (before ++ '"' :: (ys ++ rest)) value)
    (hys : ∀ y ∈ ys, copied y = true) :
    ∃ before' rest', value = before' ++ '"' :: (ys ++ rest') ∧ before'.length < before.length := by
  generalize htext : before ++ '"' :: (ys ++ rest) = text at h
  induction h generalizing before with
  | nil => simp at htext
  | @char c raw value hc h ih =>
    cases before with
    | nil =>
      cases htext
      exact absurd hc (by decide)
    | cons b before =>
      rw [List.cons_append, List.cons.injEq] at htext
      obtain ⟨before', rest', rfl, hlt⟩ := ih htext.2
      exact ⟨c :: before', rest', rfl, by simpa using hlt⟩
  | @escape code raw value c hcode h ih =>
    cases before with
    | nil => cases htext
    | cons b before =>
      rw [List.cons_append, List.cons.injEq] at htext
      rcases List.append_eq_append_iff.1 htext.2 with ⟨mid, hcodeEq, hmid⟩ | ⟨mid, hbefore, hraw⟩
      · cases mid with
        | nil =>
          rw [List.nil_append] at hmid
          rw [List.append_nil] at hcodeEq
          obtain ⟨before', rest', rfl, hlt⟩ := @ih [] hmid
          cases hlt
        | cons m mid =>
          rw [List.cons_append, List.cons.injEq] at hmid
          obtain ⟨rfl, hmid⟩ := hmid
          obtain ⟨hquote, rfl⟩ := hcode.eq_quote (by rw [hcodeEq]; simp)
          have hnil : before = [] ∧ mid = [] := by
            rw [hcodeEq] at hquote
            cases before with
            | nil => simpa using hquote
            | cons b before => simp at hquote
          obtain ⟨rfl, rfl⟩ := hnil
          rw [List.nil_append] at hmid
          rw [← hmid] at h
          obtain ⟨value', rfl, -⟩ := h.copy hys
          exact ⟨[], value', rfl, by simp⟩
      · obtain ⟨before', rest', rfl, hlt⟩ := ih hraw.symm
        refine ⟨c :: before', rest', rfl, ?_⟩
        rw [hbefore]
        simp only [List.length_cons, List.length_append]
        omega

/-- A quotation mark in a multi-line string does not move back. -/
theorem Multiline.marker {before ys : List Char} (h : Multiline (before ++ '"' :: (ys ++ rest)) value)
    (hys : ∀ y ∈ ys, copied y = true) :
    ∃ before' rest', value = before' ++ '"' :: (ys ++ rest') ∧ before'.length ≤ before.length := by
  generalize htext : before ++ '"' :: (ys ++ rest) = text at h
  induction h generalizing before with
  | nil => simp at htext
  | @char c raw value hc h ih =>
    cases before with
    | nil =>
      rw [List.nil_append, List.cons.injEq] at htext
      obtain ⟨rfl, htext⟩ := htext
      rw [← htext] at h
      obtain ⟨value', rfl, -⟩ := h.copy hys
      exact ⟨[], value', rfl, Nat.le_refl _⟩
    | cons b before =>
      rw [List.cons_append, List.cons.injEq] at htext
      obtain ⟨before', rest', rfl, hle⟩ := ih htext.2
      exact ⟨c :: before', rest', rfl, by simpa using hle⟩
  | @lineEnd raw value h ih =>
    rcases before with _ | ⟨b, _ | ⟨b', before⟩⟩
    · cases htext
    · simp at htext
    · simp only [List.cons_append, List.cons.injEq] at htext
      obtain ⟨before', rest', rfl, hle⟩ := ih htext.2.2
      refine ⟨'\n' :: before', rest', rfl, ?_⟩
      simp only [List.length_cons]
      omega
  | @escape code raw value c hcode h ih =>
    cases before with
    | nil => cases htext
    | cons b before =>
      rw [List.cons_append, List.cons.injEq] at htext
      rcases List.append_eq_append_iff.1 htext.2 with ⟨mid, hcodeEq, hmid⟩ | ⟨mid, hbefore, hraw⟩
      · cases mid with
        | nil =>
          rw [List.nil_append] at hmid
          rw [List.append_nil] at hcodeEq
          obtain ⟨before', rest', rfl, hle⟩ := @ih [] hmid
          have hnil := List.length_eq_zero_iff.1 (Nat.le_zero.1 hle)
          subst hnil
          have hpos := List.length_pos_iff.2 hcode.ne_nil
          refine ⟨[c], rest', rfl, ?_⟩
          rw [← hcodeEq]
          simp only [List.length_cons, List.length_nil]
          omega
        | cons m mid =>
          rw [List.cons_append, List.cons.injEq] at hmid
          obtain ⟨rfl, hmid⟩ := hmid
          obtain ⟨hquote, rfl⟩ := hcode.eq_quote (by rw [hcodeEq]; simp)
          have hnil : before = [] ∧ mid = [] := by
            rw [hcodeEq] at hquote
            cases before with
            | nil => simpa using hquote
            | cons b before => simp at hquote
          obtain ⟨rfl, rfl⟩ := hnil
          rw [List.nil_append] at hmid
          rw [← hmid] at h
          obtain ⟨value', rfl, -⟩ := h.copy hys
          exact ⟨[], value', rfl, by simp⟩
      · obtain ⟨before', rest', rfl, hle⟩ := ih hraw.symm
        refine ⟨c :: before', rest', rfl, ?_⟩
        rw [hbefore]
        simp only [List.length_cons, List.length_append]
        omega
  | @trim blanks raw value hblanks h ih =>
    cases before with
    | nil => cases htext
    | cons b before =>
      rw [List.cons_append, List.cons.injEq] at htext
      rcases List.append_eq_append_iff.1 htext.2 with ⟨mid, hblanksEq, hmid⟩ | ⟨mid, hbefore, hraw⟩
      · cases mid with
        | nil =>
          rw [List.nil_append] at hmid
          obtain ⟨before', rest', rfl, hle⟩ := @ih [] hmid
          exact ⟨before', rest', rfl, Nat.le_trans hle (Nat.zero_le _)⟩
        | cons m mid =>
          rw [List.cons_append, List.cons.injEq] at hmid
          obtain ⟨rfl, -⟩ := hmid
          exact absurd (hblanks '"' (by rw [hblanksEq]; simp)) (by decide)
      · obtain ⟨before', rest', rfl, hle⟩ := ih hraw.symm
        refine ⟨before', rest', rfl, ?_⟩
        rw [hbefore]
        simp only [List.length_cons, List.length_append]
        omega

/-! ## Texts that are read back -/

/-- What follows a closing quotation mark, for a reader that runs over it to go wrong. -/
inductive Guarded : List Char → Prop
  | char {y : Char} {rest : List Char} (hy : copied y = true) (hline : y ≠ '\n') : Guarded (y :: rest)
  | lastLine : Guarded ['\n']
  | nextLine {z : Char} {rest : List Char} (hz : copied z = true) : Guarded ('\n' :: z :: rest)

/-- The two forms of what is copied behind the quotation mark. -/
def Marks (ys : List Char) : Prop :=
  (∃ y, ys = [y] ∧ copied y = true ∧ y ≠ '\n') ∨ ∃ z, ys = ['\n', z] ∧ copied z = true

variable {text tail ys before start : List Char}

theorem Marks.copied (h : Marks ys) : ∀ y ∈ ys, copied y = true := by
  rcases h with ⟨y, rfl, hy, -⟩ | ⟨z, rfl, hz⟩
  · simpa using hy
  · intro y hmem
    rcases List.mem_cons.1 hmem with rfl | hmem
    · decide
    · rw [List.mem_singleton.1 hmem]
      exact hz

theorem copied_quote : copied '"' = false := by decide

theorem Marks.not_quote (h : Marks ys) : ys ++ rest ≠ '"' :: text := by
  rcases h with ⟨y, rfl, hy, -⟩ | ⟨z, rfl, -⟩
  · rintro heq
    cases heq
    rw [copied_quote] at hy
    cases hy
  · rintro heq
    cases heq

theorem Guarded.head_ne_quote (h : Guarded tail) : tail ≠ '"' :: rest := by
  rintro rfl
  cases h with
  | char hy => cases hy

/-- What lies between a quotation mark that is run over and the next one. -/
theorem Guarded.marks (h : Guarded tail) (htail : tail = text ++ '"' :: rest) :
    ∃ ys more, Marks ys ∧ text = ys ++ more := by
  cases h with
  | @char y _ hy hline =>
    cases text with
    | nil =>
      cases htail
      rw [copied_quote] at hy
      cases hy
    | cons x text =>
      cases htail
      exact ⟨[y], text, .inl ⟨y, rfl, hy, hline⟩, rfl⟩
  | lastLine =>
    rcases text with _ | ⟨x, text⟩
    · cases htail
    · simp at htail
  | @nextLine z _ hz =>
    rcases text with _ | ⟨x, _ | ⟨x', text⟩⟩
    · cases htail
    · cases htail
      rw [copied_quote] at hz
      cases hz
    · cases htail
      exact ⟨['\n', z], text, .inr ⟨z, rfl, hz⟩, rfl⟩

/-- A basic string does not stand for a text that it continues behind a quotation mark: each copy of the
mark would have one before it. -/
theorem Basic.no_marker (h : Basic raw value) (hraw : raw = value ++ text) (hys : Marks ys) (before rest : List Char) :
    raw ≠ before ++ '"' :: (ys ++ rest) := by
  induction hn : before.length using Nat.strongRecOn generalizing before rest with
  | _ n ih =>
    intro heq
    rw [heq] at h
    obtain ⟨before', rest', hvalue, hlt⟩ := h.marker hys.copied
    refine ih _ (hn ▸ hlt) before' (rest' ++ text) rfl ?_
    rw [hraw, hvalue]
    simp

/-- A multi-line string that begins with a quotation mark does not begin with what is copied. -/
theorem Multiline.not_marks (h : Multiline raw ('"' :: value)) (hstart : start ∈ [[], ['\n'], ['\r', '\n']])
    (hys : Marks ys) : start ++ raw ≠ ys ++ rest := by
  intro heq
  simp only [List.mem_cons, List.not_mem_nil, or_false] at hstart
  rcases hstart with rfl | rfl | rfl
  · rw [List.nil_append] at heq
    rw [heq] at h
    obtain ⟨value', hvalue, -⟩ := h.copy hys.copied
    exact hys.not_quote hvalue.symm
  · rcases hys with ⟨y, rfl, -, hline⟩ | ⟨z, rfl, hz⟩
    · cases heq
      exact hline rfl
    · cases heq
      obtain ⟨value', hvalue, -⟩ := h.copy_head hz
      cases hvalue
      rw [copied_quote] at hz
      cases hz
  · rcases hys with ⟨y, rfl, hy, -⟩ | ⟨z, rfl, -⟩
    · cases heq
      cases hy
    · cases heq

theorem not_mem_start (hstart : start ∈ [[], ['\n'], ['\r', '\n']]) : '"' ∉ start := by
  simp only [List.mem_cons, List.not_mem_nil, or_false] at hstart
  rcases hstart with rfl | rfl | rfl <;> decide

/-- A list with a quotation mark behind its first part, which has none. -/
theorem split_start (hquote : '"' ∉ start) (h : text ++ '"' :: rest = start ++ after) :
    ∃ mid, text = start ++ mid ∧ after = mid ++ '"' :: rest := by
  rcases List.append_eq_append_iff.1 h with ⟨mid, hstart, hmid⟩ | ⟨mid, htext, hafter⟩
  · cases mid with
    | nil => exact ⟨[], by simpa using hstart.symm, by simpa using hmid.symm⟩
    | cons m mid =>
      cases hmid
      exact absurd (by rw [hstart]; simp) hquote
  · exact ⟨mid, htext, hafter⟩

/-- The same for a multi-line string, for a text that begins as its opening ends. -/
theorem Multiline.no_marker (h : Multiline raw ('"' :: '"' :: (start ++ value)))
    (hstart : start ∈ [[], ['\n'], ['\r', '\n']]) (hraw : raw = value ++ text) (hys : Marks ys)
    (before rest : List Char) : raw ≠ before ++ '"' :: (ys ++ rest) := by
  induction hn : before.length using Nat.strongRecOn generalizing before rest with
  | _ n ih =>
    intro heq
    have h' := h
    rw [heq] at h'
    obtain ⟨before', rest', hvalue, hle⟩ := h'.marker hys.copied
    rcases before' with _ | ⟨b, _ | ⟨b', before'⟩⟩
    · rw [List.nil_append, List.cons.injEq] at hvalue
      exact hys.not_quote hvalue.2.symm
    · -- the text begins with the marks, and so does the string behind its opening
      simp only [List.cons_append, List.nil_append, List.cons.injEq] at hvalue
      obtain ⟨-, -, hvalue⟩ := hvalue
      refine h.not_marks hstart hys (?_ : _ = ys ++ (rest' ++ text))
      rw [hraw, ← List.append_assoc, hvalue, List.append_assoc]
    · simp only [List.cons_append, List.cons.injEq] at hvalue
      obtain ⟨-, -, hvalue⟩ := hvalue
      obtain ⟨mid, rfl, hmid⟩ := split_start (not_mem_start hstart) hvalue.symm
      refine ih mid.length ?_ mid (rest' ++ text) rfl ?_
      · simp only [List.length_cons, List.length_append] at hle
        omega
      · rw [hraw, hmid]
        simp

/-- A text that is read back from between its quotation marks needs no escape. -/
theorem unescaped_of_readsString (h : ReadsString ('"' :: (value ++ '"' :: tail)) value) (hguard : Guarded tail) :
    ∀ c ∈ value, unescaped c = true := by
  generalize htext : '"' :: (value ++ '"' :: tail) = text at h
  cases h with
  | @basic raw _ after h =>
    rw [List.cons.injEq] at htext
    rcases List.append_eq_append_iff.1 htext.2 with ⟨mid, hraw, hmid⟩ | ⟨mid, hvalue, hmid⟩
    · rcases mid with _ | ⟨m, mid⟩
      · rw [List.append_nil] at hraw
        rw [hraw] at h
        exact h.unescaped_of_length (Nat.le_refl _)
      · rw [List.cons_append, List.cons.injEq] at hmid
        obtain ⟨rfl, hmid⟩ := hmid
        obtain ⟨ys, more, hys, rfl⟩ := hguard.marks hmid
        exact absurd hraw (h.no_marker hraw hys value more)
    · have hle := h.length_le
      rw [hvalue, List.length_append] at hle
      have hnil := List.length_eq_zero_iff.1 (show mid.length = 0 by omega)
      rw [hnil, List.append_nil] at hvalue
      rw [hvalue]
      rw [hvalue] at h
      exact h.unescaped_of_length (Nat.le_refl _)
  | @multiline start raw _ after hstart h =>
    exfalso
    simp only [List.cons.injEq, true_and] at htext
    rcases value with _ | ⟨v, _ | ⟨v', value⟩⟩
    · cases htext
      exact hguard.head_ne_quote rfl
    · -- the text is one quotation mark
      simp only [List.cons_append, List.nil_append, List.cons.injEq, true_and] at htext
      obtain ⟨rfl, htext⟩ := htext
      obtain ⟨ys, more, hys, hmore⟩ := hguard.marks htext
      exact h.not_marks hstart hys hmore
    · simp only [List.cons_append, List.cons.injEq] at htext
      obtain ⟨rfl, rfl, htext⟩ := htext
      rw [List.append_assoc] at htext
      obtain ⟨value, rfl, hbody⟩ := split_start (not_mem_start hstart) htext
      have hle := h.length_le
      simp only [List.length_cons, List.length_append] at hle
      rcases List.append_eq_append_iff.1 hbody with ⟨mid, hvalue, -⟩ | ⟨mid, hraw, hmid⟩
      · rw [hvalue, List.length_append] at hle
        omega
      · rcases mid with _ | ⟨m, mid⟩
        · cases hmid
          exact hguard.head_ne_quote rfl
        · rw [List.cons_append, List.cons.injEq] at hmid
          obtain ⟨rfl, hmid⟩ := hmid
          obtain ⟨ys, more, hys, rfl⟩ := hguard.marks hmid
          exact h.no_marker hstart hraw hys value more hraw

theorem basic_of_unescaped (h : ∀ c ∈ value, unescaped c = true) : Basic value value := by
  induction value with
  | nil => exact .nil
  | cons c value ih => exact .char (h c List.mem_cons_self) (ih fun d hd => h d (List.mem_cons_of_mem _ hd))

/-- How the characters are written: the quotation mark and the backslash by their escapes, the others by
themselves or an escape. -/
structure Encoder where
  encode : Char → List Char
  lawful : ∀ c, (encode c = [c] ∧ c ≠ '"' ∧ c ≠ '\\') ∨ ∃ code, encode c = '\\' :: code ∧ Escape code c

def Encoder.write (enc : Encoder) (s : List Char) : List Char :=
  s.flatMap enc.encode

/-- What is written by itself needs no escape. -/
def Encoder.Covers (enc : Encoder) (s : List Char) : Prop :=
  ∀ c ∈ s, enc.encode c = [c] → unescaped c = true

variable {enc : Encoder} {s : List Char}

theorem Escape.unique {c' : Char} (h : Escape code c) (h' : Escape code' c') (heq : code ++ rest = code' ++ after) :
    code = code' ∧ rest = after := by
  cases h with
  | @short digits _ hlen =>
    cases h' with
    | @short digits' _ hlen' =>
      rw [List.cons_append, List.cons_append, List.cons.injEq] at heq
      obtain ⟨rfl, rfl⟩ := List.append_inj heq.2 (hlen.trans hlen'.symm)
      exact ⟨rfl, rfl⟩
    | _ => simp at heq
  | @long digits _ hlen =>
    cases h' with
    | @long digits' _ hlen' =>
      rw [List.cons_append, List.cons_append, List.cons.injEq] at heq
      obtain ⟨rfl, rfl⟩ := List.append_inj heq.2 (hlen.trans hlen'.symm)
      exact ⟨rfl, rfl⟩
    | _ => simp at heq
  | _ => cases h' <;> simp_all

theorem basic_encode (h : enc.Covers s) : Basic (enc.write s) s := by
  induction s with
  | nil => exact .nil
  | cons c s ih =>
    have hrest := ih fun d hd => h d (List.mem_cons_of_mem _ hd)
    rw [Encoder.write, List.flatMap_cons]
    rcases enc.lawful c with ⟨hc, -⟩ | ⟨code, hc, hcode⟩
    · rw [hc]
      exact .char (h c List.mem_cons_self hc) hrest
    · rw [hc]
      exact .escape hcode hrest

theorem Basic.covers (h : Basic raw value) (htext : raw ++ '"' :: after = enc.write s ++ '"' :: tail) :
    enc.Covers s := by
  induction s generalizing raw value with
  | nil => exact fun c hc => absurd hc List.not_mem_nil
  | cons c s ih =>
    rw [Encoder.write, List.flatMap_cons] at htext
    rcases enc.lawful c with ⟨hc, hquote, hbackslash⟩ | ⟨code, hc, hcode⟩
    · rw [hc] at htext
      generalize hraw : raw = raw' at h
      cases h with
      | nil =>
        subst hraw
        cases htext
        exact absurd rfl hquote
      | char hchar h =>
        subst hraw
        simp only [List.cons_append, List.nil_append, List.cons.injEq] at htext
        obtain ⟨rfl, htext⟩ := htext
        intro d hd hself
        rcases List.mem_cons.1 hd with rfl | hd
        · exact hchar
        · exact ih h htext d hd hself
      | escape =>
        subst hraw
        simp only [List.cons_append, List.nil_append, List.cons.injEq] at htext
        exact absurd htext.1.symm hbackslash
    · rw [hc] at htext
      generalize hraw : raw = raw' at h
      cases h with
      | nil =>
        subst hraw
        cases htext
      | char hchar h =>
        subst hraw
        simp only [List.cons_append, List.cons.injEq] at htext
        obtain ⟨rfl, -⟩ := htext
        exact absurd hchar (by decide)
      | escape hcode' h =>
        subst hraw
        simp only [List.cons_append, List.cons.injEq, true_and, List.append_assoc] at htext
        obtain ⟨rfl, hrest⟩ := hcode'.unique hcode htext
        intro d hd hself
        rcases List.mem_cons.1 hd with rfl | hd
        · rw [hc, List.cons.injEq] at hself
          exact absurd hself.2 hcode.ne_nil
        · exact ih h hrest d hd hself

/-- What is written with escapes is read back only if the escapes are enough. -/
theorem covers_of_readsString (h : ReadsString ('"' :: (enc.write s ++ '"' :: tail)) value)
    (hguard : Guarded tail) : enc.Covers s := by
  generalize htext : '"' :: (enc.write s ++ '"' :: tail) = text at h
  cases h with
  | @basic raw _ after h =>
    rw [List.cons.injEq] at htext
    exact h.covers htext.2.symm
  | multiline =>
    exfalso
    simp only [List.cons.injEq, true_and] at htext
    cases s with
    | nil =>
      simp only [Encoder.write, List.flatMap_nil, List.nil_append, List.cons.injEq, true_and] at htext
      exact hguard.head_ne_quote htext
    | cons c s =>
      rw [Encoder.write, List.flatMap_cons] at htext
      rcases enc.lawful c with ⟨hc, hquote, -⟩ | ⟨code, hc, -⟩
      · rw [hc] at htext
        simp only [List.cons_append, List.nil_append, List.cons.injEq] at htext
        exact hquote htext.1
      · rw [hc] at htext
        simp only [List.cons_append, List.cons.injEq] at htext
        exact absurd htext.1 (by decide)

end Cobrust.Toml
