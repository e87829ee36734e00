import Cobrust.Text.Split

/-!
# Compact JSON texts

Trees of JSON values and their texts without blanks. How a number is written is a parameter.

* `JsonTree.text_append`: a value can be read from the front of a text, so its text determines it.
* `newline_not_mem_text`: the text of a value is one line.
-/

namespace Text

inductive JsonTree (N : Type) where
  | null
  | number (n : N)
  | string (s : Text)
  | array (items : List (JsonTree N))
  | object (rows : List (Text × JsonTree N))

/-- The characters of numbers. -/
def numberChar (c : Char) : Bool :=
  c.isDigit || c == '-' || c == '+' || c == '.' || c == 'e' || c == 'E'

/-- How numbers are written. -/
structure NumberText (N : Type) where
  text : N → Text
  injective : Function.Injective text
  ne_nil : ∀ n, text n ≠ []
  chars : ∀ n, ∀ c ∈ text n, numberChar c = true

/-! ## Strings -/

def hexPair (n : Nat) : Text :=
  [(n / 16 % 16).digitChar, (n % 16).digitChar]

def escapeChar (c : Char) : Text :=
  match c with
  | '"' => ['\\', '"']
  | '\\' => ['\\', '\\']
  | '\x08' => ['\\', 'b']
  | '\x0c' => ['\\', 'f']
  | '\n' => ['\\', 'n']
  | '\r' => ['\\', 'r']
  | '\t' => ['\\', 't']
  | c => if c.toNat < 0x20 then ['\\', 'u', '0', '0'] ++ hexPair c.toNat else [c]

def stringText (s : Text) : Text :=
  '"' :: (s.flatMap escapeChar ++ ['"'])

/-- The characters that are escaped. -/
def escaped : List Char :=
  ['"', '\\'] ++ (List.range 32).map Char.ofNat

theorem escapeChar_cases (c : Char) : c ∈ escaped ∨ escapeChar c = [c] ∧ c ≠ '\\' ∧ c ≠ '"' := by
  by_cases hc : c.toNat < 32
  · refine .inl (List.mem_append_right _ (List.mem_map.2 ⟨c.toNat, List.mem_range.2 hc, Char.ofNat_toNat c⟩))
  · by_cases hquote : c = '"'
    · exact .inl (hquote ▸ List.mem_cons_self)
    · by_cases hslash : c = '\\'
      · exact .inl (hslash ▸ List.mem_cons_of_mem _ List.mem_cons_self)
      · refine .inr ⟨?_, hslash, hquote⟩
        unfold escapeChar
        split
        all_goals first
          | exact absurd rfl hquote
          | exact absurd rfl hslash
          | exact absurd (by decide) hc
          | exact if_neg hc

/-- Escapes begin with a backslash, and none of them begins another. -/
theorem escaped_codes :
    (escaped.all fun c => (escapeChar c).head? = some '\\' ∧ '\n' ∉ escapeChar c) = true ∧
      (escaped.all fun c => escaped.all fun d => (escapeChar c).isPrefixOf (escapeChar d) → c = d) = true := by
  decide +kernel

variable {c d : Char} {s t x y : Text}

theorem escapeChar_append (h : escapeChar c ++ x = escapeChar d ++ y) : c = d ∧ x = y := by
  obtain ⟨hfront, hcodes⟩ := escaped_codes
  rw [List.all_eq_true] at hfront hcodes
  have hslash {c : Char} (hc : c ∈ escaped) (x : Text) : (escapeChar c ++ x).head? = some '\\' := by
    have hhead := (of_decide_eq_true (hfront c hc)).1
    rw [List.head?_append, hhead]
    rfl
  have hpre₀ {c d : Char} (hc : c ∈ escaped) (hd : d ∈ escaped) (h : escapeChar c <+: escapeChar d) : c = d :=
    of_decide_eq_true (List.all_eq_true.1 (hcodes c hc) d hd) (List.isPrefixOf_iff_prefix.2 h)
  rcases escapeChar_cases c with hc | ⟨hc, hne, -⟩
  · rcases escapeChar_cases d with hd | ⟨hd, hne, -⟩
    · have hcd : c = d := by
        rcases List.prefix_or_prefix_of_prefix (List.prefix_append (escapeChar c) x)
          (h ▸ List.prefix_append (escapeChar d) y) with hpre | hpre
        · exact hpre₀ hc hd hpre
        · exact (hpre₀ hd hc hpre).symm
      subst hcd
      exact ⟨rfl, List.append_cancel_left h⟩
    · rw [hd] at h
      have := hslash hc x
      rw [h] at this
      exact absurd (Option.some.inj this) hne
  · rcases escapeChar_cases d with hd | ⟨hd, -, -⟩
    · have := hslash hd y
      rw [← h, hc] at this
      exact absurd (Option.some.inj this) hne
    · rw [hc, hd] at h
      exact List.cons.inj h

theorem escapeChar_ne_quote (c : Char) (x y : Text) : escapeChar c ++ x ≠ '"' :: y := by
  intro h
  rcases escapeChar_cases c with hc | ⟨hc, -, hne⟩
  · have hhead := (of_decide_eq_true (List.all_eq_true.1 escaped_codes.1 c hc)).1
    have hheads := congrArg List.head? h
    rw [List.head?_append, hhead] at hheads
    cases hheads
  · rw [hc] at h
    exact hne (List.cons.inj h).1

theorem escapes_append (h : s.flatMap escapeChar ++ '"' :: x = t.flatMap escapeChar ++ '"' :: y) : s = t ∧ x = y := by
  induction s generalizing t with
  | nil =>
    cases t with
    | nil => exact ⟨rfl, (List.cons.inj h).2⟩
    | cons d t =>
      rw [List.flatMap_cons, List.append_assoc] at h
      exact absurd h.symm (escapeChar_ne_quote _ _ _)
  | cons c s ih =>
    rw [List.flatMap_cons, List.append_assoc] at h
    cases t with
    | nil => exact absurd h (escapeChar_ne_quote _ _ _)
    | cons d t =>
      rw [List.flatMap_cons, List.append_assoc] at h
      obtain ⟨rfl, hrest⟩ := escapeChar_append h
      obtain ⟨rfl, hxy⟩ := ih hrest
      exact ⟨rfl, hxy⟩

theorem stringText_append (h : stringText s ++ x = stringText t ++ y) : s = t ∧ x = y :=
  escapes_append (by simpa [stringText] using h)

theorem newline_not_mem_stringText (s : Text) : '\n' ∉ stringText s := by
  intro h
  have h : ∃ c ∈ s, '\n' ∈ escapeChar c := by simpa [stringText] using h
  obtain ⟨c, -, hmem⟩ := h
  rcases escapeChar_cases c with hc | ⟨hc, -⟩
  · exact (of_decide_eq_true (List.all_eq_true.1 escaped_codes.1 c hc)).2 hmem
  · rw [hc] at hmem
    have : c = '\n' := (List.mem_singleton.1 hmem).symm
    subst this
    exact absurd hc (by decide)

namespace JsonTree

variable {N : Type} (numbers : NumberText N)

mutual

def text : JsonTree N → Text
  | .null => ['n', 'u', 'l', 'l']
  | .number n => numbers.text n
  | .string s => stringText s
  | .array [] => ['[', ']']
  | .array (v :: items) => '[' :: (v.text ++ itemsText items)
  | .object [] => ['\x7b', '\x7d']
  | .object ((k, v) :: rows) => '\x7b' :: (stringText k ++ ':' :: (v.text ++ rowsText rows))

/-- The items behind the first. -/
def itemsText : List (JsonTree N) → Text
  | [] => [']']
  | v :: items => ',' :: (v.text ++ itemsText items)

/-- The rows behind the first. -/
def rowsText : List (Text × JsonTree N) → Text
  | [] => ['\x7d']
  | (k, v) :: rows => ',' :: (stringText k ++ ':' :: (v.text ++ rowsText rows))

end

/-! ## The front of a text -/

/-- What follows a value does not continue a number. -/
def Ends (x : Text) : Prop :=
  ∀ c ∈ x.head?, numberChar c = false

/-- The kind of a value, by the first character of its text; that of numbers is the digit zero. -/
def kind : JsonTree N → Char
  | .null => 'n'
  | .number _ => '0'
  | .string _ => '"'
  | .array _ => '['
  | .object _ => '{'

def kindOf (c : Char) : Char :=
  if numberChar c then '0' else c

variable {numbers} {v w : JsonTree N} {x y : Text}

theorem text_array_cons (v : JsonTree N) (items : List (JsonTree N)) :
    (array (v :: items)).text numbers = '[' :: (v.text numbers ++ itemsText numbers items) := by
  rw [text]

theorem text_cons (v : JsonTree N) : ∃ c rest, v.text numbers = c :: rest ∧ kindOf c = v.kind := by
  cases v with
  | null => exact ⟨'n', _, rfl, rfl⟩
  | number n =>
    cases hn : numbers.text n with
    | nil => exact absurd hn (numbers.ne_nil n)
    | cons c rest =>
      refine ⟨c, rest, hn, ?_⟩
      rw [kindOf, if_pos (numbers.chars n c (by rw [hn]; exact List.mem_cons_self))]
      rfl
  | string s => exact ⟨'"', _, rfl, rfl⟩
  | array items =>
    cases items with
    | nil => exact ⟨'[', _, rfl, rfl⟩
    | cons v items => exact ⟨'[', _, rfl, rfl⟩
  | object rows =>
    cases rows with
    | nil => exact ⟨'{', _, rfl, rfl⟩
    | cons row rows => exact ⟨'{', _, rfl, rfl⟩

theorem kind_eq (h : v.text numbers ++ x = w.text numbers ++ y) : v.kind = w.kind := by
  obtain ⟨c, rest, hv, hc⟩ : ∃ c rest, v.text numbers = c :: rest ∧ kindOf c = v.kind := text_cons v
  obtain ⟨d, rest', hw, hd⟩ : ∃ d rest', w.text numbers = d :: rest' ∧ kindOf d = w.kind := text_cons w
  rw [hv, hw] at h
  rw [← hc, ← hd, (List.cons.inj h).1]

/-- The text of a value does not begin with a closing bracket. -/
theorem text_ne_bracket : v.text numbers ++ x ≠ ']' :: y := by
  obtain ⟨c, rest, hv, hc⟩ : ∃ c rest, v.text numbers = c :: rest ∧ kindOf c = v.kind := text_cons v
  intro h
  rw [hv] at h
  rw [(List.cons.inj h).1] at hc
  cases v <;> exact absurd (show kindOf ']' = kind _ from hc) (by simp [kindOf, kind, numberChar])

theorem number_append {a b : Text} (ha : ∀ c ∈ a, numberChar c = true) (hb : ∀ c ∈ b, numberChar c = true)
    (hx : Ends x) (hy : Ends y) (h : a ++ x = b ++ y) : a = b ∧ x = y := by
  have hspan {a x : Text} (ha : ∀ c ∈ a, numberChar c = true) (hx : Ends x) : (a ++ x).takeWhile numberChar = a := by
    rw [List.takeWhile_append_of_pos ha]
    cases x with
    | nil => exact List.append_nil a
    | cons c x => rw [List.takeWhile_cons_of_neg (by rw [hx c rfl]; decide), List.append_nil]
  have heq : a = b := by rw [← hspan ha hx, h, hspan hb hy]
  subst heq
  exact ⟨rfl, List.append_cancel_left h⟩

theorem ends_cons {c : Char} (hc : numberChar c = false) (x : Text) : Ends (c :: x) := by
  intro d hd
  rw [← Option.some.inj hd]
  exact hc

theorem ends_itemsText (items : List (JsonTree N)) (x : Text) : Ends (itemsText numbers items ++ x) := by
  cases items with
  | nil => exact ends_cons (by decide) _
  | cons v items => exact ends_cons (by decide) _

theorem ends_rowsText (rows : List (Text × JsonTree N)) (x : Text) : Ends (rowsText numbers rows ++ x) := by
  cases rows with
  | nil => exact ends_cons (by decide) _
  | cons row rows => exact ends_cons (by decide) _

mutual

theorem text_append (v w : JsonTree N) (x y : Text) (hx : Ends x) (hy : Ends y)
    (h : v.text numbers ++ x = w.text numbers ++ y) : v = w ∧ x = y := by
  have hkind := kind_eq h
  match v, w with
  | .null, .null => exact ⟨rfl, List.append_cancel_left h⟩
  | .number m, .number n =>
    rw [text, text] at h
    obtain ⟨heq, hrest⟩ := number_append (numbers.chars m) (numbers.chars n) hx hy h
    exact ⟨congrArg _ (numbers.injective heq), hrest⟩
  | .string s, .string t =>
    rw [text, text] at h
    obtain ⟨rfl, hrest⟩ := stringText_append h
    exact ⟨rfl, hrest⟩
  | .array [], .array [] => exact ⟨rfl, List.append_cancel_left h⟩
  | .array [], .array (w :: items') =>
    rw [text_array_cons, List.cons_append, List.append_assoc] at h
    exact absurd (List.cons.inj h).2.symm text_ne_bracket
  | .array (v :: items), .array [] =>
    rw [text_array_cons, List.cons_append, List.append_assoc] at h
    exact absurd (List.cons.inj h).2 text_ne_bracket
  | .array (v :: items), .array (w :: items') =>
    rw [text, text, List.cons_append, List.cons_append, List.append_assoc, List.append_assoc] at h
    obtain ⟨rfl, hrest⟩ := text_append v w _ _ (ends_itemsText _ _) (ends_itemsText _ _) (List.cons.inj h).2
    obtain ⟨rfl, hxy⟩ := itemsText_append items items' x y hrest
    exact ⟨rfl, hxy⟩
  | .object [], .object [] => exact ⟨rfl, List.append_cancel_left h⟩
  | .object [], .object ((k, w) :: rows') => exact absurd (List.cons.inj (List.cons.inj h).2).1 (by decide)
  | .object ((k, v) :: rows), .object [] => exact absurd (List.cons.inj (List.cons.inj h).2).1 (by decide)
  | .object ((k, v) :: rows), .object ((k', w) :: rows') =>
    rw [text, text, List.cons_append, List.cons_append, List.append_assoc, List.append_assoc] at h
    obtain ⟨rfl, hvalue⟩ := stringText_append (List.cons.inj h).2
    rw [List.cons_append, List.cons_append, List.append_assoc, List.append_assoc] at hvalue
    obtain ⟨rfl, hrest⟩ := text_append v w _ _ (ends_rowsText _ _) (ends_rowsText _ _) (List.cons.inj hvalue).2
    obtain ⟨rfl, hxy⟩ := rowsText_append rows rows' x y hrest
    exact ⟨rfl, hxy⟩

theorem itemsText_append (items items' : List (JsonTree N)) (x y : Text)
    (h : itemsText numbers items ++ x = itemsText numbers items' ++ y) : items = items' ∧ x = y := by
  match items, items' with
  | [], [] => exact ⟨rfl, List.append_cancel_left h⟩
  | [], w :: items' => exact absurd (List.cons.inj h).1 (by decide)
  | v :: items, [] => exact absurd (List.cons.inj h).1 (by decide)
  | v :: items, w :: items' =>
    rw [itemsText, itemsText, List.cons_append, List.cons_append, List.append_assoc, List.append_assoc] at h
    obtain ⟨rfl, hrest⟩ := text_append v w _ _ (ends_itemsText _ _) (ends_itemsText _ _) (List.cons.inj h).2
    obtain ⟨rfl, hxy⟩ := itemsText_append items items' x y hrest
    exact ⟨rfl, hxy⟩

theorem rowsText_append (rows rows' : List (Text × JsonTree N)) (x y : Text)
    (h : rowsText numbers rows ++ x = rowsText numbers rows' ++ y) : rows = rows' ∧ x = y := by
  match rows, rows' with
  | [], [] => exact ⟨rfl, List.append_cancel_left h⟩
  | [], (k, w) :: rows' => exact absurd (List.cons.inj h).1 (by decide)
  | (k, v) :: rows, [] => exact absurd (List.cons.inj h).1 (by decide)
  | (k, v) :: rows, (k', w) :: rows' =>
    rw [rowsText, rowsText, List.cons_append, List.cons_append, List.append_assoc, List.append_assoc] at h
    obtain ⟨rfl, hvalue⟩ := stringText_append (List.cons.inj h).2
    rw [List.cons_append, List.cons_append, List.append_assoc, List.append_assoc] at hvalue
    obtain ⟨rfl, hrest⟩ := text_append v w _ _ (ends_rowsText _ _) (ends_rowsText _ _) (List.cons.inj hvalue).2
    obtain ⟨rfl, hxy⟩ := rowsText_append rows rows' x y hrest
    exact ⟨rfl, hxy⟩

end

theorem text_injective (h : v.text numbers = w.text numbers) : v = w :=
  (text_append v w [] [] (fun c hc => by cases hc) (fun c hc => by cases hc) (by rw [h])).1

mutual

theorem newline_not_mem_text (v : JsonTree N) : '
' ∉ v.text numbers := by
  match v with
  | .null => simp [text]
  | .number n => exact fun h => absurd (numbers.chars n _ h) (by decide)
  | .string s => exact newline_not_mem_stringText s
  | .array [] => simp [text]
  | .array (v :: items) =>
    simp [text, newline_not_mem_text v, newline_not_mem_itemsText items]
  | .object [] => simp [text]
  | .object ((k, v) :: rows) =>
    simp [text, newline_not_mem_text v, newline_not_mem_rowsText rows, newline_not_mem_stringText]

theorem newline_not_mem_itemsText (items : List (JsonTree N)) : '
' ∉ itemsText numbers items := by
  match items with
  | [] => simp [itemsText]
  | v :: items => simp [itemsText, newline_not_mem_text v, newline_not_mem_itemsText items]

theorem newline_not_mem_rowsText (rows : List (Text × JsonTree N)) : '
' ∉ rowsText numbers rows := by
  match rows with
  | [] => simp [rowsText]
  | (k, v) :: rows =>
    simp [rowsText, newline_not_mem_text v, newline_not_mem_rowsText rows, newline_not_mem_stringText]

end

end JsonTree

end Text
