import Cobrust.Text.Json

/-!
# Layouts of JSON documents

A writer of JSON documents with any blanks between the tokens. How numbers and strings are written is a parameter.

* `JsonNumber.text`: the text of a number, which `readNumber_text` reads back.
* `JsonDoc.layout`: the writer.
* `readJson_layout`: the reader reads back what the writer wrote, with the numbers as they are written.
* `JsonDoc.forall_mem_layout`: what holds of the characters of the parts holds of the whole text.
-/

namespace Text

/-- The blanks of a layout, at a depth: behind an opening bracket, behind a comma, before a closing bracket. -/
structure Blanks where
  first : Nat → Text
  between : Nat → Text
  last : Nat → Text
  colon : Text
  first_blank : ∀ l, ∀ c ∈ first l, jsonBlank c = true
  between_blank : ∀ l, ∀ c ∈ between l, jsonBlank c = true
  last_blank : ∀ l, ∀ c ∈ last l, jsonBlank c = true
  colon_blank : ∀ c ∈ colon, jsonBlank c = true

namespace JsonDoc

variable {N : Type} (num : N → Text) (str : String → Text) (b : Blanks)

mutual

def layout (l : Nat) : JsonDoc N → Text
  | .null => "null".toList
  | .bool true => "true".toList
  | .bool false => "false".toList
  | .number n => num n
  | .string s => str s
  | .array [] => "[]".toList
  | .array (v :: items) => '[' :: (b.first l ++ (v.layout (l + 1) ++ layoutItems l items))
  | .object [] => "{}".toList
  | .object ((k, v) :: rows) =>
    '\x7b' :: (b.first l ++ (str k ++ ':' :: (b.colon ++ (v.layout (l + 1) ++ layoutRows l rows))))

/-- The items behind the first one. -/
def layoutItems (l : Nat) : List (JsonDoc N) → Text
  | [] => b.last l ++ [']']
  | v :: items => ',' :: (b.between l ++ (v.layout (l + 1) ++ layoutItems l items))

def layoutRows (l : Nat) : List (String × JsonDoc N) → Text
  | [] => b.last l ++ ['\x7d']
  | (k, v) :: rows => ',' :: (b.between l ++ (str k ++ ':' :: (b.colon ++ (v.layout (l + 1) ++ layoutRows l rows))))

end

end JsonDoc

def numberEnds (s : Text) : Prop :=
  ∀ c ∈ s.head?, c.isDigit = false ∧ c ≠ '.' ∧ c ≠ 'e' ∧ c ≠ 'E'

namespace JsonNumber

def text (n : JsonNumber) : Text :=
  (if n.neg then ['-'] else []) ++ (n.whole ++ (n.frac.elim [] (fun frac => '.' :: frac) ++
    n.exp.elim [] fun exp => 'e' :: ((if exp.1 then ['-'] else []) ++ exp.2)))

/-- The number is written as the grammar has it. -/
structure Valid (n : JsonNumber) : Prop where
  whole_ne : n.whole ≠ []
  whole_digits : ∀ c ∈ n.whole, c.isDigit = true
  whole_zero : n.whole.head? = some '0' → n.whole.length = 1
  frac : ∀ frac, n.frac = some frac → frac ≠ [] ∧ ∀ c ∈ frac, c.isDigit = true
  exp : ∀ exp, n.exp = some exp → exp.2 ≠ [] ∧ ∀ c ∈ exp.2, c.isDigit = true

end JsonNumber

theorem readDigits_append {digits rest : Text} (hne : digits ≠ []) (hdigits : ∀ c ∈ digits, c.isDigit = true)
    (hrest : ∀ c ∈ rest.head?, c.isDigit = false) : readDigits (digits ++ rest) = some (digits, rest) := by
  have htake : (digits ++ rest).takeWhile Char.isDigit = digits := by
    rw [List.takeWhile_append_of_pos hdigits]
    cases rest with
    | nil => simp
    | cons c rest => simp [hrest c (by simp)]
  have hdrop : (digits ++ rest).dropWhile Char.isDigit = rest := by
    rw [List.dropWhile_append_of_pos hdigits]
    cases rest with
    | nil => simp
    | cons c rest => simp [hrest c (by simp)]
  rw [readDigits, htake, hdrop, if_neg hne]

theorem readExp_text {exp : Option (Bool × Text)} {rest : Text} (hrest : numberEnds rest)
    (hexp : ∀ e, exp = some e → e.2 ≠ [] ∧ ∀ c ∈ e.2, c.isDigit = true) :
    readExp (exp.elim [] (fun e => 'e' :: ((if e.1 then ['-'] else []) ++ e.2)) ++ rest) = some (exp, rest) := by
  have hdigit : ∀ c ∈ rest.head?, c.isDigit = false := fun c hc => (hrest c hc).1
  cases exp with
  | none =>
    cases rest with
    | nil => rfl
    | cons c rest =>
      obtain ⟨-, -, he, hE⟩ := hrest c (by simp)
      simp only [Option.elim_none, List.nil_append]
      unfold readExp
      split
      · next h => cases h; exact absurd rfl he
      · next h => cases h; exact absurd rfl hE
      · rfl
  | some e =>
    obtain ⟨sign, digits⟩ := e
    obtain ⟨hne, hdigits⟩ := hexp _ rfl
    cases sign with
    | true => simp [readExp, readExpDigits, readDigits_append hne hdigits hdigit]
    | false =>
      obtain ⟨c, tail, rfl⟩ := List.exists_cons_of_ne_nil hne
      have hc : c.isDigit = true := hdigits c (by simp)
      have hread := readDigits_append hne hdigits hdigit
      simp only [Option.elim_some, Bool.false_eq_true, if_false, List.nil_append, List.cons_append, readExp] at hread ⊢
      unfold readExpDigits
      split
      · next h => cases h; exact absurd hc (by decide)
      · next h => cases h; exact absurd hc (by decide)
      · rw [hread]; rfl

theorem head_exp_text (exp : Option (Bool × Text)) {rest : Text} (hrest : numberEnds rest) :
    ∀ c ∈ (exp.elim [] (fun e => 'e' :: ((if e.1 then ['-'] else []) ++ e.2)) ++ rest).head?,
      c.isDigit = false ∧ c ≠ '.' := by
  cases exp with
  | none => exact fun c hc => ⟨(hrest c hc).1, (hrest c hc).2.1⟩
  | some e =>
    intro c hc
    obtain rfl : 'e' = c := by simpa using hc
    decide

theorem readNumber_text {n : JsonNumber} (hn : n.Valid) {rest : Text} (hrest : numberEnds rest) :
    readNumber (n.text ++ rest) = some (n, rest) := by
  obtain ⟨neg, whole, frac, exp⟩ := n
  have hexp := readExp_text hrest hn.exp
  have hhead := head_exp_text exp hrest
  simp only [JsonNumber.text, List.append_assoc]
  generalize exp.elim [] (fun e => 'e' :: ((if e.1 then ['-'] else []) ++ e.2)) ++ rest = tail at hexp hhead ⊢
  have hfrac : readFrac (frac.elim [] (fun frac => '.' :: frac) ++ tail) = some (frac, tail) := by
    cases frac with
    | none =>
      cases tail with
      | nil => rfl
      | cons c tail =>
        simp only [Option.elim_none, List.nil_append]
        unfold readFrac
        split
        · next h => cases h; exact absurd rfl (hhead '.' (by simp)).2
        · rfl
    | some digits =>
      obtain ⟨hne, hdigits⟩ := hn.frac digits rfl
      simp [readFrac, readDigits_append hne hdigits fun c hc => (hhead c hc).1]
  have hhead' : ∀ c ∈ (frac.elim [] (fun frac => '.' :: frac) ++ tail).head?, c.isDigit = false := by
    cases frac with
    | none => exact fun c hc => (hhead c hc).1
    | some digits =>
      intro c hc
      obtain rfl : '.' = c := by simpa using hc
      decide
  have hwhole : readWhole (whole ++ (frac.elim [] (fun frac => '.' :: frac) ++ tail)) =
      some (whole, frac.elim [] (fun frac => '.' :: frac) ++ tail) := by
    rw [readWhole, readDigits_append hn.whole_ne hn.whole_digits hhead', Option.filter_some, if_pos]
    have := hn.whole_zero
    simp only [decide_eq_true_eq]
    exact (em (whole.head? = some '0')).elim (fun h => .inr (this h)) .inl
  have hsign : readSign ((if neg then ['-'] else []) ++ (whole ++ (frac.elim [] (fun frac => '.' :: frac) ++ tail))) =
      (neg, whole ++ (frac.elim [] (fun frac => '.' :: frac) ++ tail)) := by
    cases neg with
    | true => rfl
    | false =>
      obtain ⟨c, digits, hsplit⟩ := List.exists_cons_of_ne_nil hn.whole_ne
      simp only at hsplit
      subst hsplit
      have hc : c.isDigit = true := hn.whole_digits c (by simp)
      simp only [Bool.false_eq_true, if_false, List.nil_append, List.cons_append]
      unfold readSign
      split
      · next h => cases h; exact absurd hc (by decide)
      · rfl
  simp [readNumber, hsign, hwhole, hfrac, hexp]

/-! ## Layouts are read back -/

theorem skipBlanks_append {blanks s : Text} (h : ∀ c ∈ blanks, jsonBlank c = true) :
    skipBlanks (blanks ++ s) = skipBlanks s :=
  List.dropWhile_append_of_pos h

theorem skipBlanks_cons {c : Char} (h : jsonBlank c = false) (s : Text) : skipBlanks (c :: s) = c :: s := by
  simp [skipBlanks, h]

theorem readValue_number {c : Char} {s : Text} (h : c.isDigit = true ∨ c = '-') (fuel : Nat) :
    readValue (fuel + 1) (c :: s) = (readNumber (c :: s)).map fun r => (.number r.1, r.2) := by
  have hne : c ≠ 'n' ∧ c ≠ 't' ∧ c ≠ 'f' ∧ c ≠ '"' ∧ c ≠ '[' ∧ c ≠ '\x7b' := by
    refine ⟨?_, ?_, ?_, ?_, ?_, ?_⟩ <;> rintro rfl <;> revert h <;> decide
  obtain ⟨hn, ht, hf, hq, hb, hc⟩ := hne
  unfold readValue
  split <;> simp_all

/-- How the numbers and strings of a document are written so that they are read back. -/
structure ReadsBack {N : Type} (num : N → Text) (lit : N → JsonNumber) (str : String → Text) (d : List N) : Prop where
  number : ∀ n ∈ d, ∀ rest, numberEnds rest → readNumber (num n ++ rest) = some (lit n, rest)
  number_head : ∀ n ∈ d, ∃ c tail, num n = c :: tail ∧ (c.isDigit = true ∨ c = '-')
  string : ∀ s : String, ∃ body, str s = '"' :: body ∧ ∀ rest, readString (body ++ rest) = some (s.toList, rest)

theorem ReadsBack.mono {N : Type} {num : N → Text} {lit : N → JsonNumber} {str : String → Text} {d d' : List N}
    (h : ReadsBack num lit str d) (hsub : d' ⊆ d) : ReadsBack num lit str d' :=
  ⟨fun n hn => h.number n (hsub hn), fun n hn => h.number_head n (hsub hn), h.string⟩

theorem numberEnds_blank {c : Char} (h : jsonBlank c = true) (s : Text) : numberEnds (c :: s) := by
  rintro _ ⟨⟩
  simp only [jsonBlank, Bool.or_eq_true, beq_iff_eq] at h
  rcases h with ((rfl | rfl) | rfl) | rfl <;> decide

namespace JsonDoc

variable {N : Type} {num : N → Text} {lit : N → JsonNumber} {str : String → Text} (b : Blanks)

theorem ends_last {last rest : Text} {close : Char} (hlast : ∀ c ∈ last, jsonBlank c = true)
    (hclose : numberEnds (close :: rest)) : numberEnds (last ++ close :: rest) := by
  cases last with
  | nil => exact hclose
  | cons c last => exact numberEnds_blank (hlast c (by simp)) _

theorem ends_layoutItems (l : Nat) (items : List (JsonDoc N)) (rest : Text) :
    numberEnds (layoutItems num str b l items ++ rest) := by
  cases items with
  | nil =>
    rw [layoutItems, List.append_assoc]
    refine ends_last (b.last_blank l) ?_
    rintro _ ⟨⟩
    decide
  | cons v items =>
    rintro _ ⟨⟩
    decide

theorem ends_layoutRows (l : Nat) (rows : List (String × JsonDoc N)) (rest : Text) :
    numberEnds (layoutRows num str b l rows ++ rest) := by
  cases rows with
  | nil =>
    rw [layoutRows, List.append_assoc]
    refine ends_last (b.last_blank l) ?_
    rintro _ ⟨⟩
    decide
  | cons r rows =>
    rintro _ ⟨⟩
    decide

/-- The first character of a layout is no blank and closes nothing. -/
theorem head_layout (l : Nat) (d : JsonDoc N) (h : ReadsBack num lit str d.numbers) :
    ∃ c tail, d.layout num str b l = c :: tail ∧ jsonBlank c = false ∧ c ≠ ']' ∧ c ≠ '\x7d' := by
  have hfixed (c : Char) (tail : Text) (hc : jsonBlank c = false ∧ c ≠ ']' ∧ c ≠ '\x7d') (hd : d.layout num str b l =
      c :: tail) :
      ∃ c tail, d.layout num str b l = c :: tail ∧ jsonBlank c = false ∧ c ≠ ']' ∧ c ≠ '\x7d' := ⟨c, tail, hd, hc⟩
  cases d with
  | null => exact hfixed 'n' _ (by decide) rfl
  | bool v => cases v with
    | true => exact hfixed 't' _ (by decide) rfl
    | false => exact hfixed 'f' _ (by decide) rfl
  | number n =>
    obtain ⟨c, tail, hn, hc⟩ := h.number_head n (by simp [numbers])
    refine hfixed c tail ?_ hn
    refine ⟨?_, ?_, ?_⟩
    · cases hblank : jsonBlank c with
      | false => rfl
      | true =>
        simp only [jsonBlank, Bool.or_eq_true, beq_iff_eq] at hblank
        rcases hblank with ((rfl | rfl) | rfl) | rfl <;> exact absurd hc (by decide)
    · rintro rfl
      exact absurd hc (by decide)
    · rintro rfl
      exact absurd hc (by decide)
  | string s =>
    obtain ⟨body, hbody, -⟩ := h.string s
    exact hfixed '"' body (by decide) hbody
  | array items =>
    cases items with
    | nil => exact hfixed '[' _ (by decide) rfl
    | cons v items => exact hfixed '[' _ (by decide) rfl
  | object rows =>
    cases rows with
    | nil => exact hfixed '\x7b' _ (by decide) rfl
    | cons r rows => exact hfixed '\x7b' _ (by decide) rfl

theorem skipBlanks_layout {blanks : Text} (hblanks : ∀ c ∈ blanks, jsonBlank c = true) (l : Nat) (d : JsonDoc N)
    (h : ReadsBack num lit str d.numbers) (rest : Text) :
    skipBlanks (blanks ++ (d.layout num str b l ++ rest)) = d.layout num str b l ++ rest := by
  obtain ⟨c, tail, hd, hc, -⟩ := head_layout b l d h
  rw [skipBlanks_append hblanks, hd]
  exact skipBlanks_cons hc _

theorem readItems_more {fuel : Nat} {s rest : Text} {v : JsonDoc JsonNumber} (hv : readValue fuel s = some (v, ',' ::
    rest)) :
    readItems (fuel + 1) s = (readItems fuel (skipBlanks rest)).map fun r => (v :: r.1, r.2) := by
  rw [readItems, hv]
  simp only [skipBlanks_cons (show jsonBlank ',' = false by decide)]

theorem readItems_last {fuel : Nat} {s blanks rest : Text} {v : JsonDoc JsonNumber}
    (hblanks : ∀ c ∈ blanks, jsonBlank c = true) (hv : readValue fuel s = some (v, blanks ++ ']' :: rest)) :
    readItems (fuel + 1) s = some ([v], rest) := by
  rw [readItems, hv]
  simp only [skipBlanks_append hblanks, skipBlanks_cons (show jsonBlank ']' = false by decide)]

section row

variable {fuel : Nat} {k : String} {body colon s rest rest' : Text} {v : JsonDoc JsonNumber}
  (hbody : ∀ rest, readString (body ++ rest) = some (k.toList, rest)) (hcolon : skipBlanks (colon ++ s) = s)
  (hv : readValue fuel s = some (v, rest))

include hbody hcolon hv

theorem readRows_more (hrest : skipBlanks rest = ',' :: rest') :
    readRows (fuel + 1) ('"' :: (body ++ ':' :: (colon ++ s))) =
      (readRows fuel (skipBlanks rest')).map fun r => ((k, v) :: r.1, r.2) := by
  rw [readRows, hbody]
  simp only [skipBlanks_cons (show jsonBlank ':' = false by decide), hcolon, hv, hrest, String.ofList_toList]

theorem readRows_last (hrest : skipBlanks rest = '\x7d' :: rest') :
    readRows (fuel + 1) ('"' :: (body ++ ':' :: (colon ++ s))) = some ([(k, v)], rest') := by
  rw [readRows, hbody]
  simp only [skipBlanks_cons (show jsonBlank ':' = false by decide), hcolon, hv, hrest, String.ofList_toList]

end row

mutual

/-- A layout is read back, with the numbers as they are written. -/
theorem readValue_layout (l : Nat) (d : JsonDoc N) (h : ReadsBack num lit str d.numbers) (fuel : Nat) (rest : Text)
    (hfuel : 2 * (d.layout num str b l).length ≤ fuel) (hrest : numberEnds rest) :
    readValue fuel (d.layout num str b l ++ rest) = some (d.map lit, rest) := by
  obtain ⟨c, tail, hhead, -⟩ := head_layout b l d h
  obtain ⟨fuel, rfl⟩ : ∃ fuel', fuel = fuel' + 1 := ⟨fuel - 1, by rw [hhead, List.length_cons] at hfuel; omega⟩
  clear hhead
  cases d with
  | null => rfl
  | bool v => cases v with
    | true => rfl
    | false => rfl
  | number n =>
    obtain ⟨c, tail, hn, hc⟩ := h.number_head n (by simp [numbers])
    have hread := h.number n (by simp [numbers]) rest hrest
    rw [layout, hn, List.cons_append, readValue_number hc]
    rw [hn, List.cons_append] at hread
    rw [hread]
    rfl
  | string s =>
    obtain ⟨body, hbody, hread⟩ := h.string s
    rw [layout, hbody, List.cons_append, readValue, hread]
    simp [map]
  | array items =>
    cases items with
    | nil => rfl
    | cons v items =>
      have hv : ReadsBack num lit str v.numbers := h.mono (by simp [numbers, itemNumbers])
      obtain ⟨c, tail, hhead, -, hbracket, -⟩ := head_layout b (l + 1) v hv
      simp only [layout, List.length_cons, List.length_append] at hfuel
      have hpos : 0 < (layoutItems num str b l items).length := by cases items <;> simp [layoutItems]
      obtain ⟨fuel, rfl⟩ : ∃ fuel', fuel = fuel' + 1 := ⟨fuel - 1, by omega⟩
      have hvalue := readValue_layout (l + 1) v hv fuel (layoutItems num str b l items ++ rest) (by omega)
        (ends_layoutItems b l items rest)
      have hitems := readItems_layout l items (h.mono (by simp [numbers, itemNumbers])) fuel rest (by omega) hvalue
      rw [layout, List.cons_append, readValue, List.append_assoc, List.append_assoc,
        skipBlanks_layout b (b.first_blank l) _ v hv]
      rw [hhead, List.cons_append] at hitems ⊢
      split
      · next heq => cases heq; exact absurd rfl hbracket
      · rw [hitems]; rfl
  | object rows =>
    cases rows with
    | nil => rfl
    | cons r rows =>
      obtain ⟨k, v⟩ := r
      obtain ⟨body, hbody, hread⟩ := h.string k
      have hv : ReadsBack num lit str v.numbers := h.mono (by simp [numbers, rowNumbers])
      simp only [layout, List.length_cons, List.length_append, hbody] at hfuel
      obtain ⟨fuel, rfl⟩ : ∃ fuel', fuel = fuel' + 1 := ⟨fuel - 1, by omega⟩
      have hvalue := readValue_layout (l + 1) v hv fuel (layoutRows num str b l rows ++ rest) (by omega)
        (ends_layoutRows b l rows rest)
      have hrows := readRows_layout l rows (h.mono (by simp [numbers, rowNumbers])) fuel rest (by omega) hread
        (skipBlanks_layout b b.colon_blank (l + 1) v hv _) hvalue
      rw [layout, hbody]
      simp only [List.cons_append, List.append_assoc]
      rw [readValue, skipBlanks_append (b.first_blank l), skipBlanks_cons (by decide)]
      split
      · next heq => exact absurd (List.cons.inj heq).1 (by decide)
      · rw [hrows]; rfl

theorem readItems_layout (l : Nat) (items : List (JsonDoc N)) (h : ReadsBack num lit str (itemNumbers items))
    (fuel : Nat) (rest : Text) (hfuel : 2 * (layoutItems num str b l items).length ≤ fuel + 2) {s : Text}
    {v : JsonDoc JsonNumber}
    (hv : readValue fuel (s ++ (layoutItems num str b l items ++ rest)) =
      some (v, layoutItems num str b l items ++ rest)) :
    readItems (fuel + 1) (s ++ (layoutItems num str b l items ++ rest)) = some (v :: mapItems lit items, rest) := by
  cases items with
  | nil =>
    rw [layoutItems, List.append_assoc] at hv ⊢
    rw [readItems_last (b.last_blank l) hv]
    rfl
  | cons w items =>
    have hw : ReadsBack num lit str w.numbers := h.mono (by simp [itemNumbers])
    simp only [layoutItems, List.length_cons, List.length_append] at hfuel
    have hpos : 0 < (layoutItems num str b l items).length := by cases items <;> simp [layoutItems]
    obtain ⟨c, tail, hhead, -⟩ := head_layout b (l + 1) w hw
    have hlength : (w.layout num str b (l + 1)).length = tail.length + 1 := by rw [hhead, List.length_cons]
    obtain ⟨fuel, rfl⟩ : ∃ fuel', fuel = fuel' + 1 := ⟨fuel - 1, by omega⟩
    have hvalue := readValue_layout (l + 1) w hw fuel (layoutItems num str b l items ++ rest) (by omega)
      (ends_layoutItems b l items rest)
    have hitems := readItems_layout l items (h.mono (by simp [itemNumbers])) fuel rest (by omega) hvalue
    rw [layoutItems, List.cons_append] at hv ⊢
    rw [readItems_more hv, List.append_assoc, List.append_assoc, skipBlanks_layout b (b.between_blank l) _ w hw, hitems]
    rfl

theorem readRows_layout (l : Nat) (rows : List (String × JsonDoc N)) (h : ReadsBack num lit str (rowNumbers rows))
    (fuel : Nat)
    (rest : Text) (hfuel : 2 * (layoutRows num str b l rows).length ≤ fuel + 2) {k : String} {body colon s : Text}
    {v : JsonDoc JsonNumber} (hbody : ∀ rest, readString (body ++ rest) = some (k.toList, rest))
    (hcolon : skipBlanks (colon ++ (s ++ (layoutRows num str b l rows ++ rest))) =
      s ++ (layoutRows num str b l rows ++ rest))
    (hv : readValue fuel (s ++ (layoutRows num str b l rows ++ rest)) = some (v, layoutRows num str b l rows ++ rest)) :
    readRows (fuel + 1) ('"' :: (body ++ ':' :: (colon ++ (s ++ (layoutRows num str b l rows ++ rest))))) =
      some ((k, v) :: mapRows lit rows, rest) := by
  cases rows with
  | nil =>
    have hrest : skipBlanks (layoutRows num str b l [] ++ rest) = '\x7d' :: rest := by
      rw [layoutRows, List.append_assoc, skipBlanks_append (b.last_blank l), List.singleton_append,
        skipBlanks_cons (by decide)]
    rw [readRows_last hbody hcolon hv hrest]
    rfl
  | cons r rows =>
    obtain ⟨k', v'⟩ := r
    obtain ⟨body', hbody', hread⟩ := h.string k'
    have hv' : ReadsBack num lit str v'.numbers := h.mono (by simp [rowNumbers])
    simp only [layoutRows, List.length_cons, List.length_append, hbody'] at hfuel
    obtain ⟨fuel, rfl⟩ : ∃ fuel', fuel = fuel' + 1 := ⟨fuel - 1, by omega⟩
    have hvalue := readValue_layout (l + 1) v' hv' fuel (layoutRows num str b l rows ++ rest) (by omega)
      (ends_layoutRows b l rows rest)
    have hrows := readRows_layout l rows (h.mono (by simp [rowNumbers])) fuel rest (by omega) hread
      (skipBlanks_layout b b.colon_blank (l + 1) v' hv' _) hvalue
    have hrest : skipBlanks (layoutRows num str b l ((k', v') :: rows) ++ rest) =
        ',' :: (b.between l ++ ('"' :: (body' ++
          ':' :: (b.colon ++ (v'.layout num str b (l + 1) ++ (layoutRows num str b l rows ++ rest)))))) := by
      rw [layoutRows, List.cons_append, skipBlanks_cons (by decide), hbody']
      simp only [List.cons_append, List.append_assoc]
    rw [readRows_more hbody hcolon hv hrest, skipBlanks_append (b.between_blank l), skipBlanks_cons (by decide), hrows]
    rfl

end

mutual

/-- What holds of the characters of the numbers, the strings,
    the blanks and the punctuation holds of every character. -/
theorem forall_mem_layout {p : Char → Prop} (hstr : ∀ s, ∀ c ∈ str s, p c) (hblank : ∀ c, jsonBlank c = true → p c)
    (hfixed : ∀ c ∈ "nulltruefalse[]\x7b\x7d:,".toList, p c) (l : Nat) (d : JsonDoc N)
    (hnum : ∀ n ∈ d.numbers, ∀ c ∈ num n, p c) : ∀ c ∈ d.layout num str b l, p c := by
  have hword {w : Text} (hw : w ⊆ "nulltruefalse[]\x7b\x7d:,".toList) : ∀ c ∈ w, p c := fun c hc => hfixed c (hw hc)
  cases d with
  | null => exact hword (w := "null".toList) (by decide)
  | bool v => cases v with
    | true => exact hword (w := "true".toList) (by decide)
    | false => exact hword (w := "false".toList) (by decide)
  | number n => exact hnum n (by simp [numbers])
  | string s => exact hstr s
  | array items =>
    cases items with
    | nil => exact hword (w := "[]".toList) (by decide)
    | cons v items =>
      have hv := forall_mem_layout hstr hblank hfixed (l + 1) v fun n hn => hnum n (by simp [numbers, itemNumbers, hn])
      have hitems := forall_mem_layoutItems hstr hblank hfixed l items fun n hn =>
        hnum n (by simp [numbers, itemNumbers, hn])
      intro c hc
      simp only [layout, List.mem_cons, List.mem_append] at hc
      rcases hc with rfl | hc | hc | hc
      · exact hfixed _ (by decide)
      · exact hblank c (b.first_blank l c hc)
      · exact hv c hc
      · exact hitems c hc
  | object rows =>
    cases rows with
    | nil => exact hword (w := "\x7b\x7d".toList) (by decide)
    | cons r rows =>
      obtain ⟨k, v⟩ := r
      have hv := forall_mem_layout hstr hblank hfixed (l + 1) v fun n hn => hnum n (by simp [numbers, rowNumbers, hn])
      have hrows := forall_mem_layoutRows hstr hblank hfixed l rows fun n hn =>
        hnum n (by simp [numbers, rowNumbers, hn])
      intro c hc
      simp only [layout, List.mem_cons, List.mem_append] at hc
      rcases hc with rfl | hc | hc | rfl | hc | hc | hc
      · exact hfixed _ (by decide)
      · exact hblank c (b.first_blank l c hc)
      · exact hstr k c hc
      · exact hfixed _ (by decide)
      · exact hblank c (b.colon_blank c hc)
      · exact hv c hc
      · exact hrows c hc

theorem forall_mem_layoutItems {p : Char → Prop} (hstr : ∀ s, ∀ c ∈ str s, p c) (hblank : ∀ c, jsonBlank c = true → p c)
    (hfixed : ∀ c ∈ "nulltruefalse[]\x7b\x7d:,".toList, p c) (l : Nat) (items : List (JsonDoc N))
    (hnum : ∀ n ∈ itemNumbers items, ∀ c ∈ num n, p c) : ∀ c ∈ layoutItems num str b l items, p c := by
  intro c hc
  cases items with
  | nil =>
    simp only [layoutItems, List.mem_append, List.mem_singleton] at hc
    rcases hc with hc | rfl
    · exact hblank c (b.last_blank l c hc)
    · exact hfixed _ (by decide)
  | cons v items =>
    simp only [layoutItems, List.mem_cons, List.mem_append] at hc
    rcases hc with rfl | hc | hc | hc
    · exact hfixed _ (by decide)
    · exact hblank c (b.between_blank l c hc)
    · exact forall_mem_layout hstr hblank hfixed (l + 1) v (fun n hn => hnum n (by simp [itemNumbers, hn])) c hc
    · exact forall_mem_layoutItems hstr hblank hfixed l items (fun n hn => hnum n (by simp [itemNumbers, hn])) c hc

theorem forall_mem_layoutRows {p : Char → Prop} (hstr : ∀ s, ∀ c ∈ str s, p c) (hblank : ∀ c, jsonBlank c = true → p c)
    (hfixed : ∀ c ∈ "nulltruefalse[]\x7b\x7d:,".toList, p c) (l : Nat) (rows : List (String × JsonDoc N))
    (hnum : ∀ n ∈ rowNumbers rows, ∀ c ∈ num n, p c) : ∀ c ∈ layoutRows num str b l rows, p c := by
  intro c hc
  cases rows with
  | nil =>
    simp only [layoutRows, List.mem_append, List.mem_singleton] at hc
    rcases hc with hc | rfl
    · exact hblank c (b.last_blank l c hc)
    · exact hfixed _ (by decide)
  | cons r rows =>
    obtain ⟨k, v⟩ := r
    simp only [layoutRows, List.mem_cons, List.mem_append] at hc
    rcases hc with rfl | hc | hc | rfl | hc | hc | hc
    · exact hfixed _ (by decide)
    · exact hblank c (b.between_blank l c hc)
    · exact hstr k c hc
    · exact hfixed _ (by decide)
    · exact hblank c (b.colon_blank c hc)
    · exact forall_mem_layout hstr hblank hfixed (l + 1) v (fun n hn => hnum n (by simp [rowNumbers, hn])) c hc
    · exact forall_mem_layoutRows hstr hblank hfixed l rows (fun n hn => hnum n (by simp [rowNumbers, hn])) c hc

end

end JsonDoc

/-- The reader reads back what a writer wrote, with the numbers as they are written. -/
theorem readJson_layout {N : Type} {num : N → Text} {lit : N → JsonNumber} {str : String → Text} (b : Blanks) (l : Nat)
    (d : JsonDoc N) (h : ReadsBack num lit str d.numbers) : readJson (d.layout num str b l) = some (d.map lit) := by
  obtain ⟨c, tail, hhead, hc, -⟩ := JsonDoc.head_layout b l d h
  have hskip : skipBlanks (d.layout num str b l) = d.layout num str b l := by rw [hhead]; exact skipBlanks_cons hc _
  have hread := JsonDoc.readValue_layout b l d h (2 * (d.layout num str b l).length + 2) [] (by omega)
    (fun c hc => by simp at hc)
  rw [List.append_nil] at hread
  rw [readJson, hskip, hread]
  rfl

end Text
