import Cobrust.Lsp.BytePosition

/-!
# Whole words in a source

The word at an offset, `word_at_offset` of `cobrust-lsp/src/hover.rs`, and the scan of `cobrust-lsp/src/rename.rs` for
the places where a name is a whole word. Both go by bytes, and only letters, digits and underscores of ASCII make words.

* `mem_wordOccurrences`: the scan finds a name wherever it is a whole word.
* `wordOccurrences_ordered`: what it finds is in order and disjoint.
-/

namespace Cobrust.Lsp

def isIdentByte (b : Char) : Bool :=
  b.isAlphanum || b = '_'

/-- The walk back to the start of a word. -/
def wordStart (bytes : List Char) : Nat → Nat
  | 0 => 0
  | n + 1 => if bytes[n]?.any isIdentByte then wordStart bytes n else n + 1

/-- The walk on to the end of a word. -/
def wordEnd (bytes : List Char) (n : Nat) : Nat :=
  n + ((bytes.drop n).takeWhile isIdentByte).length

def wordAtOffset (source : Text) (byteOffset : Nat) : Option (Nat × Nat) :=
  let bytes := Text.bytes source
  let offset := min byteOffset bytes.length
  if bytes[offset]?.any isIdentByte then some (wordStart bytes offset, wordEnd bytes (offset + 1)) else none

/-- The end of the occurrence of a name that starts at `i`. -/
def occurrenceAt (source name : Text) (i : Nat) : Option Nat :=
  if (Text.bytes source)[i]? = (Text.bytes name)[0]? then
    match wordAtOffset source i with
    | some (ws, we) =>
      if ws = i ∧ we = i + (Text.bytes name).length ∧ Text.slice source ws we = some name then some we else none
    | none => none
  else none

/-- The scan goes on behind a word that it has found; it has as many steps as there are bytes. -/
def scanWords (source name : Text) : Nat → Nat → List (Nat × Nat)
  | 0, _ => []
  | steps + 1, i =>
    if i < (Text.bytes source).length then
      match occurrenceAt source name i with
      | some stop => (i, stop) :: scanWords source name steps stop
      | none => scanWords source name steps (i + 1)
    else []

def wordOccurrences (source name : Text) : List (Nat × Nat) :=
  if name = [] then [] else scanWords source name (Text.bytes source).length 0

/-! ## Whole words -/

/-- Behind `before` the name stands as a whole word. -/
def StandsBehind (source name before : Text) : Prop :=
  ∃ after, source = before ++ (name ++ after) ∧ (∀ c, before.getLast? = some c → isIdentByte c = false) ∧
    ∀ c, after.head? = some c → isIdentByte c = false

/-- Letters, digits and underscores of ASCII. -/
def IsWord (name : Text) : Prop :=
  name ≠ [] ∧ ∀ c ∈ name, isIdentByte c = true

theorem ascii_of_isIdentByte {c : Char} (h : isIdentByte c = true) : c.toNat < 128 := by
  rw [isIdentByte, Bool.or_eq_true, decide_eq_true_eq] at h
  rcases h with h | rfl
  · rw [Text.isAlphanum_iff] at h
    omega
  · decide

/-- A byte is one of a word just if its character is. -/
theorem isIdentByte_of_mem {c b : Char} (h : b ∈ Text.bytes [c]) : isIdentByte b = isIdentByte c := by
  by_cases hc : c.toNat < 128
  · rw [Text.bytes_singleton hc] at h
    rw [List.mem_singleton.1 h]
  · have hb : ¬ b.toNat < 128 := Nat.not_lt.2 (Text.not_ascii_of_mem (Nat.le_of_not_lt hc) h)
    rw [Bool.eq_false_iff.2 fun h => hb (ascii_of_isIdentByte h), Bool.eq_false_iff.2 fun h => hc (ascii_of_isIdentByte h)]

variable {source name before after : Text} {i n stop : Nat}

theorem IsWord.bytes (h : IsWord name) : Text.bytes name = name :=
  Text.bytes_of_ascii fun c hc => ascii_of_isIdentByte (h.2 c hc)

/-- The last byte of a text is one of a word just if its last character is. -/
theorem last_isIdentByte (before : Text) :
    (Text.bytes before).getLast?.any isIdentByte = before.getLast?.any isIdentByte := by
  induction before using List.reverseRecOn with
  | nil => rfl
  | append_singleton front c _ =>
    rw [Text.bytes_append, List.getLast?_append_of_ne_nil _ (Text.bytes_ne_nil c), List.getLast?_concat]
    obtain ⟨b, hb⟩ := Option.isSome_iff_exists.1 (List.getLast?_isSome.2 (Text.bytes_ne_nil c))
    rw [hb]
    exact isIdentByte_of_mem (List.mem_of_getLast? hb)

theorem head_isIdentByte (after : Text) :
    (Text.bytes after).head?.any isIdentByte = after.head?.any isIdentByte := by
  cases after with
  | nil => rfl
  | cons c rest =>
    rw [← List.singleton_append, Text.bytes_append, List.head?_append_of_ne_nil _ (Text.bytes_ne_nil c)]
    obtain ⟨b, hb⟩ := Option.isSome_iff_exists.1 (List.isSome_head?.2 (Text.bytes_ne_nil c))
    rw [hb]
    exact isIdentByte_of_mem (List.mem_of_head? hb)

theorem any_eq_false {o : Option Char} : o.any isIdentByte = false ↔ ∀ c, o = some c → isIdentByte c = false := by
  cases o with
  | none => exact iff_of_true rfl fun c hc => by cases hc
  | some c => exact ⟨fun h d hd => Option.some.inj hd ▸ h, fun h => h c rfl⟩

theorem wordStart_le (bytes : List Char) (n : Nat) : wordStart bytes n ≤ n := by
  induction n with
  | zero => exact Nat.le_refl 0
  | succ n ih =>
    rw [wordStart]
    split
    · exact ih.trans (Nat.le_succ n)
    · exact Nat.le_refl _

/-- The walk back does not leave an offset just if no byte of a word is before it. -/
theorem wordStart_eq_self {front back : List Char} :
    wordStart (front ++ back) front.length = front.length ↔ front.getLast?.any isIdentByte = false := by
  cases hlen : front.length with
  | zero =>
    rw [List.length_eq_zero_iff.1 hlen]
    exact iff_of_true rfl rfl
  | succ n =>
    have hlast : front.getLast? = (front ++ back)[n]? := by
      rw [List.getLast?_eq_getElem?, hlen, List.getElem?_append_left (by omega)]
      rfl
    rw [wordStart, ← hlast]
    cases h : front.getLast?.any isIdentByte with
    | true =>
      have hle := wordStart_le (front ++ back) n
      rw [if_pos rfl]
      exact iff_of_false (by omega) (by decide)
    | false => exact iff_of_true rfl rfl

theorem takeWhile_length_eq_zero {bytes : List Char} :
    (bytes.takeWhile isIdentByte).length = 0 ↔ bytes.head?.any isIdentByte = false := by
  cases bytes with
  | nil => exact iff_of_true rfl rfl
  | cons b rest =>
    rw [List.takeWhile_cons]
    cases h : isIdentByte b with
    | true => exact iff_of_false (by rw [if_pos rfl, List.length_cons]; omega) (by simpa using h)
    | false => exact iff_of_true rfl (by simpa using h)

/-- The walk on goes over a word and stops behind it just if no byte of a word follows. -/
theorem wordEnd_eq {front word back : List Char} (hword : ∀ b ∈ word, isIdentByte b = true) (hne : word ≠ []) :
    wordEnd (front ++ (word ++ back)) (front.length + 1) = front.length + word.length ↔
      back.head?.any isIdentByte = false := by
  obtain ⟨b, rest, rfl⟩ := List.exists_cons_of_ne_nil hne
  have hdrop : (front ++ (b :: rest ++ back)).drop (front.length + 1) = rest ++ back := by
    rw [List.drop_append, List.cons_append, Nat.add_sub_cancel_left, List.drop_of_length_le (Nat.le_succ _)]
    rfl
  rw [wordEnd, hdrop, List.takeWhile_append_of_pos fun c hc => hword c (List.mem_cons_of_mem b hc), List.length_append,
    List.length_cons, ← takeWhile_length_eq_zero]
  omega

theorem wordAtOffset_word (hname : IsWord name) :
    wordAtOffset (before ++ (name ++ after)) (Text.bytes before).length =
        some ((Text.bytes before).length, (Text.bytes before).length + (Text.bytes name).length) ↔
      (∀ c, before.getLast? = some c → isIdentByte c = false) ∧ ∀ c, after.head? = some c → isIdentByte c = false := by
  rw [← any_eq_false, ← any_eq_false, ← last_isIdentByte, ← head_isIdentByte,
    ← @wordStart_eq_self _ (name ++ Text.bytes after),
    ← @wordEnd_eq (Text.bytes before) name (Text.bytes after) hname.2 hname.1]
  obtain ⟨c, rest, rfl⟩ := List.exists_cons_of_ne_nil hname.1
  have hbyte : (Text.bytes before ++ (c :: rest ++ Text.bytes after))[(Text.bytes before).length]? = some c := by
    rw [List.getElem?_append_right (Nat.le_refl _), Nat.sub_self]
    rfl
  have hmin : min (Text.bytes before).length (Text.bytes before ++ (c :: rest ++ Text.bytes after)).length =
      (Text.bytes before).length := by
    rw [List.length_append]
    omega
  rw [wordAtOffset, Text.bytes_append, Text.bytes_append, hname.bytes]
  rw [hmin, hbyte, Option.any_some, hname.2 c List.mem_cons_self, if_pos rfl, Option.some.injEq, Prod.mk.injEq]

theorem occurrenceAt_eq_some (hname : IsWord name) : occurrenceAt source name i = some stop ↔
    ∃ before, (Text.bytes before).length = i ∧ i + (Text.bytes name).length = stop ∧ StandsBehind source name before := by
  rw [occurrenceAt]
  constructor
  · intro h
    split at h
    next =>
      split at h
      next ws we hword =>
        obtain ⟨⟨rfl, rfl, hslice⟩, hstop⟩ := Option.ite_none_right_eq_some.1 h
        obtain ⟨before, after, rfl, rfl, -⟩ := Text.slice_eq_some.1 hslice
        exact ⟨before, rfl, Option.some.inj hstop, after, rfl, (wordAtOffset_word hname).1 hword⟩
      next => cases h
    next => cases h
  · rintro ⟨before, rfl, rfl, after, rfl, hbounds⟩
    have hbyte : (Text.bytes (before ++ (name ++ after)))[(Text.bytes before).length]? = (Text.bytes name)[0]? := by
      rw [Text.bytes_append, List.getElem?_append_right (Nat.le_refl _), Nat.sub_self, Text.bytes_append, hname.bytes,
        List.getElem?_append_left (List.length_pos_iff.2 hname.1)]
    rw [if_pos hbyte, (wordAtOffset_word hname).2 hbounds]
    exact if_pos ⟨rfl, rfl, Text.slice_eq_some.2 ⟨before, after, rfl, rfl, rfl⟩⟩

theorem occurrenceAt_disjoint (hname : IsWord name) {a b : Nat} (h : occurrenceAt source name i = some stop)
    (h' : occurrenceAt source name a = some b) (hlt : i < a) : stop ≤ a := by
  obtain ⟨before, rfl, rfl, after, rfl, -⟩ := (occurrenceAt_eq_some hname).1 h
  obtain ⟨before', rfl, -, after', heq, hlast, -⟩ := (occurrenceAt_eq_some hname).1 h'
  obtain ⟨mid, rfl, hmid⟩ := exists_append_of_le heq (Nat.le_of_lt hlt)
  rw [Text.bytes_append, List.length_append]
  rcases List.append_eq_append_iff.1 hmid with ⟨more, rfl, -⟩ | ⟨more, rfl, -⟩
  · rw [Text.bytes_append, List.length_append]
    omega
  · -- The byte before the second would be one of the first.
    have hne : mid ≠ [] := by
      rintro rfl
      rw [List.append_nil] at hlt
      exact absurd hlt (Nat.lt_irrefl _)
    obtain ⟨c, hc⟩ := Option.isSome_iff_exists.1 (List.getLast?_isSome.2 hne)
    have hident := hname.2 c (List.mem_append_left _ (List.mem_of_getLast? hc))
    rw [hlast c (by rw [List.getLast?_append_of_ne_nil _ hne, hc])] at hident
    cases hident

theorem occurrenceAt_lt (hname : IsWord name) (h : occurrenceAt source name i = some stop) :
    i < stop ∧ stop ≤ (Text.bytes source).length := by
  obtain ⟨before, rfl, rfl, after, rfl, -⟩ := (occurrenceAt_eq_some hname).1 h
  have hpos := List.length_pos_iff.2 hname.1
  rw [Text.bytes_append, Text.bytes_append, List.length_append, List.length_append, hname.bytes]
  omega

theorem mem_scanWords (hname : IsWord name) {a b : Nat} (steps : Nat) (hsteps : (Text.bytes source).length ≤ i + steps) :
    (a, b) ∈ scanWords source name steps i ↔ i ≤ a ∧ occurrenceAt source name a = some b := by
  induction steps generalizing i with
  | zero =>
    refine iff_of_false List.not_mem_nil fun h => ?_
    have hlt := occurrenceAt_lt hname h.2
    omega
  | succ steps ih =>
    rw [scanWords]
    split
    next hlt =>
      split
      next stop hstop =>
        have hmore := (occurrenceAt_lt hname hstop).1
        rw [List.mem_cons, ih (by omega)]
        constructor
        · rintro (heq | ⟨hle, hocc⟩)
          · cases heq
            exact ⟨Nat.le_refl _, hstop⟩
          · exact ⟨by omega, hocc⟩
        · rintro ⟨hle, hocc⟩
          rcases Nat.eq_or_lt_of_le hle with rfl | hlt'
          · exact Or.inl (by rw [Option.some.inj (hocc.symm.trans hstop)])
          · exact Or.inr ⟨occurrenceAt_disjoint hname hstop hocc hlt', hocc⟩
      next hnone =>
        rw [ih (by omega)]
        constructor
        · rintro ⟨hle, hocc⟩
          exact ⟨by omega, hocc⟩
        · rintro ⟨hle, hocc⟩
          rcases Nat.eq_or_lt_of_le hle with rfl | hlt'
          · rw [hnone] at hocc
            cases hocc
          · exact ⟨hlt', hocc⟩
    next hend =>
      refine iff_of_false List.not_mem_nil fun h => ?_
      have hlt := occurrenceAt_lt hname h.2
      omega

/-- The scan finds a name wherever it is a whole word. -/
theorem mem_wordOccurrences (hname : IsWord name) {a b : Nat} : (a, b) ∈ wordOccurrences source name ↔
    ∃ before, (Text.bytes before).length = a ∧ a + (Text.bytes name).length = b ∧ StandsBehind source name before := by
  rw [wordOccurrences, if_neg hname.1, mem_scanWords hname _ (Nat.le_add_left _ _), occurrenceAt_eq_some hname]
  exact and_iff_right (Nat.zero_le a)

theorem scanWords_ordered (hname : IsWord name) (steps : Nat) (hsteps : (Text.bytes source).length ≤ i + steps) :
    (scanWords source name steps i).Pairwise fun r r' => r.2 ≤ r'.1 := by
  induction steps generalizing i with
  | zero => exact List.Pairwise.nil
  | succ steps ih =>
    rw [scanWords]
    split
    next hlt =>
      split
      next stop hstop =>
        have hmore := (occurrenceAt_lt hname hstop).1
        refine List.pairwise_cons.2 ⟨fun r hr => ?_, ih (by omega)⟩
        exact ((mem_scanWords hname steps (by omega)).1 hr).1
      next => exact ih (by omega)
    next => exact List.Pairwise.nil

theorem wordOccurrences_ordered (hname : IsWord name) :
    (wordOccurrences source name).Pairwise fun r r' => r.2 ≤ r'.1 := by
  rw [wordOccurrences, if_neg hname.1]
  exact scanWords_ordered hname _ (Nat.le_add_left _ _)

theorem isIdentByte_of_wordStart (bytes : List Char) (n : Nat) {k : Nat} (hle : wordStart bytes n ≤ k) (hlt : k < n) :
    bytes[k]?.any isIdentByte = true := by
  induction n with
  | zero => exact absurd hlt (Nat.not_lt_zero k)
  | succ n ih =>
    rw [wordStart] at hle
    split at hle
    next hident =>
      rcases Nat.eq_or_lt_of_le (Nat.lt_succ_iff.1 hlt) with rfl | hlt'
      · exact hident
      · exact ih hle hlt'
    next => omega

theorem isIdentByte_of_wordEnd {bytes : List Char} {k : Nat} (hle : n ≤ k) (hlt : k < wordEnd bytes n) :
    bytes[k]?.any isIdentByte = true := by
  have hk : k - n < ((bytes.drop n).takeWhile isIdentByte).length := by
    rw [wordEnd] at hlt
    omega
  have hget : bytes[k]? = some ((bytes.drop n).takeWhile isIdentByte)[k - n] :=
    calc bytes[k]? = (bytes.drop n)[k - n]? := by rw [List.getElem?_drop, Nat.add_sub_cancel' hle]
      _ = ((bytes.drop n).takeWhile isIdentByte ++ (bytes.drop n).dropWhile isIdentByte)[k - n]? := by
        rw [List.takeWhile_append_dropWhile]
      _ = some ((bytes.drop n).takeWhile isIdentByte)[k - n] := by
        rw [List.getElem?_append_left hk, List.getElem?_eq_getElem hk]
  rw [hget, Option.any_some]
  exact List.mem_takeWhile_imp (List.getElem_mem hk)

theorem isWord_of_wordAtOffset {off ws we : Nat} (hword : wordAtOffset source off = some (ws, we))
    (hslice : Text.slice source ws we = some name) : IsWord name := by
  obtain ⟨before, after, rfl, rfl, rfl⟩ := Text.slice_eq_some.1 hslice
  obtain ⟨hcursor, hpair⟩ := Option.ite_none_right_eq_some.1 hword
  obtain ⟨hws, hwe⟩ := Prod.mk.inj (Option.some.inj hpair)
  have hle := wordStart_le (Text.bytes (before ++ (name ++ after))) (min off (Text.bytes (before ++ (name ++ after))).length)
  have hbytes : ∀ k < (Text.bytes name).length, (Text.bytes name)[k]?.any isIdentByte = true := by
    intro k hk
    have hget : (Text.bytes (before ++ (name ++ after)))[(Text.bytes before).length + k]? = (Text.bytes name)[k]? := by
      rw [Text.bytes_append, List.getElem?_append_right (Nat.le_add_right _ _), Nat.add_sub_cancel_left, Text.bytes_append,
        List.getElem?_append_left hk]
    rw [← hget]
    rcases Nat.lt_trichotomy ((Text.bytes before).length + k) (min off (Text.bytes (before ++ (name ++ after))).length) with
      hlt | heq | hlt
    · exact isIdentByte_of_wordStart _ _ (by omega) hlt
    · rw [heq]
      exact hcursor
    · have hend : (Text.bytes before).length + k < wordEnd (Text.bytes (before ++ (name ++ after)))
          (min off (Text.bytes (before ++ (name ++ after))).length + 1) := by omega
      exact isIdentByte_of_wordEnd hlt hend
  constructor
  · rintro rfl
    rw [wordEnd] at hwe
    change _ = _ + 0 at hwe
    omega
  · intro c hc
    obtain ⟨b, hb⟩ := List.exists_mem_of_ne_nil _ (Text.bytes_ne_nil c)
    obtain ⟨front, back, rfl⟩ := List.append_of_mem hc
    have hmem : b ∈ Text.bytes (front ++ c :: back) := by
      rw [Text.bytes_append, ← List.singleton_append, Text.bytes_append]
      exact List.mem_append_right _ (List.mem_append_left _ hb)
    obtain ⟨k, hk, hget⟩ := List.mem_iff_getElem.1 hmem
    have hident := hbytes k hk
    rw [List.getElem?_eq_getElem hk, hget, Option.any_some] at hident
    rw [← isIdentByte_of_mem hb, hident]

end Cobrust.Lsp
