import Cobrust.Text.Split

/-!
# Texts and their bytes

The UTF-8 form of a text, with byte offsets into it. A byte is written as the character of its number, so
that an ASCII character and its byte are the same. An offset is a boundary where a character starts, and
at the end.

* `exists_of_ascii`: an ASCII byte is a character, so boundaries are around it.
-/

namespace Text

def bytes (s : Text) : List Char :=
  s.flatMap fun c => (String.utf8EncodeChar c).map fun b => Char.ofNat b.toNat

/-- The text from byte `p` on, where a character starts there. -/
def dropBytes : Text → Nat → Option Text
  | s, 0 => some s
  | [], _ + 1 => none
  | c :: s, p + 1 => if c.utf8Size ≤ p + 1 then dropBytes s (p + 1 - c.utf8Size) else none

/-- The first `n` bytes of a text, where they are characters. -/
def takeBytes : Text → Nat → Option Text
  | _, 0 => some []
  | [], _ + 1 => none
  | c :: s, n + 1 =>
    if c.utf8Size ≤ n + 1 then (takeBytes s (n + 1 - c.utf8Size)).map (c :: ·) else none

/-- The text between two byte offsets. -/
def slice (s : Text) (start stop : Nat) : Option Text :=
  if start ≤ stop then (dropBytes s start).bind fun rest => takeBytes rest (stop - start) else none

def IsBoundary (s : Text) (p : Nat) : Prop :=
  (dropBytes s p).isSome

theorem bytes_cons (c : Char) (s : Text) :
    bytes (c :: s) = (String.utf8EncodeChar c).map (fun b => Char.ofNat b.toNat) ++ bytes s :=
  List.flatMap_cons

theorem bytes_append (a b : Text) : bytes (a ++ b) = bytes a ++ bytes b :=
  List.flatMap_append

theorem length_bytes_cons (c : Char) (s : Text) : (bytes (c :: s)).length = c.utf8Size + (bytes s).length := by
  rw [bytes_cons, List.length_append, List.length_map, String.length_utf8EncodeChar]

theorem bytes_ne_nil (c : Char) : bytes [c] ≠ [] := by
  intro h
  have hlen := length_bytes_cons c []
  have hpos := c.utf8Size_pos
  rw [h, List.length_nil] at hlen
  omega

theorem bytes_singleton {c : Char} (h : c.toNat < 128) : bytes [c] = [c] := by
  have hsize : c.utf8Size = 1 := by
    rw [Char.utf8Size, if_pos]
    exact UInt32.le_iff_toNat_le.2 (Nat.le_of_lt_succ h)
  rw [bytes, List.flatMap_singleton, String.utf8EncodeChar_eq_singleton hsize]
  have hval : c.val.toUInt8.toNat = c.toNat := by
    rw [UInt32.toNat_toUInt8, Char.toNat]
    exact Nat.mod_eq_of_lt (Nat.lt_trans h (by decide))
  rw [List.map_singleton, hval, Char.ofNat_toNat]

theorem toNat_ofNat {n : Nat} (h : n < 0xD800) : (Char.ofNat n).toNat = n := by
  rw [Char.ofNat, dif_pos (Or.inl h)]
  rfl

/-- The bytes of any other character are none of ASCII. -/
theorem not_ascii_of_mem {c b : Char} (h : 128 ≤ c.toNat) (hb : b ∈ bytes [c]) : 128 ≤ b.toNat := by
  have hor (x y : UInt8) (hy : 128 ≤ y.toNat) : 128 ≤ (Char.ofNat (x ||| y).toNat).toNat := by
    have hle : y.toNat ≤ (x ||| y).toNat := by
      rw [UInt8.toNat_or]
      exact Nat.right_le_or
    rw [toNat_ofNat (Nat.lt_trans (x ||| y).toNat_lt (by decide))]
    exact hy.trans hle
  have hone : c.utf8Size ≠ 1 := by
    rw [Ne, Char.utf8Size_eq_one_iff, UInt32.le_iff_toNat_le]
    exact Nat.not_le_of_lt h
  rw [bytes, List.flatMap_singleton] at hb
  obtain ⟨x, hx, rfl⟩ := List.mem_map.1 hb
  rcases Char.utf8Size_eq c with hs | hs | hs | hs
  · exact absurd hs hone
  · rw [String.utf8EncodeChar_eq_cons_cons hs] at hx
    simp only [List.mem_cons, List.not_mem_nil, or_false] at hx
    rcases hx with rfl | rfl <;> exact hor _ _ (by decide)
  · rw [String.utf8EncodeChar_eq_cons_cons_cons hs] at hx
    simp only [List.mem_cons, List.not_mem_nil, or_false] at hx
    rcases hx with rfl | rfl | rfl <;> exact hor _ _ (by decide)
  · rw [String.utf8EncodeChar_eq_cons_cons_cons_cons hs] at hx
    simp only [List.mem_cons, List.not_mem_nil, or_false] at hx
    rcases hx with rfl | rfl | rfl | rfl <;> exact hor _ _ (by decide)

/-! ## Boundaries -/

theorem dropBytes_eq_some {s rest : Text} {p : Nat} :
    dropBytes s p = some rest ↔ ∃ before, s = before ++ rest ∧ (bytes before).length = p := by
  fun_induction dropBytes s p generalizing rest with
  | case1 s =>
    constructor
    · intro h
      exact ⟨[], Option.some.inj h, rfl⟩
    · rintro ⟨before, rfl, hlen⟩
      cases before with
      | nil => rfl
      | cons c before =>
        have := c.utf8Size_pos
        rw [length_bytes_cons] at hlen
        omega
  | case2 p =>
    constructor
    · intro h
      cases h
    · rintro ⟨before, he, hlen⟩
      obtain ⟨rfl, -⟩ := List.append_eq_nil_iff.1 he.symm
      cases hlen
  | case3 c s p hle ih =>
    rw [ih]
    constructor
    · rintro ⟨before, rfl, hlen⟩
      refine ⟨c :: before, rfl, ?_⟩
      rw [length_bytes_cons]
      omega
    · rintro ⟨before, he, hlen⟩
      cases before with
      | nil => cases hlen
      | cons c' before =>
        cases he
        rw [length_bytes_cons] at hlen
        exact ⟨before, rfl, by omega⟩
  | case4 c s p hlt =>
    constructor
    · intro h
      cases h
    · rintro ⟨before, he, hlen⟩
      cases before with
      | nil => cases hlen
      | cons c' before =>
        cases he
        rw [length_bytes_cons] at hlen
        omega

theorem takeBytes_append (a b : Text) : takeBytes (a ++ b) (bytes a).length = some a := by
  induction a with
  | nil => rw [List.nil_append]; exact takeBytes.eq_1 b
  | cons c a ih =>
    have hpos := c.utf8Size_pos
    obtain ⟨n, hn⟩ : ∃ n, (bytes (c :: a)).length = n + 1 :=
      ⟨(bytes (c :: a)).length - 1, by rw [length_bytes_cons]; omega⟩
    rw [hn, List.cons_append, takeBytes, ← hn, length_bytes_cons, if_pos (Nat.le_add_right _ _),
      Nat.add_sub_cancel_left, ih]
    rfl

variable {s rest : Text} {p q : Nat}

theorem isBoundary_length (s : Text) : IsBoundary s (bytes s).length :=
  Option.isSome_iff_exists.2 ⟨[], dropBytes_eq_some.2 ⟨s, (List.append_nil s).symm, rfl⟩⟩

theorem IsBoundary.le_length (h : IsBoundary s p) : p ≤ (bytes s).length := by
  obtain ⟨rest, hr⟩ := Option.isSome_iff_exists.1 h
  obtain ⟨before, rfl, rfl⟩ := dropBytes_eq_some.1 hr
  rw [bytes_append, List.length_append]
  exact Nat.le_add_right _ _

/-- Past the character that stands at a boundary is a boundary. -/
theorem isBoundary_of_cons {c : Char} (h : dropBytes s p = some (c :: rest)) :
    dropBytes s (p + c.utf8Size) = some rest := by
  obtain ⟨before, rfl, rfl⟩ := dropBytes_eq_some.1 h
  refine dropBytes_eq_some.2 ⟨before ++ [c], by simp, ?_⟩
  rw [bytes_append, List.length_append, length_bytes_cons]
  rfl

theorem dropBytes_append {before : Text} (h : dropBytes s p = some (before ++ rest)) :
    dropBytes s (p + (bytes before).length) = some rest := by
  obtain ⟨front, rfl, rfl⟩ := dropBytes_eq_some.1 h
  refine dropBytes_eq_some.2 ⟨front ++ before, by simp, ?_⟩
  rw [bytes_append, List.length_append]

theorem exists_of_lt (h : IsBoundary s p) (hlt : p < (bytes s).length) :
    ∃ c rest, dropBytes s p = some (c :: rest) := by
  obtain ⟨rest, hr⟩ := Option.isSome_iff_exists.1 h
  cases rest with
  | cons c rest => exact ⟨c, rest, hr⟩
  | nil =>
    obtain ⟨before, rfl, rfl⟩ := dropBytes_eq_some.1 hr
    rw [List.append_nil] at hlt
    exact absurd hlt (Nat.lt_irrefl _)

theorem bytes_of_ascii (h : ∀ c ∈ s, c.toNat < 128) : bytes s = s := by
  induction s with
  | nil => rfl
  | cons c s ih =>
    obtain ⟨hc, hs⟩ := List.forall_mem_cons.1 h
    calc bytes (c :: s) = bytes [c] ++ bytes s := bytes_append [c] s
      _ = c :: s := by rw [bytes_singleton hc, ih hs, List.singleton_append]

/-- The byte at a boundary is that of the character there, if it is one of ASCII. -/
theorem exists_of_ascii {b : Char} (hb : (bytes s)[p]? = some b) (h : b.toNat < 128) :
    ∃ rest, dropBytes s p = some (b :: rest) := by
  induction s generalizing p with
  | nil => cases hb
  | cons c s ih =>
    rw [bytes_cons] at hb
    by_cases hp : p < c.utf8Size
    · rw [List.getElem?_append_left (by simpa using hp)] at hb
      have hmem : b ∈ bytes [c] := by
        rw [bytes, List.flatMap_singleton]
        exact List.mem_of_getElem? hb
      by_cases hc : c.toNat < 128
      · rw [bytes_singleton hc] at hmem
        obtain rfl := List.mem_singleton.1 hmem
        have hone : b.utf8Size = 1 := Char.utf8Size_eq_one_iff.2 (UInt32.le_iff_toNat_le.2 (Nat.le_of_lt_succ hc))
        obtain rfl : p = 0 := by omega
        exact ⟨s, by rw [dropBytes]⟩
      · exact absurd (not_ascii_of_mem (Nat.le_of_not_lt hc) hmem) (Nat.not_le_of_lt h)
    · rw [List.getElem?_append_right (by simpa using hp)] at hb
      obtain ⟨rest, hr⟩ := ih hb
      obtain ⟨before, rfl, hlen⟩ := dropBytes_eq_some.1 hr
      refine ⟨rest, dropBytes_eq_some.2 ⟨c :: before, rfl, ?_⟩⟩
      rw [length_bytes_cons, hlen, List.length_map, String.length_utf8EncodeChar]
      omega

theorem isBoundary_of_ascii {b : Char} (hb : (bytes s)[p]? = some b) (h : b.toNat < 128) :
    IsBoundary s p ∧ IsBoundary s (p + 1) := by
  obtain ⟨rest, hr⟩ := exists_of_ascii hb h
  have hone : b.utf8Size = 1 :=
    Char.utf8Size_eq_one_iff.2 (UInt32.le_iff_toNat_le.2 (Nat.le_of_lt_succ h))
  refine ⟨Option.isSome_iff_exists.2 ⟨_, hr⟩, Option.isSome_iff_exists.2 ⟨rest, ?_⟩⟩
  rw [← hone]
  exact isBoundary_of_cons hr

theorem isSome_slice (hp : IsBoundary s p) (hq : IsBoundary s q) (h : p ≤ q) : (slice s p q).isSome := by
  obtain ⟨a, ha⟩ := Option.isSome_iff_exists.1 hp
  obtain ⟨b, hb⟩ := Option.isSome_iff_exists.1 hq
  obtain ⟨before, rfl, rfl⟩ := dropBytes_eq_some.1 ha
  obtain ⟨before', he, rfl⟩ := dropBytes_eq_some.1 hb
  obtain ⟨mid, rfl, rfl⟩ : ∃ mid, before' = before ++ mid ∧ a = mid ++ b := by
    rcases List.append_eq_append_iff.1 he with ⟨mid, rfl, rfl⟩ | ⟨mid, rfl, rfl⟩
    · exact ⟨mid, rfl, rfl⟩
    · cases mid with
      | nil => exact ⟨[], by simp, rfl⟩
      | cons c mid =>
        have := c.utf8Size_pos
        rw [bytes_append, List.length_append, length_bytes_cons] at h
        omega
  rw [slice, if_pos h, ha, Option.bind_some, bytes_append, List.length_append, Nat.add_sub_cancel_left,
    takeBytes_append]
  rfl

theorem takeBytes_eq_some {a : Text} {n : Nat} : takeBytes s n = some a ↔ ∃ b, s = a ++ b ∧ (bytes a).length = n := by
  constructor
  · intro h
    fun_induction takeBytes s n generalizing a with
    | case1 s => exact ⟨s, by rw [← Option.some.inj h, List.nil_append], by rw [← Option.some.inj h]; rfl⟩
    | case2 n => cases h
    | case3 c s n hle ih =>
      obtain ⟨a, ha, rfl⟩ := Option.map_eq_some_iff.1 h
      obtain ⟨b, rfl, hlen⟩ := ih ha
      exact ⟨b, rfl, by rw [length_bytes_cons, hlen]; omega⟩
    | case4 c s n hlt => cases h
  · rintro ⟨b, rfl, rfl⟩
    exact takeBytes_append a b

/-- What a slice cuts out, with what is before and behind it. -/
theorem slice_eq_some {t : Text} : slice s p q = some t ↔
    ∃ before after, s = before ++ (t ++ after) ∧ (bytes before).length = p ∧ p + (bytes t).length = q := by
  rw [slice]
  constructor
  · intro h
    split at h
    next hle =>
      obtain ⟨rest, hrest, htake⟩ := Option.bind_eq_some_iff.1 h
      obtain ⟨before, rfl, hbefore⟩ := dropBytes_eq_some.1 hrest
      obtain ⟨after, rfl, hlen⟩ := takeBytes_eq_some.1 htake
      exact ⟨before, after, rfl, hbefore, by omega⟩
    next => cases h
  · rintro ⟨before, after, rfl, rfl, rfl⟩
    rw [if_pos (Nat.le_add_right _ _), dropBytes_eq_some.2 ⟨before, rfl, rfl⟩, Option.bind_some, Nat.add_sub_cancel_left,
      takeBytes_append]

end Text

/-!
## Positions

A position is a line and a column, counted in UTF-16 code units. It cuts the text at the first place
between two characters that does not stand before it, so that a column within a character outside of the
basic plane cuts behind that character.
-/

namespace Text

def utf16Size (c : Char) : Nat :=
  if c.toNat < 0x10000 then 1 else 2

structure Position where
  line : Nat
  character : Nat
  deriving DecidableEq, Repr

instance : LE Position where
  le a b := a.line < b.line ∨ a.line = b.line ∧ a.character ≤ b.character

instance (a b : Position) : Decidable (a ≤ b) :=
  inferInstanceAs (Decidable (a.line < b.line ∨ a.line = b.line ∧ a.character ≤ b.character))

/-- The text before a position and the text behind it; none where the text has no such line or column. -/
def cutAt : Text → Nat → Nat → Option (Text × Text)
  | text, 0, 0 => some ([], text)
  | [], _, _ => none
  | c :: text, line + 1, character =>
    (cutAt text (if c = '\n' then line else line + 1) character).map fun cut => (c :: cut.1, cut.2)
  | c :: text, 0, character + 1 =>
    if c = '\n' then none
    else (cutAt text 0 (character + 1 - utf16Size c)).map fun cut => (c :: cut.1, cut.2)

/-- The content of the first line. -/
def firstLine (text : Text) : Text :=
  text.takeWhile (· ≠ '\n')

variable {text before after : Text} {line character : Nat}

theorem cutAt_append (h : cutAt text line character = some (before, after)) : text = before ++ after := by
  fun_induction cutAt text line character generalizing before with
  | case1 text => cases h; rfl
  | case2 => cases h
  | case3 c text line character ih =>
    obtain ⟨⟨b, a⟩, hcut, he⟩ := Option.map_eq_some_iff.1 h
    cases he
    rw [ih hcut, List.cons_append]
  | case4 text character => cases h
  | case5 c text character hc ih =>
    obtain ⟨⟨b, a⟩, hcut, he⟩ := Option.map_eq_some_iff.1 h
    cases he
    rw [ih hcut, List.cons_append]

/-- A cut is made within a line, behind the lines before it. -/
theorem cutAt_line (h : cutAt text line character = some (before, after)) :
    ∃ lines rest column, text = lines ++ rest ∧ before = lines ++ column ∧ lines.count '\n' = line ∧
      (∀ c, lines.getLast? = some c → c = '\n') ∧ cutAt rest 0 character = some (column, after) := by
  fun_induction cutAt text line character generalizing before with
  | case1 text =>
    cases h
    exact ⟨[], _, [], rfl, rfl, rfl, fun _ hc => (by cases hc), by rw [cutAt]⟩
  | case2 => cases h
  | case3 c text line character ih =>
    obtain ⟨⟨b, a⟩, hcut, he⟩ := Option.map_eq_some_iff.1 h
    cases he
    obtain ⟨lines, rest, column, rfl, rfl, hcount, hlast, hrest⟩ := ih hcut
    refine ⟨c :: lines, rest, column, rfl, rfl, ?_, ?_, hrest⟩
    · rw [List.count_cons, hcount]
      by_cases hc : c = '\n' <;> simp [hc]
    · cases lines with
      | nil =>
        have hc : c = '\n' := by
          by_contra hne
          rw [if_neg hne] at hcount
          cases hcount
        intro d hd
        rw [List.getLast?_singleton] at hd
        rw [← Option.some.inj hd, hc]
      | cons d lines =>
        rw [List.getLast?_cons_cons]
        exact hlast
  | case4 text character => cases h
  | case5 c text character hc ih =>
    refine ⟨[], c :: text, before, rfl, rfl, rfl, fun _ hc => (by cases hc), ?_⟩
    rw [cutAt, if_neg hc]
    exact h

theorem cutAt_prefix {l₁ c₁ l₂ c₂ : Nat} {b₁ a₁ b₂ a₂ : Text} (hle : l₁ < l₂ ∨ l₁ = l₂ ∧ c₁ ≤ c₂)
    (h₁ : cutAt text l₁ c₁ = some (b₁, a₁)) (h₂ : cutAt text l₂ c₂ = some (b₂, a₂)) : b₁ <+: b₂ := by
  induction text generalizing l₁ c₁ l₂ c₂ b₁ b₂ with
  | nil =>
    cases l₁ with
    | zero =>
      cases c₁ with
      | zero =>
        rw [cutAt] at h₁
        cases h₁
        exact List.nil_prefix
      | succ c₁ => cases h₁
    | succ l₁ => cases h₁
  | cons c text ih =>
    cases l₁ with
    | zero =>
      cases c₁ with
      | zero =>
        rw [cutAt] at h₁
        cases h₁
        exact List.nil_prefix
      | succ c₁ =>
        rw [cutAt] at h₁
        split at h₁
        · cases h₁
        · next hc =>
          obtain ⟨⟨b, a⟩, hcut, he⟩ := Option.map_eq_some_iff.1 h₁
          cases he
          cases l₂ with
          | zero =>
            obtain ⟨k, rfl⟩ : ∃ k, c₂ = k + 1 := ⟨c₂ - 1, by omega⟩
            rw [cutAt, if_neg hc] at h₂
            obtain ⟨⟨b', a'⟩, hcut', he⟩ := Option.map_eq_some_iff.1 h₂
            cases he
            exact List.cons_prefix_cons.2 ⟨rfl, ih (Or.inr ⟨rfl, by omega⟩) hcut hcut'⟩
          | succ l₂ =>
            rw [cutAt, if_neg hc] at h₂
            obtain ⟨⟨b', a'⟩, hcut', he⟩ := Option.map_eq_some_iff.1 h₂
            cases he
            exact List.cons_prefix_cons.2 ⟨rfl, ih (Or.inl (Nat.succ_pos l₂)) hcut hcut'⟩
    | succ l₁ =>
      obtain ⟨k, rfl⟩ : ∃ k, l₂ = k + 1 := ⟨l₂ - 1, by omega⟩
      rw [cutAt] at h₁ h₂
      obtain ⟨⟨b, a⟩, hcut, he⟩ := Option.map_eq_some_iff.1 h₁
      cases he
      obtain ⟨⟨b', a'⟩, hcut', he⟩ := Option.map_eq_some_iff.1 h₂
      cases he
      refine List.cons_prefix_cons.2 ⟨rfl, ih ?_ hcut hcut'⟩
      split <;> omega

end Text
