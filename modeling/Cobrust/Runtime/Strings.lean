import Cobrust.Text.Utf8

/-!
# Positions in strings

The shims of `cobrust-stdlib/src/string.rs` behind `find`, `len`, `s[i]` and `s[lo:hi]`. `find` answers with the byte
at which the first occurrence starts; the others count characters.

* `strSlice_eq`: a slice holds the characters between its clamped bounds.
* `strFind_spec`: at which byte the first occurrence starts, or that there is none.
-/

namespace Cobrust.Runtime

/-- The first byte at which `pat` starts. -/
def find : Text → Text → Option Nat
  | [], pat => if pat.isPrefixOf [] then some 0 else none
  | c :: rest, pat =>
    if pat.isPrefixOf (c :: rest) then some 0 else (find rest pat).map (· + c.utf8Size)

/-- `__cobrust_str_find`. -/
def strFind (s needle : Text) : Int :=
  match find s needle with
  | some i => i
  | none => -1

/-- `__cobrust_str_char_count`. -/
def strCharCount (s : Text) : Int :=
  s.length

/-- `__cobrust_str_char_at`; an index out of range traps. -/
def strCharAt (s : Text) (i : Int) : Option Text :=
  let len := strCharCount s
  let idx := if i < 0 then len + i else i
  if idx < 0 ∨ len ≤ idx then none else s[idx.toNat]?.map fun c => [c]

/-- The walk over the characters, from character `idx` at byte `off` on. -/
def sliceBytes (lo hi : Nat) : Text → Nat → Nat → Nat × Nat → Nat × Nat
  | [], _, _, found => found
  | c :: rest, idx, off, (byteLo, byteHi) =>
    let byteLo := if idx = lo then off else byteLo
    if idx = hi then (byteLo, off) else sliceBytes lo hi rest (idx + 1) (off + c.utf8Size) (byteLo, byteHi)

/-- `clamp(0, n) as usize` -/
def clampBound (i n : Int) : Nat :=
  (max 0 (min i n)).toNat

/-- `__cobrust_str_slice`; none where it slices off a boundary. -/
def strSlice (s : Text) (lo hi : Int) : Option Text :=
  let lo := clampBound lo (strCharCount s)
  let hi := clampBound hi (strCharCount s)
  if hi ≤ lo then some []
  else
    let len := (Text.bytes s).length
    let (byteLo, byteHi) := sliceBytes lo hi s 0 0 (len, len)
    Text.slice s byteLo byteHi

/-! ## Slices -/

/-- The first `n` characters, by their bytes. -/
def byteOffset (s : Text) (n : Nat) : Nat :=
  (Text.bytes (s.take n)).length

theorem byteOffset_cons (c : Char) (s : Text) (n : Nat) :
    byteOffset (c :: s) (n + 1) = c.utf8Size + byteOffset s n := by
  rw [byteOffset, List.take_succ_cons, Text.length_bytes_cons]
  rfl

theorem byteOffset_zero (s : Text) : byteOffset s 0 = 0 :=
  rfl

theorem sliceBytes_upper {lo hi : Nat} (s : Text) {idx off byteLo byteHi : Nat} (hlo : lo < idx) (hidx : idx ≤ hi)
    (hhi : hi ≤ idx + s.length) (hlast : byteHi = off + (Text.bytes s).length) :
    sliceBytes lo hi s idx off (byteLo, byteHi) = (byteLo, off + byteOffset s (hi - idx)) := by
  induction s generalizing idx off with
  | nil =>
    have h : hi - idx = 0 := by
      rw [List.length_nil] at hhi
      omega
    rw [sliceBytes, h, hlast]
    rfl
  | cons c rest ih =>
    rw [sliceBytes]
    rw [if_neg (Nat.ne_of_gt hlo)]
    by_cases h : idx = hi
    · rw [if_pos h, h, Nat.sub_self, byteOffset_zero, Nat.add_zero]
    · have hsub : hi - idx = hi - (idx + 1) + 1 := by omega
      rw [List.length_cons] at hhi
      rw [Text.length_bytes_cons] at hlast
      rw [if_neg h, ih (by omega) (by omega) (by omega) (by omega), hsub, byteOffset_cons, Nat.add_assoc]

theorem sliceBytes_eq {lo hi : Nat} (s : Text) {idx off last : Nat} (hidx : idx ≤ lo) (hlt : lo < hi)
    (hhi : hi ≤ idx + s.length) (hlast : last = off + (Text.bytes s).length) :
    sliceBytes lo hi s idx off (last, last) = (off + byteOffset s (lo - idx), off + byteOffset s (hi - idx)) := by
  induction s generalizing idx off with
  | nil =>
    rw [List.length_nil] at hhi
    omega
  | cons c rest ih =>
    rw [List.length_cons] at hhi
    rw [Text.length_bytes_cons] at hlast
    have hsub : hi - idx = hi - (idx + 1) + 1 := by omega
    rw [sliceBytes]
    rw [if_neg (show idx ≠ hi by omega), hsub, byteOffset_cons]
    by_cases h : idx = lo
    · rw [if_pos h, sliceBytes_upper rest (by omega) (by omega) (by omega) (by omega), h, Nat.sub_self,
        byteOffset_zero, Nat.add_assoc]
      rfl
    · have hsub' : lo - idx = lo - (idx + 1) + 1 := by omega
      rw [if_neg h, ih (by omega) (by omega) (by omega), hsub', byteOffset_cons, Nat.add_assoc, Nat.add_assoc]

theorem slice_byteOffset {s : Text} {lo hi : Nat} (h : lo ≤ hi) :
    Text.slice s (byteOffset s lo) (byteOffset s hi) = some ((s.take hi).drop lo) := by
  have hsplit : s = s.take lo ++ (s.take hi).drop lo ++ s.drop hi := by
    have htake : s.take lo = (s.take hi).take lo := by rw [List.take_take, Nat.min_eq_left h]
    rw [htake, List.take_append_drop, List.take_append_drop]
  have hoff : byteOffset s hi = byteOffset s lo + (Text.bytes ((s.take hi).drop lo)).length := by
    have htake : s.take hi = s.take lo ++ (s.take hi).drop lo := by
      conv_lhs => rw [← List.take_append_drop lo (s.take hi)]
      rw [List.take_take, Nat.min_eq_left h]
    rw [byteOffset, htake, Text.bytes_append, List.length_append, ← htake]
    rfl
  have hdrop : Text.dropBytes s (byteOffset s lo) = some ((s.take hi).drop lo ++ s.drop hi) :=
    Text.dropBytes_eq_some.2 ⟨s.take lo, by rw [← List.append_assoc, ← hsplit], rfl⟩
  rw [Text.slice, if_pos (by omega), hdrop, Option.bind_some, hoff, Nat.add_sub_cancel_left, Text.takeBytes_append]

theorem clampBound_natCast {n len : Nat} (h : n ≤ len) : clampBound n len = n := by
  rw [clampBound]
  omega

theorem strSlice_eq (s : Text) (lo hi : Int) :
    strSlice s lo hi = some ((s.take (clampBound hi s.length)).drop (clampBound lo s.length)) := by
  have hclamp (i : Int) : clampBound i s.length ≤ s.length := by
    rw [clampBound]
    omega
  unfold strSlice
  dsimp only
  rw [strCharCount]
  split
  · next h =>
    rw [List.drop_eq_nil_of_le]
    rw [List.length_take]
    omega
  · next h =>
    rw [sliceBytes_eq s (Nat.zero_le _) (by omega) (by rw [Nat.zero_add]; exact hclamp hi) (by rw [Nat.zero_add])]
    dsimp only
    rw [Nat.zero_add, Nat.zero_add, Nat.sub_zero, Nat.sub_zero, slice_byteOffset (by omega)]

theorem strCharAt_eq_strSlice {s : Text} {i : Int} (h₀ : 0 ≤ i) (h : i < strCharCount s) :
    strCharAt s i = strSlice s i (i + 1) := by
  obtain ⟨n, rfl⟩ := Int.eq_ofNat_of_zero_le h₀
  have hn : n < s.length := Int.ofNat_lt.1 h
  rw [strSlice_eq, clampBound_natCast (Nat.le_of_lt hn), ← Int.natCast_succ, clampBound_natCast hn, strCharAt]
  rw [if_neg (Int.not_lt.2 h₀), if_neg (by omega), Int.toNat_natCast, List.getElem?_eq_getElem hn, Option.map_some,
    List.drop_take, show n.succ - n = 1 from Nat.add_sub_cancel_left n 1, List.drop_eq_getElem_cons hn,
    List.take_succ_cons, List.take_zero]

/-- `p` stands in `s` from character `i` on, by what the shims for slices and lengths answer. -/
def OccursAt (s p : Text) (i : Int) : Prop :=
  0 ≤ i ∧ i + strCharCount p ≤ strCharCount s ∧ strSlice s i (i + strCharCount p) = some p

instance (s p : Text) (i : Int) : Decidable (OccursAt s p i) :=
  inferInstanceAs (Decidable (_ ∧ _ ∧ _))

theorem occursAt_iff {s p : Text} {n : Nat} : OccursAt s p n ↔ n + p.length ≤ s.length ∧ p <+: s.drop n := by
  have hcount : (n : Int) + strCharCount p = ((n + p.length : Nat) : Int) := by
    rw [strCharCount]
    omega
  have hle : (n : Int) + strCharCount p ≤ strCharCount s ↔ n + p.length ≤ s.length := by
    rw [hcount, strCharCount]
    exact Int.ofNat_le
  rw [OccursAt, hle]
  have hslice (h : n + p.length ≤ s.length) :
      strSlice s n (n + strCharCount p) = some ((s.drop n).take p.length) := by
    rw [hcount, strSlice_eq, clampBound_natCast (by omega), clampBound_natCast h, List.drop_take, Nat.add_sub_cancel_left]
  constructor
  · rintro ⟨_, h, heq⟩
    rw [hslice h] at heq
    refine ⟨h, ?_⟩
    rw [← Option.some.inj heq]
    exact List.take_prefix _ _
  · rintro ⟨h, hp⟩
    refine ⟨Int.natCast_nonneg n, h, ?_⟩
    rw [hslice h, ← List.prefix_iff_eq_take.1 hp]

/-- What `find` gives: the bytes before the first occurrence, or that there is none. -/
theorem find_spec (s p : Text) :
    (find s p = none ∧ ∀ n : Nat, ¬ OccursAt s p n) ∨
      ∃ n : Nat, find s p = some (byteOffset s n) ∧ OccursAt s p n ∧ ∀ m : Nat, m < n → ¬ OccursAt s p m := by
  have hfirst {s : Text} (h : p <+: s) : OccursAt s p (0 : Nat) :=
    occursAt_iff.2 ⟨by rw [Nat.zero_add]; exact h.length_le, h⟩
  have hnot {s : Text} (h : ¬ p <+: s) : ¬ OccursAt s p (0 : Nat) :=
    fun hocc => h (occursAt_iff.1 hocc).2
  have htail {c : Char} {s : Text} {n : Nat} : OccursAt (c :: s) p (n + 1 : Nat) ↔ OccursAt s p n := by
    rw [occursAt_iff, occursAt_iff, List.length_cons, List.drop_succ_cons, Nat.add_right_comm, Nat.add_le_add_iff_right]
  induction s with
  | nil =>
    rw [find]
    by_cases h : p <+: []
    · exact .inr ⟨0, if_pos (List.isPrefixOf_iff_prefix.2 h), hfirst h, fun m hm => absurd hm (Nat.not_lt_zero m)⟩
    · refine .inl ⟨if_neg fun hp => h (List.isPrefixOf_iff_prefix.1 hp), fun n hocc => ?_⟩
      have hprefix := (occursAt_iff.1 hocc).2
      rw [List.drop_nil] at hprefix
      exact h hprefix
  | cons c rest ih =>
    rw [find]
    by_cases h : p <+: c :: rest
    · exact .inr ⟨0, if_pos (List.isPrefixOf_iff_prefix.2 h), hfirst h, fun m hm => absurd hm (Nat.not_lt_zero m)⟩
    · rw [if_neg fun hp => h (List.isPrefixOf_iff_prefix.1 hp)]
      rcases ih with ⟨hnone, hall⟩ | ⟨n, hsome, hocc, hmin⟩
      · refine .inl ⟨by rw [hnone]; rfl, fun n => ?_⟩
        cases n with
        | zero => exact hnot h
        | succ n => exact fun hocc => hall n (htail.1 hocc)
      · refine .inr ⟨n + 1, ?_, htail.2 hocc, fun m hm => ?_⟩
        · rw [hsome, Option.map_some, byteOffset_cons, Nat.add_comm]
        · cases m with
          | zero => exact hnot h
          | succ m => exact fun hocc => hmin m (Nat.lt_of_succ_lt_succ hm) (htail.1 hocc)

theorem not_occursAt_of_neg {s p : Text} {i : Int} (h : ∀ n : Nat, ¬ OccursAt s p n) : ¬ OccursAt s p i := by
  intro hocc
  obtain ⟨n, rfl⟩ := Int.eq_ofNat_of_zero_le hocc.1
  exact h n hocc

/-- `find` answers with the byte of the first occurrence, or that there is none; indices and slices share the unit of
characters. -/
theorem strFind_spec (s p : Text) :
    (strFind s p = -1 ∧ (∀ i, ¬ OccursAt s p i) ∨
      ∃ i : Int, strFind s p = (Text.bytes (s.take i.toNat)).length ∧ OccursAt s p i ∧
        ∀ j, j < i → ¬ OccursAt s p j) ∧
      ∀ i, 0 ≤ i → i < strCharCount s → (strCharAt s i).isSome ∧ strCharAt s i = strSlice s i (i + 1) := by
  refine ⟨?_, fun i h₀ h => ?_⟩
  · rcases find_spec s p with ⟨hnone, hall⟩ | ⟨n, hsome, hocc, hmin⟩
    · exact .inl ⟨by rw [strFind, hnone], fun i => not_occursAt_of_neg hall⟩
    · refine .inr ⟨n, by rw [strFind, hsome]; rfl, hocc, fun j hj hocc' => ?_⟩
      obtain ⟨m, rfl⟩ := Int.eq_ofNat_of_zero_le hocc'.1
      exact hmin m (Int.ofNat_lt.1 hj) hocc'
  · rw [strCharAt_eq_strSlice h₀ h, strSlice_eq]
    exact ⟨rfl, rfl⟩

/-- The `a` of `éa` is character 1, and `find` answers 2. -/
theorem strFind_not_character :
    strFind ['é', 'a'] ['a'] = 2 ∧ OccursAt ['é', 'a'] ['a'] 1 ∧ ¬ OccursAt ['é', 'a'] ['a'] (strFind ['é', 'a'] ['a']) := by
  decide

end Cobrust.Runtime
