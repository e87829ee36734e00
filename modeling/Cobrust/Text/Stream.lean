import Cobrust.Text.Utf8

/-!
# Texts that come in chunks

The bytes of a text come in chunks, and every chunk is decoded on its own: what is no character comes to marks. Frames
of a text end at two line feeds.

* `fromUtf8Lossy`: the decoder, one byte at a time.
* `marked_of_chunks`: the chunks of a text come to the text with marks in place of the characters that are cut.
* `frames_append`: the frames of a text whose parts come one after the other.
* `Marked.frames` and `Marked.lines`: marks change no frame and no line but for the characters they stand for.
-/

namespace Text

def utf8 (s : Text) : List UInt8 :=
  s.flatMap String.utf8EncodeChar

/-- What bytes come to that are no character. -/
def replacement : Char := '\uFFFD'

/-- A character that has begun: its bits so far, how many bytes are missing behind the next one, and the range of the
next one. -/
structure Begun where
  bits : Nat
  need : Nat
  lo : Nat
  hi : Nat

/-- The first byte of a character. -/
def lead (b : Nat) : Text × Option Begun :=
  if b < 0x80 then ([Char.ofNat b], none)
  else if b < 0xc2 then ([replacement], none)
  else if b < 0xe0 then ([], some ⟨b - 0xc0, 0, 0x80, 0xbf⟩)
  else if b < 0xf0 then ([], some ⟨b - 0xe0, 1, if b = 0xe0 then 0xa0 else 0x80, if b = 0xed then 0x9f else 0xbf⟩)
  else if b < 0xf5 then ([], some ⟨b - 0xf0, 2, if b = 0xf0 then 0x90 else 0x80, if b = 0xf4 then 0x8f else 0xbf⟩)
  else ([replacement], none)

def decode : Option Begun → List UInt8 → Text
  | none, [] => []
  | some _, [] => [replacement]
  | none, b :: bs => (lead b.toNat).1 ++ decode (lead b.toNat).2 bs
  | some p, b :: bs =>
    if p.lo ≤ b.toNat ∧ b.toNat ≤ p.hi then
      let bits := p.bits * 0x40 + (b.toNat - 0x80)
      match p.need with
      | 0 => Char.ofNat bits :: decode none bs
      | need + 1 => decode (some ⟨bits, need, 0x80, 0xbf⟩) bs
    else replacement :: ((lead b.toNat).1 ++ decode (lead b.toNat).2 bs)

/-- `String::from_utf8_lossy` -/
def fromUtf8Lossy (bytes : List UInt8) : Text :=
  decode none bytes

theorem toNat_byte {n : Nat} (h : n < 256) : (UInt8.ofNat n).toNat = n := by
  rw [UInt8.toNat_ofNat']
  exact Nat.mod_eq_of_lt h

theorem decode_lead {n : Nat} (h : n < 256) (bs : List UInt8) :
    decode none (UInt8.ofNat n :: bs) = (lead n).1 ++ decode (lead n).2 bs := by
  rw [decode, toNat_byte h]

theorem decode_more {bits need lo hi n : Nat} (hlo : lo ≤ n) (hhi : n ≤ hi) (h : n < 256) (bs : List UInt8) :
    decode (some ⟨bits, need + 1, lo, hi⟩) (UInt8.ofNat n :: bs) =
      decode (some ⟨bits * 0x40 + (n - 0x80), need, 0x80, 0xbf⟩) bs := by
  rw [decode, toNat_byte h, if_pos ⟨hlo, hhi⟩]

theorem decode_last {bits lo hi n : Nat} (hlo : lo ≤ n) (hhi : n ≤ hi) (h : n < 256) (bs : List UInt8) :
    decode (some ⟨bits, 0, lo, hi⟩) (UInt8.ofNat n :: bs) =
      Char.ofNat (bits * 0x40 + (n - 0x80)) :: decode none bs := by
  rw [decode, toNat_byte h, if_pos ⟨hlo, hhi⟩]

theorem lead_two {n : Nat} (h : 0xc2 ≤ n) (h' : n < 0xe0) : lead n = ([], some ⟨n - 0xc0, 0, 0x80, 0xbf⟩) := by
  rw [lead, if_neg (by omega), if_neg (by omega), if_pos h']

theorem lead_three {n : Nat} (h : 0xe0 ≤ n) (h' : n < 0xf0) :
    lead n = ([], some ⟨n - 0xe0, 1, if n = 0xe0 then 0xa0 else 0x80, if n = 0xed then 0x9f else 0xbf⟩) := by
  rw [lead, if_neg (by omega), if_neg (by omega), if_neg (by omega), if_pos h']

theorem lead_four {n : Nat} (h : 0xf0 ≤ n) (h' : n < 0xf5) :
    lead n = ([], some ⟨n - 0xf0, 2, if n = 0xf0 then 0x90 else 0x80, if n = 0xf4 then 0x8f else 0xbf⟩) := by
  rw [lead, if_neg (by omega), if_neg (by omega), if_neg (by omega), if_neg (by omega), if_pos h']

theorem decode_char (c : Char) (bs : List UInt8) :
    decode none (String.utf8EncodeChar c ++ bs) = c :: decode none bs := by
  have hvalid := c.valid
  have hv : c.val.toNat = c.toNat := rfl
  rw [UInt32.isValidChar, Nat.isValidChar, hv] at hvalid
  unfold String.utf8EncodeChar
  simp only [hv]
  have hc {n : Nat} (h : n = c.toNat) : Char.ofNat n = c := by rw [h, Char.ofNat_toNat]
  split
  · rw [List.singleton_append, decode_lead (by omega), lead, if_pos (by omega), hc rfl]
    rfl
  split
  · rw [List.cons_append, decode_lead (by omega), lead_two (by omega) (by omega), List.nil_append,
      List.singleton_append, decode_last (by omega) (by omega) (by omega), hc (by omega)]
  split
  · rw [List.cons_append, decode_lead (by omega), lead_three (by omega) (by omega), List.nil_append, List.cons_append,
      decode_more (by split <;> omega) (by split <;> omega) (by omega), List.singleton_append,
      decode_last (by omega) (by omega) (by omega), hc (by omega)]
  · rw [List.cons_append, decode_lead (by omega), lead_four (by omega) (by omega), List.nil_append, List.cons_append,
      decode_more (by split <;> omega) (by split <;> omega) (by omega), List.cons_append,
      decode_more (by omega) (by omega) (by omega), List.singleton_append,
      decode_last (by omega) (by omega) (by omega), hc (by omega)]

theorem decode_utf8 (s : Text) (bs : List UInt8) : decode none (utf8 s ++ bs) = s ++ decode none bs := by
  induction s with
  | nil => rfl
  | cons c s ih => rw [utf8, List.flatMap_cons, List.append_assoc, decode_char, ← utf8, ih, List.cons_append]

theorem fromUtf8Lossy_utf8 (s : Text) : fromUtf8Lossy (utf8 s) = s := by
  have h := decode_utf8 s []
  rwa [List.append_nil, decode, List.append_nil] at h

/-! ## Cut characters -/

def IsTail (b : UInt8) : Prop :=
  0x80 ≤ b.toNat ∧ b.toNat < 0xc0

/-- Bytes within a character that begins before them. -/
theorem decode_tail {bs : List UInt8} (h : ∀ b ∈ bs, IsTail b) (rest : List UInt8) :
    decode none (bs ++ rest) = List.replicate bs.length replacement ++ decode none rest := by
  induction bs with
  | nil => rfl
  | cons b bs ih =>
    obtain ⟨⟨hlo, hhi⟩, hbs⟩ := List.forall_mem_cons.1 h
    rw [List.cons_append, decode, lead, if_neg (by omega), if_pos (by omega), ih hbs]
    rfl

theorem isTail_byte (n : Nat) : IsTail (UInt8.ofNat (n % 0x40 + 0x80)) := by
  rw [IsTail, toNat_byte (by omega)]
  omega

/-- The first bytes of a character come to one mark where the last ones are missing. -/
theorem decode_part {c : Char} {part rest : List UInt8} (h : String.utf8EncodeChar c = part ++ rest) (hpart : part ≠ [])
    (hrest : rest ≠ []) : decode none part = [replacement] ∧ (∀ b ∈ rest, IsTail b) ∧ 0x80 ≤ c.toNat := by
  have hvalid := c.valid
  have hv : c.val.toNat = c.toNat := rfl
  rw [UInt32.isValidChar, Nat.isValidChar, hv] at hvalid
  obtain ⟨x, part, rfl⟩ := List.exists_cons_of_ne_nil hpart
  obtain ⟨y, rest, rfl⟩ := List.exists_cons_of_ne_nil hrest
  have htail := isTail_byte
  unfold String.utf8EncodeChar at h
  simp only [hv, List.cons_append] at h
  split at h
  · obtain ⟨-, hnil⟩ := List.cons.inj h
    cases (List.append_eq_nil_iff.1 hnil.symm).2
  split at h
  · obtain ⟨rfl, h⟩ := List.cons.inj h
    rcases part with _ | ⟨z, part⟩
    · cases h
      refine ⟨?_, List.forall_mem_singleton.2 (htail _), by omega⟩
      rw [decode_lead (by omega), lead_two (by omega) (by omega)]
      rfl
    · have hlen := congrArg List.length h
      simp only [List.length_cons, List.length_append, List.length_nil] at hlen
      omega
  split at h
  · obtain ⟨rfl, h⟩ := List.cons.inj h
    have hlead (bs : List UInt8) := decode_lead (n := c.toNat / 4096 % 0x10 + 0xe0) (by omega) bs
    simp only [lead_three (n := c.toNat / 4096 % 0x10 + 0xe0) (by omega) (by omega), List.nil_append] at hlead
    rcases part with _ | ⟨z, _ | ⟨w, part⟩⟩
    · cases h
      exact ⟨hlead [], List.forall_mem_cons.2 ⟨htail _, List.forall_mem_singleton.2 (htail _)⟩, by omega⟩
    · cases h
      refine ⟨?_, List.forall_mem_singleton.2 (htail _), by omega⟩
      rw [hlead, decode_more (by split <;> omega) (by split <;> omega) (by omega)]
      rfl
    · have hlen := congrArg List.length h
      simp only [List.length_cons, List.length_append, List.length_nil] at hlen
      omega
  · obtain ⟨rfl, h⟩ := List.cons.inj h
    have hlead (bs : List UInt8) := decode_lead (n := c.toNat / 262144 % 0x08 + 0xf0) (by omega) bs
    simp only [lead_four (n := c.toNat / 262144 % 0x08 + 0xf0) (by omega) (by omega), List.nil_append] at hlead
    rcases part with _ | ⟨z, _ | ⟨w, _ | ⟨v, part⟩⟩⟩
    · cases h
      exact ⟨hlead [], List.forall_mem_cons.2 ⟨htail _, List.forall_mem_cons.2 ⟨htail _,
        List.forall_mem_singleton.2 (htail _)⟩⟩, by omega⟩
    · cases h
      refine ⟨?_, List.forall_mem_cons.2 ⟨htail _, List.forall_mem_singleton.2 (htail _)⟩, by omega⟩
      rw [hlead, decode_more (by split <;> omega) (by split <;> omega) (by omega)]
      rfl
    · cases h
      refine ⟨?_, List.forall_mem_singleton.2 (htail _), by omega⟩
      rw [hlead, decode_more (by split <;> omega) (by split <;> omega) (by omega),
        decode_more (by omega) (by omega) (by omega)]
      rfl
    · have hlen := congrArg List.length h
      simp only [List.length_cons, List.length_append, List.length_nil] at hlen
      omega

theorem utf8_cons (c : Char) (s : Text) : utf8 (c :: s) = String.utf8EncodeChar c ++ utf8 s :=
  List.flatMap_cons

theorem encode_ne_nil (c : Char) : String.utf8EncodeChar c ≠ [] := by
  have hpos := c.utf8Size_pos
  rw [← String.length_utf8EncodeChar] at hpos
  exact List.ne_nil_of_length_pos hpos

theorem utf8_eq_nil {s : Text} : utf8 s = [] ↔ s = [] := by
  cases s with
  | nil => exact iff_of_true rfl rfl
  | cons c s =>
    refine iff_of_false (fun h => ?_) (List.cons_ne_nil _ _)
    rw [utf8_cons] at h
    exact encode_ne_nil c (List.append_eq_nil_iff.1 h).1

/-- A cut of the bytes of a text is a cut of the text or within a character. -/
theorem utf8_eq_append {s : Text} {d e : List UInt8} (h : utf8 s = d ++ e) :
    (∃ a b, s = a ++ b ∧ d = utf8 a ∧ e = utf8 b) ∨
      ∃ a c b p q, s = a ++ c :: b ∧ p ≠ [] ∧ q ≠ [] ∧ String.utf8EncodeChar c = p ++ q ∧ d = utf8 a ++ p ∧
        e = q ++ utf8 b := by
  induction s generalizing d with
  | nil =>
    obtain ⟨rfl, rfl⟩ := List.append_eq_nil_iff.1 h.symm
    exact .inl ⟨[], [], rfl, rfl, rfl⟩
  | cons c s ih =>
    rw [utf8_cons] at h
    rcases List.append_eq_append_iff.1 h with ⟨m, rfl, hs⟩ | ⟨m, hc, rfl⟩
    · rcases ih hs with ⟨a, b, rfl, rfl, rfl⟩ | ⟨a, c', b, p, q, rfl, hp, hq, hc', rfl, rfl⟩
      · exact .inl ⟨c :: a, b, rfl, (utf8_cons c a).symm, rfl⟩
      · exact .inr ⟨c :: a, c', b, p, q, rfl, hp, hq, hc', by rw [utf8_cons, List.append_assoc], rfl⟩
    · by_cases hd : d = []
      · subst hd
        exact .inl ⟨[], c :: s, rfl, rfl, by rw [utf8_cons, hc]; rfl⟩
      by_cases hm : m = []
      · subst hm
        exact .inl ⟨[c], s, rfl, by rw [utf8_cons, hc, utf8_eq_nil.2 rfl, List.append_nil, List.append_nil], rfl⟩
      · exact .inr ⟨[], c, s, d, m, rfl, hd, hm, hc, rfl, rfl⟩

/-! ## Texts with marks -/

/-- The second text has marks in place of some characters outside of ASCII; those that stay satisfy `keep`. -/
inductive Marked (keep : Char → Prop) : Text → Text → Prop where
  | nil : Marked keep [] []
  | same {c : Char} {s s' : Text} : keep c → Marked keep s s' → Marked keep (c :: s) (c :: s')
  | marks {c : Char} {s s' : Text} (n : Nat) : 0x80 ≤ c.toNat → Marked keep s s' →
    Marked keep (c :: s) (List.replicate (n + 2) replacement ++ s')

namespace Marked

variable {keep : Char → Prop} {s s' t t' : Text}

theorem append (h : Marked keep s s') (h' : Marked keep t t') : Marked keep (s ++ t) (s' ++ t') := by
  induction h with
  | nil => exact h'
  | same hc _ ih => exact .same hc ih
  | marks n hc _ ih =>
    rw [List.append_assoc]
    exact .marks n hc ih

theorem refl (h : ∀ c ∈ s, keep c) : Marked keep s s := by
  induction s with
  | nil => exact .nil
  | cons c s ih => exact .same (h c List.mem_cons_self) (ih fun d hd => h d (List.mem_cons_of_mem c hd))

theorem eq_of_ascii (h : Marked keep s s') (hs : ∀ c ∈ s, c.toNat < 0x80) : s' = s := by
  induction h with
  | nil => rfl
  | same _ _ ih => rw [ih fun d hd => hs d (List.mem_cons_of_mem _ hd)]
  | marks n hc _ _ => exact absurd (hs _ List.mem_cons_self) (by omega)

theorem eq_of_not_mem (h : Marked keep s s') (hs : replacement ∉ s') : s' = s := by
  induction h with
  | nil => rfl
  | same _ _ ih => rw [ih fun hd => hs (List.mem_cons_of_mem _ hd)]
  | marks n _ _ _ => exact absurd (by simp) hs

theorem ascii_of_all {p : Text} (h : p.all (·.toNat < 0x80) = true) : ∀ c ∈ p, c.toNat < 0x80 :=
  fun c hc => of_decide_eq_true (List.all_eq_true.1 h c hc)

/-- What stands behind an ASCII character stands behind it in the marked text too. -/
theorem of_cons {c : Char} (h : Marked keep (c :: s) t) (hc : c.toNat < 0x80) :
    ∃ s', t = c :: s' ∧ Marked keep s s' := by
  cases h with
  | same _ h => exact ⟨_, rfl, h⟩
  | marks n hd h => omega

theorem of_cons_right {c : Char} (h : Marked keep t (c :: s')) (hc : c.toNat < 0x80) :
    ∃ s, t = c :: s ∧ Marked keep s s' := by
  generalize hs : c :: s' = u at h
  cases h with
  | nil => cases hs
  | same _ h =>
    cases hs
    exact ⟨_, rfl, h⟩
  | marks n hd h =>
    rw [List.replicate_succ, List.cons_append] at hs
    obtain ⟨rfl, -⟩ := List.cons.inj hs
    exact absurd hc (by decide)

theorem head_eq_iff {c : Char} (h : Marked keep s s') (hc : c.toNat < 0x80) : s.head? = some c ↔ s'.head? = some c := by
  constructor
  · intro hs
    obtain ⟨t, rfl⟩ := List.head?_eq_some_iff.1 hs
    obtain ⟨t', rfl, -⟩ := h.of_cons hc
    rfl
  · intro hs
    obtain ⟨t', rfl⟩ := List.head?_eq_some_iff.1 hs
    obtain ⟨t, rfl, -⟩ := h.of_cons_right hc
    rfl

theorem tail {c : Char} (h : Marked keep s s') (hc : c.toNat < 0x80) (hs : s.head? = some c) :
    Marked keep s.tail s'.tail := by
  obtain ⟨t, rfl⟩ := List.head?_eq_some_iff.1 hs
  obtain ⟨t', rfl, ht⟩ := h.of_cons hc
  exact ht

theorem of_append {a b : Text} (h : Marked keep (a ++ b) t) :
    ∃ a' b', t = a' ++ b' ∧ Marked keep a a' ∧ Marked keep b b' := by
  induction a generalizing t with
  | nil => exact ⟨[], t, rfl, .nil, h⟩
  | cons c a ih =>
    cases h with
    | same hc h =>
      obtain ⟨a', b', rfl, ha, hb⟩ := ih h
      exact ⟨c :: a', b', rfl, .same hc ha, hb⟩
    | marks n hc h =>
      obtain ⟨a', b', rfl, ha, hb⟩ := ih h
      exact ⟨_, b', (List.append_assoc _ _ _).symm, .marks n hc ha, hb⟩

end Marked

theorem marked_of_tail {chunks : List (List UInt8)} {tail : List UInt8} {s : Text} (htail : ∀ b ∈ tail, IsTail b)
    (h : chunks.flatten = tail ++ utf8 s) : ∃ n s', chunks.flatMap fromUtf8Lossy = List.replicate n replacement ++ s' ∧
      (n = 0 ↔ tail = []) ∧ Marked (fun _ => True) s s' := by
  induction chunks generalizing tail s with
  | nil =>
    obtain ⟨rfl, hs⟩ := List.append_eq_nil_iff.1 h.symm
    obtain rfl := utf8_eq_nil.1 hs
    exact ⟨0, [], rfl, by simp, .nil⟩
  | cons chunk chunks ih =>
    rw [List.flatten_cons] at h
    rw [List.flatMap_cons, fromUtf8Lossy]
    rcases List.append_eq_append_iff.1 h with ⟨m, rfl, hm⟩ | ⟨d, rfl, hd⟩
    · obtain ⟨hchunk, hrest⟩ := List.forall_mem_append.1 htail
      obtain ⟨n, s', hs', hn, hmarked⟩ := ih hrest hm
      have hdecode := decode_tail hchunk []
      rw [List.append_nil, decode, List.append_nil] at hdecode
      refine ⟨chunk.length + n, s', ?_, ?_, hmarked⟩
      · rw [hdecode, hs', ← List.append_assoc, List.replicate_append_replicate]
      · rw [Nat.add_eq_zero_iff, hn, List.length_eq_zero_iff, List.append_eq_nil_iff]
    · rw [decode_tail htail]
      rcases utf8_eq_append hd with ⟨a, b, rfl, rfl, hb⟩ | ⟨a, c, b, p, q, rfl, hp, hq, hc, rfl, hb⟩
      · have hno : ∀ b ∈ ([] : List UInt8), IsTail b := fun _ hmem => absurd hmem List.not_mem_nil
        obtain ⟨n, s', hs', hn, hmarked⟩ := ih hno hb
        obtain rfl := hn.2 rfl
        have hdecode := fromUtf8Lossy_utf8 a
        rw [fromUtf8Lossy] at hdecode
        refine ⟨tail.length, a ++ s', ?_, List.length_eq_zero_iff, (Marked.refl fun _ _ => trivial).append hmarked⟩
        rw [hdecode, hs', List.append_assoc]
        rfl
      · obtain ⟨hmark, hq', hc'⟩ := decode_part hc hp hq
        obtain ⟨n, s', hs', hn, hmarked⟩ := ih hq' hb
        obtain ⟨n, rfl⟩ := Nat.exists_eq_succ_of_ne_zero (mt hn.1 hq)
        refine ⟨tail.length, a ++ (List.replicate (n + 2) replacement ++ s'), ?_, List.length_eq_zero_iff,
          (Marked.refl fun _ _ => trivial).append (.marks n hc' hmarked)⟩
        rw [decode_utf8, hmark, hs', List.append_assoc, List.append_assoc]
        rfl

/-- However a text is cut into chunks, they come to the text with marks in place of characters. -/
theorem marked_of_chunks {chunks : List (List UInt8)} {s : Text} (h : chunks.flatten = utf8 s) :
    Marked (fun _ => True) s (chunks.flatMap fromUtf8Lossy) := by
  have hno : ∀ b ∈ ([] : List UInt8), IsTail b := fun _ hmem => absurd hmem List.not_mem_nil
  obtain ⟨n, s', hs', hn, hmarked⟩ := marked_of_tail hno h
  obtain rfl := hn.2 rfl
  rwa [hs']

/-- A text whose bytes come one by one has marks in place of all characters outside of ASCII. -/
theorem marked_bytes (s : Text) :
    Marked (·.toNat < 0x80) s (((utf8 s).map ([·])).flatMap fromUtf8Lossy) := by
  induction s with
  | nil => exact .nil
  | cons c s ih =>
    rw [utf8_cons, List.map_append, List.flatMap_append]
    by_cases hc : c.toNat < 0x80
    · have hsplit : String.utf8EncodeChar c = [UInt8.ofNat c.toNat] := by
        unfold String.utf8EncodeChar
        exact if_pos (Nat.le_of_lt_succ hc)
      have hchar := fromUtf8Lossy_utf8 [c]
      rw [utf8_cons, hsplit, utf8_eq_nil.2 rfl, List.append_nil] at hchar
      rw [hsplit, List.map_singleton, List.flatMap_singleton, hchar]
      exact .same hc ih
    · have hlength : 2 ≤ (String.utf8EncodeChar c).length := by
        have hv : c.val.toNat = c.toNat := rfl
        unfold String.utf8EncodeChar
        simp only [hv]
        rw [if_neg (by omega)]
        split
        · exact Nat.le_refl 2
        split <;> simp
      obtain ⟨x, y, rest, hsplit⟩ : ∃ x y rest, String.utf8EncodeChar c = [x] ++ (y :: rest) := by
        rcases henc : String.utf8EncodeChar c with _ | ⟨x, _ | ⟨y, rest⟩⟩
        · rw [henc] at hlength
          cases hlength
        · rw [henc] at hlength
          exact absurd hlength (by simp)
        · exact ⟨x, y, rest, rfl⟩
      obtain ⟨hx, hrest, hc'⟩ := decode_part hsplit (List.cons_ne_nil _ _) (List.cons_ne_nil _ _)
      have hmarks (bs : List UInt8) (hbs : ∀ b ∈ bs, IsTail b) :
          (bs.map ([·])).flatMap fromUtf8Lossy = List.replicate bs.length replacement := by
        induction bs with
        | nil => rfl
        | cons b bs ih =>
          obtain ⟨hb, hbs⟩ := List.forall_mem_cons.1 hbs
          have hone : decode none ([b] ++ []) = List.replicate 1 replacement ++ decode none [] :=
            decode_tail (List.forall_mem_singleton.2 hb) []
          rw [List.map_cons, List.flatMap_cons, ih hbs, fromUtf8Lossy]
          rw [List.append_nil, decode, List.append_nil] at hone
          rw [hone]
          rfl
      rw [hsplit, List.map_append, List.flatMap_append, hmarks _ hrest, List.map_singleton, List.flatMap_singleton,
        fromUtf8Lossy, hx]
      exact .marks rest.length hc' ih

/-- The text in front of the first two line feeds in a row, and the text behind them. -/
def cutFrame : Text → Option (Text × Text)
  | [] => none
  | c :: s =>
    if c = '\n' ∧ s.head? = some '\n' then some ([], s.tail)
    else (cutFrame s).map fun cut => (c :: cut.1, cut.2)

theorem length_of_cutFrame {s frame rest : Text} (h : cutFrame s = some (frame, rest)) : rest.length < s.length := by
  induction s generalizing frame with
  | nil => cases h
  | cons c s ih =>
    rw [cutFrame] at h
    split at h
    · cases h
      rw [List.length_tail, List.length_cons]
      omega
    · obtain ⟨cut, hcut, he⟩ := Option.map_eq_some_iff.1 h
      cases he
      exact Nat.lt_succ_of_lt (ih hcut)

/-- The frames of a text, and the text behind the last one. -/
def frames (s : Text) : List Text × Text :=
  match h : cutFrame s with
  | none => ([], s)
  | some (frame, rest) => (frame :: (frames rest).1, (frames rest).2)
termination_by s.length
decreasing_by all_goals exact length_of_cutFrame h

theorem frames_of_none {s : Text} (h : cutFrame s = none) : frames s = ([], s) := by
  rw [frames]
  split
  · rfl
  · next heq => cases h.symm.trans heq

theorem frames_of_some {s frame rest : Text} (h : cutFrame s = some (frame, rest)) :
    frames s = (frame :: (frames rest).1, (frames rest).2) := by
  rw [frames]
  split
  · next heq => cases h.symm.trans heq
  · next heq => cases h.symm.trans heq; rfl

theorem cutFrame_append {a frame rest : Text} (h : cutFrame a = some (frame, rest)) (b : Text) :
    cutFrame (a ++ b) = some (frame, rest ++ b) := by
  induction a generalizing frame with
  | nil => cases h
  | cons c a ih =>
    rw [cutFrame] at h
    rw [List.cons_append, cutFrame]
    split at h
    · next hc =>
      cases h
      obtain ⟨t, rfl⟩ := List.head?_eq_some_iff.1 hc.2
      exact if_pos ⟨hc.1, rfl⟩
    · next hc =>
      obtain ⟨cut, hcut, he⟩ := Option.map_eq_some_iff.1 h
      cases he
      have hne : ¬ (c = '\n' ∧ (a ++ b).head? = some '\n') := by
        rintro ⟨hc', hhead⟩
        cases a with
        | nil => cases hcut
        | cons d a => exact hc ⟨hc', hhead⟩
      rw [if_neg hne, ih hcut]
      rfl

/-- Frames that are there stay there when more of the text comes. -/
theorem frames_append (a b : Text) :
    frames (a ++ b) = ((frames a).1 ++ (frames ((frames a).2 ++ b)).1, (frames ((frames a).2 ++ b)).2) := by
  induction hn : a.length using Nat.strong_induction_on generalizing a with
  | _ n ih =>
    cases hcut : cutFrame a with
    | none => rw [frames_of_none hcut, List.nil_append]
    | some cut =>
      obtain ⟨frame, rest⟩ := cut
      have hlen := length_of_cutFrame hcut
      rw [frames_of_some hcut, frames_of_some (cutFrame_append hcut b), ih rest.length (hn ▸ hlen) rest rfl,
        List.cons_append]

/-! ## Parts of a marked text -/

namespace Marked

variable {keep : Char → Prop} {s s' : Text}

theorem cutFrame_marks (n : Nat) (s : Text) : cutFrame (List.replicate n replacement ++ s) =
    (cutFrame s).map fun cut => (List.replicate n replacement ++ cut.1, cut.2) := by
  induction n with
  | zero => rw [List.replicate_zero, List.nil_append]; simp
  | succ n ih =>
    have hne : ¬ (replacement = '\n' ∧ (List.replicate n replacement ++ s).head? = some '\n') :=
      fun h => absurd h.1 (by decide)
    rw [List.replicate_succ, List.cons_append, cutFrame, if_neg hne, ih, Option.map_map]
    rfl

theorem rel_map {α β : Type} {R : α → α → Prop} {S : β → β → Prop} {o o' : Option α} {f f' : α → β}
    (h : Option.Rel R o o') (hf : ∀ a a', R a a' → S (f a) (f' a')) : Option.Rel S (o.map f) (o'.map f') := by
  cases h with
  | none => exact .none
  | some h => exact .some (hf _ _ h)

theorem cutFrame (h : Marked keep s s') :
    Option.Rel (fun cut cut' => Marked keep cut.1 cut'.1 ∧ Marked keep cut.2 cut'.2)
      (cutFrame s) (Text.cutFrame s') := by
  induction h with
  | nil => exact .none
  | @same c s s' hc h ih =>
    have hhead : s.head? = some '\n' ↔ s'.head? = some '\n' := h.head_eq_iff (by decide)
    rw [Text.cutFrame, Text.cutFrame]
    by_cases hframe : c = '\n' ∧ s.head? = some '\n'
    · rw [if_pos hframe, if_pos ⟨hframe.1, hhead.1 hframe.2⟩]
      exact .some ⟨.nil, h.tail (by decide) hframe.2⟩
    · rw [if_neg hframe, if_neg fun hf => hframe ⟨hf.1, hhead.2 hf.2⟩]
      exact rel_map ih fun _ _ hcut => ⟨.same hc hcut.1, hcut.2⟩
  | @marks c s s' n hc h ih =>
    have hne : ¬ (c = '\n' ∧ s.head? = some '\n') := by
      rintro ⟨rfl, -⟩
      exact absurd hc (by decide)
    rw [Text.cutFrame, if_neg hne, cutFrame_marks]
    exact rel_map ih fun _ _ hcut => ⟨.marks n hc hcut.1, hcut.2⟩

theorem frames (h : Marked keep s s') : List.Forall₂ (Marked keep) (frames s).1 (Text.frames s').1 ∧
    Marked keep (Text.frames s).2 (Text.frames s').2 := by
  induction hn : s.length using Nat.strong_induction_on generalizing s s' with
  | _ n ih =>
    have hrel := h.cutFrame
    cases hcut : Text.cutFrame s with
    | none =>
      rw [hcut] at hrel
      cases hcut' : Text.cutFrame s' with
      | none =>
        rw [frames_of_none hcut, frames_of_none hcut']
        exact ⟨.nil, h⟩
      | some cut' => rw [hcut'] at hrel; cases hrel
    | some cut =>
      rw [hcut] at hrel
      cases hcut' : Text.cutFrame s' with
      | none => rw [hcut'] at hrel; cases hrel
      | some cut' =>
        rw [hcut'] at hrel
        cases hrel with
        | some hboth =>
          obtain ⟨hfs, hrest⟩ := ih _ (hn ▸ length_of_cutFrame hcut) hboth.2 rfl
          rw [frames_of_some hcut, frames_of_some hcut']
          exact ⟨.cons hboth.1 hfs, hrest⟩

theorem splitOn (h : Marked keep s s') : List.Forall₂ (Marked keep) (s.splitOn '\n') (s'.splitOn '\n') := by
  have hhead {f f' : Text → Text} {l l' : List Text} (hl : List.Forall₂ (Marked keep) l l')
      (hf : ∀ a a', Marked keep a a' → Marked keep (f a) (f' a')) :
      List.Forall₂ (Marked keep) (l.modifyHead f) (l'.modifyHead f') := by
    cases hl with
    | nil => exact .nil
    | cons ha hrest => exact .cons (hf _ _ ha) hrest
  have hmarks (n : Nat) (s : Text) : (List.replicate n replacement ++ s).splitOn '\n' =
      (s.splitOn '\n').modifyHead (List.replicate n replacement ++ ·) := by
    induction n with
    | zero =>
      rw [List.replicate_zero, List.nil_append]
      cases s.splitOn '\n' <;> rfl
    | succ n ih =>
      rw [List.replicate_succ, List.cons_append, List.splitOn_cons_eq_if_modifyHead, if_neg (by decide), ih,
        List.modifyHead_modifyHead]
      rfl
  induction h with
  | nil => exact .cons .nil .nil
  | @same c s s' hc h ih =>
    rw [List.splitOn_cons_eq_if_modifyHead, List.splitOn_cons_eq_if_modifyHead]
    split
    · exact .cons .nil ih
    · exact hhead ih fun a a' ha => .same hc ha
  | @marks c s s' n hc h ih =>
    have hne : ¬ (c == '\n') = true := by
      intro heq
      rw [beq_iff_eq.1 heq] at hc
      exact absurd hc (by decide)
    rw [List.splitOn_cons_eq_if_modifyHead, if_neg hne, hmarks]
    exact hhead ih fun a a' ha => .marks n hc ha

theorem getLast_eq_iff {c : Char} (h : Marked keep s s') (hc : c.toNat < 0x80) :
    s.getLast? = some c ↔ s'.getLast? = some c := by
  rcases List.eq_nil_or_concat s with rfl | ⟨a, d, rfl⟩
  · cases h
    exact Iff.rfl
  · rw [List.concat_eq_append] at h ⊢
    obtain ⟨a', b', rfl, -, hd⟩ := h.of_append
    rw [List.getLast?_concat]
    cases hd with
    | same _ hnil =>
      cases hnil
      rw [List.getLast?_concat]
    | marks n hd hnil =>
      cases hnil
      have hlast : (a' ++ (List.replicate (n + 2) replacement ++ [])).getLast? = some replacement := by
        rw [List.append_nil, List.replicate_succ', ← List.append_assoc, List.getLast?_concat]
      rw [hlast]
      refine iff_of_false ?_ ?_
      · rintro ⟨⟩
        omega
      · rintro ⟨⟩
        exact absurd hc (by decide)

theorem stripCr (h : Marked keep s s') : Marked keep (stripCr s) (Text.stripCr s') := by
  have hlast : s.getLast? = some '\r' ↔ s'.getLast? = some '\r' := h.getLast_eq_iff (by decide)
  unfold Text.stripCr
  by_cases hr : s.getLast? = some '\r'
  · rw [if_pos hr, if_pos (hlast.1 hr)]
    obtain ⟨a, rfl⟩ := List.getLast?_eq_some_iff.1 hr
    obtain ⟨a', b', rfl, ha, hb⟩ := h.of_append
    obtain rfl := hb.eq_of_ascii (List.forall_mem_singleton.2 (by decide))
    rw [List.dropLast_concat, List.dropLast_concat]
    exact ha
  · rw [if_neg hr, if_neg (mt hlast.2 hr)]
    exact h

theorem lines (h : Marked keep s s') : List.Forall₂ (Marked keep) (lines s) (Text.lines s') := by
  unfold Text.lines
  have hsplit := h.splitOn
  generalize s.splitOn '\n' = l at hsplit
  generalize s'.splitOn '\n' = l' at hsplit
  induction hsplit with
  | nil => exact .nil
  | @cons a a' l l' ha hl ih =>
    cases hl with
    | nil =>
      have hempty : a.isEmpty = a'.isEmpty := by
        cases ha with
        | nil => rfl
        | same _ _ => rfl
        | marks n _ _ => rfl
      simp only [List.dropLast_singleton, List.map_nil, List.getLast?_singleton, List.nil_append, Option.filter_some,
        hempty]
      split
      · exact .cons ha .nil
      · exact .nil
    | cons hb hl =>
      simp only [List.dropLast_cons_cons, List.map_cons, List.cons_append, List.getLast?_cons_cons] at ih ⊢
      exact .cons ha.stripCr ih

end Marked

/-! ## Fields -/

/-- `str::strip_prefix` -/
def stripPrefix : Text → Text → Option Text
  | [], s => some s
  | _ :: _, [] => none
  | p :: ps, c :: s => if c = p then stripPrefix ps s else none

namespace Marked

variable {keep : Char → Prop} {s s' : Text}

theorem stripPrefix {p : Text} (h : Marked keep s s') (hp : ∀ c ∈ p, c.toNat < 0x80) :
    Option.Rel (Marked keep) (stripPrefix p s) (Text.stripPrefix p s') := by
  induction p generalizing s s' with
  | nil => exact .some h
  | cons c p ih =>
    obtain ⟨hc, hp⟩ := List.forall_mem_cons.1 hp
    cases h with
    | nil => exact .none
    | @same d s s' hd h =>
      rw [Text.stripPrefix, Text.stripPrefix]
      split
      · exact ih h hp
      · exact .none
    | @marks d s s' n hd h =>
      have hne : d ≠ c := by rintro rfl; omega
      have hne' : replacement ≠ c := by rintro rfl; exact absurd hc (by decide)
      rw [List.replicate_succ, List.cons_append, Text.stripPrefix, Text.stripPrefix, if_neg hne, if_neg hne']
      exact .none

end Marked

theorem count_dropWhile {p : Char → Bool} {c : Char} (hc : p c = false) (s : Text) :
    (s.dropWhile p).count c = s.count c := by
  induction s with
  | nil => rfl
  | cons d s ih =>
    rw [List.dropWhile_cons]
    split
    · next hd =>
      have hne : d ≠ c := by
        rintro rfl
        rw [hc] at hd
        cases hd
      rw [ih, List.count_cons_of_ne hne]
    · rfl

theorem count_trim {c : Char} (hc : isWhitespace c = false) (s : Text) : (trim s).count c = s.count c := by
  rw [trim, List.count_reverse, count_dropWhile hc, List.count_reverse, count_dropWhile hc]

theorem isWhitespace_replacement : isWhitespace replacement = false := by
  decide

theorem mem_trim_replacement {s : Text} : replacement ∈ trim s ↔ replacement ∈ s := by
  rw [← List.count_pos_iff, ← List.count_pos_iff, count_trim isWhitespace_replacement]

namespace Marked

variable {keep : Char → Prop} {s s' : Text}

theorem count_le (h : Marked keep s s') : s.count replacement ≤ s'.count replacement := by
  induction h with
  | nil => exact Nat.le_refl 0
  | same _ _ ih => rw [List.count_cons, List.count_cons]; omega
  | marks n _ _ ih =>
    rw [List.count_cons, List.count_append, List.count_replicate_self]
    split <;> omega

/-- Marks in place of all characters outside of ASCII are more than there were. -/
theorem count_lt (h : Marked (·.toNat < 0x80) s s') (hs : ∃ c ∈ s, 0x80 ≤ c.toNat) :
    s.count replacement < s'.count replacement := by
  induction h with
  | nil => obtain ⟨_, hmem, -⟩ := hs; cases hmem
  | @same c s s' hc h ih =>
    have hrest : ∃ c ∈ s, 0x80 ≤ c.toNat := by
      obtain ⟨d, hd, hge⟩ := hs
      rcases List.mem_cons.1 hd with rfl | hd
      · omega
      · exact ⟨d, hd, hge⟩
    have := ih hrest
    rw [List.count_cons, List.count_cons]
    omega
  | @marks c s s' n hc h ih =>
    have := h.count_le
    rw [List.count_cons, List.count_append, List.count_replicate_self]
    split <;> omega

end Marked

end Text
