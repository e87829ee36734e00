import Cobrust.Control.Outcome
import Cobrust.Frontend.Number
import Cobrust.Text.Utf8

/-!
# The extent of a number literal

A number token is a run of ASCII characters at the head of the source, so its length in characters is
its length in bytes.
-/

namespace Cobrust.Frontend

open Control (except_bind_ok)

/-- `s` has read the head of `src`, of `n` characters at least and all of them ASCII. -/
structure Scan.Reads (src : List Char) (n : Nat) (s : Scan) : Prop where
  append : s.text ++ s.rest = src
  ascii : ∀ c ∈ s.text, c.toNat < 128
  length : n ≤ s.text.length

namespace Scan.Reads

variable {src : List Char} {n : Nat} {s : Scan} {valid : Char → Bool}

theorem start (src : List Char) : Reads src 0 ⟨[], src⟩ :=
  ⟨rfl, fun _ h => absurd h List.not_mem_nil, Nat.le_refl _⟩

theorem advance {k : Nat} (h : s.Reads src n) (hk : ∀ c ∈ s.rest.take k, c.toNat < 128) :
    (s.advance k).Reads src n where
  append := by rw [Scan.advance, List.append_assoc, List.take_append_drop, h.append]
  ascii := by
    intro c hc
    rcases List.mem_append.1 hc with hc | hc
    · exact h.ascii c hc
    · exact hk c hc
  length := by
    rw [Scan.advance, List.length_append]
    exact Nat.le_add_right_of_le h.length

theorem skipWhile (h : s.Reads src n) (hv : ∀ c, valid c = true → c.toNat < 128) :
    (s.skipWhile valid).Reads src n where
  append := by rw [Scan.skipWhile, List.append_assoc, List.takeWhile_append_dropWhile, h.append]
  ascii := by
    intro c hc
    rcases List.mem_append.1 hc with hc | hc
    · exact h.ascii c hc
    · exact hv c (List.mem_takeWhile_imp hc)
  length := by
    rw [Scan.skipWhile, List.length_append]
    exact Nat.le_add_right_of_le h.length

/-- Reading the character ahead, where it is one of ASCII. -/
theorem advance_one {c : Char} (h : s.Reads src n) (hc : s.peek 0 = some c) (ha : c.toNat < 128) :
    (s.advance 1).Reads src (n + 1) := by
  obtain ⟨rest, hr⟩ : ∃ rest, s.rest = c :: rest := by
    cases hr : s.rest with
    | nil => rw [Scan.peek, hr] at hc; cases hc
    | cons c' rest =>
      rw [Scan.peek, hr] at hc
      cases hc
      exact ⟨rest, rfl⟩
  have hadv : (s.advance 1).Reads src n := by
    apply h.advance
    rw [hr]
    intro x hx
    obtain rfl := List.mem_singleton.1 hx
    exact ha
  refine ⟨hadv.append, hadv.ascii, ?_⟩
  rw [Scan.advance, hr, List.length_append]
  exact Nat.succ_le_succ h.length

theorem weaken (h : s.Reads src (n + 1)) : s.Reads src n :=
  ⟨h.append, h.ascii, Nat.le_of_succ_le h.length⟩

theorem skipSign (h : s.Reads src n) : s.skipSign.Reads src n := by
  unfold Scan.skipSign
  split
  · next hsign =>
    apply weaken
    rcases Bool.or_eq_true_iff.1 hsign with hs | hs
    · exact h.advance_one (of_decide_eq_true hs) (by decide)
    · exact h.advance_one (of_decide_eq_true hs) (by decide)
  · exact h

/-- A run of characters is not empty where its first one is there. -/
theorem skipWhile_one {c : Char} (h : s.Reads src n) (hv : ∀ c, valid c = true → c.toNat < 128)
    (hc : s.peek 0 = some c) (ha : valid c = true) : (s.skipWhile valid).Reads src (n + 1) := by
  have hskip := h.skipWhile hv
  refine ⟨hskip.append, hskip.ascii, ?_⟩
  cases hr : s.rest with
  | nil => rw [Scan.peek, hr] at hc; cases hc
  | cons c' rest =>
    rw [Scan.peek, hr] at hc
    cases hc
    rw [Scan.skipWhile, hr, List.takeWhile_cons_of_pos ha, List.length_append, List.length_cons]
    have := h.length
    omega

end Scan.Reads

theorem toNat_lt_of_isDigit {c : Char} (h : c.isDigit = true) : c.toNat < 128 := by
  obtain ⟨-, h⟩ := Char.isDigit_iff_toNat.1 h
  exact Nat.lt_of_le_of_lt h (by decide)

theorem toNat_lt_of_isDecimalChar {c : Char} (h : isDecimalChar c = true) : c.toNat < 128 := by
  rcases Bool.or_eq_true_iff.1 h with h | h
  · exact toNat_lt_of_isDigit h
  · rw [eq_of_beq h]
    decide

theorem toNat_lt_of_le {c d : Char} (h : c ≤ d) (hd : d.toNat < 128) : c.toNat < 128 :=
  Nat.lt_of_le_of_lt (UInt32.le_iff_toNat_le.1 h) hd

theorem toNat_lt_of_prefixChars {next c : Char} {valid : Char → Bool} (h : prefixChars next = some valid)
    (hc : valid c = true) : c.toNat < 128 := by
  unfold prefixChars at h
  split at h
  · cases h
    simp only [isHexChar, Bool.or_eq_true, Bool.and_eq_true, decide_eq_true_eq, beq_iff_eq] at hc
    rcases hc with ((hc | hc) | hc) | rfl
    · exact toNat_lt_of_isDigit hc
    · exact toNat_lt_of_le hc.2 (by decide)
    · exact toNat_lt_of_le hc.2 (by decide)
    · decide
  · split at h
    · cases h
      simp only [isOctalChar, Bool.or_eq_true, Bool.and_eq_true, decide_eq_true_eq, beq_iff_eq] at hc
      rcases hc with hc | rfl
      · exact toNat_lt_of_le hc.2 (by decide)
      · decide
    · split at h
      · cases h
        simp only [isBinaryChar, Bool.or_eq_true, beq_iff_eq] at hc
        rcases hc with (rfl | rfl) | rfl <;> decide
      · cases h

theorem toNat_lt_of_prefixChars_eq {next : Char} {valid : Char → Bool} (h : prefixChars next = some valid) :
    next.toNat < 128 := by
  unfold prefixChars at h
  split at h
  · next hn => rcases hn with rfl | rfl <;> decide
  · split at h
    · next hn => rcases hn with rfl | rfl <;> decide
    · split at h
      · next hn => rcases hn with rfl | rfl <;> decide
      · cases h

section

variable {src : List Char} {n file start : Nat} {kind : NumberKind} {s s' : Scan}

theorem lexPrefixed_reads {valid : Char → Bool} (hp : radixPrefix src = some valid)
    (h : lexPrefixed file start ⟨[], src⟩ valid = .ok (kind, s')) : s'.Reads src 1 := by
  unfold radixPrefix at hp
  split at hp
  · next next tail =>
    have htwo : (Scan.advance ⟨[], '0' :: next :: tail⟩ 2).Reads ('0' :: next :: tail) 1 := by
      have hreads : (Scan.advance ⟨[], '0' :: next :: tail⟩ 2).Reads ('0' :: next :: tail) 0 := by
        apply (Scan.Reads.start _).advance
        intro c hc
        simp only [List.take_succ_cons, List.take_zero, List.mem_cons, List.not_mem_nil, or_false] at hc
        rcases hc with rfl | rfl
        · decide
        · exact toNat_lt_of_prefixChars_eq hp
      exact ⟨hreads.append, hreads.ascii, Nat.le_of_lt (Nat.lt_succ_self 1)⟩
    simp only [lexPrefixed] at h
    split at h
    · cases h
    · obtain ⟨-, rfl⟩ := Prod.mk.inj (Except.ok.inj h)
      exact htwo.skipWhile fun c => toNat_lt_of_prefixChars hp
  · cases hp

theorem lexFraction_reads (h : s.Reads src n) : (lexFraction s).1.Reads src n := by
  simp only [lexFraction]
  split
  · next hdot =>
    obtain ⟨hdot, -⟩ := Bool.and_eq_true_iff.1 hdot
    apply Scan.Reads.weaken
    exact (h.advance_one (of_decide_eq_true hdot) (by decide)).skipWhile fun c => toNat_lt_of_isDecimalChar
  · exact h

theorem lexExponent_reads {r : Scan × Bool} (h : s.Reads src n) (he : lexExponent file start s = .ok r) :
    r.1.Reads src n := by
  unfold lexExponent at he
  split at he
  · next hmark =>
    have hone : (s.advance 1).Reads src n := by
      apply Scan.Reads.weaken
      rcases Bool.or_eq_true_iff.1 hmark with hm | hm
      · exact h.advance_one (of_decide_eq_true hm) (by decide)
      · exact h.advance_one (of_decide_eq_true hm) (by decide)
    simp only at he
    split at he
    · cases he
    · cases he
      exact hone.skipSign.skipWhile fun c => toNat_lt_of_isDecimalChar
  · cases he
    exact h

theorem lexDecimal_tail {p : Scan × Bool} (hp : p.1.Reads src n)
    (h : (lexExponent file start p.1 >>= fun x =>
      if (decide (x.1.peek 0 = some 'j') || decide (x.1.peek 0 = some 'J')) = true then
        pure (NumberKind.imag (x.1.advance 1).text, x.1.advance 1)
      else if (p.2 || x.2) = true then pure (NumberKind.float x.1.text, x.1)
      else pure (NumberKind.int x.1.text, x.1)) = .ok (kind, s')) : s'.Reads src n := by
  obtain ⟨x, hexp, h⟩ := except_bind_ok.1 h
  have hx := lexExponent_reads hp hexp
  split at h
  · next hmark =>
    cases h
    apply Scan.Reads.weaken
    rcases Bool.or_eq_true_iff.1 hmark with hm | hm
    · exact hx.advance_one (of_decide_eq_true hm) (by decide)
    · exact hx.advance_one (of_decide_eq_true hm) (by decide)
  · split at h
    · cases h
      exact hx
    · cases h
      exact hx

theorem lexDecimal_reads {c : Char} (hc : src.head? = some c) (hstart : c.isDigit = true ∨ c = '.')
    (h : lexDecimal file start ⟨[], src⟩ = .ok (kind, s')) : s'.Reads src 1 := by
  unfold lexDecimal at h
  by_cases hdot : (Scan.mk [] src).peek 0 = some '.'
  · simp only [hdot, decide_true, if_true, Bool.true_and] at h
    split at h
    · cases h
    · apply lexDecimal_tail (p := (_, true)) _ h
      exact ((Scan.Reads.start src).advance_one hdot (by decide)).skipWhile fun c => toNat_lt_of_isDecimalChar
  · have hpeek : (Scan.mk [] src).peek 0 = some c := by
      rw [Scan.peek, ← List.head?_eq_getElem?, hc]
    have hdigit : c.isDigit = true := by
      rcases hstart with hdigit | rfl
      · exact hdigit
      · exact absurd hpeek hdot
    simp only [hdot, decide_false, Bool.false_and, Bool.false_eq_true, if_false] at h
    apply lexDecimal_tail _ h
    apply lexFraction_reads
    apply (Scan.Reads.start src).skipWhile_one (fun c => toNat_lt_of_isDecimalChar) hpeek
    rw [isDecimalChar, hdigit, Bool.true_or]

theorem lexNumber_extent {c : Char} {tok : NumberToken} {rest : List Char} (hc : src.head? = some c)
    (hstart : c.isDigit = true ∨ c = '.') (h : lexNumber file start src = .ok (tok, rest)) :
    ∃ text, src = text ++ rest ∧ text ≠ [] ∧ (∀ c ∈ text, c.toNat < 128) ∧
      tok.span.stop = start + text.length := by
  obtain ⟨kind, s', hreads, h⟩ : ∃ kind s', Scan.Reads src 1 s' ∧
      (Except.ok (⟨kind, s'.span file start⟩, s'.rest) : Except LexError _) = .ok (tok, rest) := by
    unfold lexNumber at h
    dsimp only at h
    split at h
    · next valid hp =>
      obtain ⟨⟨kind, s'⟩, hs, h⟩ := except_bind_ok.1 h
      exact ⟨kind, s', lexPrefixed_reads hp hs, h⟩
    · obtain ⟨⟨kind, s'⟩, hs, h⟩ := except_bind_ok.1 h
      exact ⟨kind, s', lexDecimal_reads hc hstart hs, h⟩
  cases h
  refine ⟨s'.text, hreads.append.symm, ?_, hreads.ascii, rfl⟩
  exact List.ne_nil_of_length_pos hreads.length

end

end Cobrust.Frontend
