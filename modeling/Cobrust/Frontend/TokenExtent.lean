import Cobrust.Control.Outcome
import Cobrust.Frontend.Lexer
import Cobrust.Frontend.NumberExtent

/-!
# The extent of a token

Every token function that starts at a boundary ends at one, further on. A loop over bytes that stops at
an ASCII byte stops at a boundary, wherever the bytes before stand.
-/

namespace Cobrust.Frontend

open Control

/-- Why the lexer may stop: for an error, or in a debug build for the size of its source. -/
def Halt.Allowed (s : Source) (ov : Overflow) : Halt → Prop
  | panic => False
  | overflow => ov = .panics ∧ 2 ^ 29 ≤ s.len
  | fuel => False
  | error _ => True

/-! ## Boundaries -/

namespace Source

def IsBoundary (s : Source) (p : Nat) : Prop :=
  Text.IsBoundary s.text p

variable {s : Source} {p q : Nat} {b : Char} {allowed : Halt → Prop}

theorem IsBoundary.le_len (h : s.IsBoundary p) : p ≤ s.len :=
  Text.IsBoundary.le_length h

theorem isBoundary_len (s : Source) : s.IsBoundary s.len :=
  Text.isBoundary_length s.text

theorem isBoundary_of_byte (hb : s.byte p = some b) (h : b.toNat < 128) :
    s.IsBoundary p ∧ s.IsBoundary (p + 1) :=
  Text.isBoundary_of_ascii hb h

theorem lt_len_of_byte (hb : s.byte p = some b) : p < s.len :=
  (List.getElem?_eq_some_iff.1 hb).1

theorem exists_byte (h : p < s.len) : ∃ b, s.byte p = some b :=
  ⟨_, List.getElem?_eq_getElem h⟩

theorem byte_eq_none : s.byte p = none ↔ s.len ≤ p :=
  List.getElem?_eq_none_iff

theorem meets_index (h : p < s.len) : Meets allowed (fun b => s.byte p = some b) (s.index p) := by
  obtain ⟨b, hb⟩ := exists_byte h
  rw [index, hb]
  rfl

theorem meets_slice (hp : s.IsBoundary p) (hq : s.IsBoundary q) (h : p ≤ q) :
    Meets allowed (fun _ => True) (s.slice p q) := by
  obtain ⟨text, ht⟩ := Option.isSome_iff_exists.1 (Text.isSome_slice hp hq h)
  rw [slice, ht]
  trivial

theorem meets_sliceFrom (h : s.IsBoundary p) :
    Meets allowed (fun rest => Text.dropBytes s.text p = some rest) (s.sliceFrom p) := by
  obtain ⟨rest, hr⟩ := Option.isSome_iff_exists.1 h
  rw [sliceFrom, hr]
  rfl

/-- The character at a boundary, and the boundary behind it. -/
theorem meets_currentChar (h : s.IsBoundary p) (hlt : p < s.len) :
    Meets allowed (fun ch => s.IsBoundary (p + ch.utf8Size)) (s.currentChar p) := by
  obtain ⟨ch, rest, hr⟩ := Text.exists_of_lt h hlt
  rw [currentChar, sliceFrom, hr]
  exact Option.isSome_iff_exists.2 ⟨rest, Text.isBoundary_of_cons hr⟩

theorem isBoundary_of_isTriple (hq : b.toNat < 128) (h : s.isTriple p b = true) : s.IsBoundary (p + 3) := by
  obtain ⟨-, h⟩ := Bool.and_eq_true_iff.1 h
  exact (isBoundary_of_byte (of_decide_eq_true h) hq).2

theorem isBoundary_of_startsWith {needle : String} {c : Char} (h : s.startsWith p needle = true)
    (hlast : needle.toList.getLast? = some c) (hc : c.toNat < 128) :
    s.IsBoundary (p + needle.length) := by
  obtain ⟨rest, hrest⟩ := List.isPrefixOf_iff_prefix.1 h
  obtain ⟨front, hfront⟩ := List.getLast?_eq_some_iff.1 hlast
  have hbyte : s.byte (p + front.length) = some c := by
    rw [byte, ← List.getElem?_drop, ← hrest, hfront]
    simp
  have hlen : needle.length = front.length + 1 := by
    rw [← String.length_toList, hfront, List.length_append, List.length_singleton]
  rw [hlen]
  exact (isBoundary_of_byte hbyte hc).2

end Source

theorem meets_i32 {s : Source} {ov : Overflow} {n : Int}
    (h : ov = .panics → s.len < 2 ^ 29 → -2 ^ 31 ≤ n ∧ n < 2 ^ 31) :
    Meets (Halt.Allowed s ov) (fun m => ov = .panics → m = n) (ov.i32 n) := by
  unfold Overflow.i32
  split
  · exact fun _ => rfl
  · next hn =>
    cases ov with
    | panics => exact ⟨rfl, Nat.le_of_not_lt fun hlt => hn (h rfl hlt)⟩
    | wraps => exact fun h => nomatch h

theorem meets_u32 {s : Source} {ov : Overflow} {n : Nat}
    (h : ov = .panics → s.len < 2 ^ 29 → n < 2 ^ 32) :
    Meets (Halt.Allowed s ov) (fun m => ov = .panics → m = n) (ov.u32 n) := by
  unfold Overflow.u32
  split
  · exact fun _ => rfl
  · next hn =>
    cases ov with
    | panics => exact ⟨rfl, Nat.le_of_not_lt fun hlt => hn (h rfl hlt)⟩
    | wraps => exact fun h => nomatch h

/-! ## Numbers and strings -/

/-- The tokens of lines and of their indentation, and the one of the end. -/
def TokenKind.isLayout : TokenKind → Bool
  | newline | indent | dedent | eof => true
  | _ => false

/-- A token, and the position behind it. -/
structure Source.TokenFrom (s : Source) (start : Nat) (r : TokenKind × Nat) : Prop where
  lt : start < r.2
  boundary : s.IsBoundary r.2
  kind : r.1.isLayout = false

section Tokens

variable {s : Source} {ov : Overflow}

theorem meets_lexNumberToken {start : Nat} {b : Char} (hb : s.byte start = some b)
    (hstart : b.isDigit = true ∨ b = '.') :
    Meets (Halt.Allowed s ov) (s.TokenFrom start) (lexNumberToken s start) := by
  have hascii : b.toNat < 128 := by
    rcases hstart with hdigit | rfl
    · exact toNat_lt_of_isDigit hdigit
    · decide
  obtain ⟨rest, hcons⟩ := Text.exists_of_ascii hb hascii
  apply (Source.meets_sliceFrom (Source.isBoundary_of_byte hb hascii).1).bind
  intro src hrest
  obtain rfl : b :: rest = src := Option.some.inj (hcons.symm.trans hrest)
  split
  · trivial
  · trivial
  · next tok rest' hok =>
    obtain ⟨text, htext, hne, hall, hstop⟩ := lexNumber_extent rfl hstart hok
    have hlen : (Text.bytes text).length = text.length := by rw [Text.bytes_of_ascii hall]
    refine ⟨?_, ?_, ?_⟩
    · rw [hstop]
      exact Nat.lt_add_of_pos_right (List.length_pos_of_ne_nil hne)
    · rw [hstop, ← hlen]
      rw [htext] at hrest
      exact Option.isSome_iff_exists.2 ⟨rest', Text.dropBytes_append hrest⟩
    · cases tok.kind <;> rfl

theorem toNat_lt_of_isHexDigit {c : Char} (h : isHexDigit c = true) : c.toNat < 128 := by
  simp only [isHexDigit, Bool.or_eq_true, Bool.and_eq_true, decide_eq_true_eq] at h
  rcases h with (h | h) | h
  · exact toNat_lt_of_isDigit h
  · exact toNat_lt_of_le h.2 (by decide)
  · exact toNat_lt_of_le h.2 (by decide)

theorem isBoundary_of_readHex {p n v : Nat} (h : readHex s p (n + 1) = some v) :
    s.IsBoundary (p + (n + 1)) := by
  unfold readHex at h
  dsimp only at h
  split at h
  · next hd =>
    obtain ⟨hlen, hall⟩ := Bool.and_eq_true_iff.1 hd
    have hlt : n < ((s.bytes.drop p).take (n + 1)).length := by
      rw [of_decide_eq_true hlen]
      exact Nat.lt_succ_self n
    have hbyte : s.byte (p + n) = some ((s.bytes.drop p).take (n + 1))[n] := by
      rw [Source.byte, ← List.getElem?_drop, ← List.getElem?_take_of_lt (Nat.lt_succ_self n)]
      exact List.getElem?_eq_getElem hlt
    have hhex := List.all_eq_true.1 hall _ (List.getElem_mem hlt)
    exact (Source.isBoundary_of_byte hbyte (toNat_lt_of_isHexDigit hhex)).2
  · cases h

theorem toNat_lt_of_simpleEscape {c r : Char} (h : simpleEscape c = some r) : c.toNat < 128 := by
  unfold simpleEscape at h
  split at h
  all_goals first | decide | cases h

theorem StrBody.push_pos (pre : StrPrefix) (body : StrBody) (c : Char) (width : Nat) :
    (body.push pre c width).pos = body.pos + width := by
  unfold StrBody.push
  split <;> rfl

theorem meets_lexEscape {start : Nat} {pre : StrPrefix} {body : StrBody} :
    Meets (Halt.Allowed s ov) (fun r => body.pos < r.pos ∧ s.IsBoundary r.pos)
      (lexEscape s start pre body) := by
  unfold lexEscape
  dsimp only
  split
  · trivial
  · next hn =>
    exact ⟨Nat.lt_add_of_pos_right Nat.two_pos, (Source.isBoundary_of_byte hn (by decide)).2⟩
  · split
    · trivial
    · next hv =>
      have hend := isBoundary_of_readHex hv
      split
      · exact ⟨Nat.lt_add_of_pos_right (Nat.succ_pos 3), hend⟩
      · exact ⟨Nat.lt_add_of_pos_right (Nat.succ_pos 3), hend⟩
  · split
    · trivial
    · next hv =>
      have hend := isBoundary_of_readHex hv
      split
      · trivial
      · exact ⟨Nat.lt_add_of_pos_right (Nat.succ_pos 5), hend⟩
  · next c _ _ _ hc =>
    split
    · next hr =>
      simp only [meets_ok, StrBody.push_pos]
      exact ⟨Nat.lt_add_of_pos_right Nat.two_pos,
        (Source.isBoundary_of_byte hc (toNat_lt_of_simpleEscape hr)).2⟩
    · trivial

/-- The body of a string goes on to behind its closing quote. -/
theorem meets_lexStringBody {start : Nat} {pre : StrPrefix} {quote : Char} {triple : Bool}
    (hq : quote.toNat < 128) (fuel : Nat) (body : StrBody) (hpos : s.IsBoundary body.pos)
    (hfuel : s.len < fuel + body.pos) :
    Meets (Halt.Allowed s ov) (fun r => body.pos ≤ r.pos ∧ s.IsBoundary r.pos)
      (lexStringBody s start pre quote triple fuel body) := by
  induction fuel generalizing body with
  | zero => exact absurd hpos.le_len (by omega)
  | succ fuel ih =>
    -- The loop goes on from a boundary further on.
    have next (body' : StrBody) (hlt : body.pos < body'.pos) (hb : s.IsBoundary body'.pos) :
        Meets (Halt.Allowed s ov) (fun r => body.pos ≤ r.pos ∧ s.IsBoundary r.pos)
          (lexStringBody s start pre quote triple fuel body') := by
      apply (ih body' hb (by omega)).mono
      exact fun r hr => ⟨hlt.le.trans hr.1, hr.2⟩
    rw [lexStringBody]
    split
    · trivial
    · next b hb =>
      split
      · trivial
      · split
        · next hquote =>
          rw [hquote] at hb
          split
          · next htriple =>
            obtain ⟨-, htriple⟩ := Bool.and_eq_true_iff.1 htriple
            exact ⟨Nat.le_add_right _ _, Source.isBoundary_of_isTriple hq htriple⟩
          · split
            · exact ⟨Nat.le_add_right _ _, (Source.isBoundary_of_byte hb hq).2⟩
            · apply next
              · rw [StrBody.push_pos]
                exact Nat.lt_succ_self _
              · rw [StrBody.push_pos]
                exact (Source.isBoundary_of_byte hb hq).2
        · split
          · exact meets_lexEscape.bind fun body' hbody => next body' hbody.1 hbody.2
          · apply (Source.meets_currentChar hpos (Source.lt_len_of_byte hb)).bind
            intro ch hch
            apply next
            · rw [StrBody.push_pos]
              exact Nat.lt_add_of_pos_right ch.utf8Size_pos
            · rw [StrBody.push_pos]
              exact hch

theorem openQuote {p : Nat} {quote : Char} (hb : s.byte p = some quote) (hq : quote.toNat < 128) :
    (p < p + if s.isTriple p quote then 3 else 1) ∧
      s.IsBoundary (p + if s.isTriple p quote then 3 else 1) := by
  split
  · next htriple => exact ⟨Nat.lt_add_of_pos_right (Nat.succ_pos 2), Source.isBoundary_of_isTriple hq htriple⟩
  · exact ⟨Nat.lt_succ_self p, (Source.isBoundary_of_byte hb hq).2⟩

theorem meets_lexString {start p : Nat} {pre : StrPrefix} {quote : Char} (hb : s.byte p = some quote)
    (hq : quote.toNat < 128) :
    Meets (Halt.Allowed s ov) (s.TokenFrom p) (lexString s start p pre) := by
  apply (Source.meets_index (Source.lt_len_of_byte hb)).bind
  intro quote' hb'
  obtain rfl : quote = quote' := Option.some.inj (hb.symm.trans hb')
  obtain ⟨hlt, hopen⟩ := openQuote hb hq
  apply (meets_lexStringBody hq (s.len + 1) _ hopen (by omega)).bind
  intro body hbody
  refine ⟨hlt.trans_le hbody.1, hbody.2, ?_⟩
  cases pre.bytes <;> rfl

/-- A format specification ends before a closing brace, or with the source. -/
theorem meets_specLength (rest : List Char) (depth : Int)
    (hdepth : ov = .panics → 0 ≤ depth ∧ depth + rest.length ≤ s.len) :
    Meets (Halt.Allowed s ov) (fun n => n ≤ rest.length ∧ (n < rest.length → rest[n]? = some '\x7d'))
      (specLength ov rest depth) := by
  induction rest generalizing depth with
  | nil => exact ⟨Nat.le_refl _, fun h => absurd h (Nat.lt_irrefl _)⟩
  | cons c rest ih =>
    have more (d : Int) (hd : ov = .panics → 0 ≤ d ∧ d + rest.length ≤ s.len) :
        Meets (Halt.Allowed s ov)
          (fun n => n ≤ (c :: rest).length ∧ (n < (c :: rest).length → (c :: rest)[n]? = some '\x7d'))
          (do return 1 + (← specLength ov rest d)) := by
      apply (ih d hd).bind
      intro n hn
      rw [Nat.add_comm 1 n]
      exact ⟨Nat.succ_le_succ hn.1, fun hlt => hn.2 (Nat.lt_of_succ_lt_succ hlt)⟩
    rw [List.length_cons] at hdepth
    unfold specLength
    split
    · apply (meets_i32 _).bind
      · intro m hm
        apply more
        intro h
        rw [hm h]
        obtain ⟨h0, h1⟩ := hdepth h
        omega
      · intro h hlen
        obtain ⟨h0, h1⟩ := hdepth h
        omega
    · split
      · next hc =>
        split
        · exact ⟨Nat.zero_le _, fun _ => by rw [hc]; rfl⟩
        · next hne =>
          apply (meets_i32 _).bind
          · intro m hm
            apply more
            intro h
            rw [hm h]
            obtain ⟨h0, h1⟩ := hdepth h
            omega
          · intro h hlen
            obtain ⟨h0, h1⟩ := hdepth h
            omega
      · apply more
        intro h
        obtain ⟨h0, h1⟩ := hdepth h
        omega

/-- Where the scan of an interpolation may stand: between characters, or anywhere in a nested string. -/
structure Interp.Sound (s : Source) (ov : Overflow) (i : Interp) : Prop where
  pos_le : i.pos ≤ s.len
  depth_le : ov = .panics → i.depth ≤ i.pos
  inStr : match i.inStr with
    | none => s.IsBoundary i.pos
    | some q => 0 < i.depth ∧ q.toNat < 128

theorem meets_lexFormatSpec {start interpStart : Nat} {i : Interp} (hstart : s.IsBoundary interpStart)
    (hle : interpStart ≤ i.pos) (hb : s.byte i.pos = some ':') :
    Meets (Halt.Allowed s ov) (fun r => i.pos < r.pos ∧ s.IsBoundary r.pos)
      (lexFormatSpec s ov start interpStart i) := by
  obtain ⟨hpos, hspec⟩ := Source.isBoundary_of_byte hb (by decide)
  have hdrop : (s.bytes.drop (i.pos + 1)).length = s.len - (i.pos + 1) := List.length_drop
  apply (Source.meets_slice hstart hpos hle).bind
  intro source _
  apply (meets_specLength (s := s) (s.bytes.drop (i.pos + 1)) 0 _).bind
  · intro n hn
    dsimp only
    split
    · trivial
    · next hlt =>
      have hbyte : s.byte (i.pos + 1 + n) = some '\x7d' := by
        rw [Source.byte, ← List.getElem?_drop]
        exact hn.2 (by omega)
      obtain ⟨hend, hbehind⟩ := Source.isBoundary_of_byte hbyte (by decide)
      apply (Source.meets_slice hspec hend (Nat.le_add_right _ _)).bind
      intro spec _
      exact ⟨by dsimp only; omega, hbehind⟩
  · intro _
    have := hspec.le_len
    omega

/-- The scan of an interpolation ends between characters. -/
theorem meets_lexInterp {start interpStart : Nat} (hstart : s.IsBoundary interpStart) (fuel : Nat)
    (i : Interp) (hi : i.Sound s ov) (hle : interpStart ≤ i.pos) (hfuel : s.len < fuel + i.pos) :
    Meets (Halt.Allowed s ov) (fun r => i.pos ≤ r.pos ∧ s.IsBoundary r.pos)
      (lexInterp s ov start interpStart fuel i) := by
  induction fuel generalizing i with
  | zero => exact absurd hi.pos_le (by omega)
  | succ fuel ih =>
    have next (i' : Interp) (hlt : i.pos < i'.pos) (hi' : i'.Sound s ov) :
        Meets (Halt.Allowed s ov) (fun r => i.pos ≤ r.pos ∧ s.IsBoundary r.pos)
          (lexInterp s ov start interpStart fuel i') := by
      apply (ih i' hi' (by omega) (by omega)).mono
      exact fun r hr => ⟨hlt.le.trans hr.1, hr.2⟩
    rw [lexInterp]
    split
    · next hend =>
      refine ⟨Nat.le_refl _, ?_⟩
      have hin := hi.inStr
      split at hin
      · exact hin
      · have hlen : i.pos = s.len := by
          have := hi.pos_le
          omega
        change s.IsBoundary i.pos
        rw [hlen]
        exact s.isBoundary_len
    · next hgo =>
      obtain ⟨hlen, hdepth⟩ := not_or.1 hgo
      apply (Source.meets_index (Nat.lt_of_not_le hlen)).bind
      intro c hc
      have hin := hi.inStr
      have hd := hi.depth_le
      split
      · next q hq =>
        -- Inside of a string an escape may end within a character.
        rw [hq] at hin
        split
        · apply next
          · dsimp only
            omega
          · refine ⟨Nat.min_le_right _ _, ?_, ?_⟩
            · intro h
              have := hd h
              dsimp only
              omega
            · dsimp only
              rw [hq]
              exact hin
        · apply next
          · exact Nat.lt_succ_self _
          · refine ⟨Nat.lt_of_not_le hlen, ?_, ?_⟩
            · intro h
              have := hd h
              dsimp only
              omega
            · dsimp only
              split
              · next heq =>
                split at heq
                · next hcq =>
                  rw [hcq] at hc
                  exact (Source.isBoundary_of_byte hc hin.2).2
                · cases heq
              · next heq =>
                split at heq
                · cases heq
                · cases heq
                  exact hin
      · next hnone =>
        rw [hnone] at hin
        -- Outside of strings the scan goes from character to character.
        have nextChar (i' : Interp) (hlt : i.pos < i'.pos) (hb : s.IsBoundary i'.pos)
            (hdep : ov = .panics → i'.depth ≤ i.depth + 1) (hnone' : i'.inStr = none) :
            Meets (Halt.Allowed s ov) (fun r => i.pos ≤ r.pos ∧ s.IsBoundary r.pos)
              (lexInterp s ov start interpStart fuel i') := by
          apply next i' hlt
          refine ⟨hb.le_len, ?_, ?_⟩
          · intro h
            have := hd h
            have := hdep h
            omega
          · rw [hnone']
            exact hb
        have hone (hascii : c.toNat < 128) : s.IsBoundary (i.pos + 1) :=
          (Source.isBoundary_of_byte hc hascii).2
        split
        · next hquote =>
          have hascii : c.toNat < 128 := by rcases hquote with rfl | rfl <;> decide
          apply next
          · exact Nat.lt_succ_self _
          · refine ⟨Nat.lt_of_not_le hlen, ?_, ?_⟩
            · intro h
              have := hd h
              dsimp only
              omega
            · exact ⟨Int.lt_of_not_ge hdepth, hascii⟩
        · split
          · next hopen =>
            have hascii : c.toNat < 128 := by rcases hopen with rfl | rfl | rfl <;> decide
            apply (meets_i32 _).bind
            · intro m hm
              apply nextChar
              · exact Nat.lt_succ_self _
              · exact hone hascii
              · exact fun h => Int.le_of_eq (hm h)
              · exact hnone
            · intro h hlt
              have := hd h
              have := hi.pos_le
              omega
          · split
            · next hclose =>
              have hascii : c.toNat < 128 := by rcases hclose with rfl | rfl <;> decide
              apply nextChar
              · exact Nat.lt_succ_self _
              · exact hone hascii
              · exact fun _ => by dsimp only; omega
              · exact hnone
            · split
              · next hbrace =>
                have hascii : c.toNat < 128 := by rw [hbrace]; decide
                split
                · apply (Source.meets_slice hstart hin hle).bind
                  intro source _
                  exact ⟨Nat.le_succ _, hone hascii⟩
                · apply nextChar
                  · exact Nat.lt_succ_self _
                  · exact hone hascii
                  · exact fun _ => by dsimp only; omega
                  · exact hnone
              · split
                · next hcolon =>
                  rw [hcolon.1] at hc
                  apply (meets_lexFormatSpec hstart hle hc).mono
                  exact fun r hr => ⟨hr.1.le, hr.2⟩
                · split
                  · next heq =>
                    have hascii : c.toNat < 128 := by rw [heq.1]; decide
                    apply nextChar
                    · exact Nat.lt_succ_self _
                    · exact hone hascii
                    · exact fun _ => by dsimp only; omega
                    · exact hnone
                  · apply (Source.meets_currentChar hin (Nat.lt_of_not_le hlen)).bind
                    intro ch hch
                    apply nextChar
                    · exact Nat.lt_add_of_pos_right ch.utf8Size_pos
                    · exact hch
                    · exact fun _ => by dsimp only; omega
                    · exact hnone

/-- The body of an f-string goes on to behind its closing quote. -/
theorem meets_lexFStringBody {start : Nat} {quote : Char} {triple : Bool} (hq : quote.toNat < 128)
    (fuel : Nat) (body : FBody) (hpos : s.IsBoundary body.pos) (hfuel : s.len < fuel + body.pos) :
    Meets (Halt.Allowed s ov) (fun r => body.pos ≤ r.pos ∧ s.IsBoundary r.pos)
      (lexFStringBody s ov start quote triple fuel body) := by
  induction fuel generalizing body with
  | zero => exact absurd hpos.le_len (by omega)
  | succ fuel ih =>
    have next (body' : FBody) (hlt : body.pos < body'.pos) (hb : s.IsBoundary body'.pos) :
        Meets (Halt.Allowed s ov) (fun r => body.pos ≤ r.pos ∧ s.IsBoundary r.pos)
          (lexFStringBody s ov start quote triple fuel body') := by
      apply (ih body' hb (by omega)).mono
      exact fun r hr => ⟨hlt.le.trans hr.1, hr.2⟩
    rw [lexFStringBody]
    split
    · trivial
    · next b hb =>
      split
      · trivial
      · split
        · next hquote =>
          rw [hquote] at hb
          split
          · next htriple =>
            obtain ⟨-, htriple⟩ := Bool.and_eq_true_iff.1 htriple
            exact ⟨Nat.le_add_right _ _, Source.isBoundary_of_isTriple hq htriple⟩
          · split
            · exact ⟨Nat.le_add_right _ _, (Source.isBoundary_of_byte hb hq).2⟩
            · exact next _ (Nat.lt_succ_self _) (Source.isBoundary_of_byte hb hq).2
        · split
          · next hbraces =>
            exact next _ (Nat.lt_add_of_pos_right Nat.two_pos) (Source.isBoundary_of_byte hbraces.2 (by decide)).2
          · split
            · next hbraces =>
              exact next _ (Nat.lt_add_of_pos_right Nat.two_pos)
                (Source.isBoundary_of_byte hbraces.2 (by decide)).2
            · split
              · next hbrace =>
                rw [hbrace] at hb
                have hopen : s.IsBoundary (body.pos + 1) := (Source.isBoundary_of_byte hb (by decide)).2
                have hsound : (Interp.mk (body.pos + 1) 1 none false).Sound s ov := by
                  refine ⟨hopen.le_len, ?_, hopen⟩
                  intro _
                  dsimp only
                  omega
                apply (meets_lexInterp hopen (s.len + 1) _ hsound (Nat.le_refl _) (by omega)).bind
                intro r hr
                split
                · trivial
                · exact next _ hr.1 hr.2
              · apply (Source.meets_currentChar hpos (Source.lt_len_of_byte hb)).bind
                exact fun ch hch => next _ (Nat.lt_add_of_pos_right ch.utf8Size_pos) hch

theorem meets_lexFString {start p : Nat} {quote : Char} (hb : s.byte p = some quote)
    (hq : quote.toNat < 128) :
    Meets (Halt.Allowed s ov) (s.TokenFrom p) (lexFString s ov start p) := by
  apply (Source.meets_index (Source.lt_len_of_byte hb)).bind
  intro quote' hb'
  obtain rfl : quote = quote' := Option.some.inj (hb.symm.trans hb')
  obtain ⟨hlt, hopen⟩ := openQuote hb hq
  apply (meets_lexFStringBody hq (s.len + 1) _ hopen (by omega)).bind
  exact fun body hbody => ⟨hlt.trans_le hbody.1, hbody.2, rfl⟩

variable {u : Unicode}

theorem meets_wordEnd {p : Nat} (hp : s.IsBoundary p) :
    Meets (Halt.Allowed s ov) (fun q => p ≤ q ∧ s.IsBoundary q) (wordEnd s u p) := by
  apply (Source.meets_sliceFrom hp).bind
  intro rest hrest
  refine ⟨Nat.le_add_right _ _, ?_⟩
  rw [← List.takeWhile_append_dropWhile (p := isXidContinue u) (l := rest)] at hrest
  exact Option.isSome_iff_exists.2 ⟨_, Text.dropBytes_append hrest⟩

theorem keywords_not_layout : ∀ k ∈ keywords, k.2.isLayout = false := by
  have h : keywords.all (fun k => k.2.isLayout = false) = true := rfl
  exact fun k hk => of_decide_eq_true (List.all_eq_true.1 h k hk)

theorem wordKind_not_layout (word : Text) : (wordKind u word).isLayout = false := by
  unfold wordKind
  split
  · rfl
  · unfold matchKeyword
    cases hk : keywords.find? fun k => k.1.toList = word with
    | none => rfl
    | some k => exact keywords_not_layout k (List.mem_of_find?_eq_some hk)

theorem meets_lexWord {start : Nat} (hstart : s.IsBoundary start) (hlt : start < s.len) :
    Meets (Halt.Allowed s ov) (s.TokenFrom start) (lexWord s ov u start) := by
  apply (Source.meets_currentChar hstart hlt).bind
  intro ch hch
  split
  · next hword =>
    rw [hword.1] at hch
    exact ⟨Nat.lt_succ_self _, hch, rfl⟩
  · split
    · trivial
    · apply (meets_wordEnd hch).bind
      rintro stop ⟨hle, hstop⟩
      have hlt' : start < stop := (Nat.lt_add_of_pos_right ch.utf8Size_pos).trans_le hle
      apply (Source.meets_slice hstart hstop hlt'.le).bind
      intro word _
      split
      · next hpre₀ =>
        obtain ⟨quote, hb, hq⟩ : ∃ quote, s.byte stop = some quote ∧ quote.toNat < 128 := by
          rcases hpre₀.1 with hb | hb
          · exact ⟨_, hb, by decide⟩
          · exact ⟨_, hb, by decide⟩
        have hfrom (r : TokenKind × Nat) (hr : s.TokenFrom stop r) : s.TokenFrom start r :=
          ⟨hlt'.trans hr.lt, hr.boundary, hr.kind⟩
        split
        · exact (meets_lexFString hb hq).mono hfrom
        · exact (meets_lexString hb hq).mono hfrom
      · exact ⟨hlt', hstop, wordKind_not_layout word⟩

theorem operators_spec :
    ∀ op ∈ operators, (∃ c, op.1.toList.getLast? = some c ∧ c.toNat < 128) ∧ op.2.isLayout = false := by
  have h : operators.all (fun op =>
      op.1.toList.getLast?.any (fun c => c.toNat < 128) && op.2.isLayout = false) = true := by
    decide
  intro op hop
  obtain ⟨hlast, hkind⟩ := Bool.and_eq_true_iff.1 (List.all_eq_true.1 h op hop)
  obtain ⟨c, hc, hascii⟩ := (Option.any_eq_true _ _).1 hlast
  exact ⟨⟨c, hc, of_decide_eq_true hascii⟩, of_decide_eq_true hkind⟩

/-- Every token function keeps to the boundaries of the source. -/
theorem meets_lexToken {last : Option TokenKind} {start : Nat} (hstart : s.IsBoundary start)
    (hlt : start < s.len) :
    Meets (Halt.Allowed s ov) (s.TokenFrom start) (lexToken s ov u last start) := by
  apply (Source.meets_index hlt).bind
  intro b hb
  split
  · next hdot =>
    simp only [Bool.and_eq_true, decide_eq_true_eq] at hdot
    exact meets_lexNumberToken hb (Or.inr hdot.1.1.1)
  · split
    · next op hop =>
      obtain ⟨⟨c, hc, hascii⟩, hkind⟩ := operators_spec op (List.mem_of_find?_eq_some hop)
      have hstarts := List.find?_some hop
      refine ⟨?_, Source.isBoundary_of_startsWith hstarts hc hascii, hkind⟩
      apply Nat.lt_add_of_pos_right
      rw [← String.length_toList]
      exact List.length_pos_of_mem (List.mem_of_getLast? hc)
    · split
      · trivial
      · split
        · next hquote =>
          have hq : b.toNat < 128 := by rcases hquote with rfl | rfl <;> decide
          exact meets_lexString hb hq
        · split
          · next hdigit => exact meets_lexNumberToken hb (Or.inl hdigit)
          · exact meets_lexWord hstart hlt

end Tokens

end Cobrust.Frontend
