import Cobrust.Frontend.Layout
import Mathlib.Data.List.Infix

/-!
# Identifiers and reserved words

Which texts the identifiers of a source have. The words are looked up as they are spelled, and normalized behind that;
and a `_` is an underscore only where the source ends with it.

* `lexToken_ident`: an identifier is read from a word, and has its normal form.
* `lex_idents_iff`: no identifier has a reserved text just where the run reads no word that leaks.
-/

namespace Cobrust.Frontend

open Control Lexer

/-- The texts that no identifier may have. -/
def reserved : List Text :=
  keywords.map (fun k => k.1.toList) ++ ["_".toList, "inf".toList, "nan".toList]

def TokenKind.ident? : TokenKind → Option Text
  | .ident name => some name
  | _ => none

theorem TokenKind.ident?_eq_some {kind : TokenKind} {name : Text} : kind.ident? = some name ↔ kind = .ident name := by
  cases kind <;> simp [ident?]

/-- The word that starts at `p`. -/
def Source.wordAt (s : Source) (u : Unicode) (p : Nat) : Option Text :=
  match Text.dropBytes s.text p with
  | some (c :: rest) => some (c :: rest.takeWhile (isXidContinue u))
  | _ => none

/-- What stands at `p` is neither an operator, a number, nor the quote of a string. -/
def Source.StartsWord (s : Source) (p : Nat) : Prop :=
  operators.find? (fun op => s.startsWith p op.1) = none ∧
    ∀ b, s.byte p = some b → b ≠ '!' ∧ b ≠ '\'' ∧ b ≠ '"' ∧ b.isDigit = false

/-- The word at `p` becomes an identifier with a reserved text: a `_` with anything behind it, or a word outside of
ASCII whose normal form is reserved. -/
def Source.LeaksAt (s : Source) (u : Unicode) (p : Nat) : Prop :=
  s.StartsWord p ∧ ∃ w, s.wordAt u p = some w ∧
    (w = ['_'] ∧ p + 1 < s.len ∨ (∃ c ∈ w, 128 ≤ c.toNat) ∧ u.nfkc w ∈ reserved)

variable {s : Source} {ov : Overflow} {u : Unicode} {st st' : Lexer} {p stop : Nat} {kind : TokenKind} {name w : Text}

theorem mem_keywords_of_matchKeyword (h : matchKeyword w = some kind) :
    ∃ k ∈ keywords, k.1.toList = w ∧ k.2 = kind := by
  obtain ⟨k, hk, rfl⟩ := Option.map_eq_some_iff.1 h
  exact ⟨k, List.mem_of_find?_eq_some hk, by simpa using List.find?_some hk, rfl⟩

theorem matchKeyword_eq_none : matchKeyword w = none ↔ ∀ k ∈ keywords, k.1.toList ≠ w := by
  simp [matchKeyword]

theorem keywords_not_ident : ∀ k ∈ keywords, k.2.ident? = none := by
  decide

theorem mem_reserved : w ∈ reserved ↔
    (∃ k ∈ keywords, k.1.toList = w) ∨ w = "_".toList ∨ w = "inf".toList ∨ w = "nan".toList := by
  simp [reserved]

/-- A word is an identifier if it is neither a keyword nor a name of a number, and then it is normalized. -/
theorem wordKind_ident : wordKind u w = .ident name ↔
    (¬ (w = "inf".toList ∨ w = "nan".toList) ∧ ∀ k ∈ keywords, k.1.toList ≠ w) ∧ name = u.nfkc w := by
  unfold wordKind
  split
  · next hfloat => exact iff_of_false TokenKind.noConfusion fun h => h.1.1 hfloat
  · next hfloat =>
    cases hk : matchKeyword w with
    | some kind =>
      obtain ⟨k, hmem, hw, rfl⟩ := mem_keywords_of_matchKeyword hk
      refine iff_of_false (fun h => ?_) fun h => h.1.2 k hmem hw
      have hnone := keywords_not_ident k hmem
      rw [show k.2 = .ident name from h] at hnone
      cases hnone
    | none =>
      have hnot := matchKeyword_eq_none.1 hk
      constructor
      · exact fun h => ⟨⟨hfloat, hnot⟩, (TokenKind.ident.inj h).symm⟩
      · rintro ⟨-, rfl⟩
        rfl

theorem reserved_ascii : ∀ w ∈ reserved, ∀ c ∈ w, c.toNat < 128 := by
  have h : reserved.all (fun w => w.all fun c => c.toNat < 128) = true := by decide
  exact fun w hw c hc => of_decide_eq_true (List.all_eq_true.1 (List.all_eq_true.1 h w hw) c hc)

theorem isStringPrefix_ascii (h : isStringPrefix w = true) : ∀ c ∈ w, c.toNat < 128 := by
  have hprefixes : ["r", "b", "f", "rb", "br", "rf", "fr"].all (fun p => p.toList.all fun c => c.toNat < 128) = true := by
    decide
  obtain ⟨p, hp, hw⟩ := List.any_eq_true.1 h
  intro c hc
  have hlower : c.toLower ∈ p.toList := by
    rw [← of_decide_eq_true hw]
    exact List.mem_map_of_mem hc
  have hlt := of_decide_eq_true (List.all_eq_true.1 (List.all_eq_true.1 hprefixes p hp) _ hlower)
  by_contra hge
  have hsame : c.toLower = c := by
    unfold Char.toLower
    split
    · next hupper =>
      have hle : c.toNat ≤ 90 := hupper.2
      omega
    · rfl
  rw [hsame] at hlt
  exact hge hlt

/-! ## The token at a word -/

theorem lexString_not_ident {start : Nat} {pre : StrPrefix} (h : lexString s start p pre = .ok (kind, stop)) :
    kind.ident? = none := by
  obtain ⟨quote, -, h⟩ := except_bind_ok.1 h
  obtain ⟨body, -, h⟩ := except_bind_ok.1 h
  obtain ⟨rfl, -⟩ := Prod.mk.inj (Except.ok.inj h)
  split <;> rfl

theorem lexFString_not_ident {start : Nat} (h : lexFString s ov start p = .ok (kind, stop)) : kind.ident? = none := by
  obtain ⟨quote, -, h⟩ := except_bind_ok.1 h
  obtain ⟨body, -, h⟩ := except_bind_ok.1 h
  obtain ⟨rfl, -⟩ := Prod.mk.inj (Except.ok.inj h)
  rfl

theorem lexNumberToken_not_ident {start : Nat} (h : lexNumberToken s start = .ok (kind, stop)) : kind.ident? = none := by
  obtain ⟨rest, -, h⟩ := except_bind_ok.1 h
  split at h
  · cases h
  · cases h
  · obtain ⟨rfl, -⟩ := Prod.mk.inj (Except.ok.inj h)
    next tok _ _ _ => cases tok.kind <;> rfl

/-- The word behind its first character is what `lex_word_or_string_with_prefix` cuts out. -/
theorem slice_word {c : Char} {rest : Text} (hrest : Text.dropBytes s.text p = some (c :: rest))
    (hstop : wordEnd s u (p + c.utf8Size) = .ok stop) :
    s.slice p stop = .ok (c :: rest.takeWhile (isXidContinue u)) := by
  have hlen : stop = p + (Text.bytes (c :: rest.takeWhile (isXidContinue u))).length := by
    rw [wordEnd, Source.sliceFrom, Text.isBoundary_of_cons hrest] at hstop
    rw [Text.length_bytes_cons, ← Nat.add_assoc]
    exact (Except.ok.inj hstop).symm
  have hsplit : c :: rest = (c :: rest.takeWhile (isXidContinue u)) ++ rest.dropWhile (isXidContinue u) := by
    rw [List.cons_append, List.takeWhile_append_dropWhile]
  have htake := Text.takeBytes_append (c :: rest.takeWhile (isXidContinue u)) (rest.dropWhile (isXidContinue u))
  rw [Source.slice, Text.slice, hlen, if_pos (Nat.le_add_right _ _), hrest, Nat.add_sub_cancel_left, Option.bind_some, hsplit,
    htake]

/-- No byte behind a `_` means that the source ends with it. -/
theorem eq_nil_of_byte {rest : Text} (hrest : Text.dropBytes s.text p = some ('_' :: rest))
    (hend : s.byte (p + 1) = none) : rest = [] := by
  cases rest with
  | nil => rfl
  | cons c rest =>
    have hdrop := Text.isBoundary_of_cons hrest
    rw [show '_'.utf8Size = 1 from rfl] at hdrop
    have hle := (show s.IsBoundary (p + 1 + c.utf8Size) from
      Option.isSome_iff_exists.2 ⟨rest, Text.isBoundary_of_cons hdrop⟩).le_len
    have hpos := c.utf8Size_pos
    have hlen := Source.byte_eq_none.1 hend
    omega

/-- What the word at `p` becomes, and where it ends if it is no prefix of a string. -/
theorem lexWord_cases (h : lexWord s ov u p = .ok (kind, stop)) : ∃ w, s.wordAt u p = some w ∧
    (w = ['_'] ∧ s.byte (p + 1) = none ∧ kind = .underscore ∨
      ¬ (w = ['_'] ∧ s.byte (p + 1) = none) ∧
        (kind.ident? = none ∧ isStringPrefix w = true ∨ kind = wordKind u w ∧ s.slice p stop = .ok w)) := by
  obtain ⟨c, hc, h⟩ := except_bind_ok.1 h
  obtain ⟨rest, hrest⟩ : ∃ rest, Text.dropBytes s.text p = some (c :: rest) := by
    unfold Source.currentChar Source.sliceFrom at hc
    cases hdrop : Text.dropBytes s.text p with
    | none =>
      rw [hdrop] at hc
      cases hc
    | some rest =>
      rw [hdrop] at hc
      cases rest with
      | nil => cases hc
      | cons c' rest =>
        cases hc
        exact ⟨rest, rfl⟩
  refine ⟨c :: rest.takeWhile (isXidContinue u), by rw [Source.wordAt, hrest], ?_⟩
  split at h
  · next hunder =>
    cases h
    obtain ⟨rfl, hend⟩ := hunder
    obtain rfl := eq_nil_of_byte hrest hend
    exact Or.inl ⟨rfl, hend, rfl⟩
  · next hnot =>
    refine Or.inr ⟨fun hunder => hnot ⟨(List.cons.inj hunder.1).1, hunder.2⟩, ?_⟩
    split at h
    · cases h
    · obtain ⟨stop', hstop, h⟩ := except_bind_ok.1 h
      obtain ⟨word, hword, h⟩ := except_bind_ok.1 h
      obtain rfl : c :: rest.takeWhile (isXidContinue u) = word :=
        Except.ok.inj ((slice_word hrest hstop).symm.trans hword)
      split at h
      · next hstring =>
        refine Or.inl ⟨?_, hstring.2⟩
        split at h
        · exact lexFString_not_ident h
        · exact lexString_not_ident h
      · cases h
        exact Or.inr ⟨rfl, hword⟩

theorem lexWord_ok (h : lexWord s ov u p = .ok (kind, stop)) : ∃ w, s.wordAt u p = some w ∧
    (w = ['_'] ∧ s.byte (p + 1) = none ∧ kind = .underscore ∨
      ¬ (w = ['_'] ∧ s.byte (p + 1) = none) ∧
        (kind.ident? = none ∧ isStringPrefix w = true ∨ kind = wordKind u w)) := by
  obtain ⟨w, hw, hunder | ⟨hnot, hprefix | ⟨hkind, -⟩⟩⟩ := lexWord_cases h
  · exact ⟨w, hw, Or.inl hunder⟩
  · exact ⟨w, hw, Or.inr ⟨hnot, Or.inl hprefix⟩⟩
  · exact ⟨w, hw, Or.inr ⟨hnot, Or.inr hkind⟩⟩

theorem operators_not_ident : ∀ op ∈ operators, op.2.ident? = none := by
  decide

/-- A token that does not start a word is no identifier; at a word the token is what the word becomes. -/
theorem lexToken_ok {last : Option TokenKind} (h : lexToken s ov u last p = .ok (kind, stop)) :
    kind.ident? = none ∧ ¬ s.StartsWord p ∨ s.StartsWord p ∧ lexWord s ov u p = .ok (kind, stop) := by
  obtain ⟨b, hb, h⟩ := except_bind_ok.1 h
  have hbyte : s.byte p = some b := by
    unfold Source.index at hb
    split at hb
    · next hb' =>
      cases hb
      exact hb'
    · cases hb
  split at h
  · next hdot =>
    simp only [Bool.and_eq_true, decide_eq_true_eq] at hdot
    refine Or.inl ⟨lexNumberToken_not_ident h, fun hstart => ?_⟩
    have hdots := List.find?_eq_none.1 hstart.1 (".", .dot) (by decide)
    obtain ⟨hlt, hget⟩ := List.getElem?_eq_some_iff.1 hbyte
    apply hdots
    rw [Source.startsWith, List.drop_eq_getElem_cons hlt, hget, hdot.1.1.1]
    rfl
  · split at h
    · next op hop =>
      cases h
      refine Or.inl ⟨operators_not_ident op (List.mem_of_find?_eq_some hop), fun hstart => ?_⟩
      rw [hstart.1] at hop
      cases hop
    · next hop =>
      split at h
      · cases h
      · next hbang =>
        split at h
        · next hquote =>
          refine Or.inl ⟨lexString_not_ident h, fun hstart => ?_⟩
          obtain ⟨-, hsingle, hdouble, -⟩ := hstart.2 b hbyte
          exact hquote.elim hsingle hdouble
        · next hquote =>
          split at h
          · next hdigit =>
            refine Or.inl ⟨lexNumberToken_not_ident h, fun hstart => ?_⟩
            rw [(hstart.2 b hbyte).2.2.2] at hdigit
            cases hdigit
          · next hdigit =>
            refine Or.inr ⟨⟨hop, fun b' hb' => ?_⟩, h⟩
            obtain rfl := Option.some.inj (hbyte.symm.trans hb')
            exact ⟨hbang, fun h => hquote (Or.inl h), fun h => hquote (Or.inr h), by simpa using hdigit⟩

/-- The texts of ASCII are in normal form. -/
def Unicode.KeepsAscii (u : Unicode) : Prop :=
  ∀ w, (∀ c ∈ w, c.toNat < 128) → u.nfkc w = w

theorem lexToken_ident {last : Option TokenKind} (h : lexToken s ov u last p = .ok (.ident name, stop)) :
    ∃ w, s.wordAt u p = some w ∧ name = u.nfkc w := by
  rcases lexToken_ok h with ⟨hnone, -⟩ | ⟨-, h⟩
  · cases hnone
  · obtain ⟨w, hw, ⟨-, -, hkind⟩ | ⟨-, ⟨hnone, -⟩ | hkind⟩⟩ := lexWord_ok h
    · cases hkind
    · cases hnone
    · exact ⟨w, hw, (wordKind_ident.1 hkind.symm).2⟩

theorem lexToken_ident_slice {last : Option TokenKind} (h : lexToken s ov u last p = .ok (.ident name, stop)) :
    ∃ w, s.wordAt u p = some w ∧ s.slice p stop = .ok w := by
  rcases lexToken_ok h with ⟨hnone, -⟩ | ⟨-, h⟩
  · cases hnone
  · obtain ⟨w, hw, ⟨-, -, hkind⟩ | ⟨-, ⟨hnone, -⟩ | ⟨-, hslice⟩⟩⟩ := lexWord_cases h
    · cases hkind
    · cases hnone
    · exact ⟨w, hw, hslice⟩

/-- **A leak.** The token at `p` is an identifier with a reserved text just if the word there leaks. -/
theorem lexToken_leaks_iff {last : Option TokenKind} (hu : u.KeepsAscii) (h : lexToken s ov u last p = .ok (kind, stop)) :
    (∃ name ∈ reserved, kind = .ident name) ↔ s.LeaksAt u p := by
  rcases lexToken_ok h with ⟨hnone, hstart⟩ | ⟨hstart, h⟩
  · refine iff_of_false ?_ fun hleak => hstart hleak.1
    rintro ⟨name, -, rfl⟩
    cases hnone
  obtain ⟨w, hw, hcases⟩ := lexWord_ok h
  constructor
  · rintro ⟨name, hname, rfl⟩
    obtain ⟨-, -, hkind⟩ | ⟨hunder, ⟨hnone, -⟩ | hkind⟩ := hcases
    · cases hkind
    · cases hnone
    · obtain ⟨⟨hfloat, hkeyword⟩, rfl⟩ := wordKind_ident.1 hkind.symm
      refine ⟨hstart, w, hw, ?_⟩
      by_cases hascii : ∀ c ∈ w, c.toNat < 128
      · rw [hu w hascii, mem_reserved] at hname
        rcases hname with ⟨k, hk, hkw⟩ | rfl | hname
        · exact absurd hkw (hkeyword k hk)
        · refine Or.inl ⟨rfl, ?_⟩
          by_contra hend
          exact hunder ⟨rfl, Source.byte_eq_none.2 (Nat.not_lt.1 hend)⟩
        · exact absurd hname hfloat
      · push Not at hascii
        exact Or.inr ⟨hascii, hname⟩
  · rintro ⟨-, w', hw', hleak⟩
    obtain rfl := Option.some.inj (hw'.symm.trans hw)
    rcases hleak with ⟨rfl, hmore⟩ | ⟨⟨c, hc, hge⟩, hreserved⟩
    · have hbyte : s.byte (p + 1) ≠ none := fun hend => Nat.not_lt.2 (Source.byte_eq_none.1 hend) hmore
      obtain ⟨-, hend, -⟩ | ⟨-, ⟨-, hstring⟩ | hkind⟩ := hcases
      · exact absurd hend hbyte
      · exact absurd hstring (by decide)
      · refine ⟨['_'], by decide, hkind.trans (wordKind_ident.2 ⟨by decide, ?_⟩)⟩
        exact (hu _ (List.forall_mem_singleton.2 (by decide))).symm
    · have hspelled : w' ∉ reserved := fun hmem => Nat.not_lt.2 hge (reserved_ascii w' hmem c hc)
      obtain ⟨rfl, -, -⟩ | ⟨-, ⟨-, hstring⟩ | hkind⟩ := hcases
      · exact absurd (by decide) hspelled
      · exact absurd (isStringPrefix_ascii hstring c hc) (Nat.not_lt.2 hge)
      · refine ⟨u.nfkc w', hreserved, hkind.trans (wordKind_ident.2 ⟨⟨fun hfloat => ?_, fun k hk hkw => ?_⟩, rfl⟩)⟩
        · exact hspelled (mem_reserved.2 (Or.inr (Or.inr hfloat)))
        · exact hspelled (mem_reserved.2 (Or.inl ⟨k, hk, hkw⟩))

/-! ## One turn -/

/-- A blank, a comment, a continued line or the end of one stands at `p`. -/
def Source.SkipsAt (s : Source) (p : Nat) : Prop :=
  ∃ b, s.byte p = some b ∧ (b = ' ' ∨ b = '\t' ∨ b = '#' ∨ b = '\n' ∨ b = '\r' ∨
    b = '\\' ∧ (s.byte (p + 1) = some '\n' ∨ s.byte (p + 1) = some '\r'))

namespace Lexer

/-- More tokens, with no identifier among them. -/
def Adds (out out' : List Token) : Prop :=
  ∃ more, out' = out ++ more ∧ ∀ t ∈ more, t.kind.ident? = none

/-- More tokens, all of them for the layout. -/
def AddsLayout (out out' : List Token) : Prop :=
  ∃ more, out' = out ++ more ∧ ∀ t ∈ more, t.kind.isLayout = true

theorem AddsLayout.adds {out out' : List Token} (h : AddsLayout out out') : Adds out out' := by
  obtain ⟨more, rfl, hmore⟩ := h
  refine ⟨more, rfl, fun t ht => ?_⟩
  have hlayout := hmore t ht
  cases hk : t.kind
  case ident => rw [hk] at hlayout; cases hlayout
  all_goals rfl

theorem AddsLayout.refl (out : List Token) : AddsLayout out out :=
  ⟨[], (List.append_nil _).symm, fun _ h => absurd h List.not_mem_nil⟩

theorem AddsLayout.trans {a b c : List Token} (h : AddsLayout a b) (h' : AddsLayout b c) : AddsLayout a c := by
  obtain ⟨more, rfl, hmore⟩ := h
  obtain ⟨more', rfl, hmore'⟩ := h'
  refine ⟨more ++ more', List.append_assoc _ _ _, fun t ht => ?_⟩
  exact (List.mem_append.1 ht).elim (hmore t) (hmore' t)

theorem addsLayout_push (st : Lexer) {kind : TokenKind} (start stop : Nat) (h : kind.isLayout = true) :
    AddsLayout st.out (st.push s kind start stop).out :=
  ⟨[_], rfl, fun t ht => by rw [List.mem_singleton.1 ht]; exact h⟩

theorem addsLayout_emitNewlineIfNeeded (st : Lexer) : AddsLayout st.out (emitNewlineIfNeeded s st).out := by
  unfold emitNewlineIfNeeded
  split
  · exact .refl _
  · exact addsLayout_push st _ _ rfl

theorem addsLayout_popIndents {spaces lineStart : Nat} (stack : List Nat) (st : Lexer)
    (h : popIndents s spaces lineStart stack st = .ok st') : AddsLayout st.out st'.out := by
  induction stack generalizing st with
  | nil => cases h
  | cons top rest ih =>
    rw [popIndents] at h
    split at h
    · exact (addsLayout_push { st with indents := rest } _ _ rfl).trans (ih _ h)
    · cases h
      exact .refl _

theorem addsLayout_handleLineStart (h : handleLineStart s ov st = .ok st') : AddsLayout st.out st'.out := by
  obtain ⟨i, -, h⟩ := except_bind_ok.1 h
  dsimp only at h
  split at h
  · cases h
  · split at h
    · cases h; exact .refl _
    · cases h; exact .refl _
    · cases h; exact .refl _
    · cases h; exact .refl _
    · split at h
      · cases h
      · split at h
        · cases h
          exact addsLayout_push { st with pos := i.pos, indents := i.spaces :: st.indents } _ _ rfl
        · obtain ⟨st₁, hpop, h⟩ := except_bind_ok.1 h
          split at h
          · cases h
          · cases h
            exact (addsLayout_popIndents _ { st with pos := i.pos } hpop : AddsLayout st.out st₁.out)

theorem addsLayout_flushIndents (stack : List Nat) (st : Lexer) :
    AddsLayout st.out (flushIndents s stack st).out := by
  induction stack generalizing st with
  | nil => exact .refl _
  | cons top stack ih =>
    cases stack with
    | nil => exact .refl _
    | cons next rest => exact (addsLayout_push { st with indents := next :: rest } _ _ rfl).trans (ih _)

theorem addsLayout_finish (st : Lexer) : AddsLayout st.out (st.finish s) :=
  (addsLayout_emitNewlineIfNeeded st).trans ((addsLayout_flushIndents _ _).trans (addsLayout_push _ _ _ rfl))

/-- The state behind the white space at the start of a line. -/
def startLine (s : Source) (ov : Overflow) (st : Lexer) : Except Halt Lexer :=
  if st.atLineStart ∧ st.bracketDepth = 0 then handleLineStart s ov st else pure st

theorem addsLayout_startLine (h : startLine s ov st = .ok st') : AddsLayout st.out st'.out := by
  unfold startLine at h
  split at h
  · exact addsLayout_handleLineStart h
  · cases h
    exact .refl _

/-- The state is about to read a token. -/
def AtToken (s : Source) (st : Lexer) : Prop :=
  st.pos < s.len ∧ ¬ s.SkipsAt st.pos

/-- The token that stands at the position of `st` is `t`. -/
def ReadsToken (s : Source) (ov : Overflow) (u : Unicode) (st : Lexer) (t : Token) : Prop :=
  ∃ last stop, lexToken s ov u last st.pos = .ok (t.kind, stop)

/-- And its span is where it stands. -/
def ReadsSpan (s : Source) (ov : Overflow) (u : Unicode) (st : Lexer) (t : Token) : Prop :=
  ∃ last stop, lexToken s ov u last st.pos = .ok (t.kind, stop) ∧ t.span = s.span st.pos stop

theorem ReadsSpan.token {t : Token} (h : ReadsSpan s ov u st t) : ReadsToken s ov u st t := by
  obtain ⟨last, stop, htoken, -⟩ := h
  exact ⟨last, stop, htoken⟩

theorem lexItem_ok (h : lexItem s ov u st = .ok st') :
    s.SkipsAt st.pos ∧ AddsLayout st.out st'.out ∨
      ¬ s.SkipsAt st.pos ∧ ∃ t, ReadsSpan s ov u st t ∧ st'.out = st.out ++ [t] := by
  obtain ⟨b, hb, h⟩ := except_bind_ok.1 h
  have hbyte : s.byte st.pos = some b := by
    unfold Source.index at hb
    split at hb
    · next hb' =>
      cases hb
      exact hb'
    · cases hb
  split at h
  · next hblank =>
    cases h
    exact Or.inl ⟨⟨b, hbyte, hblank.imp_right .inl⟩, .refl _⟩
  · next hblank =>
    split at h
    · next hcomment =>
      cases h
      exact Or.inl ⟨⟨b, hbyte, .inr (.inr (.inl hcomment))⟩, .refl _⟩
    · next hcomment =>
      split at h
      · next hcont =>
        cases h
        exact Or.inl ⟨⟨b, hbyte, .inr (.inr (.inr (.inr (.inr ⟨hcont.1, .inl hcont.2⟩))))⟩, .refl _⟩
      · next hcont =>
        split at h
        · next hreturn =>
          cases h
          exact Or.inl ⟨⟨b, hbyte, .inr (.inr (.inr (.inr (.inr ⟨hreturn.1, .inr hreturn.2⟩))))⟩, .refl _⟩
        · next hreturn =>
          split at h
          · next hline =>
            cases h
            refine Or.inl ⟨⟨b, hbyte, .inr (.inr (.inr (hline.imp_right .inl)))⟩, ?_⟩
            unfold endLine
            dsimp only
            split
            · exact addsLayout_emitNewlineIfNeeded { st with pos := consumeNewline s st.pos }
            · exact .refl _
          · next hline =>
            obtain ⟨⟨kind, stop⟩, htoken, h⟩ := except_bind_ok.1 h
            obtain ⟨depth, -, h⟩ := except_bind_ok.1 h
            cases h
            refine Or.inr ⟨?_, ⟨kind, s.span st.pos stop⟩, ⟨_, stop, htoken, rfl⟩, rfl⟩
            rintro ⟨b', hb', hskip⟩
            obtain rfl := Option.some.inj (hbyte.symm.trans hb')
            rcases hskip with h | h | h | h | h | ⟨h, hnext | hnext⟩
            · exact hblank (.inl h)
            · exact hblank (.inr h)
            · exact hcomment h
            · exact hline (.inl h)
            · exact hline (.inr h)
            · exact hcont ⟨h, hnext⟩
            · exact hreturn ⟨h, hnext⟩

theorem turn_eq (st : Lexer) :
    turn s ov u st = startLine s ov st >>= fun st => if s.len ≤ st.pos then .ok st else lexItem s ov u st := by
  unfold turn startLine
  split <;> rfl

/-- A turn goes to the start of a token and reads it, or has none to read. -/
theorem turn_ok (h : turn s ov u st = .ok st') : ∃ st₁, startLine s ov st = .ok st₁ ∧
    (¬ AtToken s st₁ ∧ AddsLayout st₁.out st'.out ∨
      AtToken s st₁ ∧ ∃ t, ReadsSpan s ov u st₁ t ∧ st'.out = st₁.out ++ [t]) := by
  rw [turn_eq] at h
  obtain ⟨st₁, hstart, h⟩ := except_bind_ok.1 h
  refine ⟨st₁, hstart, ?_⟩
  split at h
  · next hend =>
    cases h
    exact Or.inl ⟨fun hat => Nat.not_lt.2 hend hat.1, .refl _⟩
  · next hmore =>
    have hlt := Nat.not_le.1 hmore
    rcases lexItem_ok h with ⟨hskip, hadds⟩ | ⟨hskip, htoken⟩
    · exact Or.inl ⟨fun hat => hat.2 hskip, hadds⟩
    · exact Or.inr ⟨⟨hlt, hskip⟩, htoken⟩

/-! ## Runs -/

/-- `st` is a state of the run over the source, about to read a token. -/
def Reads (s : Source) (ov : Overflow) (u : Unicode) (st : Lexer) : Prop :=
  AtToken s st ∧ ∃ st₀, Turns s ov u .new st₀ ∧ st₀.pos < s.len ∧ startLine s ov st₀ = .ok st

theorem prefix_of_adds {out out' : List Token} (h : Adds out out') : out <+: out' := by
  obtain ⟨more, rfl, -⟩ := h
  exact List.prefix_append _ _

theorem prefix_of_turn (h : turn s ov u st = .ok st') : st.out <+: st'.out := by
  obtain ⟨st₁, hstart, ⟨-, hadds⟩ | ⟨-, t, -, hout⟩⟩ := turn_ok h
  · exact (prefix_of_adds (addsLayout_startLine hstart).adds).trans (prefix_of_adds hadds.adds)
  · exact (prefix_of_adds (addsLayout_startLine hstart).adds).trans (hout ▸ List.prefix_append _ _)

theorem prefix_of_turns (h : Turns s ov u st st') : st.out <+: st'.out := by
  induction h with
  | refl => exact List.prefix_refl _
  | tail _ hturn ih => exact ih.trans (prefix_of_turn hturn.2)

theorem turns_of_loop (fuel : Nat) (st : Lexer) (h : loop s ov u fuel st = .ok st') :
    Turns s ov u st st' ∧ ¬ st'.pos < s.len := by
  induction fuel generalizing st with
  | zero => cases h
  | succ fuel ih =>
    rw [loop] at h
    split at h
    · next hlt =>
      obtain ⟨st₁, hturn, h⟩ := except_bind_ok.1 h
      obtain ⟨hturns, hend⟩ := ih st₁ h
      exact ⟨hturns.head ⟨hlt, hturn⟩, hend⟩
    · next hend =>
      cases h
      exact ⟨.refl, hend⟩

/-- There is one run: it goes on from each of its states to the end. -/
theorem turns_to_end {last : Lexer} (hlast : Turns s ov u .new last) (hend : ¬ last.pos < s.len)
    (h : Turns s ov u .new st) : Turns s ov u st last := by
  have hunique : Relator.RightUnique fun st st' : Lexer => st.pos < s.len ∧ turn s ov u st = .ok st' := by
    intro a b c hb hc
    exact Except.ok.inj (hb.2.symm.trans hc.2)
  rcases Relation.ReflTransGen.total_of_right_unique hunique h hlast with h | h
  · exact h
  · rcases Relation.ReflTransGen.cases_head h with rfl | ⟨c, hstep, -⟩
    · exact .refl
    · exact absurd hstep.1 hend

/-- Where the run reads a token, the tokens of the source have it. -/
theorem Reads.token {out : List Token} (h : Reads s ov u st) (hlex : lex u ov s = .ok out) :
    ∃ t, ReadsToken s ov u st t ∧ out[st.out.length]? = some t := by
  obtain ⟨last, hloop, hout⟩ := except_bind_ok.1 hlex
  obtain rfl := Except.ok.inj hout
  obtain ⟨hlast, hend⟩ := turns_of_loop _ _ hloop
  obtain ⟨hat, st₀, hturns, hlt, hstart⟩ := h
  rcases Relation.ReflTransGen.cases_head (turns_to_end hlast hend hturns) with rfl | ⟨st', hturn, hrest⟩
  · exact absurd hlt hend
  obtain ⟨st₁, hstart', hcases⟩ := turn_ok hturn.2
  obtain rfl := Except.ok.inj (hstart.symm.trans hstart')
  obtain ⟨hnot, -⟩ | ⟨-, t, htoken, hout⟩ := hcases
  · exact absurd hat hnot
  · have hpre := (prefix_of_turns hrest).trans (prefix_of_adds (addsLayout_finish (s := s) last).adds)
    obtain ⟨more, hmore⟩ := hpre
    refine ⟨t, htoken.token, ?_⟩
    rw [← hmore, hout, List.append_assoc, List.getElem?_append_right (Nat.le_refl _), Nat.sub_self]
    rfl

/-- An identifier among more tokens is one of the old ones. -/
theorem Adds.getElem? {out out' : List Token} (h : Adds out out') {i : Nat} {t : Token} (ht : out'[i]? = some t)
    (hident : t.kind.ident? ≠ none) : out[i]? = some t := by
  obtain ⟨more, rfl, hmore⟩ := h
  rcases Nat.lt_or_ge i out.length with hi | hi
  · rwa [List.getElem?_append_left hi] at ht
  · rw [List.getElem?_append_right hi] at ht
    exact absurd (hmore t (List.mem_of_getElem? ht)) hident

theorem exists_reads (h : Turns s ov u .new st) {i : Nat} {t : Token} (ht : st.out[i]? = some t)
    (hident : t.kind.ident? ≠ none) : ∃ st₁, Reads s ov u st₁ ∧ st₁.out.length = i ∧ ReadsSpan s ov u st₁ t := by
  induction h with
  | refl => cases ht
  | @tail st₀ st' hturns hturn ih =>
    obtain ⟨st₁, hstart, ⟨-, hadds⟩ | ⟨hat, t', htoken, hout⟩⟩ := turn_ok hturn.2
    · exact ih ((addsLayout_startLine hstart).adds.getElem? (hadds.adds.getElem? ht hident) hident)
    · rw [hout] at ht
      rcases Nat.lt_trichotomy i st₁.out.length with hi | rfl | hi
      · rw [List.getElem?_append_left hi] at ht
        exact ih ((addsLayout_startLine hstart).adds.getElem? ht hident)
      · rw [List.getElem?_append_right (Nat.le_refl _), Nat.sub_self] at ht
        cases ht
        exact ⟨st₁, ⟨hat, st₀, hturns, hturn.1, hstart⟩, rfl, htoken⟩
      · rw [List.getElem?_eq_none (by rw [List.length_append]; exact hi)] at ht
        cases ht

theorem exists_reads_of_lex {out : List Token} (hlex : lex u ov s = .ok out) {i : Nat} {t : Token}
    (ht : out[i]? = some t) (hident : t.kind.ident? ≠ none) :
    ∃ st, Reads s ov u st ∧ st.out.length = i ∧ ReadsSpan s ov u st t := by
  obtain ⟨last, hloop, hout⟩ := except_bind_ok.1 hlex
  obtain rfl := Except.ok.inj hout
  exact exists_reads (turns_of_loop _ _ hloop).1 ((addsLayout_finish last).adds.getElem? ht hident) hident

/-- The `i`-th token of the source is read at the word `w`. -/
def Spells (s : Source) (ov : Overflow) (u : Unicode) (i : Nat) (w : Text) : Prop :=
  ∃ st, Reads s ov u st ∧ st.out.length = i ∧ s.wordAt u st.pos = some w

theorem Spells.ident {out : List Token} {i : Nat} {t : Token} (h : Spells s ov u i w) (hlex : lex u ov s = .ok out)
    (ht : out[i]? = some t) (hident : t.kind = .ident name) : name = u.nfkc w := by
  obtain ⟨st, hreads, rfl, hw⟩ := h
  obtain ⟨t', ⟨last, stop, htoken⟩, ht'⟩ := hreads.token hlex
  obtain rfl := Option.some.inj (ht.symm.trans ht')
  rw [hident] at htoken
  obtain ⟨w', hw', rfl⟩ := lexToken_ident htoken
  rw [Option.some.inj (hw.symm.trans hw')]

theorem exists_spells {out : List Token} (hlex : lex u ov s = .ok out) {i : Nat} {t : Token}
    (ht : out[i]? = some t) (hident : t.kind = .ident name) : ∃ w, Spells s ov u i w := by
  obtain ⟨st, hreads, hlen, last, stop, htoken, -⟩ :=
    exists_reads_of_lex hlex ht (by rw [hident]; exact Option.some_ne_none _)
  rw [hident] at htoken
  obtain ⟨w, hw, -⟩ := lexToken_ident htoken
  exact ⟨w, st, hreads, hlen, hw⟩

end Lexer

/-- No identifier has a reserved text. -/
def NoneReserved (out : List Token) : Prop :=
  ∀ t ∈ out, ∀ name, t.kind = .ident name → name ∉ reserved

/-- Every identifier has a spelling, and two are equal just if their spellings have one normal form. -/
def EqualBySpelling (s : Source) (ov : Overflow) (u : Unicode) (out : List Token) : Prop :=
  ∀ i j t t' name name', out[i]? = some t → out[j]? = some t' → t.kind = .ident name → t'.kind = .ident name' →
    (∃ w, Spells s ov u i w) ∧
      ∀ w w', Spells s ov u i w → Spells s ov u j w' → (t.kind = t'.kind ↔ u.nfkc w = u.nfkc w')

theorem equalBySpelling {out : List Token} (h : lex u ov s = .ok out) : EqualBySpelling s ov u out := by
  intro i j t t' name name' ht ht' hname hname'
  refine ⟨exists_spells h ht hname, fun w w' hw hw' => ?_⟩
  rw [hname, hname', hw.ident h ht hname, hw'.ident h ht' hname']
  exact ⟨TokenKind.ident.inj, congrArg TokenKind.ident⟩

/-- **Reserved words as identifiers.** Identifiers are compared by their normal forms, and none has a reserved text just
if the run reads no word that leaks. -/
theorem lex_idents_iff (u : Unicode) (hu : u.KeepsAscii) (ov : Overflow) (s : Source) (out : List Token)
    (h : lex u ov s = .ok out) :
    (NoneReserved out ∧ EqualBySpelling s ov u out) ↔ ∀ st, Reads s ov u st → ¬ s.LeaksAt u st.pos := by
  constructor
  · rintro ⟨hnone, -⟩ st hreads hleak
    obtain ⟨t, ⟨last, stop, htoken⟩, ht⟩ := hreads.token h
    obtain ⟨name, hname, hkind⟩ := (lexToken_leaks_iff hu htoken).2 hleak
    exact hnone t (List.mem_of_getElem? ht) name hkind hname
  · intro hleak
    refine ⟨fun t hmem name hkind hname => ?_, equalBySpelling h⟩
    obtain ⟨i, ht⟩ := List.getElem?_of_mem hmem
    obtain ⟨st, hreads, -, last, stop, htoken, -⟩ := exists_reads_of_lex h ht (by rw [hkind]; exact Option.some_ne_none _)
    exact hleak st hreads ((lexToken_leaks_iff hu htoken).1 ⟨name, hname, hkind⟩)

/-- ASCII and two letters in full width. -/
def Unicode.fullWidth : Unicode where
  isXidStart c := c = 'ｉ' || c = 'ｆ'
  isXidContinue c := c = 'ｉ' || c = 'ｆ'
  nfkc w := w.map fun c => if c = 'ｉ' then 'i' else if c = 'ｆ' then 'f' else c

theorem Unicode.fullWidth_keepsAscii : Unicode.fullWidth.KeepsAscii := by
  intro w hw
  refine (List.map_congr_left fun c hc => ?_).trans (List.map_id w)
  have hne : ∀ d : Char, 128 ≤ d.toNat → c ≠ d := by
    rintro d hd rfl
    exact Nat.not_lt.2 hd (hw c hc)
  rw [if_neg (hne 'ｉ' (by decide)), if_neg (hne 'ｆ' (by decide))]
  rfl

/-- A word that goes on behind its `_` does not leak. -/
theorem lex_idents_word : ∃ out, lex .fullWidth .wraps ⟨"x_".toList, 0⟩ = .ok out ∧
    ∀ st, Reads ⟨"x_".toList, 0⟩ .wraps .fullWidth st → ¬ Source.LeaksAt ⟨"x_".toList, 0⟩ .fullWidth st.pos := by
  have hlex : lex .fullWidth .wraps ⟨"x_".toList, 0⟩ =
      .ok [⟨.ident ['x', '_'], ⟨0, 0, 2⟩⟩, ⟨.newline, ⟨0, 2, 2⟩⟩, ⟨.eof, ⟨0, 2, 2⟩⟩] := by
    rfl
  refine ⟨_, hlex, (lex_idents_iff .fullWidth Unicode.fullWidth_keepsAscii .wraps _ _ hlex).1 ⟨?_, equalBySpelling hlex⟩⟩
  intro t ht name hkind hname
  simp only [List.mem_cons, List.not_mem_nil, or_false] at ht
  rcases ht with rfl | rfl | rfl
  · cases hkind
    exact absurd hname (by decide)
  · cases hkind
  · cases hkind

/-- `_` in front of a colon is an identifier, and so is a keyword in full-width letters, with the text of the
keyword. -/
theorem reserved_words_leak :
    (∃ out, lex .fullWidth .wraps ⟨"_:".toList, 0⟩ = .ok out ∧ ¬ NoneReserved out) ∧
      ∃ out, lex .fullWidth .wraps ⟨"ｉｆ".toList, 0⟩ = .ok out ∧ ¬ NoneReserved out := by
  constructor
  · have hlex : lex .fullWidth .wraps ⟨"_:".toList, 0⟩ =
        .ok [⟨.ident ['_'], ⟨0, 0, 1⟩⟩, ⟨.colon, ⟨0, 1, 2⟩⟩, ⟨.newline, ⟨0, 2, 2⟩⟩, ⟨.eof, ⟨0, 2, 2⟩⟩] := by
      rfl
    exact ⟨_, hlex, fun h => h _ List.mem_cons_self _ rfl (by decide)⟩
  · have hlex : lex .fullWidth .wraps ⟨"ｉｆ".toList, 0⟩ =
        .ok [⟨.ident ['i', 'f'], ⟨0, 0, 6⟩⟩, ⟨.newline, ⟨0, 6, 6⟩⟩, ⟨.eof, ⟨0, 6, 6⟩⟩] := by
      rfl
    exact ⟨_, hlex, fun h => h _ List.mem_cons_self _ rfl (by decide)⟩

end Cobrust.Frontend
