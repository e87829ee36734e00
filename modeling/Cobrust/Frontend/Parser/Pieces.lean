import Cobrust.Frontend.Words

/-!
# The interpolations of an f-string

The text of an interpolation is cut out of the f-string, so it is shorter than the source.
-/

namespace Cobrust.Frontend

open Control

variable {s : Source} {ov : Overflow} {u : Unicode} {p stop : Nat} {kind : TokenKind}

/-- The text that a parser of its own reads is shorter than the source. -/
def FStringPiece.Inside (s : Source) : FStringPiece → Prop
  | .lit _ => True
  | .expr source _ _ => source.length < s.text.length

/-- The interpolations of an f-string are shorter than the source. -/
def TokenKind.Inside (s : Source) (kind : TokenKind) : Prop :=
  ∀ pieces, kind = .fString pieces → ∀ piece ∈ pieces, piece.Inside s

/-- No f-string has this kind. -/
def TokenKind.isFString : TokenKind → Bool
  | .fString _ => true
  | _ => false

theorem TokenKind.inside_of_not (h : kind.isFString = false) : kind.Inside s := by
  rintro pieces rfl
  cases h

theorem length_trim_le (t : Text) : (Text.trim t).length ≤ t.length := by
  unfold Text.trim
  rw [List.length_reverse]
  refine (List.dropWhile_suffix _).length_le.trans ?_
  rw [List.length_reverse]
  exact (List.dropWhile_suffix _).length_le

theorem length_takeBytes_le {t start : Text} {n : Nat} (h : Text.takeBytes t n = some start) :
    start.length ≤ t.length := by
  fun_induction Text.takeBytes t n generalizing start with
  | case1 t =>
    cases h
    exact Nat.zero_le _
  | case2 n => cases h
  | case3 c t n hle ih =>
    obtain ⟨rest, hrest, rfl⟩ := Option.map_eq_some_iff.1 h
    exact Nat.succ_le_succ (ih hrest)
  | case4 c t n hlt => cases h

theorem meets_slice_short {a b : Nat} (ha : 0 < a) :
    Meets (fun _ => True) (fun t : Text => t.length < s.text.length) (s.slice a b) := by
  unfold Source.slice
  split
  · next t ht =>
    unfold Text.slice at ht
    split at ht
    · obtain ⟨rest, hrest, ht⟩ := Option.bind_eq_some_iff.1 ht
      obtain ⟨before, htext, hlen⟩ := Text.dropBytes_eq_some.1 hrest
      have hbefore : 0 < before.length := by
        cases before with
        | nil => exact absurd (hlen.symm.trans rfl) (Nat.ne_of_gt ha)
        | cons c before => exact Nat.succ_pos _
      have hshort : t.length < s.text.length := by
        have hle := length_takeBytes_le ht
        rw [htext, List.length_append]
        omega
      exact hshort
    · cases ht
  · trivial

section Strings

variable {start interpStart : Nat}

/-- The piece that a scan ends with is inside. -/
def InterpEnd.Inside (s : Source) (r : InterpEnd) : Prop :=
  ∀ piece ∈ r.piece.toList, piece.Inside s

theorem inside_flush {body : FBody} (h : ∀ piece ∈ body.pieces, piece.Inside s) :
    ∀ piece ∈ body.flush, piece.Inside s := by
  unfold FBody.flush
  split
  · exact h
  · exact List.forall_mem_append.2 ⟨h, List.forall_mem_singleton.2 trivial⟩

theorem meets_lexFormatSpec_inside {i : Interp} (hstart : 0 < interpStart) :
    Meets (fun _ => True) (InterpEnd.Inside s) (lexFormatSpec s ov start interpStart i) := by
  apply (meets_slice_short hstart).bind
  intro source hsource
  apply Meets.skip
  intro n
  dsimp only
  split
  · trivial
  · apply Meets.skip
    intro spec piece hpiece
    obtain rfl := List.mem_singleton.1 hpiece
    exact (length_trim_le source).trans_lt hsource

theorem meets_lexInterp_inside (hstart : 0 < interpStart) (fuel : Nat) (i : Interp) :
    Meets (fun _ => True) (InterpEnd.Inside s) (lexInterp s ov start interpStart fuel i) := by
  induction fuel generalizing i with
  | zero => trivial
  | succ fuel ih =>
    rw [lexInterp]
    split
    · exact fun _ h => absurd h List.not_mem_nil
    · apply Meets.skip
      intro c
      split
      · split
        · exact ih _
        · exact ih _
      · split
        · exact ih _
        · split
          · exact Meets.skip fun depth => ih _
          · split
            · exact ih _
            · split
              · split
                · apply (meets_slice_short hstart).bind
                  intro source hsource piece hpiece
                  obtain rfl := List.mem_singleton.1 hpiece
                  exact (length_trim_le source).trans_lt hsource
                · exact ih _
              · split
                · exact meets_lexFormatSpec_inside hstart
                · split
                  · exact ih _
                  · exact Meets.skip fun ch => ih _

theorem meets_lexFStringBody_inside {quote : Char} {triple : Bool} (fuel : Nat) (body : FBody)
    (hbody : ∀ piece ∈ body.pieces, piece.Inside s) :
    Meets (fun _ => True) (fun r => ∀ piece ∈ r.pieces, piece.Inside s)
      (lexFStringBody s ov start quote triple fuel body) := by
  induction fuel generalizing body with
  | zero => trivial
  | succ fuel ih =>
    rw [lexFStringBody]
    split
    · trivial
    · split
      · trivial
      · split
        · split
          · exact hbody
          · split
            · exact hbody
            · exact ih _ hbody
        · split
          · exact ih _ hbody
          · split
            · exact ih _ hbody
            · split
              · apply (meets_lexInterp_inside (Nat.succ_pos _) _ _).bind
                intro r hr
                split
                · trivial
                · exact ih _ (List.forall_mem_append.2 ⟨inside_flush hbody, hr⟩)
              · exact Meets.skip fun ch => ih _ hbody

theorem meets_lexFString_inside : Meets (fun _ => True) (fun r => r.1.Inside s) (lexFString s ov start p) := by
  apply Meets.skip
  intro quote
  apply (meets_lexFStringBody_inside _ _ fun _ h => absurd h List.not_mem_nil).bind
  rintro body hbody pieces hpieces
  obtain rfl := TokenKind.fString.inj hpieces
  exact inside_flush hbody

end Strings

/-! ## Tokens -/

theorem operators_not_fString : ∀ op ∈ operators, op.2.isFString = false := by
  have h : operators.all (fun op => op.2.isFString = false) = true := by decide
  exact fun op hop => of_decide_eq_true (List.all_eq_true.1 h op hop)

theorem keywords_not_fString : ∀ k ∈ keywords, k.2.isFString = false := by
  have h : keywords.all (fun k => k.2.isFString = false) = true := by decide
  exact fun k hk => of_decide_eq_true (List.all_eq_true.1 h k hk)

theorem wordKind_not_fString (word : Text) : (wordKind u word).isFString = false := by
  unfold wordKind
  split
  · rfl
  · unfold matchKeyword
    cases hk : keywords.find? fun k => k.1.toList = word with
    | none => rfl
    | some k => exact keywords_not_fString k (List.mem_of_find?_eq_some hk)

theorem meets_lexNumberToken_inside : Meets (fun _ => True) (fun r => r.1.Inside s) (lexNumberToken s p) := by
  apply Meets.skip
  intro rest
  split
  · trivial
  · trivial
  · next tok _ _ => exact TokenKind.inside_of_not (by cases tok.kind <;> rfl)

theorem meets_lexString_inside {start : Nat} {pre : StrPrefix} :
    Meets (fun _ => True) (fun r => r.1.Inside s) (lexString s start p pre) := by
  refine Meets.skip fun quote => Meets.skip fun body => TokenKind.inside_of_not ?_
  split <;> rfl

theorem meets_lexWord_inside : Meets (fun _ => True) (fun r => r.1.Inside s) (lexWord s ov u p) := by
  apply Meets.skip
  intro firstCh
  split
  · exact TokenKind.inside_of_not rfl
  · split
    · trivial
    · refine Meets.skip fun stop => Meets.skip fun word => ?_
      split
      · split
        · exact meets_lexFString_inside
        · exact meets_lexString_inside
      · exact TokenKind.inside_of_not (wordKind_not_fString word)

theorem meets_lexToken_inside {last : Option TokenKind} :
    Meets (fun _ => True) (fun r => r.1.Inside s) (lexToken s ov u last p) := by
  apply Meets.skip
  intro b
  split
  · exact meets_lexNumberToken_inside
  · split
    · next op hop => exact TokenKind.inside_of_not (operators_not_fString op (List.mem_of_find?_eq_some hop))
    · split
      · trivial
      · split
        · exact meets_lexString_inside
        · split
          · exact meets_lexNumberToken_inside
          · exact meets_lexWord_inside

namespace Lexer

variable {st st' : Lexer}

theorem inside_of_addsLayout {out out' : List Token} (h : AddsLayout out out')
    (hout : ∀ t ∈ out, t.kind.Inside s) : ∀ t ∈ out', t.kind.Inside s := by
  obtain ⟨more, rfl, hmore⟩ := h
  refine List.forall_mem_append.2 ⟨hout, fun t ht => TokenKind.inside_of_not ?_⟩
  have hlayout := hmore t ht
  cases hk : t.kind
  case fString => rw [hk] at hlayout; cases hlayout
  all_goals rfl

theorem inside_of_turns (h : Turns s ov u .new st) : ∀ t ∈ st.out, t.kind.Inside s := by
  induction h with
  | refl => exact fun t ht => absurd ht List.not_mem_nil
  | tail _ hturn ih =>
    obtain ⟨st₁, hstart, ⟨-, hadds⟩ | ⟨-, t, ⟨last, stop, htoken, -⟩, hout⟩⟩ := turn_ok hturn.2
    · exact inside_of_addsLayout hadds (inside_of_addsLayout (addsLayout_startLine hstart) ih)
    · have hkind : Meets (fun _ => True) (fun r => r.1.Inside s) (lexToken s ov u last st₁.pos) :=
        meets_lexToken_inside
      rw [htoken] at hkind
      rw [hout]
      refine List.forall_mem_append.2 ⟨inside_of_addsLayout (addsLayout_startLine hstart) ih, ?_⟩
      exact List.forall_mem_singleton.2 hkind

end Lexer

/-- What an f-string of a source interpolates is shorter than the source. -/
theorem lex_inside {out : List Token} (h : lex u ov s = .ok out) : ∀ t ∈ out, t.kind.Inside s := by
  obtain ⟨last, hloop, hout⟩ := except_bind_ok.1 h
  obtain rfl := Except.ok.inj hout
  have hturns := (Lexer.turns_of_loop _ _ hloop).1
  exact Lexer.inside_of_addsLayout (Lexer.addsLayout_finish last) (Lexer.inside_of_turns hturns)

end Cobrust.Frontend
