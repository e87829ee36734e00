import Cobrust.Text.Split

/-!
# Texts that end with a marker

A reader that takes lines from a text until one holds a marker. The first character of the marker is in no other
place of it, so that it cannot begin inside of itself.

* `readUntil_append`: what is read of a text without the marker that is followed by the marker.
* `readUntil_more`: what comes behind the line with the marker is left alone.
-/

namespace Text

/-- The text before the first occurrence of the marker. -/
def before (marker : Text) : Text → Option Text
  | [] => none
  | c :: rest => if marker.isPrefixOf (c :: rest) then some [] else (before marker rest).map (c :: ·)

/-- The reader with the part of a line that it has read so far: what it gives and what is left, or nothing if it is
still reading at the end of the text. -/
def readFrom (marker : Text) : Text → Text → Option (Text × Text)
  | _, [] => none
  | line, c :: rest =>
    if c = '\n' then
      match before marker (line ++ ['\n']) with
      | some text => some (text, rest)
      | none => (readFrom marker [] rest).map fun (text, rest) => (line ++ '\n' :: text, rest)
    else readFrom marker (line ++ [c]) rest

def readUntil (marker stream : Text) : Option (Text × Text) :=
  readFrom marker [] stream

/-- The first character of the marker is in no other place of it, and it is one line. -/
structure IsMarker (marker : Text) : Prop where
  head : ∃ c rest, marker = c :: rest ∧ c ∉ rest
  line : '\n' ∉ marker

variable {marker line s u v p : Text}

theorem before_eq_some (h : before marker s = some u) : (∃ v, s = u ++ (marker ++ v)) ∧ (marker ≠ [] → ¬ marker <:+: u) := by
  induction s generalizing u with
  | nil => cases h
  | cons c s ih =>
    rw [before] at h
    split_ifs at h with hpre
    · cases h
      obtain ⟨v, hv⟩ := List.isPrefixOf_iff_prefix.1 hpre
      exact ⟨⟨v, hv.symm⟩, fun hne hin => hne (List.infix_nil.1 hin)⟩
    · obtain ⟨u', hu', rfl⟩ := Option.map_eq_some_iff.1 h
      obtain ⟨⟨v, rfl⟩, hno⟩ := ih hu'
      refine ⟨⟨v, rfl⟩, fun hne hin => ?_⟩
      rcases List.infix_cons_iff.1 hin with hin | hin
      · exact hpre (List.isPrefixOf_iff_prefix.2 (hin.trans (List.prefix_append (c :: u') (marker ++ v))))
      · exact hno hne hin

theorem infix_of_before (h : before marker s = some u) : marker <:+: s := by
  obtain ⟨⟨v, rfl⟩, -⟩ := before_eq_some h
  exact ⟨u, v, by rw [List.append_assoc]⟩

theorem before_eq_none (h : before marker s = none) (hne : marker ≠ []) : ¬ marker <:+: s := by
  induction s with
  | nil => exact fun hin => hne (List.infix_nil.1 hin)
  | cons c s ih =>
    rw [before] at h
    split_ifs at h with hpre
    intro hin
    rcases List.infix_cons_iff.1 hin with hin | hin
    · exact hpre (List.isPrefixOf_iff_prefix.2 hin)
    · exact ih (Option.map_eq_none_iff.1 h) hin

/-- The marker does not begin in a text that it is not in and that it follows. -/
theorem before_append (hm : IsMarker marker) (h : ¬ marker <:+: u) : before marker (u ++ (marker ++ v)) = some u := by
  obtain ⟨d, rest, hmarker, hnot⟩ := hm.head
  induction u with
  | nil =>
    rw [List.nil_append, hmarker, List.cons_append, before, if_pos]
    exact List.isPrefixOf_iff_prefix.2 ⟨v, rfl⟩
  | cons c u ih =>
    rw [List.cons_append, before, if_neg, ih fun hin => h (hin.trans (List.suffix_cons c u).isInfix)]
    · rfl
    intro hpre
    have hpre := List.isPrefixOf_iff_prefix.1 hpre
    rcases List.prefix_or_prefix_of_prefix hpre (List.prefix_append (c :: u) (marker ++ v)) with hle | ⟨w, hw⟩
    · exact h hle.isInfix
    · -- the marker goes on behind the text, with its first character
      cases w with
      | nil =>
        rw [List.append_nil] at hw
        exact h (hw ▸ List.infix_rfl)
      | cons e w =>
        obtain ⟨t, ht⟩ := hpre
        rw [← hw, List.append_assoc] at ht
        have hec : e = c := (List.cons.inj (List.append_cancel_left ht)).1
        obtain ⟨hcd, hrest⟩ := List.cons.inj (hw.trans hmarker)
        refine hnot (hrest ▸ ?_)
        rw [← hcd, ← hec]
        exact List.mem_append_right _ List.mem_cons_self

/-- Characters that do not end the line are read into it. -/
theorem readFrom_of_line (hp : '\n' ∉ p) : readFrom marker line (p ++ s) = readFrom marker (line ++ p) s := by
  induction p generalizing line with
  | nil => rw [List.nil_append, List.append_nil]
  | cons c p ih =>
    obtain ⟨hc, hrest⟩ := List.ne_and_not_mem_of_not_mem_cons hp
    rw [List.cons_append, readFrom, if_neg (Ne.symm hc), ih hrest, List.append_assoc]
    rfl

theorem readFrom_append (hm : IsMarker marker) (hp : '\n' ∉ p) (h : ¬ marker <:+: line ++ u) :
    readFrom marker line (u ++ (marker ++ (p ++ '\n' :: v))) = some (line ++ u, v) := by
  induction u generalizing line with
  | nil =>
    rw [List.append_nil] at h
    rw [List.nil_append, readFrom_of_line hm.line, readFrom_of_line hp, readFrom, if_pos rfl, List.append_assoc,
      List.append_assoc, before_append hm h, List.append_nil]
  | cons c u ih =>
    rw [List.cons_append, readFrom]
    split_ifs with hc
    · subst hc
      have hline : before marker (line ++ ['\n']) = none := by
        cases hbefore : before marker (line ++ ['\n']) with
        | none => rfl
        | some text =>
          refine absurd ((infix_of_before hbefore).trans ?_) h
          exact ⟨[], u, by rw [List.nil_append, List.append_assoc]; rfl⟩
      have hu : ¬ marker <:+: [] ++ u := by
        refine fun hin => h (hin.trans ?_)
        exact ⟨line ++ ['\n'], [], by rw [List.append_nil, List.append_assoc]; rfl⟩
      rw [hline, ih hu]
      rfl
    · rw [ih (by rwa [List.append_assoc]), List.append_assoc]
      rfl

theorem readUntil_append (hm : IsMarker marker) (hp : '\n' ∉ p) (h : ¬ marker <:+: u) :
    readUntil marker (u ++ (marker ++ (p ++ '\n' :: v))) = some (u, v) :=
  readFrom_append hm hp h

theorem readFrom_more {text rest : Text} (h : readFrom marker line s = some (text, rest)) (more : Text) :
    readFrom marker line (s ++ more) = some (text, rest ++ more) := by
  induction s generalizing line text with
  | nil => cases h
  | cons c s ih =>
    rw [List.cons_append, readFrom]
    rw [readFrom] at h
    split_ifs at h ⊢ with hc
    · cases hbefore : before marker (line ++ ['\n']) with
      | some before =>
        rw [hbefore] at h
        cases h
        rfl
      | none =>
        rw [hbefore] at h
        obtain ⟨⟨text', rest'⟩, hread, heq⟩ := Option.map_eq_some_iff.1 h
        cases heq
        dsimp only
        rw [ih hread]
        rfl
    · exact ih h

theorem readUntil_more {text rest : Text} (h : readUntil marker s = some (text, rest)) (more : Text) :
    readUntil marker (s ++ more) = some (text, rest ++ more) :=
  readFrom_more h more

/-- A text of whole lines that the reader does not finish with has no marker. -/
theorem infix_free_of_readUntil (hm : IsMarker marker) (h : readUntil marker (s ++ ['\n']) = none) :
    ¬ marker <:+: s ++ ['\n'] := by
  obtain ⟨d, rest, hmarker, -⟩ := hm.head
  have hne : marker ≠ [] := by
    rw [hmarker]
    exact List.cons_ne_nil d rest
  cases hbefore : before marker (s ++ ['\n']) with
  | none => exact before_eq_none hbefore hne
  | some u =>
    exfalso
    obtain ⟨⟨v, hv⟩, hno⟩ := before_eq_some hbefore
    -- what follows the marker goes on to the end of its line
    have hend : '\n' ∈ v := by
      have hlast := congrArg List.getLast? hv
      rw [List.getLast?_append, List.getLast?_singleton, List.getLast?_append, List.getLast?_append] at hlast
      cases hv' : v.getLast? with
      | some c =>
        rw [hv'] at hlast
        cases hlast
        exact List.mem_of_getLast? hv'
      | none =>
        rw [hv', Option.none_or] at hlast
        cases hm' : marker.getLast? with
        | none => exact absurd (List.getLast?_eq_none_iff.1 hm') hne
        | some c =>
          rw [hm'] at hlast
          cases hlast
          exact absurd (List.mem_of_getLast? hm') hm.line
    obtain ⟨p, tail, hcut, hp⟩ := List.eq_append_cons_of_mem hend
    rw [hv, hcut, readUntil_append hm hp (hno hne)] at h
    cases h

end Text
