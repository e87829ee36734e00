import Cobrust.Lsp.LineMap

/-!
# Content changes of a document

`Backend::apply_content_changes` of `cobrust-lsp/src/lib.rs`, and what the changes say: each range is the
text between two positions, and its replacement stands in its place.

* `applyContentChanges_iff`: the server holds what the changes say after each of them exactly when every
  change keeps off the empty line behind a last newline.
-/

namespace Cobrust.Lsp

open Control (except_bind_ok)
open Text (Position)

structure ContentChange where
  range : Option (Position × Position)
  text : Text

/-- `String::replace_range`. -/
def replaceRange (source : Text) (start stop : Nat) (text : Text) : Except Fault Text :=
  match Text.slice source 0 start, Text.dropBytes source stop with
  | some before, some after => .ok (before ++ text ++ after)
  | _, _ => .error .panic

def applyChange (source : Text) (change : ContentChange) : Except Fault Text :=
  match change.range with
  | none => .ok change.text
  | some (rangeStart, rangeEnd) => do
    let lineMap := LineMap.fromSource source
    match ← lineMap.positionToByte rangeStart with
    | none => return source ++ change.text
    | some start =>
      match ← lineMap.positionToByte rangeEnd with
      | none => return source ++ change.text
      | some stop =>
        let start := min start (Text.bytes source).length
        let stop := max (min stop (Text.bytes source).length) start
        replaceRange source start stop change.text

def applyContentChanges (source : Text) (changes : List ContentChange) : Except Fault Text :=
  changes.foldlM applyChange source

/-- The text after a change; none where its range is none of the text. -/
def splice (text : Text) (change : ContentChange) : Option Text :=
  match change.range with
  | none => some change.text
  | some (rangeStart, rangeEnd) =>
    if rangeStart ≤ rangeEnd then
      match Text.cutAt text rangeStart.line rangeStart.character,
        Text.cutAt text rangeEnd.line rangeEnd.character with
      | some (before, _), some (_, after) => some (before ++ change.text ++ after)
      | _, _ => none
    else none

def spliceAll (text : Text) (changes : List ContentChange) : Option Text :=
  changes.foldlM splice text

/-- A range keeps off the empty last line, or inserts line feeds there and nothing else. -/
def ContentChange.Safe (text : Text) (change : ContentChange) : Prop :=
  match change.range with
  | none => True
  | some (rangeStart, rangeEnd) =>
    if EmptyLastLine text rangeStart then ∀ c ∈ change.text, c = '\n' else ¬ EmptyLastLine text rangeEnd

variable {text text' before after : Text} {change : ContentChange} {p q : Position}

theorem safe_range (hrange : change.range = some (p, q)) : change.Safe text ↔
    if EmptyLastLine text p then ∀ c ∈ change.text, c = '\n' else ¬ EmptyLastLine text q := by
  rw [ContentChange.Safe, hrange]

/-- The last position of a text with an empty last line cuts behind all of it. -/
theorem cutAt_emptyLastLine (h : EmptyLastLine text p)
    (hcut : Text.cutAt text p.line p.character = some (before, after)) : before = text ∧ after = [] := by
  obtain ⟨lines, rest, column, rfl, rfl, hcount, hlast, hrest⟩ := Text.cutAt_line hcut
  obtain ⟨hend, hp⟩ := h
  have hnone : rest.count '\n' = 0 := by
    rw [List.count_append] at hp
    omega
  cases rest with
  | nil =>
    obtain ⟨rfl, rfl⟩ := List.append_eq_nil_iff.1 (Text.cutAt_append hrest).symm
    exact ⟨rfl, rfl⟩
  | cons c rest =>
    rw [List.getLast?_append_of_ne_nil _ (List.cons_ne_nil c rest)] at hend
    exact absurd (List.mem_of_getLast? hend) (List.count_eq_zero.1 hnone)

theorem replaceRange_cuts (before mid after text : Text) :
    replaceRange (before ++ mid ++ after) (Text.bytes before).length
      ((Text.bytes before).length + (Text.bytes mid).length) text = .ok (before ++ text ++ after) := by
  have hslice : Text.slice (before ++ mid ++ after) 0 (Text.bytes before).length = some before := by
    have h := slice_append [] before (mid ++ after)
    rw [List.nil_append, ← List.append_assoc] at h
    rw [← h]
    exact congrArg _ (Nat.zero_add _).symm
  have hdrop : Text.dropBytes (before ++ mid ++ after)
      ((Text.bytes before).length + (Text.bytes mid).length) = some after := by
    refine Text.dropBytes_eq_some.2 ⟨before ++ mid, rfl, ?_⟩
    rw [Text.bytes_append, List.length_append]
  rw [replaceRange, hslice, hdrop]

/-- A text that ends with a newline is cut before that newline, but on its last line. -/
theorem cut_of_newline {front a : Text} (hcut : Text.cutAt (front ++ ['\n']) p.line p.character = some (before, a))
    (hlast : ¬ EmptyLastLine (front ++ ['\n']) p) : ∃ mid, front = before ++ mid := by
  have happend := Text.cutAt_append hcut
  rcases List.eq_nil_or_concat a with rfl | ⟨mid, c, rfl⟩
  · exfalso
    apply hlast
    obtain ⟨lines, rest, column, hsplit, rfl, hcount, hlines, hrest⟩ := Text.cutAt_line hcut
    have hcolumn := column_prefix hrest
    rw [List.append_nil] at happend
    have hlist : column = [] := by
      rcases List.eq_nil_or_concat column with hnil | ⟨column, c, rfl⟩
      · exact hnil
      · rw [List.concat_eq_append, ← List.append_assoc] at happend
        obtain ⟨-, hc⟩ := List.append_inj' happend rfl
        rw [← List.singleton_inj.1 hc, List.concat_eq_append] at hcolumn
        exact absurd (List.mem_append_right _ List.mem_cons_self) hcolumn
    rw [hlist, List.append_nil] at happend
    refine ⟨by rw [List.getLast?_concat], ?_⟩
    rw [happend, hcount]
  · rw [List.concat_eq_append, ← List.append_assoc] at happend
    obtain ⟨he, -⟩ := List.append_inj' happend rfl
    exact ⟨mid, he⟩

theorem applyChange_range (hsize : (Text.bytes text).length < 2 ^ 32) (hrange : change.range = some (p, q))
    {b₁ a₁ b₂ a₂ : Text} (hp : Text.cutAt text p.line p.character = some (b₁, a₁))
    (hq : Text.cutAt text q.line q.character = some (b₂, a₂)) {start stop : Nat}
    (hstart : (if EmptyLastLine text p then (Text.bytes text).length - 1 else (Text.bytes b₁).length) = start)
    (hstop : (if EmptyLastLine text q then (Text.bytes text).length - 1 else (Text.bytes b₂).length) = stop)
    (hle : start ≤ stop) (hlen : stop ≤ (Text.bytes text).length) :
    applyChange text change = replaceRange text start stop change.text := by
  rw [applyChange, hrange]
  dsimp only
  rw [positionToByte_eq hp hsize, positionToByte_eq hq hsize, hstart, hstop]
  change replaceRange text _ _ change.text = _
  rw [Nat.min_eq_left (hle.trans hlen), Nat.min_eq_left hlen, Nat.max_eq_left hle]

/-- Swapping a character with a text keeps it where the text is made of that character. -/
theorem append_singleton_eq_cons {c : Char} {t : Text} : t ++ [c] = c :: t ↔ ∀ d ∈ t, d = c := by
  induction t with
  | nil => simp
  | cons d t ih =>
    rw [List.cons_append, List.cons.injEq, List.forall_mem_cons]
    constructor
    · rintro ⟨rfl, h⟩
      exact ⟨rfl, ih.1 h⟩
    · rintro ⟨rfl, h⟩
      exact ⟨rfl, ih.2 h⟩

/-- A change is made as it says exactly when it is safe. -/
theorem applyChange_iff (hsize : (Text.bytes text).length < 2 ^ 32) (h : splice text change = some text') :
    applyChange text change = .ok text' ↔ change.Safe text := by
  unfold splice at h
  unfold ContentChange.Safe
  split at h
  · next hrange =>
    cases h
    rw [applyChange, hrange]
    exact iff_of_true rfl trivial
  · next p q hrange =>
    split at h
    · next hle =>
      split at h
      · next b₁ a₁ b₂ a₂ hp hq =>
        cases h
        obtain ⟨mid, rfl⟩ := Text.cutAt_prefix hle hp hq
        have htext := Text.cutAt_append hq
        have hmid : (Text.bytes (b₁ ++ mid)).length = (Text.bytes b₁).length + (Text.bytes mid).length := by
          rw [Text.bytes_append, List.length_append]
        by_cases hlast : EmptyLastLine text q
        · obtain ⟨hwhole, rfl⟩ := cutAt_emptyLastLine hlast hq
          obtain ⟨front, hfront⟩ := List.getLast?_eq_some_iff.1 hlast.1
          have hlen : (Text.bytes text).length = (Text.bytes front).length + 1 := by
            rw [hfront, Text.bytes_append, Text.bytes_singleton (by decide), List.length_append,
              List.length_singleton]
          by_cases hfirst : EmptyLastLine text p
          · -- Both ends are before the newline that ends the text.
            obtain ⟨rfl, -⟩ := cutAt_emptyLastLine hfirst hp
            have hstart : (if EmptyLastLine b₁ p then (Text.bytes b₁).length - 1
                else (Text.bytes b₁).length) = (Text.bytes front).length := by
              rw [if_pos hfirst, hlen, Nat.add_sub_cancel]
            have hstop : (if EmptyLastLine b₁ q then (Text.bytes b₁).length - 1
                else (Text.bytes (b₁ ++ mid)).length) = (Text.bytes front).length := by
              rw [if_pos hlast, hlen, Nat.add_sub_cancel]
            have hreplace := replaceRange_cuts front [] ['\n'] change.text
            rw [List.append_nil, ← hfront] at hreplace
            have hexact : b₁ ++ change.text ++ [] = front ++ '\n' :: change.text := by
              rw [hfront, List.append_nil, List.append_assoc, List.singleton_append]
            have hcode : applyChange b₁ change = .ok (front ++ (change.text ++ ['\n'])) := by
              rw [applyChange_range hsize hrange hp hq hstart hstop (Nat.le_refl _) (by omega),
                ← List.append_assoc]
              exact hreplace
            rw [if_pos hfirst, ← append_singleton_eq_cons, hcode, hexact]
            constructor
            · intro he
              exact List.append_cancel_left (Except.ok.inj he)
            · intro he
              rw [he]
          · obtain ⟨mid', hmid'⟩ := cut_of_newline (hfront ▸ hp) (hfront ▸ hfirst)
            have hcut : (Text.bytes front).length = (Text.bytes b₁).length + (Text.bytes mid').length := by
              rw [hmid', Text.bytes_append, List.length_append]
            have hstop : (if EmptyLastLine text q then (Text.bytes text).length - 1
                else (Text.bytes (b₁ ++ mid)).length) =
                  (Text.bytes b₁).length + (Text.bytes mid').length := by
              rw [if_pos hlast, hlen, Nat.add_sub_cancel, hcut]
            have hreplace := replaceRange_cuts b₁ mid' ['\n'] change.text
            rw [← hmid', ← hfront] at hreplace
            rw [applyChange_range hsize hrange hp hq (if_neg hfirst) hstop (Nat.le_add_right _ _) (by omega),
              hreplace, if_neg hfirst]
            refine iff_of_false ?_ (not_not.2 hlast)
            intro he
            exact absurd (List.append_cancel_left (Except.ok.inj he)) (List.cons_ne_nil _ _)
        · have hfirst : ¬ EmptyLastLine text p := by
            rintro ⟨hend, hcount⟩
            apply hlast
            obtain ⟨lines, rest, column, hsplit, -, hlines, -, -⟩ := Text.cutAt_line hq
            refine ⟨hend, ?_⟩
            have htotal : text.count '\n' = lines.count '\n' + rest.count '\n' := by
              rw [hsplit, List.count_append]
            rcases hle with hle | ⟨hle, -⟩ <;> omega
          have hreplace := replaceRange_cuts b₁ mid a₂ change.text
          rw [← htext] at hreplace
          have hlen : (Text.bytes b₁).length + (Text.bytes mid).length ≤ (Text.bytes text).length := by
            rw [htext, Text.bytes_append, List.length_append, hmid]
            exact Nat.le_add_right _ _
          rw [applyChange_range hsize hrange hp hq (if_neg hfirst) ((if_neg hlast).trans hmid)
            (Nat.le_add_right _ _) hlen, hreplace, if_neg hfirst]
          exact iff_of_true rfl hlast
      · cases h
    · cases h

theorem applyContentChanges_concat {source : Text} {changes : List ContentChange} :
    applyContentChanges source (changes ++ [change]) =
      applyContentChanges source changes >>= fun text => applyChange text change := by
  rw [applyContentChanges, List.foldlM_append]
  apply congrArg
  funext text
  rw [List.foldlM_cons]
  exact bind_pure _

theorem spliceAll_concat {source : Text} {changes : List ContentChange} :
    spliceAll source (changes ++ [change]) = (spliceAll source changes).bind fun text => splice text change := by
  rw [spliceAll, List.foldlM_append]
  apply congrArg
  funext text
  rw [List.foldlM_cons]
  exact bind_pure _

/-- The server's text is what the changes say after each of them exactly when each is safe in its turn. -/
theorem applyContentChanges_iff (source : Text) (changes : List ContentChange)
    (hsize : ∀ front text, front <+: changes → spliceAll source front = some text →
      (Text.bytes text).length < 2 ^ 32) :
    (∀ front text, front <+: changes → spliceAll source front = some text →
      applyContentChanges source front = .ok text) ↔
    ∀ front change text, front ++ [change] <+: changes → spliceAll source front = some text →
      (splice text change).isSome → change.Safe text := by
  constructor
  · intro h front change text hfront htext hsome
    obtain ⟨text', htext'⟩ := Option.isSome_iff_exists.1 hsome
    have hpre₀ : front <+: changes := (List.prefix_append front [change]).trans hfront
    have hrun := h (front ++ [change]) text' hfront (by rw [spliceAll_concat, htext]; exact htext')
    rw [applyContentChanges_concat, h front text hpre₀ htext] at hrun
    exact (applyChange_iff (hsize front text hpre₀ htext) htext').1 hrun
  · intro h front
    induction front using List.reverseRecOn with
    | nil =>
      intro text _ htext
      cases htext
      rfl
    | append_singleton front change ih =>
      intro text' hfront htext'
      rw [spliceAll_concat] at htext'
      obtain ⟨text, htext, hsplice⟩ := Option.bind_eq_some_iff.1 htext'
      have hpre₀ : front <+: changes := (List.prefix_append front [change]).trans hfront
      rw [applyContentChanges_concat, ih text hpre₀ htext]
      apply (applyChange_iff (hsize front text hpre₀ htext) hsplice).2
      exact h front change text hfront htext (Option.isSome_iff_exists.2 ⟨text', hsplice⟩)

/-- A replacement behind a character of two UTF-16 units. -/
def afterCrab : ContentChange where
  range := some (⟨0, 2⟩, ⟨0, 3⟩)
  text := "é".toList

theorem prefix_singleton {α : Type} {front : List α} {a : α} (h : front <+: [a]) : front = [] ∨ front = [a] := by
  rcases List.prefix_cons_iff.1 h with h | ⟨rest, rfl, hrest⟩
  · exact Or.inl h
  · exact Or.inr (by rw [List.prefix_nil.1 hrest])

theorem applyContentChanges_crab :
    applyContentChanges "🦀b".toList [afterCrab] = .ok "🦀é".toList := by
  have hsize : ∀ front text, front <+: [afterCrab] → spliceAll "🦀b".toList front = some text →
      (Text.bytes text).length < 2 ^ 32 := by
    intro front text hfront htext
    rcases prefix_singleton hfront with rfl | rfl
    · cases htext
      decide
    · cases htext
      decide
  have hsafe : ∀ front change text, front ++ [change] <+: [afterCrab] →
      spliceAll "🦀b".toList front = some text → (splice text change).isSome → change.Safe text := by
    intro front change text hfront htext _
    rcases prefix_singleton hfront with h | h
    · cases front <;> cases h
    · obtain ⟨rfl, rfl⟩ : front = [] ∧ change = afterCrab := by
        cases front with
        | nil => exact ⟨rfl, List.singleton_inj.1 h⟩
        | cons c front => cases front <;> cases h
      cases htext
      have hfirst : ¬ EmptyLastLine "🦀b".toList ⟨0, 2⟩ := by decide
      have hlast : ¬ EmptyLastLine "🦀b".toList ⟨0, 3⟩ := by decide
      rw [safe_range rfl, if_neg hfirst]
      exact hlast
  exact (applyContentChanges_iff _ _ hsize).2 hsafe [afterCrab] _ (List.prefix_refl _) rfl

/-- An insertion on the empty line behind the last newline lands before that newline. -/
theorem insertion_before_newline :
    ¬ ∀ source changes text, spliceAll source changes = some text →
      applyContentChanges source changes = .ok text := by
  intro h
  have hrun := h "a\n".toList [⟨some (⟨1, 0⟩, ⟨1, 0⟩), "b".toList⟩] "a\nb".toList rfl
  have hcode : applyContentChanges "a\n".toList [⟨some (⟨1, 0⟩, ⟨1, 0⟩), "b".toList⟩] = .ok "ab\n".toList := rfl
  rw [hcode] at hrun
  cases hrun

end Cobrust.Lsp
