import Cobrust.Text.Utf8
import Mathlib.Data.List.TakeWhile
import Mathlib.Logic.Function.Basic

/-!
# Prompts

`prompt_render_helper` and `prompt_escape_braces_helper` of `cobrust-stdlib/src/prompt.rs`. The renderer goes over the
bytes of the joined templates and looks one byte ahead.

* `scan`: what rendering does to the characters; the bytes come to the same (`renderLoop_eq`).
* `promptRender_templates`: templates of escaped texts and placeholders are rendered segment by segment.
-/

namespace Cobrust.Runtime

open Text (bytes dropBytes slice splitOnce)

/-- The variables, from their even-indexed pairs: a later one overrides, an odd key at the end is dropped. -/
def bindVars (map : Text → Option Text) : List Text → Text → Option Text
  | key :: value :: rest => bindVars (Function.update map key (some value)) rest
  | _ => map

/-- The byte of the next `}` from `start` on, or the end. -/
def findClose (bytes : List Char) (start : Nat) : Nat :=
  start + ((bytes.drop start).takeWhile (· ≠ '}')).length

theorem le_findClose (bytes : List Char) (start : Nat) : start ≤ findClose bytes start :=
  Nat.le_add_right _ _

/-- The loop over the bytes; none where it slices off a boundary. -/
def renderLoop (map : Text → Option Text) (combined : Text) (idx : Nat) (out : Text) : Option Text :=
  if _ : idx < (bytes combined).length then
    if (bytes combined)[idx]? = some '{' ∧ (bytes combined)[idx + 1]? = some '{' then
      renderLoop map combined (idx + 2) (out ++ ['{'])
    else if (bytes combined)[idx]? = some '}' ∧ (bytes combined)[idx + 1]? = some '}' then
      renderLoop map combined (idx + 2) (out ++ ['}'])
    else if (bytes combined)[idx]? = some '{' then
      if (bytes combined).length ≤ findClose (bytes combined) (idx + 1) then
        (slice combined idx (bytes combined).length).map (out ++ ·)
      else
        (slice combined (idx + 1) (findClose (bytes combined) (idx + 1))).bind fun key =>
          match map key with
          | some v => renderLoop map combined (findClose (bytes combined) (idx + 1) + 1) (out ++ v)
          | none =>
            (slice combined idx (findClose (bytes combined) (idx + 1) + 1)).bind fun literal =>
              renderLoop map combined (findClose (bytes combined) (idx + 1) + 1) (out ++ literal)
    else
      (dropBytes combined idx).bind fun rest =>
        renderLoop map combined (idx + (rest.headD '\x00').utf8Size) (out ++ [rest.headD '\x00'])
  else some out
termination_by (bytes combined).length - idx
decreasing_by
  all_goals
    have hclose := le_findClose (bytes combined) (idx + 1)
    try have hsize := (rest.headD '\x00').utf8Size_pos
    omega

/-- `prompt_render_helper` -/
def promptRender (system user : Text) (vars : List Text) : Option Text :=
  renderLoop (bindVars (fun _ => none) vars) (system ++ '\n' :: user) 0 []

/-- `prompt_escape_braces_helper` -/
def promptEscapeBraces (text : Text) : Text :=
  text.flatMap fun ch =>
    match ch with
    | '{' => ['{', '{']
    | '}' => ['}', '}']
    | ch => [ch]

theorem length_splitOnce {sep : Char} {s a b : Text} (h : splitOnce sep s = some (a, b)) : b.length < s.length := by
  rw [Text.eq_append_of_splitOnce h, List.length_append, List.length_cons]
  omega

/-- Rendering by characters. -/
def scan (map : Text → Option Text) (s : Text) : Text :=
  match s with
  | [] => []
  | c :: rest =>
    if c = '{' ∧ rest.head? = some '{' ∨ c = '}' ∧ rest.head? = some '}' then c :: scan map rest.tail
    else if c = '{' then
      match hsplit : splitOnce '}' rest with
      | some (key, rest') => (map key).getD ('{' :: (key ++ ['}'])) ++ scan map rest'
      | none => c :: rest
    else c :: scan map rest
termination_by s.length
decreasing_by
  · rw [List.length_tail, List.length_cons]
    omega
  · have := length_splitOnce hsplit
    rw [List.length_cons]
    omega
  · exact Nat.lt_succ_self _

section scan

variable (map : Text → Option Text) {rest : Text}

theorem scan_pair {c : Char} (hc : c = '{' ∨ c = '}') : scan map (c :: c :: rest) = c :: scan map rest := by
  have hpair : c = '{' ∧ (c :: rest).head? = some '{' ∨ c = '}' ∧ (c :: rest).head? = some '}' := by
    rcases hc with rfl | rfl
    · exact .inl ⟨rfl, rfl⟩
    · exact .inr ⟨rfl, rfl⟩
  rw [scan, if_pos hpair, List.tail_cons]

theorem scan_char {c : Char} (hopen : c ≠ '{') (hclose : ¬ (c = '}' ∧ rest.head? = some '}')) :
    scan map (c :: rest) = c :: scan map rest := by
  have hpair : ¬ (c = '{' ∧ rest.head? = some '{' ∨ c = '}' ∧ rest.head? = some '}') := by
    rintro (⟨h, -⟩ | h)
    · exact hopen h
    · exact hclose h
  rw [scan, if_neg hpair, if_neg hopen]

theorem scan_open (hhead : rest.head? ≠ some '{') : scan map ('{' :: rest) =
    match splitOnce '}' rest with
    | some (key, rest') => (map key).getD ('{' :: (key ++ ['}'])) ++ scan map rest'
    | none => '{' :: rest := by
  have hpair : ¬ ('{' = '{' ∧ rest.head? = some '{' ∨ '{' = '}' ∧ rest.head? = some '}') := by
    rintro (⟨-, h⟩ | ⟨h, -⟩)
    · exact hhead h
    · exact absurd h (by decide)
  rw [scan, if_neg hpair, if_pos rfl]
  split
  next hsplit => rw [hsplit]
  next hsplit => rw [hsplit]

theorem scan_placeholder {key : Text} (hopen : '{' ∉ key) (hclose : '}' ∉ key) :
    scan map ('{' :: (key ++ '}' :: rest)) = (map key).getD ('{' :: (key ++ ['}'])) ++ scan map rest := by
  have hhead : (key ++ '}' :: rest).head? ≠ some '{' := by
    cases key with
    | nil => simp
    | cons c key =>
      intro h
      exact hopen (List.mem_cons.2 (.inl (Option.some.inj h).symm))
  rw [scan_open map hhead, Text.splitOnce_append hclose]

end scan

/-! ## Bytes -/

section bytes

variable {s rest combined : Text} {idx : Nat}

theorem mem_of_mem_bytes {b : Char} (hb : b.toNat < 128) (h : b ∈ bytes s) : b ∈ s := by
  obtain ⟨p, hp⟩ := List.mem_iff_getElem?.1 h
  obtain ⟨rest, hrest⟩ := Text.exists_of_ascii hp hb
  obtain ⟨before, rfl, -⟩ := Text.dropBytes_eq_some.1 hrest
  exact List.mem_append_right _ List.mem_cons_self

theorem drop_bytes (h : dropBytes combined idx = some rest) : (bytes combined).drop idx = bytes rest := by
  obtain ⟨before, rfl, rfl⟩ := Text.dropBytes_eq_some.1 h
  rw [Text.bytes_append, List.drop_left]

theorem getElem_bytes (h : dropBytes combined idx = some rest) (i : Nat) :
    (bytes combined)[idx + i]? = (bytes rest)[i]? := by
  rw [← drop_bytes h, List.getElem?_drop]

theorem length_bytes (h : dropBytes combined idx = some rest) :
    (bytes combined).length = idx + (bytes rest).length := by
  obtain ⟨before, rfl, rfl⟩ := Text.dropBytes_eq_some.1 h
  rw [Text.bytes_append, List.length_append]

theorem bytes_ascii_cons {c : Char} (hc : c.toNat < 128) : bytes (c :: s) = c :: bytes s := by
  rw [← List.singleton_append, Text.bytes_append, Text.bytes_singleton hc, List.singleton_append]

theorem head_bytes_iff {b : Char} (hb : b.toNat < 128) : (bytes s)[0]? = some b ↔ s.head? = some b := by
  constructor
  · intro h
    obtain ⟨rest, hrest⟩ := Text.exists_of_ascii h hb
    rw [dropBytes] at hrest
    rw [Option.some.inj hrest, List.head?_cons]
  · intro h
    obtain ⟨rest, rfl⟩ := List.head?_eq_some_iff.1 h
    rw [bytes_ascii_cons hb, List.getElem?_cons_zero]

/-- The search for a `}` among the bytes ends at the first one among the characters. -/
theorem findClose_eq {key : Text} (h : dropBytes combined idx = some (key ++ '}' :: rest)) (hclose : '}' ∉ key) :
    findClose (bytes combined) idx = idx + (bytes key).length := by
  have hkey : ∀ b ∈ bytes key, decide (b ≠ '}') = true := by
    intro b hb
    refine decide_eq_true fun he => hclose ?_
    rw [he] at hb
    exact mem_of_mem_bytes (by decide) hb
  rw [findClose, drop_bytes h, Text.bytes_append, bytes_ascii_cons (by decide), List.takeWhile_append_of_pos hkey,
    List.takeWhile_cons_of_neg (by decide), List.append_nil]

theorem findClose_of_not_mem (h : dropBytes combined idx = some rest) (hclose : '}' ∉ rest) :
    (bytes combined).length ≤ findClose (bytes combined) idx := by
  have hrest : (bytes rest).takeWhile (· ≠ '}') = bytes rest := by
    refine List.takeWhile_eq_self_iff.2 fun b hb => decide_eq_true fun he => hclose ?_
    rw [he] at hb
    exact mem_of_mem_bytes (by decide) hb
  rw [findClose, drop_bytes h, hrest, length_bytes h]

theorem not_mem_of_splitOnce {sep : Char} {a b : Text} (h : splitOnce sep s = some (a, b)) : sep ∉ a := by
  induction s generalizing a with
  | nil => cases h
  | cons c s ih =>
    rw [splitOnce] at h
    split at h
    · cases h
      exact List.not_mem_nil
    next hc =>
      obtain ⟨⟨a', b'⟩, hparts, he⟩ := Option.map_eq_some_iff.1 h
      cases he
      exact List.not_mem_cons_of_ne_of_not_mem (Ne.symm hc) (ih hparts)

theorem not_mem_of_splitOnce_none {sep : Char} (h : splitOnce sep s = none) : sep ∉ s := by
  intro hmem
  obtain ⟨a, b, rfl, ha⟩ := List.eq_append_cons_of_mem hmem
  rw [Text.splitOnce_append ha] at h
  cases h

theorem dropBytes_cons {c : Char} (h : dropBytes combined idx = some (c :: rest)) (hc : c.toNat < 128) :
    dropBytes combined (idx + 1) = some rest := by
  have hnext := Text.isBoundary_of_cons h
  rwa [Char.utf8Size_eq_one_iff.2 (UInt32.le_iff_toNat_le.2 (Nat.le_of_lt_succ hc))] at hnext

end bytes

section loop

variable (map : Text → Option Text) {combined rest : Text} {idx : Nat} {c : Char}

theorem byte_iff (h : dropBytes combined idx = some (c :: rest)) {b : Char} (hb : b.toNat < 128) :
    (bytes combined)[idx]? = some b ↔ c = b := by
  have hget := getElem_bytes h 0
  rw [Nat.add_zero] at hget
  rw [hget, head_bytes_iff hb, List.head?_cons, Option.some.injEq]

theorem pair_iff (h : dropBytes combined idx = some (c :: rest)) {b : Char} (hb : b.toNat < 128) :
    (bytes combined)[idx]? = some b ∧ (bytes combined)[idx + 1]? = some b ↔ c = b ∧ rest.head? = some b := by
  rw [byte_iff h hb]
  refine and_congr_right fun hc => ?_
  rw [hc] at h
  have hget := getElem_bytes (dropBytes_cons h hb) 0
  rw [Nat.add_zero] at hget
  rw [hget, head_bytes_iff hb]

theorem slice_append {a b : Text} (h : dropBytes combined idx = some (a ++ b)) :
    slice combined idx (idx + (bytes a).length) = some a := by
  obtain ⟨before, rfl, rfl⟩ := Text.dropBytes_eq_some.1 h
  exact Text.slice_eq_some.2 ⟨before, b, rfl, rfl, rfl⟩

/-- The loop over the bytes never slices off a boundary, and comes to what the characters come to. -/
theorem renderLoop_eq (h : dropBytes combined idx = some rest) (out : Text) :
    renderLoop map combined idx out = some (out ++ scan map rest) := by
  induction hn : rest.length using Nat.strong_induction_on generalizing rest idx out with
  | _ n ih =>
    cases rest with
    | nil =>
      have hlen : (bytes combined).length = idx := length_bytes h
      rw [renderLoop, dif_neg (by omega), scan, List.append_nil]
    | cons c rest =>
      have hlen : idx < (bytes combined).length := by
        rw [length_bytes h, Text.length_bytes_cons]
        have := c.utf8Size_pos
        omega
      have hopen := pair_iff h (b := '{') (by decide)
      have hclose := pair_iff h (b := '}') (by decide)
      rw [renderLoop, dif_pos hlen]
      by_cases hpair : c = '{' ∧ rest.head? = some '{'
      · obtain ⟨rfl, hhead⟩ := hpair
        obtain ⟨rest, rfl⟩ := List.head?_eq_some_iff.1 hhead
        have hnext := dropBytes_cons (dropBytes_cons h (by decide)) (by decide)
        have hshort : rest.length < n := by
          rw [← hn, List.length_cons, List.length_cons]
          omega
        rw [if_pos (hopen.2 ⟨rfl, hhead⟩), ih rest.length hshort hnext _ rfl, scan_pair map (.inl rfl),
          List.append_assoc]
        rfl
      rw [if_neg (mt hopen.1 hpair)]
      by_cases hpair' : c = '}' ∧ rest.head? = some '}'
      · obtain ⟨rfl, hhead⟩ := hpair'
        obtain ⟨rest, rfl⟩ := List.head?_eq_some_iff.1 hhead
        have hnext := dropBytes_cons (dropBytes_cons h (by decide)) (by decide)
        have hshort : rest.length < n := by
          rw [← hn, List.length_cons, List.length_cons]
          omega
        rw [if_pos (hclose.2 ⟨rfl, hhead⟩), ih rest.length hshort hnext _ rfl, scan_pair map (.inr rfl),
          List.append_assoc]
        rfl
      rw [if_neg (mt hclose.1 hpair')]
      by_cases hc : c = '{'
      · obtain rfl := hc
        have hhead : rest.head? ≠ some '{' := fun hhead => hpair ⟨rfl, hhead⟩
        have hrest := dropBytes_cons h (by decide)
        rw [if_pos ((byte_iff h (by decide)).2 rfl), scan_open map hhead]
        cases hsplit : splitOnce '}' rest with
        | none =>
          have hslice := slice_append (a := '{' :: rest) (b := []) (by rwa [List.append_nil])
          rw [← length_bytes h] at hslice
          rw [if_pos (findClose_of_not_mem hrest (not_mem_of_splitOnce_none hsplit)), hslice]
          rfl
        | some parts =>
          obtain ⟨key, rest'⟩ := parts
          obtain rfl := Text.eq_append_of_splitOnce hsplit
          have hfind := findClose_eq hrest (not_mem_of_splitOnce hsplit)
          have hafter := dropBytes_cons (Text.dropBytes_append hrest) (by decide)
          have hlong : ¬ (bytes combined).length ≤ idx + 1 + (bytes key).length := by
            rw [length_bytes hrest, Text.bytes_append, List.length_append, Text.length_bytes_cons]
            have := Char.utf8Size_pos '}'
            omega
          have hshort : rest'.length < n := by
            rw [← hn, List.length_cons, List.length_append, List.length_cons]
            omega
          rw [hfind, if_neg hlong, slice_append hrest, Option.bind_some]
          cases hbound : map key with
          | some v =>
            simp only [hbound, Option.getD_some]
            rw [ih rest'.length hshort hafter _ rfl, List.append_assoc]
          | none =>
            have hliteral : '{' :: (key ++ '}' :: rest') = '{' :: (key ++ ['}']) ++ rest' := by simp
            have hslice := slice_append (hliteral ▸ h)
            have hbytes : idx + (bytes ('{' :: (key ++ ['}']))).length = idx + 1 + (bytes key).length + 1 := by
              rw [bytes_ascii_cons (by decide), Text.bytes_append, Text.bytes_singleton (by decide), List.length_cons,
                List.length_append, List.length_singleton]
              omega
            simp only [hbound, Option.getD_none]
            rw [← hbytes, hslice, Option.bind_some, hbytes, ih rest'.length hshort hafter _ rfl, List.append_assoc]
      · rw [if_neg (mt (byte_iff h (by decide)).1 hc), scan_char map hc hpair', h]
        have hnext := Text.isBoundary_of_cons h
        rw [Option.bind_some, List.headD_cons, ih rest.length (by rw [← hn]; exact Nat.lt_succ_self _) hnext _ rfl,
          List.append_assoc]
        rfl

end loop

theorem promptRender_eq (system user : Text) (vars : List Text) : promptRender system user vars =
    some (scan (bindVars (fun _ => none) vars) (system ++ '\n' :: user)) :=
  renderLoop_eq _ (by rw [dropBytes]) []

def varPairs : List Text → List (Text × Text)
  | key :: value :: rest => (key, value) :: varPairs rest
  | _ => []

/-- The value of the last binding of a key. -/
def lastBinding (vars : List Text) (key : Text) : Option Text :=
  (varPairs vars).reverse.lookup key

theorem bindVars_eq (map : Text → Option Text) (vars : List Text) (key : Text) :
    bindVars map vars key = (lastBinding vars key).or (map key) := by
  fun_induction bindVars map vars with
  | case1 map name value rest ih =>
    rw [ih, lastBinding, lastBinding, varPairs, List.reverse_cons, List.lookup_append, Option.or_assoc]
    congr 1
    by_cases hkey : key = name
    · rw [hkey, Function.update_self, List.lookup_cons_self, Option.some_or]
    · rw [Function.update_of_ne hkey, List.lookup_cons, beq_false_of_ne hkey]
      rfl
  | case2 vars map hvars =>
    have hnone : varPairs vars = [] := by
      rcases vars with _ | ⟨key, _ | ⟨value, rest⟩⟩
      · rfl
      · rfl
      · exact absurd rfl (hvars key value rest)
    rw [lastBinding, hnone]
    rfl

/-- A key without braces. -/
structure PlaceholderKey where
  text : Text
  no_open : '{' ∉ text
  no_close : '}' ∉ text

/-- A part of a template: a text that is escaped, or a placeholder. -/
inductive Segment where
  | literal (text : Text)
  | placeholder (key : PlaceholderKey)

namespace Segment

/-- How a segment is written. -/
def written : Segment → Text
  | literal text => promptEscapeBraces text
  | placeholder key => '{' :: (key.text ++ ['}'])

/-- What a segment stands for. -/
def meaning (vars : List Text) : Segment → Text
  | literal text => text
  | placeholder key => (lastBinding vars key.text).getD ('{' :: (key.text ++ ['}']))

end Segment

section templates

variable (map : Text → Option Text)

theorem scan_escaped (text rest : Text) : scan map (promptEscapeBraces text ++ rest) = text ++ scan map rest := by
  induction text with
  | nil => rfl
  | cons c text ih =>
    by_cases hopen : c = '{'
    · rw [hopen]
      exact (scan_pair map (.inl rfl)).trans (congrArg ('{' :: ·) ih)
    by_cases hclose : c = '}'
    · rw [hclose]
      exact (scan_pair map (.inr rfl)).trans (congrArg ('}' :: ·) ih)
    have hescape : promptEscapeBraces (c :: text) = c :: promptEscapeBraces text := by
      rw [promptEscapeBraces, List.flatMap_cons]
      split
      · exact absurd rfl hopen
      · exact absurd rfl hclose
      · rfl
    rw [hescape, List.cons_append, scan_char map hopen fun h => hclose h.1, ih, List.cons_append]

theorem scan_segments (vars : List Text) (segments : List Segment) (rest : Text) :
    scan (bindVars (fun _ => none) vars) (segments.flatMap Segment.written ++ rest) =
      segments.flatMap (Segment.meaning vars) ++ scan (bindVars (fun _ => none) vars) rest := by
  induction segments with
  | nil => rfl
  | cons segment segments ih =>
    rw [List.flatMap_cons, List.flatMap_cons, List.append_assoc, List.append_assoc, ← ih]
    cases segment with
    | literal text => exact scan_escaped _ _ _
    | placeholder key =>
      have hbound := bindVars_eq (fun _ => none) vars key.text
      rw [Option.or_none] at hbound
      rw [Segment.written, Segment.meaning, ← hbound, ← scan_placeholder _ key.no_open key.no_close]
      simp

end templates

/-- Rendering inverts escaping and puts values in as they are, whatever braces the texts and the values hold. -/
theorem promptRender_templates (system user : List Segment) (vars : List Text) :
    promptRender (system.flatMap Segment.written) (user.flatMap Segment.written) vars =
      some (system.flatMap (Segment.meaning vars) ++ '\n' :: user.flatMap (Segment.meaning vars)) := by
  have huser := scan_segments vars user []
  rw [List.append_nil, scan, List.append_nil] at huser
  rw [promptRender_eq, scan_segments, scan_char _ (by decide) (fun h => absurd h.1 (by decide)), huser]

end Cobrust.Runtime
