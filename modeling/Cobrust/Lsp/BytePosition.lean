import Cobrust.Lsp.LineMap
import Mathlib.Algebra.GroupWithZero.Nat

/-!
# From byte offsets to positions

`byte_to_position` of `cobrust-lsp/src/span_convert.rs`, and the way there and back.

* `byteToPosition_round_trip_iff`: an offset has the position of its character, and comes back from it, except at the end
  of a text.
* `byteToPosition_mono`: positions are in the order of their offsets.
-/

namespace Cobrust.Lsp

open Text (Position IsBoundary)

/-- Round an offset down to the start of a character. -/
def clampToCharBoundary (source : Text) : Nat → Nat
  | 0 => 0
  | off + 1 => if (Text.dropBytes source (off + 1)).isSome then off + 1 else clampToCharBoundary source off

def utf16Length (text : Text) : Nat :=
  (text.map Text.utf16Size).sum

namespace LineMap

/-- The last line that starts at the offset or before it, which the binary search finds. -/
def lineIdx (m : LineMap) (byteOffset : Nat) : Nat :=
  m.lineStarts.countP (· ≤ byteOffset) - 1

def byteToPosition (m : LineMap) (byteOffset : Nat) : Except Fault Position :=
  let lineStart := (m.lineStarts[m.lineIdx byteOffset]?).getD 0
  let safeEnd := min (Text.bytes m.source).length (lineStart + (byteOffset - lineStart))
  match Text.slice m.source lineStart (clampToCharBoundary m.source safeEnd) with
  | none => .error .panic
  | some pre => .ok ⟨narrow (m.lineIdx byteOffset), narrow (utf16Length pre)⟩

end LineMap

theorem utf16Size_le (c : Char) : Text.utf16Size c ≤ c.utf8Size := by
  have hpos := c.utf8Size_pos
  rw [Text.utf16Size]
  split
  · omega
  next h =>
    rcases Char.utf8Size_eq c with hs | hs | hs | hs
    · have hle := UInt32.le_iff_toNat_le.1 (Char.utf8Size_eq_one_iff.1 hs)
      change c.toNat ≤ 127 at hle
      omega
    all_goals omega

theorem utf16Length_cons (c : Char) (text : Text) : utf16Length (c :: text) = Text.utf16Size c + utf16Length text :=
  List.sum_cons

theorem utf16Length_le (text : Text) : utf16Length text ≤ (Text.bytes text).length := by
  induction text with
  | nil => exact Nat.le_refl 0
  | cons c text ih =>
    have hsize := utf16Size_le c
    rw [utf16Length_cons, Text.length_bytes_cons]
    omega

theorem utf16Length_append (a b : Text) : utf16Length (a ++ b) = utf16Length a + utf16Length b := by
  rw [utf16Length, List.map_append, List.sum_append]
  rfl

theorem count_bytes (text : Text) : (Text.bytes text).count '\n' = text.count '\n' := by
  induction text with
  | nil => rfl
  | cons c text ih =>
    rw [← List.singleton_append, Text.bytes_append, List.count_append, List.count_append, ih]
    congr 1
    by_cases hc : c.toNat < 128
    · rw [Text.bytes_singleton hc]
    · have hne : c ≠ '\n' := by
        rintro rfl
        exact hc (by decide)
      rw [List.count_eq_zero_of_not_mem, List.count_eq_zero_of_not_mem]
      · exact fun h => hne (List.mem_singleton.1 h).symm
      · exact fun h => absurd (Text.not_ascii_of_mem (Nat.le_of_not_lt hc) h) (by decide)

theorem clampToCharBoundary_eq {source : Text} {off : Nat} (h : IsBoundary source off) :
    clampToCharBoundary source off = off := by
  cases off with
  | zero => rfl
  | succ off => exact if_pos h

/-! ## Lines -/

/-- The text behind the last newline, and the lines before. -/
theorem exists_lastLine (before : Text) : ∃ lines column, before = lines ++ column ∧ '\n' ∉ column ∧
    ∀ c, lines.getLast? = some c → c = '\n' := by
  induction before using List.reverseRecOn with
  | nil => exact ⟨[], [], rfl, List.not_mem_nil, fun c hc => by cases hc⟩
  | append_singleton before c ih =>
    by_cases hc : c = '\n'
    · refine ⟨before ++ [c], [], (List.append_nil _).symm, List.not_mem_nil, fun d hd => ?_⟩
      rw [List.getLast?_concat] at hd
      rw [← Option.some.inj hd, hc]
    · obtain ⟨lines, column, rfl, hnot, hlast⟩ := ih
      refine ⟨lines, column ++ [c], List.append_assoc _ _ _, fun h => ?_, hlast⟩
      rcases List.mem_append.1 h with h | h
      · exact hnot h
      · exact hc (List.mem_singleton.1 h).symm

/-- The text between the last newline and the end. -/
def lastLine (text : Text) : Text :=
  (text.reverse.takeWhile (· ≠ '\n')).reverse

theorem lastLine_append {lines column : Text} (hnot : '\n' ∉ column)
    (hlast : ∀ c, lines.getLast? = some c → c = '\n') : lastLine (lines ++ column) = column := by
  have hcolumn : ∀ c ∈ column.reverse, decide (c ≠ '\n') = true := by
    intro c hc
    refine decide_eq_true ?_
    rintro rfl
    exact hnot (List.mem_reverse.1 hc)
  rw [lastLine, List.reverse_append, List.takeWhile_append_of_pos hcolumn]
  cases hrev : lines.reverse with
  | nil => rw [List.takeWhile_nil, List.append_nil, List.reverse_reverse]
  | cons c rest =>
    have hc : c = '\n' := by
      apply hlast
      rw [← List.head?_reverse, hrev]
      rfl
    rw [List.takeWhile_cons_of_neg (by simpa using hc), List.append_nil, List.reverse_reverse]

theorem mem_newlineStarts {offset n : Nat} {bytes : List Char} (hsize : offset + bytes.length < 2 ^ 32)
    (h : n ∈ newlineStarts offset bytes) : offset < n ∧ n ≤ offset + bytes.length := by
  induction bytes generalizing offset with
  | nil => cases h
  | cons b bytes ih =>
    rw [List.length_cons] at hsize ⊢
    rw [newlineStarts] at h
    split at h
    · rcases List.mem_cons.1 h with rfl | h
      · rw [narrow_eq (by omega)]
        omega
      · have hrest := ih (by omega) h
        omega
    · have hrest := ih (by omega) h
      omega

theorem countP_newlineStarts {offset : Nat} (front back : List Char)
    (hsize : offset + (front ++ back).length < 2 ^ 32) :
    (newlineStarts offset (front ++ back)).countP (· ≤ offset + front.length) = front.count '\n' := by
  induction front generalizing offset with
  | nil =>
    rw [List.nil_append, List.length_nil, List.count_nil, List.countP_eq_zero]
    intro n hn
    have hlt := (mem_newlineStarts hsize hn).1
    simpa using hlt
  | cons b front ih =>
    rw [List.cons_append, List.length_cons] at hsize
    have hrest := @ih (offset + 1) (by omega)
    rw [Nat.add_right_comm, Nat.add_assoc] at hrest
    rw [List.cons_append, newlineStarts, List.length_cons, List.count_cons]
    split
    next hb =>
      rw [List.countP_cons, hrest, if_pos (by rw [narrow_eq (by rw [List.length_append] at hsize; omega)]; simp),
        if_pos (by rw [hb]; rfl)]
    next hb => rw [hrest, if_neg (by simpa using hb), Nat.add_zero]

theorem newlineStarts_append (offset : Nat) (front back : List Char) :
    newlineStarts offset (front ++ back) =
      newlineStarts offset front ++ newlineStarts (offset + front.length) back := by
  induction front generalizing offset with
  | nil => rfl
  | cons b front ih =>
    have hoff : offset + (b :: front).length = offset + 1 + front.length := by
      rw [List.length_cons]
      omega
    rw [List.cons_append, newlineStarts, newlineStarts, ih, hoff]
    split <;> rfl

theorem newlineStarts_append_tail {offset : Nat} {front back : List Char} (h : '\n' ∉ back) :
    newlineStarts offset (front ++ back) = newlineStarts offset front := by
  have hnone := newlineStarts_append_of_not_mem h (offset + front.length) []
  rw [List.append_nil] at hnone
  rw [newlineStarts_append, hnone]
  exact List.append_nil _

theorem length_newlineStarts (offset : Nat) (bytes : List Char) :
    (newlineStarts offset bytes).length = bytes.count '\n' := by
  induction bytes generalizing offset with
  | nil => rfl
  | cons b bytes ih =>
    rw [newlineStarts, List.count_cons]
    split
    next hb => rw [List.length_cons, ih, if_pos (by rw [hb]; rfl)]
    next hb => rw [ih, if_neg (by simpa using hb), Nat.add_zero]

theorem utf16Length_prefix {a b : Text} (h : a <+: b) : utf16Length a ≤ utf16Length b := by
  obtain ⟨more, rfl⟩ := h
  rw [utf16Length_append]
  exact Nat.le_add_right _ _

section Map

variable {source before after : Text}

theorem isBoundary_before : IsBoundary (before ++ after) (Text.bytes before).length :=
  Option.isSome_iff_exists.2 ⟨after, Text.dropBytes_eq_some.2 ⟨before, rfl, rfl⟩⟩

theorem countP_starts (hsize : (Text.bytes (before ++ after)).length < 2 ^ 32) :
    (0 :: newlineStarts 0 (Text.bytes (before ++ after))).countP (· ≤ (Text.bytes before).length) =
      before.count '\n' + 1 := by
  rw [Text.bytes_append] at hsize ⊢
  have hcount := @countP_newlineStarts 0 (Text.bytes before) (Text.bytes after) (by rwa [Nat.zero_add])
  rw [Nat.zero_add] at hcount
  rw [List.countP_cons_of_pos (by simp), hcount, count_bytes]

/-- The table has a last entry for the end of a text whose last line is not empty. -/
theorem lineStarts_of_last (hne : source ≠ []) (hlast : source.getLast? ≠ some '\n')
    (hsize : (Text.bytes source).length < 2 ^ 32) :
    (LineMap.fromSource source).lineStarts = 0 :: newlineStarts 0 (Text.bytes source) ++ [(Text.bytes source).length] := by
  obtain ⟨lines, column, rfl, hnot, hlines⟩ := exists_lastLine source
  have hcolumn : column ≠ [] := by
    rintro rfl
    rw [List.append_nil] at hne hlast
    have hc := List.getLast?_eq_some_getLast hne
    rw [hlines _ hc] at hc
    exact hlast hc
  have hpos : 0 < (Text.bytes column).length := by
    obtain ⟨c, column, rfl⟩ := List.exists_cons_of_ne_nil hcolumn
    have hsize := c.utf8Size_pos
    rw [Text.length_bytes_cons]
    omega
  rw [LineMap.fromSource]
  dsimp only
  rw [narrow_eq hsize, if_pos]
  intro h
  have hmem := List.mem_of_getLast? h
  rw [Text.bytes_append, newlineStarts_append_tail fun hn => hnot (newline_mem_bytes hn), List.length_append] at hmem
  rw [Text.bytes_append, List.length_append] at hsize
  rcases List.mem_cons.1 hmem with hzero | hmem
  · omega
  · have hle := (mem_newlineStarts (by omega) hmem).2
    omega

/-- The position of an offset whose line is the one that the newlines before it give. -/
theorem byteToPosition_eq (hsize : (Text.bytes (before ++ after)).length < 2 ^ 32)
    (hidx : (LineMap.fromSource (before ++ after)).lineIdx (Text.bytes before).length = before.count '\n') :
    (LineMap.fromSource (before ++ after)).byteToPosition (Text.bytes before).length =
      .ok ⟨before.count '\n', utf16Length (lastLine before)⟩ := by
  obtain ⟨lines, column, rfl, hnot, hlines⟩ := exists_lastLine before
  have hcount : (lines ++ column).count '\n' = lines.count '\n' := by
    rw [List.count_append, List.count_eq_zero_of_not_mem hnot, Nat.add_zero]
  rw [hcount] at hidx
  rw [List.append_assoc] at hsize hidx ⊢
  have hstart := (lineStarts_getElem? hlines hsize).1
  have hlen : (Text.bytes (lines ++ column)).length = (Text.bytes lines).length + (Text.bytes column).length := by
    rw [Text.bytes_append, List.length_append]
  have htotal : (Text.bytes (lines ++ column)).length ≤ (Text.bytes (lines ++ (column ++ after))).length := by
    rw [← List.append_assoc, Text.bytes_append (lines ++ column), List.length_append]
    omega
  have hbound : IsBoundary (lines ++ (column ++ after)) (Text.bytes (lines ++ column)).length := by
    rw [← List.append_assoc]
    exact isBoundary_before
  have hslice := slice_append lines column after
  rw [List.append_assoc, ← hlen] at hslice
  have hlast : lastLine (lines ++ column) = column := lastLine_append hnot hlines
  have hutf := utf16Length_le column
  have hcolumn : (Text.bytes column).length < 2 ^ 32 := by omega
  have hnewlines : lines.count '\n' < 2 ^ 32 := by
    have hle := (count_bytes lines ▸ List.count_le_length : lines.count '\n' ≤ (Text.bytes lines).length)
    omega
  unfold LineMap.byteToPosition
  dsimp only
  rw [hidx, hstart, Option.getD_some, LineMap.fromSource_source, hlen, Nat.add_sub_cancel_left, ← hlen,
    Nat.min_eq_right htotal, clampToCharBoundary_eq hbound, hslice]
  dsimp only
  rw [hcount, hlast, narrow_eq hnewlines, narrow_eq (by omega)]

theorem lineIdx_of_lt (hsize : (Text.bytes (before ++ after)).length < 2 ^ 32) (hafter : after ≠ []) :
    (LineMap.fromSource (before ++ after)).lineIdx (Text.bytes before).length = before.count '\n' := by
  have hcount := countP_starts hsize
  have hpos : (Text.bytes before).length < (Text.bytes (before ++ after)).length := by
    obtain ⟨c, after, rfl⟩ := List.exists_cons_of_ne_nil hafter
    have hsize := c.utf8Size_pos
    rw [Text.bytes_append, List.length_append, Text.length_bytes_cons]
    omega
  rw [LineMap.lineIdx, LineMap.fromSource]
  dsimp only
  rw [narrow_eq hsize]
  split
  · rw [List.countP_append, hcount, List.countP_singleton, if_neg (by simpa using hpos)]
    rfl
  · rw [hcount]
    rfl

/-- The end of a text is on the line that the newlines give where the last line is empty. -/
theorem lineIdx_end (hlast : ∀ c, source.getLast? = some c → c = '\n') (hsize : (Text.bytes source).length < 2 ^ 32) :
    (LineMap.fromSource source).lineIdx (Text.bytes source).length = source.count '\n' := by
  have hcount := @countP_starts source [] (by rwa [List.append_nil])
  rw [List.append_nil] at hcount
  have hend : (0 :: newlineStarts 0 (Text.bytes source)).getLast? = some (Text.bytes source).length := by
    rcases List.eq_nil_or_concat' source with rfl | ⟨init, c, rfl⟩
    · rfl
    · obtain rfl : c = '\n' := hlast c List.getLast?_concat
      have hbytes : Text.bytes (init ++ ['\n']) = Text.bytes init ++ ['\n'] := by
        rw [Text.bytes_append, Text.bytes_singleton (by decide)]
      rw [hbytes, List.length_append, List.length_singleton] at hsize
      rw [hbytes, newlineStarts_append, newlineStarts_newline, Nat.zero_add, narrow_eq hsize, List.length_append,
        List.length_singleton, newlineStarts, ← List.cons_append, List.getLast?_concat]
  rw [LineMap.lineIdx, LineMap.fromSource]
  dsimp only
  rw [narrow_eq hsize, if_neg (not_not.2 hend), hcount]
  rfl

/-- The position at the end of a text whose last line is not empty is on the line behind it. -/
theorem byteToPosition_end (hne : source ≠ []) (hlast : source.getLast? ≠ some '\n')
    (hsize : (Text.bytes source).length < 2 ^ 32) :
    (LineMap.fromSource source).byteToPosition (Text.bytes source).length = .ok ⟨source.count '\n' + 1, 0⟩ := by
  have hstarts := lineStarts_of_last hne hlast hsize
  have hcount := @countP_starts source [] (by rwa [List.append_nil])
  rw [List.append_nil] at hcount
  have hidx : (LineMap.fromSource source).lineIdx (Text.bytes source).length = source.count '\n' + 1 := by
    rw [LineMap.lineIdx, hstarts, List.countP_append, hcount, List.countP_singleton, if_pos (by simp)]
    rfl
  have hlen : (0 :: newlineStarts 0 (Text.bytes source)).length = source.count '\n' + 1 := by
    rw [List.length_cons, length_newlineStarts, count_bytes]
  have hstart : (LineMap.fromSource source).lineStarts[source.count '\n' + 1]? = some (Text.bytes source).length := by
    rw [hstarts, ← hlen]
    exact List.getElem?_concat_length
  have hslice : Text.slice source (Text.bytes source).length (Text.bytes source).length = some [] := by
    have h := slice_append source [] []
    rwa [List.append_nil, List.append_nil] at h
  have hnewlines : source.count '\n' + 1 < 2 ^ 32 := by
    obtain ⟨init, c, rfl⟩ := (List.eq_nil_or_concat' source).resolve_left hne
    rw [List.getLast?_concat] at hlast
    have hle := (count_bytes init ▸ List.count_le_length : init.count '\n' ≤ (Text.bytes init).length)
    have hpos := c.utf8Size_pos
    have hnone : [c].count '\n' = 0 :=
      List.count_eq_zero_of_not_mem fun h => hlast (by rw [List.mem_singleton.1 h])
    have hcount : (init ++ [c]).count '\n' = init.count '\n' := by rw [List.count_append, hnone, Nat.add_zero]
    rw [Text.bytes_append, List.length_append, Text.length_bytes_cons] at hsize
    omega
  unfold LineMap.byteToPosition
  dsimp only
  rw [hidx, hstart, Option.getD_some, LineMap.fromSource_source, Nat.sub_self, Nat.add_zero, Nat.min_self,
    clampToCharBoundary_eq (Text.isBoundary_length source), hslice]
  dsimp only
  rw [narrow_eq hnewlines]
  rfl

end Map

/-! ## There and back -/

/-- The pair that a position is to be: the newlines before, and the length of the line so far. -/
def positionOf (before : Text) : Position :=
  ⟨before.count '\n', utf16Length (lastLine before)⟩

theorem cutAt_zero {column after : Text} (hnot : '\n' ∉ column) :
    Text.cutAt (column ++ after) 0 (utf16Length column) = some (column, after) := by
  induction column with
  | nil => exact Text.cutAt.eq_1 after
  | cons c column ih =>
    obtain ⟨hc, hcolumn⟩ := List.ne_and_not_mem_of_not_mem_cons hnot
    have hsize : 0 < Text.utf16Size c := by
      rw [Text.utf16Size]
      split <;> omega
    obtain ⟨k, hk⟩ : ∃ k, utf16Length (c :: column) = k + 1 :=
      ⟨utf16Length (c :: column) - 1, by rw [utf16Length_cons]; omega⟩
    rw [hk, List.cons_append, Text.cutAt, if_neg (Ne.symm hc), ← hk, utf16Length_cons, Nat.add_sub_cancel_left,
      ih hcolumn]
    rfl

theorem cutAt_lines {lines column after : Text} (hnot : '\n' ∉ column)
    (hlast : ∀ c, lines.getLast? = some c → c = '\n') :
    Text.cutAt (lines ++ column ++ after) (lines.count '\n') (utf16Length column) = some (lines ++ column, after) := by
  induction lines with
  | nil =>
    rw [List.nil_append, List.count_nil]
    exact cutAt_zero hnot
  | cons c lines ih =>
    have hlast' : ∀ d, lines.getLast? = some d → d = '\n' := by
      intro d hd
      apply hlast d
      rw [List.getLast?_cons, hd]
      rfl
    obtain ⟨n, hn⟩ : ∃ n, (c :: lines).count '\n' = n + 1 := by
      have hmem : '\n' ∈ c :: lines := by
        have hlast₁ := List.getLast?_eq_some_getLast (List.cons_ne_nil c lines)
        rw [hlast _ hlast₁] at hlast₁
        exact List.mem_of_getLast? hlast₁
      exact ⟨_, (Nat.succ_pred_eq_of_pos (List.count_pos_iff.2 hmem)).symm⟩
    have hnext : (if c = '\n' then n else n + 1) = lines.count '\n' := by
      rw [List.count_cons] at hn
      split
      next h =>
        rw [if_pos (by rw [h]; rfl)] at hn
        omega
      next h =>
        rw [if_neg (by simpa using h)] at hn
        omega
    rw [hn, List.cons_append, List.cons_append, Text.cutAt, hnext, ih hlast']
    rfl

theorem cutAt_positionOf (before after : Text) :
    Text.cutAt (before ++ after) (positionOf before).line (positionOf before).character = some (before, after) := by
  obtain ⟨lines, column, rfl, hnot, hlines⟩ := exists_lastLine before
  rw [positionOf]
  dsimp only
  rw [lastLine_append hnot hlines, List.count_append, List.count_eq_zero_of_not_mem hnot, Nat.add_zero]
  exact cutAt_lines hnot hlines

section There

variable {source before after : Text}

/-- The position of an offset, but at the end of a text whose last line is not empty. -/
theorem byteToPosition_positionOf (hsize : (Text.bytes (before ++ after)).length < 2 ^ 32)
    (h : after = [] → ∀ c, before.getLast? = some c → c = '\n') :
    (LineMap.fromSource (before ++ after)).byteToPosition (Text.bytes before).length = .ok (positionOf before) := by
  apply byteToPosition_eq hsize
  cases after with
  | nil =>
    rw [List.append_nil] at hsize ⊢
    exact lineIdx_end (h rfl) hsize
  | cons c after => exact lineIdx_of_lt hsize (List.cons_ne_nil c after)

/-- The way back leads to the offset, but at the end of a text whose last line is empty. -/
theorem positionToByte_positionOf (hsize : (Text.bytes (before ++ after)).length < 2 ^ 32) :
    (LineMap.fromSource (before ++ after)).positionToByte (positionOf before) =
      .ok (some (if after = [] ∧ before.getLast? = some '\n' then (Text.bytes before).length - 1
        else (Text.bytes before).length)) := by
  rw [positionToByte_eq (cutAt_positionOf before after) hsize]
  congr 2
  cases after with
  | nil =>
    rw [List.append_nil]
    refine if_congr ?_ rfl rfl
    exact ⟨fun h => ⟨rfl, h.1⟩, fun h => ⟨h.2, rfl⟩⟩
  | cons c after =>
    rw [if_neg, if_neg fun h => List.cons_ne_nil c after h.1]
    rintro ⟨hlast, hcount⟩
    rw [List.getLast?_append_of_ne_nil _ (List.cons_ne_nil c after)] at hlast
    have hpos : 0 < (c :: after).count '\n' := List.count_pos_iff.2 (List.mem_of_getLast? hlast)
    rw [List.count_append] at hcount
    change before.count '\n' + _ = before.count '\n' at hcount
    omega

theorem positionOf_mono (h : before <+: after) : positionOf before ≤ positionOf after := by
  obtain ⟨mid, rfl⟩ := h
  by_cases hmid : '\n' ∈ mid
  · refine Or.inl ?_
    have hpos := List.count_pos_iff.2 hmid
    rw [positionOf, positionOf, List.count_append]
    dsimp only
    omega
  · refine Or.inr ⟨?_, ?_⟩
    · rw [positionOf, positionOf, List.count_append, List.count_eq_zero_of_not_mem hmid]
      rfl
    · obtain ⟨lines, column, rfl, hnot, hlines⟩ := exists_lastLine before
      rw [positionOf, positionOf, List.append_assoc, lastLine_append hnot hlines, lastLine_append _ hlines]
      · exact utf16Length_prefix (List.prefix_append _ _)
      · exact fun hmem => (List.mem_append.1 hmem).elim hnot hmid

/-- The position of an offset is not before the one that it is to be. -/
theorem exists_byteToPosition (hsize : (Text.bytes (before ++ after)).length < 2 ^ 32) :
    ∃ p, (LineMap.fromSource (before ++ after)).byteToPosition (Text.bytes before).length = .ok p ∧
      positionOf before ≤ p ∧ (after ≠ [] → p = positionOf before) := by
  by_cases h : after = [] → ∀ c, before.getLast? = some c → c = '\n'
  · exact ⟨positionOf before, byteToPosition_positionOf hsize h, Or.inr ⟨rfl, Nat.le_refl _⟩, fun _ => rfl⟩
  · obtain ⟨hnil, hlines⟩ := Classical.not_imp.1 h
    obtain ⟨c, hmore⟩ := Classical.not_forall.1 hlines
    subst hnil
    obtain ⟨hlast, hc⟩ := Classical.not_imp.1 hmore
    have hne : before ≠ [] := by
      rintro rfl
      cases hlast
    rw [List.append_nil] at hsize ⊢
    refine ⟨_, byteToPosition_end hne (fun h => hc ?_) hsize, Or.inl (Nat.lt_succ_self _), fun h => absurd rfl h⟩
    rw [hlast] at h
    exact Option.some.inj h

theorem le_trans_position {p q r : Position} (h : p ≤ q) (h' : q ≤ r) : p ≤ r := by
  rcases h with h | ⟨h, hc⟩ <;> rcases h' with h' | ⟨h', hc'⟩
  · exact Or.inl (h.trans h')
  · exact Or.inl (h' ▸ h)
  · exact Or.inl (h ▸ h')
  · exact Or.inr ⟨h.trans h', hc.trans hc'⟩

/-- Of two cuts the one with fewer bytes before it comes first. -/
theorem exists_append_of_le {before' after' : Text} (heq : before ++ after = before' ++ after')
    (hle : (Text.bytes before).length ≤ (Text.bytes before').length) :
    ∃ mid, before' = before ++ mid ∧ after = mid ++ after' := by
  rcases List.append_eq_append_iff.1 heq with ⟨mid, rfl, rfl⟩ | ⟨mid, rfl, rfl⟩
  · exact ⟨mid, rfl, rfl⟩
  · cases mid with
    | nil => exact ⟨[], by simp, rfl⟩
    | cons c mid =>
      have hsize := c.utf8Size_pos
      rw [Text.bytes_append, List.length_append, Text.length_bytes_cons] at hle
      omega

theorem byteToPosition_mono (hsize : (Text.bytes source).length < 2 ^ 32) {b₁ b₂ : Nat} (h₁ : IsBoundary source b₁)
    (h₂ : IsBoundary source b₂) (hle : b₁ ≤ b₂) :
    ∃ p₁ p₂, (LineMap.fromSource source).byteToPosition b₁ = .ok p₁ ∧
      (LineMap.fromSource source).byteToPosition b₂ = .ok p₂ ∧ p₁ ≤ p₂ := by
  obtain ⟨rest₁, hrest₁⟩ := Option.isSome_iff_exists.1 h₁
  obtain ⟨rest₂, hrest₂⟩ := Option.isSome_iff_exists.1 h₂
  obtain ⟨before₁, rfl, rfl⟩ := Text.dropBytes_eq_some.1 hrest₁
  obtain ⟨before₂, heq, rfl⟩ := Text.dropBytes_eq_some.1 hrest₂
  obtain ⟨mid, rfl, rfl⟩ := exists_append_of_le heq hle
  obtain ⟨p₁, hp₁, -, hexact⟩ := exists_byteToPosition hsize
  rw [heq] at hsize
  obtain ⟨p₂, hp₂, hle₂, -⟩ := exists_byteToPosition hsize
  rw [← heq] at hp₂
  refine ⟨p₁, p₂, hp₁, hp₂, ?_⟩
  by_cases hrest : mid ++ rest₂ = []
  · -- Both are at the end.
    obtain ⟨rfl, rfl⟩ := List.append_eq_nil_iff.1 hrest
    simp only [List.append_nil] at hp₁ hp₂
    rw [hp₁] at hp₂
    cases hp₂
    exact Or.inr ⟨rfl, Nat.le_refl _⟩
  · rw [hexact hrest]
    exact le_trans_position (positionOf_mono (List.prefix_append _ _)) hle₂

/-- An offset has the position that its newlines and its line give, and comes back from it, but at the end of a text that
is not empty; positions are in the order of their offsets. -/
theorem byteToPosition_round_trip_iff (hsize : (Text.bytes source).length < 2 ^ 32) :
    (∀ before after, source = before ++ after →
      ((LineMap.fromSource source).byteToPosition (Text.bytes before).length = .ok (positionOf before) ∧
          (LineMap.fromSource source).positionToByte (positionOf before) = .ok (some (Text.bytes before).length) ↔
        (Text.bytes before).length < (Text.bytes source).length ∨ source = [])) ∧
      ∀ b₁ b₂, IsBoundary source b₁ → IsBoundary source b₂ → b₁ ≤ b₂ →
        ∃ p₁ p₂, (LineMap.fromSource source).byteToPosition b₁ = .ok p₁ ∧
          (LineMap.fromSource source).byteToPosition b₂ = .ok p₂ ∧ p₁ ≤ p₂ := by
  refine ⟨?_, fun b₁ b₂ h₁ h₂ hle => byteToPosition_mono hsize h₁ h₂ hle⟩
  rintro before after rfl
  rw [positionToByte_positionOf hsize]
  by_cases hafter : after = []
  · subst hafter
    rw [List.append_nil] at hsize ⊢
    constructor
    · rintro ⟨hposition, hback⟩
      refine Or.inr (Classical.byContradiction fun hne => ?_)
      by_cases hlast : before.getLast? = some '\n'
      · -- The way back ends before the last newline.
        rw [if_pos ⟨rfl, hlast⟩] at hback
        have hlen := Option.some.inj (Except.ok.inj hback)
        obtain ⟨c, before, rfl⟩ := List.exists_cons_of_ne_nil hne
        have hpos := c.utf8Size_pos
        rw [Text.length_bytes_cons] at hlen
        omega
      · rw [byteToPosition_end hne hlast hsize] at hposition
        have hline := congrArg Position.line (Except.ok.inj hposition)
        exact absurd hline (Nat.succ_ne_self _)
    · rintro (h | rfl)
      · exact absurd h (Nat.lt_irrefl _)
      · exact ⟨rfl, rfl⟩
  · have hlt : (Text.bytes before).length < (Text.bytes (before ++ after)).length := by
      obtain ⟨c, after, rfl⟩ := List.exists_cons_of_ne_nil hafter
      have hpos := c.utf8Size_pos
      rw [Text.bytes_append, List.length_append, Text.length_bytes_cons]
      omega
    refine iff_of_true ⟨byteToPosition_positionOf hsize fun h => absurd h hafter, ?_⟩ (Or.inl hlt)
    rw [if_neg fun h => hafter h.1]

/-- `a`, newline, `é`. -/
theorem byteToPosition_round_trip_two_lines :
    (LineMap.fromSource ['a', '\n', 'é']).byteToPosition 2 = .ok (positionOf ['a', '\n']) ∧
      (LineMap.fromSource ['a', '\n', 'é']).positionToByte (positionOf ['a', '\n']) = .ok (some 2) := by
  have h := (@byteToPosition_round_trip_iff ['a', '\n', 'é'] (by decide)).1 ['a', '\n'] ['é'] rfl
  exact h.2 (Or.inl (by decide))

/-- The end of `a` is taken for the start of a second line; the end of `a` and a newline comes back before the newline. -/
theorem end_of_text_moves :
    (LineMap.fromSource ['a']).byteToPosition 1 = .ok ⟨1, 0⟩ ∧ positionOf ['a'] = ⟨0, 1⟩ ∧
      (LineMap.fromSource ['a', '\n']).byteToPosition 2 = .ok ⟨1, 0⟩ ∧ positionOf ['a', '\n'] = ⟨1, 0⟩ ∧
      (LineMap.fromSource ['a', '\n']).positionToByte ⟨1, 0⟩ = .ok (some 1) := by
  refine ⟨rfl, rfl, rfl, rfl, rfl⟩

end There

end Cobrust.Lsp
