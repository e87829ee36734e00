import Cobrust.Control.Outcome
import Cobrust.Text.Utf8
import Mathlib.Data.List.TakeWhile

/-!
# The line map of the language server

`LineMap` of `cobrust-lsp/src/span_convert.rs`: the byte offsets at which lines start, and the way from a
position back to a byte offset. Offsets are narrowed to 32 bits.

* `positionToByte_eq`: the offset is where the position cuts the text, but on the empty line behind a last
  newline, where it is the one of that newline.
-/

namespace Cobrust.Lsp

open Text (Position)

/-- A slice off the boundaries of a text, or out of it. -/
inductive Fault where
  | panic

/-- `u32::try_from(n).unwrap_or(u32::MAX)`. -/
def narrow (n : Nat) : Nat :=
  min n (2 ^ 32 - 1)

structure LineMap where
  lineStarts : List Nat
  source : Text

/-- The offset behind each newline. -/
def newlineStarts (offset : Nat) : List Char → List Nat
  | [] => []
  | b :: rest =>
    if b = '\n' then narrow (offset + 1) :: newlineStarts (offset + 1) rest
    else newlineStarts (offset + 1) rest

namespace LineMap

def fromSource (source : Text) : LineMap :=
  let bytes := Text.bytes source
  let starts := 0 :: newlineStarts 0 bytes
  let total := narrow bytes.length
  ⟨if starts.getLast? ≠ some total then starts ++ [total] else starts, source⟩

@[simp] theorem fromSource_source (source : Text) : (fromSource source).source = source :=
  rfl

/-- The walk over the characters of a line, up to a column. -/
def walk (target : Nat) : Text → Nat → Nat → Nat
  | [], _, byteOff => byteOff
  | ch :: rest, utf16Seen, byteOff =>
    if target ≤ utf16Seen then byteOff
    else walk target rest (utf16Seen + Text.utf16Size ch) (byteOff + ch.utf8Size)

/-- The byte offset of a position; none where there is no such line. -/
def positionToByte (m : LineMap) (position : Position) : Except Fault (Option Nat) :=
  match m.lineStarts[position.line]? with
  | none => .ok none
  | some lineStart =>
    let bytes := Text.bytes m.source
    let lineEnd := (m.lineStarts[position.line + 1]?).getD bytes.length
    -- Without the newline at its end.
    let lineBytesEnd :=
      if 0 < lineEnd ∧ lineEnd ≤ bytes.length ∧ bytes[lineEnd - 1]? = some '\n' then lineEnd - 1
      else lineEnd
    let lineBytesEnd := min lineBytesEnd bytes.length
    let lineStart := min lineStart lineBytesEnd
    match Text.slice m.source lineStart lineBytesEnd with
    | none => .error .panic
    | some lineStr => .ok (some (narrow (walk position.character lineStr 0 lineStart)))

end LineMap

/-! ## The starts of lines -/

theorem narrow_eq {n : Nat} (h : n < 2 ^ 32) : narrow n = n :=
  Nat.min_eq_left (Nat.le_sub_one_of_lt h)

theorem newline_mem_bytes {text : Text} (h : '\n' ∈ Text.bytes text) : '\n' ∈ text := by
  induction text with
  | nil => cases h
  | cons c text ih =>
    rw [← List.singleton_append, Text.bytes_append] at h
    rcases List.mem_append.1 h with h | h
    · by_cases hc : c.toNat < 128
      · rw [Text.bytes_singleton hc, List.mem_singleton] at h
        rw [h]
        exact List.mem_cons_self
      · exact absurd (Text.not_ascii_of_mem (Nat.le_of_not_lt hc) h) (by decide)
    · exact List.mem_cons_of_mem _ (ih h)

theorem mem_bytes_of_newline {text : Text} (h : '\n' ∈ text) : '\n' ∈ Text.bytes text := by
  obtain ⟨a, b, rfl⟩ := List.mem_iff_append.1 h
  rw [Text.bytes_append, ← List.singleton_append, Text.bytes_append, Text.bytes_singleton (by decide)]
  exact List.mem_append_right _ List.mem_cons_self

theorem newlineStarts_append_of_not_mem {front : List Char} (h : '\n' ∉ front) (offset : Nat)
    (rest : List Char) :
    newlineStarts offset (front ++ rest) = newlineStarts (offset + front.length) rest := by
  induction front generalizing offset with
  | nil => rfl
  | cons b front ih =>
    obtain ⟨hb, hfront⟩ := List.ne_and_not_mem_of_not_mem_cons h
    rw [List.cons_append, newlineStarts, if_neg (Ne.symm hb), ih hfront, List.length_cons, Nat.add_assoc,
      Nat.add_comm 1]

theorem newlineStarts_newline {offset : Nat} {rest : List Char} :
    newlineStarts offset ('\n' :: rest) = narrow (offset + 1) :: newlineStarts (offset + 1) rest := by
  rw [newlineStarts, if_pos rfl]

theorem bytes_newline_cons (text : Text) : Text.bytes ('\n' :: text) = '\n' :: Text.bytes text := by
  rw [← List.singleton_append, Text.bytes_append, Text.bytes_singleton (by decide)]
  rfl

/-- A text is its first line, alone or with a newline and more behind it. -/
theorem firstLine_cases (text : Text) :
    '\n' ∉ Text.bytes (Text.firstLine text) ∧
      (text = Text.firstLine text ∨ ∃ rest, text = Text.firstLine text ++ '\n' :: rest) := by
  have hnot : '\n' ∉ Text.firstLine text := by
    intro h
    have := List.mem_takeWhile_imp h
    simp at this
  refine ⟨fun h => hnot (newline_mem_bytes h), ?_⟩
  induction text with
  | nil => exact Or.inl rfl
  | cons c text ih =>
    by_cases hc : c = '\n'
    · exact Or.inr ⟨text, by rw [hc]; rfl⟩
    · have hfirst : Text.firstLine (c :: text) = c :: Text.firstLine text :=
        List.takeWhile_cons_of_pos (by simpa using hc)
      rw [hfirst] at hnot ⊢
      rcases ih (List.not_mem_of_not_mem_cons hnot) with he | ⟨rest, he⟩
      · exact Or.inl (by rw [← he])
      · exact Or.inr ⟨rest, by rw [List.cons_append, ← he]⟩

theorem starts_lines {lines rest : Text} {offset : Nat} (hlast : ∀ c, lines.getLast? = some c → c = '\n')
    (hsize : offset + (Text.bytes (lines ++ rest)).length < 2 ^ 32) :
    (offset :: newlineStarts offset (Text.bytes (lines ++ rest))).drop (lines.count '\n') =
      (offset + (Text.bytes lines).length) ::
        newlineStarts (offset + (Text.bytes lines).length) (Text.bytes rest) := by
  generalize hn : lines.count '\n' = n
  induction n generalizing lines offset with
  | zero =>
    cases hl : lines.getLast? with
    | none =>
      rw [List.getLast?_eq_none_iff] at hl
      subst hl
      rfl
    | some c =>
      have hmem := List.mem_of_getLast? hl
      rw [hlast c hl] at hmem
      exact absurd hn (Nat.ne_of_gt (List.count_pos_iff.2 hmem))
  | succ n ih =>
    obtain ⟨hnot, he | ⟨more, he⟩⟩ := firstLine_cases lines
    · have hmem : '\n' ∈ lines := List.count_pos_iff.1 (by omega)
      rw [he] at hmem
      have := List.mem_takeWhile_imp hmem
      simp at this
    · generalize Text.firstLine lines = front at he hnot
      subst he
      have hfront : '\n' ∉ front := fun hmem => hnot (mem_bytes_of_newline hmem)
      have hcount : more.count '\n' = n := by
        rw [List.count_append, List.count_eq_zero_of_not_mem hfront, List.count_cons_self] at hn
        omega
      have hlast' : ∀ c, more.getLast? = some c → c = '\n' := by
        intro c hc
        apply hlast c
        rw [List.getLast?_append, List.getLast?_cons, hc]
        rfl
      have hbytes : Text.bytes (front ++ '\n' :: more ++ rest) =
          Text.bytes front ++ '\n' :: Text.bytes (more ++ rest) := by
        rw [List.append_assoc, List.cons_append, Text.bytes_append, bytes_newline_cons]
      rw [hbytes, List.length_append, List.length_cons] at hsize
      rw [hbytes, List.drop_succ_cons, newlineStarts_append_of_not_mem hnot, newlineStarts_newline,
        narrow_eq (by omega)]
      rw [ih hlast' (by omega) hcount]
      simp only [Text.bytes_append, bytes_newline_cons, List.length_append, List.length_cons]
      have hoff : offset + (Text.bytes front).length + 1 + (Text.bytes more).length =
          offset + ((Text.bytes front).length + ((Text.bytes more).length + 1)) := by omega
      rw [hoff]

/-! ## The way back from a position -/

variable {source rest column before after : Text}

theorem walk_eq {target seen : Nat} (h : Text.cutAt rest 0 (target - seen) = some (column, after))
    (off : Nat) :
    LineMap.walk target (Text.firstLine rest) seen off = off + (Text.bytes column).length := by
  induction rest generalizing column seen off with
  | nil =>
    cases hk : target - seen with
    | zero =>
      rw [hk, Text.cutAt] at h
      cases h
      rfl
    | succ k =>
      rw [hk] at h
      cases h
  | cons c rest ih =>
    cases hk : target - seen with
    | zero =>
      rw [hk, Text.cutAt] at h
      cases h
      have hle : target ≤ seen := Nat.le_of_sub_eq_zero hk
      cases hl : Text.firstLine (c :: rest) with
      | nil => rfl
      | cons d line =>
        rw [LineMap.walk, if_pos hle]
        rfl
    | succ k =>
      rw [hk, Text.cutAt] at h
      split at h
      · cases h
      · next hc =>
        obtain ⟨⟨b, a⟩, hcut, he⟩ := Option.map_eq_some_iff.1 h
        cases he
        have hfirst : Text.firstLine (c :: rest) = c :: Text.firstLine rest :=
          List.takeWhile_cons_of_pos (by simpa using hc)
        have hseen : k + 1 - Text.utf16Size c = target - (seen + Text.utf16Size c) := by omega
        rw [hseen] at hcut
        rw [hfirst, LineMap.walk, if_neg (by omega), ih hcut, Text.length_bytes_cons, Nat.add_assoc]

theorem column_prefix {k : Nat} (h : Text.cutAt rest 0 k = some (column, after)) : '\n' ∉ column := by
  induction rest generalizing column k with
  | nil =>
    cases k with
    | zero => rw [Text.cutAt] at h; cases h; exact List.not_mem_nil
    | succ k => cases h
  | cons c rest ih =>
    cases k with
    | zero => rw [Text.cutAt] at h; cases h; exact List.not_mem_nil
    | succ k =>
      rw [Text.cutAt] at h
      split at h
      · cases h
      · next hc =>
        obtain ⟨⟨b, a⟩, hcut, he⟩ := Option.map_eq_some_iff.1 h
        cases he
        rw [List.mem_cons, not_or]
        exact ⟨Ne.symm hc, ih hcut⟩

/-- The position is on the empty line behind a newline that ends the text. -/
def EmptyLastLine (text : Text) (p : Position) : Prop :=
  text.getLast? = some '\n' ∧ text.count '\n' = p.line

instance (text : Text) (p : Position) : Decidable (EmptyLastLine text p) :=
  inferInstanceAs (Decidable (_ ∧ _))

/-- The starts of the line of a position and of the one behind it. -/
theorem lineStarts_getElem? {lines : Text} (hlast : ∀ c, lines.getLast? = some c → c = '\n')
    (hsize : (Text.bytes (lines ++ rest)).length < 2 ^ 32) :
    (LineMap.fromSource (lines ++ rest)).lineStarts[lines.count '\n']? = some (Text.bytes lines).length ∧
      ((LineMap.fromSource (lines ++ rest)).lineStarts[lines.count '\n' + 1]?).getD
          (Text.bytes (lines ++ rest)).length =
        if rest = Text.firstLine rest then (Text.bytes (lines ++ rest)).length
        else (Text.bytes lines).length + (Text.bytes (Text.firstLine rest)).length + 1 := by
  have hsize₀ : 0 + (Text.bytes (lines ++ rest)).length < 2 ^ 32 := by rwa [Nat.zero_add]
  have hstarts := starts_lines hlast hsize₀
  rw [Nat.zero_add] at hstarts
  have htotal : narrow (Text.bytes (lines ++ rest)).length = (Text.bytes (lines ++ rest)).length :=
    narrow_eq hsize
  have hline (i : Nat) (hi : i < (0 :: newlineStarts 0 (Text.bytes (lines ++ rest))).length) :
      (LineMap.fromSource (lines ++ rest)).lineStarts[i]? =
        (0 :: newlineStarts 0 (Text.bytes (lines ++ rest)))[i]? := by
    rw [LineMap.fromSource]
    dsimp only
    split
    · exact List.getElem?_append_left hi
    · rfl
  have hlen : (0 :: newlineStarts 0 (Text.bytes (lines ++ rest))).length =
      lines.count '\n' + 1 + (newlineStarts (Text.bytes lines).length (Text.bytes rest)).length := by
    have h := congrArg List.length hstarts
    rw [List.length_drop, List.length_cons] at h
    rw [List.length_cons] at h ⊢
    omega
  refine ⟨?_, ?_⟩
  · rw [hline _ (by omega), ← Nat.add_zero (lines.count '\n'), ← List.getElem?_drop, hstarts]
    rfl
  · obtain ⟨hnot, he | ⟨more, he⟩⟩ := firstLine_cases rest
    · rw [if_pos he]
      rw [← he] at hnot
      have hnone : newlineStarts (Text.bytes lines).length (Text.bytes rest) = [] := by
        rw [← List.append_nil (Text.bytes rest), newlineStarts_append_of_not_mem hnot]
        rfl
      rw [hnone, List.length_nil, Nat.add_zero] at hlen
      rw [LineMap.fromSource]
      dsimp only
      split
      · rw [List.getElem?_append_right (by omega), hlen, Nat.sub_self, htotal]
        rfl
      · rw [List.getElem?_eq_none (by omega)]
        rfl
    · have hbytes : Text.bytes rest = Text.bytes (Text.firstLine rest) ++ '\n' :: Text.bytes more := by
        have h := congrArg Text.bytes he
        rwa [Text.bytes_append, bytes_newline_cons] at h
      have hne : rest ≠ Text.firstLine rest := by
        intro h
        rw [← h] at he
        have hlen := congrArg List.length he
        rw [List.length_append, List.length_cons] at hlen
        omega
      have hfits : (Text.bytes lines).length + (Text.bytes (Text.firstLine rest)).length + 1 < 2 ^ 32 := by
        rw [Text.bytes_append, hbytes, List.length_append, List.length_append, List.length_cons] at hsize
        omega
      rw [if_neg hne]
      rw [hbytes, newlineStarts_append_of_not_mem hnot, newlineStarts_newline, narrow_eq hfits] at hstarts hlen
      have hlt : lines.count '\n' + 1 < (0 :: newlineStarts 0 (Text.bytes (lines ++ rest))).length := by
        rw [hlen, List.length_cons]
        omega
      rw [hline _ hlt, ← List.getElem?_drop, hstarts]
      rfl

theorem slice_append (a b c : Text) :
    Text.slice (a ++ b ++ c) (Text.bytes a).length ((Text.bytes a).length + (Text.bytes b).length) =
      some b := by
  have hdrop : Text.dropBytes (a ++ b ++ c) (Text.bytes a).length = some (b ++ c) :=
    Text.dropBytes_eq_some.2 ⟨a, List.append_assoc a b c, rfl⟩
  rw [Text.slice, if_pos (Nat.le_add_right _ _), hdrop, Option.bind_some, Nat.add_sub_cancel_left,
    Text.takeBytes_append]

/-- What `positionToByte` gives once the ends of the line and of its content are known. -/
theorem positionToByte_content {m : LineMap} {p : Position} {lines content more : Text} {lineEnd off : Nat}
    (hsource : m.source = lines ++ content ++ more)
    (hstart : m.lineStarts[p.line]? = some (Text.bytes lines).length)
    (hend : (m.lineStarts[p.line + 1]?).getD (Text.bytes m.source).length = lineEnd)
    (hcontent : (if 0 < lineEnd ∧ lineEnd ≤ (Text.bytes m.source).length ∧
        (Text.bytes m.source)[lineEnd - 1]? = some '\n' then lineEnd - 1 else lineEnd) =
      (Text.bytes lines).length + (Text.bytes content).length)
    (hwalk : LineMap.walk p.character content 0 (Text.bytes lines).length = off) (hoff : off < 2 ^ 32) :
    m.positionToByte p = .ok (some off) := by
  have hle : (Text.bytes lines).length + (Text.bytes content).length ≤ (Text.bytes m.source).length := by
    rw [hsource, Text.bytes_append, Text.bytes_append, List.length_append, List.length_append]
    omega
  rw [LineMap.positionToByte, hstart]
  dsimp only
  rw [hend, hcontent, Nat.min_eq_left hle, Nat.min_eq_left (Nat.le_add_right _ _), hsource, slice_append]
  dsimp only
  rw [hwalk, narrow_eq hoff]

/-- The offset of a position is where it cuts the text, but on the empty last line. -/
theorem positionToByte_eq {p : Position} (hcut : Text.cutAt source p.line p.character = some (before, after))
    (hsize : (Text.bytes source).length < 2 ^ 32) :
    (LineMap.fromSource source).positionToByte p =
      .ok (some (if EmptyLastLine source p then (Text.bytes source).length - 1
        else (Text.bytes before).length)) := by
  obtain ⟨lines, rest, column, rfl, rfl, hcount, hlast, hrest⟩ := Text.cutAt_line hcut
  obtain ⟨hstart, hend⟩ := lineStarts_getElem? hlast hsize
  rw [hcount] at hstart hend
  have hwalk : LineMap.walk p.character (Text.firstLine rest) 0 (Text.bytes lines).length =
      (Text.bytes lines).length + (Text.bytes column).length := walk_eq hrest _
  have hlen : (Text.bytes (lines ++ rest)).length = (Text.bytes lines).length + (Text.bytes rest).length := by
    rw [Text.bytes_append, List.length_append]
  have hcolumn : (Text.bytes lines).length + (Text.bytes column).length ≤ (Text.bytes (lines ++ rest)).length := by
    rw [hlen, Text.cutAt_append hrest, Text.bytes_append, List.length_append]
    omega
  have hbefore : (Text.bytes (lines ++ column)).length = (Text.bytes lines).length + (Text.bytes column).length := by
    rw [Text.bytes_append, List.length_append]
  obtain ⟨hnot, he | ⟨more, he⟩⟩ := firstLine_cases rest
  · rw [if_pos he] at hend
    rw [← he] at hnot hwalk
    cases rest with
    | cons c rest =>
      have hne : ¬ EmptyLastLine (lines ++ c :: rest) p := by
        rintro ⟨hl, -⟩
        rw [List.getLast?_append_of_ne_nil _ (List.cons_ne_nil c rest)] at hl
        exact hnot (mem_bytes_of_newline (List.mem_of_getLast? hl))
      rw [if_neg hne, hbefore]
      apply positionToByte_content (List.append_nil _).symm hstart hend _ hwalk (by omega)
      rw [LineMap.fromSource_source, if_neg]
      · exact hlen
      rintro ⟨hpos, -, hbyte⟩
      have hsome : 0 < (Text.bytes (c :: rest)).length := by
        rw [Text.length_bytes_cons]
        exact Nat.add_pos_left c.utf8Size_pos _
      have hlast : (Text.bytes lines).length ≤ (Text.bytes lines).length + (Text.bytes (c :: rest)).length - 1 := by
        omega
      rw [hlen, Text.bytes_append, List.getElem?_append_right hlast] at hbyte
      exact hnot (List.mem_of_getElem? hbyte)
    | nil =>
      obtain ⟨rfl, -⟩ := List.append_eq_nil_iff.1 (Text.cutAt_append hrest).symm
      rw [List.append_nil] at *
      cases hl : lines.getLast? with
      | none =>
        rw [List.getLast?_eq_none_iff] at hl
        subst hl
        rw [if_neg (fun h => nomatch h.1)]
        have hsource : (LineMap.fromSource []).source = [] ++ [] ++ [] := rfl
        exact positionToByte_content hsource hstart hend rfl hwalk (Nat.two_pow_pos 32)
      | some c =>
        obtain rfl := hlast c hl
        rw [if_pos ⟨hl, hcount⟩]
        obtain ⟨front, rfl⟩ := List.getLast?_eq_some_iff.1 hl
        -- The slice is empty, and starts before the newline.
        have hbytes : Text.bytes (front ++ ['\n']) = Text.bytes front ++ ['\n'] := by
          rw [Text.bytes_append, Text.bytes_singleton (by decide)]
        have hlast : (Text.bytes (front ++ ['\n'])).length = (Text.bytes front).length + 1 := by
          rw [hbytes, List.length_append, List.length_singleton]
        have hnl : (Text.bytes (front ++ ['\n']))[(Text.bytes front).length]? = some '\n' := by
          rw [hbytes, List.getElem?_concat_length]
        have hslice : Text.slice (front ++ ['\n']) (Text.bytes front).length ((Text.bytes front).length + 0) =
            some [] := by
          have h := slice_append front [] ['\n']
          rwa [List.append_nil] at h
        rw [LineMap.positionToByte, hstart]
        dsimp only
        rw [LineMap.fromSource_source, hend, hlast, Nat.add_sub_cancel,
          if_pos ⟨Nat.succ_pos _, Nat.le_refl _, hnl⟩, Nat.min_eq_left (Nat.le_succ _),
          Nat.min_eq_right (Nat.le_succ _)]
        change (match Text.slice (front ++ ['\n']) _ (_ + 0) with
          | none => Except.error Fault.panic
          | some lineStr => Except.ok (some (narrow (LineMap.walk p.character lineStr 0 _)))) = _
        rw [hslice]
        dsimp only
        rw [LineMap.walk, narrow_eq (by omega)]
  · have hrest : rest ≠ Text.firstLine rest := by
      intro h
      rw [← h] at he
      have hl := congrArg List.length he
      rw [List.length_append, List.length_cons] at hl
      omega
    have hne : ¬ EmptyLastLine (lines ++ rest) p := by
      rintro ⟨-, hc⟩
      have hmem : '\n' ∈ rest := by
        rw [he]
        exact List.mem_append_right _ List.mem_cons_self
      have hpos := List.count_pos_iff.2 hmem
      rw [List.count_append] at hc
      omega
    have hbytes : Text.bytes (lines ++ rest) =
        Text.bytes lines ++ (Text.bytes (Text.firstLine rest) ++ '\n' :: Text.bytes more) := by
      have h := congrArg Text.bytes he
      rw [Text.bytes_append, bytes_newline_cons] at h
      rw [Text.bytes_append, ← h]
    rw [if_neg hrest] at hend
    rw [if_neg hne, hbefore]
    have hsource : lines ++ rest = lines ++ Text.firstLine rest ++ '\n' :: more := by
      rw [List.append_assoc, ← he]
    apply positionToByte_content hsource hstart hend _ hwalk (by omega)
    rw [LineMap.fromSource_source, if_pos, Nat.add_sub_cancel]
    refine ⟨Nat.succ_pos _, ?_, ?_⟩
    · rw [hbytes, List.length_append, List.length_append, List.length_cons]
      omega
    · rw [Nat.add_sub_cancel, hbytes, List.getElem?_append_right (Nat.le_add_right _ _),
        Nat.add_sub_cancel_left, List.getElem?_append_right (Nat.le_refl _), Nat.sub_self]
      rfl

end Cobrust.Lsp
