import Mathlib.Algebra.Group.Nat.Defs
import Mathlib.Algebra.Ring.Int.Defs
import Mathlib.Data.List.Infix

/-!
# Texts with separators

Splitting a text at a separator, cutting it into lines and trimming it, and the decimal form of a
64-bit integer. A text is the list of its characters.

* `lines_intercalate`: what `lines` returns for texts that have been joined with line feeds.
* `parseInt64_displayInt64`: the decimal form of an integer reads back as that integer.
-/

abbrev Text := List Char

namespace Text

theorem toList_literal {s : String} {text : Text} (h : s = String.ofList text) : s.toList = text :=
  h ▸ String.toList_ofList

/-- The text before the first `sep`, and the text behind it. -/
def splitOnce (sep : Char) : Text → Option (Text × Text)
  | [] => none
  | c :: rest =>
    if c = sep then some ([], rest)
    else (splitOnce sep rest).map fun parts => (c :: parts.1, parts.2)

theorem splitOnce_append {sep : Char} {a b : Text} (h : sep ∉ a) :
    splitOnce sep (a ++ sep :: b) = some (a, b) := by
  induction a with
  | nil => rw [List.nil_append, splitOnce, if_pos rfl]
  | cons c rest ih =>
    obtain ⟨hc, hrest⟩ := List.ne_and_not_mem_of_not_mem_cons h
    rw [List.cons_append, splitOnce, if_neg (Ne.symm hc), ih hrest]
    rfl

theorem splitOnce_eq_none {sep : Char} {a : Text} (h : sep ∉ a) : splitOnce sep a = none := by
  induction a with
  | nil => rfl
  | cons c rest ih =>
    obtain ⟨hc, hrest⟩ := List.ne_and_not_mem_of_not_mem_cons h
    rw [splitOnce, if_neg (Ne.symm hc), ih hrest]
    rfl

theorem eq_append_of_splitOnce {sep : Char} {s a b : Text} (h : splitOnce sep s = some (a, b)) :
    s = a ++ sep :: b := by
  induction s generalizing a with
  | nil => cases h
  | cons d rest ih =>
    rw [splitOnce] at h
    split at h
    · rename_i hd
      cases h
      rw [hd, List.nil_append]
    · obtain ⟨⟨a', b'⟩, hparts, he⟩ := Option.map_eq_some_iff.1 h
      cases he
      rw [ih hparts, List.cons_append]

/-! ## Lines -/

/-- The text without a carriage return at its end. -/
def stripCr (line : Text) : Text :=
  if line.getLast? = some '\r' then line.dropLast else line

/-- The lines of a text. A line ends with a line feed, which is no part of it, nor is a carriage return
right before the line feed; what stands behind the last line feed is a line unless it is empty. -/
def lines (s : Text) : List Text :=
  let parts := s.splitOn '\n'
  parts.dropLast.map stripCr ++ (parts.getLast?.filter fun last => !last.isEmpty).toList

theorem stripCr_eq_self {line : Text} : stripCr line = line ↔ line.getLast? ≠ some '\r' := by
  unfold stripCr
  split
  · rename_i h
    refine iff_of_false (fun he => ?_) fun hne => hne h
    have hlen := congrArg List.length he
    have hpos : 0 < line.length := List.length_pos_iff.2 fun hnil => by simp [hnil] at h
    rw [List.length_dropLast] at hlen
    omega
  · rename_i h
    exact iff_of_true rfl h

theorem mem_of_mem_stripCr {c : Char} {line : Text} (h : c ∈ stripCr line) : c ∈ line := by
  unfold stripCr at h
  split at h
  · exact List.mem_of_mem_dropLast h
  · exact h

theorem stripCr_append {a b : Text} (h : a.getLast? ≠ some '\r') : stripCr (a ++ b) = a ++ stripCr b := by
  rcases List.eq_nil_or_concat' b with rfl | ⟨rest, c, rfl⟩
  · rw [List.append_nil, stripCr_eq_self.2 h]
    exact (List.append_nil a).symm
  · unfold stripCr
    rw [← List.append_assoc, List.getLast?_concat, List.getLast?_concat, List.dropLast_concat,
      List.dropLast_concat]
    split
    · rfl
    · exact List.append_assoc a rest [c]

theorem stripCr_of_not_mem {line : Text} (h : '\r' ∉ line) : stripCr line = line :=
  stripCr_eq_self.2 fun hl => h (List.mem_of_getLast? hl)

theorem intercalate_append {sep : Text} {a b : List Text} (ha : a ≠ []) (hb : b ≠ []) :
    sep.intercalate (a ++ b) = sep.intercalate a ++ sep ++ sep.intercalate b := by
  induction a with
  | nil => exact absurd rfl ha
  | cons x rest ih =>
    cases rest with
    | nil => simp [List.intercalate_cons_of_ne_nil hb]
    | cons y rest =>
      have hne : y :: rest ++ b ≠ [] := by simp
      rw [List.cons_append, List.intercalate_cons_of_ne_nil hne, ih (by simp),
        List.intercalate_cons_cons]
      simp only [List.append_assoc]

theorem intercalate_flatMap {α : Type} {sep : Text} {f : α → List Text} {l : List α}
    (hf : ∀ a ∈ l, f a ≠ []) :
    sep.intercalate (l.map fun a => sep.intercalate (f a)) = sep.intercalate (l.flatMap f) := by
  induction l with
  | nil => rfl
  | cons a rest ih =>
    obtain ⟨ha, hrest⟩ := List.forall_mem_cons.1 hf
    cases rest with
    | nil => simp
    | cons b rest =>
      have hne : (b :: rest).flatMap f ≠ [] := by
        rw [List.flatMap_cons]
        exact List.append_ne_nil_of_left_ne_nil (hrest b (by simp)) _
      have hmap : ((b :: rest).map fun a => sep.intercalate (f a)) ≠ [] := by simp
      have hflat : (a :: b :: rest).flatMap f = f a ++ (b :: rest).flatMap f := List.flatMap_cons
      rw [List.map_cons, List.intercalate_cons_of_ne_nil hmap, ih hrest, hflat,
        intercalate_append ha hne]

theorem lines_intercalate {ls : List Text} {last : Text} (hls : ∀ l ∈ ls, '\n' ∉ l)
    (hlast : '\n' ∉ last) (hne : last ≠ []) :
    lines (['\n'].intercalate (ls ++ [last])) = ls.map stripCr ++ [last] := by
  have hall : ∀ l ∈ ls ++ [last], '\n' ∉ l :=
    List.forall_mem_append.2 ⟨hls, List.forall_mem_singleton.2 hlast⟩
  have hfilter : !last.isEmpty := by simpa using hne
  rw [lines, List.splitOn_intercalate '\n' hall (by simp)]
  simp only [List.dropLast_concat, List.getLast?_concat, Option.filter_some, hfilter, if_true,
    Option.toList_some]

theorem not_mem_of_mem_splitOn {sep : Char} {s p : Text} (h : p ∈ s.splitOn sep) : sep ∉ p := by
  induction s generalizing p with
  | nil =>
    obtain rfl : p = [] := by simpa [List.splitOn_nil] using h
    simp
  | cons c rest ih =>
    rw [List.splitOn_cons_eq_if_modifyHead] at h
    split at h
    · rcases List.mem_cons.1 h with rfl | h
      · simp
      · exact ih h
    · rename_i hc
      obtain ⟨hd, tl, he⟩ := List.exists_cons_of_ne_nil (List.splitOn_ne_nil sep rest)
      rw [he] at h ih
      rcases List.mem_cons.1 h with rfl | h
      · exact List.not_mem_cons_of_ne_of_not_mem (fun e => hc (by simp [e])) (ih (by simp))
      · exact ih (List.mem_cons_of_mem hd h)

theorem not_mem_of_mem_lines {s l : Text} (h : l ∈ lines s) : '\n' ∉ l := by
  unfold lines at h
  rcases List.mem_append.1 h with h | h
  · obtain ⟨p, hp, rfl⟩ := List.mem_map.1 h
    exact fun hc => not_mem_of_mem_splitOn (List.mem_of_mem_dropLast hp) (mem_of_mem_stripCr hc)
  · obtain ⟨hl, -⟩ := Option.filter_eq_some_iff.1 (Option.mem_toList.1 h)
    exact not_mem_of_mem_splitOn (List.mem_of_getLast? hl)

/-- The characters with the Unicode property White_Space. -/
def isWhitespace (c : Char) : Bool :=
  [0x20, 0x85, 0xA0, 0x1680, 0x2028, 0x2029, 0x202F, 0x205F, 0x3000].contains c.toNat ||
    (9 ≤ c.toNat && c.toNat ≤ 13) || (0x2000 ≤ c.toNat && c.toNat ≤ 0x200A)

def trim (s : Text) : Text :=
  ((s.dropWhile isWhitespace).reverse.dropWhile isWhitespace).reverse

theorem dropWhile_eq_self {s : Text} (h : ∀ c ∈ s, isWhitespace c = false) :
    s.dropWhile isWhitespace = s := by
  cases s with
  | nil => rfl
  | cons c rest => rw [List.dropWhile_cons_of_neg (by simp [h c])]

theorem trim_eq_self {s : Text} (h : ∀ c ∈ s, isWhitespace c = false) : trim s = s := by
  rw [trim, dropWhile_eq_self h, dropWhile_eq_self fun c hc => h c (List.mem_reverse.1 hc),
    List.reverse_reverse]

theorem isAlphanum_iff {c : Char} : c.isAlphanum = true ↔
    ((65 ≤ c.toNat ∧ c.toNat ≤ 90) ∨ (97 ≤ c.toNat ∧ c.toNat ≤ 122)) ∨ (48 ≤ c.toNat ∧ c.toNat ≤ 57) := by
  change ((decide (65 ≤ c.val ∧ c.val ≤ 90) || (decide (97 ≤ c.val) && decide (c.val ≤ 122))) ||
    (decide (48 ≤ c.val) && decide (c.val ≤ 57))) = true ↔ _
  simp only [Bool.or_eq_true, Bool.and_eq_true, decide_eq_true_eq, UInt32.le_iff_toNat_le]
  exact Iff.rfl

/-! ## Decimal integers -/

def displayInt : Int → Text
  | .ofNat n => Nat.toDigits 10 n
  | .negSucc n => '-' :: Nat.toDigits 10 (n + 1)

def displayInt64 (n : Int64) : Text :=
  displayInt n.toInt

def parseDigits (s : Text) : Option Nat :=
  if s ≠ [] ∧ s.all Char.isDigit then some (Nat.ofDigitChars 10 s 0) else none

/-- Decimal digits behind an optional sign. -/
def parseInt : Text → Option Int
  | '-' :: digits => (parseDigits digits).map fun n => -(n : Int)
  | '+' :: digits => (parseDigits digits).map Int.ofNat
  | digits => (parseDigits digits).map Int.ofNat

def parseInt64 (s : Text) : Option Int64 :=
  (parseInt s).bind fun n => if -2 ^ 63 ≤ n ∧ n < 2 ^ 63 then some (Int64.ofInt n) else none

theorem isDigit_of_mem_toDigits {c : Char} {n : Nat} (h : c ∈ Nat.toDigits 10 n) : c.isDigit :=
  Nat.isDigit_of_mem_toDigits (by decide) (by decide) h

theorem parseDigits_toDigits (n : Nat) : parseDigits (Nat.toDigits 10 n) = some n := by
  rw [parseDigits, if_pos ⟨Nat.toDigits_ne_nil, List.all_eq_true.2 fun c hc => isDigit_of_mem_toDigits hc⟩,
    Nat.ofDigitChars_ten_toDigits]

theorem parseInt_displayInt (n : Int) : parseInt (displayInt n) = some n := by
  cases n with
  | negSucc n =>
    rw [displayInt, parseInt, parseDigits_toDigits]
    rfl
  | ofNat n =>
    have hdigit := fun c => isDigit_of_mem_toDigits (c := c) (n := n)
    rw [displayInt, parseInt, parseDigits_toDigits]
    · rfl
    · intro digits h
      simpa using hdigit '-' (by simp [h])
    · intro digits h
      simpa using hdigit '+' (by simp [h])

theorem parseInt64_displayInt64 (n : Int64) : parseInt64 (displayInt64 n) = some n := by
  have hlo : -2 ^ 63 ≤ n.toInt := n.le_toInt
  have hhi : n.toInt < 2 ^ 63 := n.toInt_lt
  rw [parseInt64, displayInt64, parseInt_displayInt, Option.bind_some, if_pos ⟨hlo, hhi⟩,
    Int64.ofInt_toInt]

theorem mem_displayInt {c : Char} {n : Int} (h : c ∈ displayInt n) : c.isDigit ∨ c = '-' := by
  cases n with
  | ofNat n => exact .inl (isDigit_of_mem_toDigits h)
  | negSucc n =>
    rcases List.mem_cons.1 h with rfl | h
    · exact .inr rfl
    · exact .inl (isDigit_of_mem_toDigits h)

theorem not_mem_displayInt {sep : Char} (hd : sep.isDigit = false) (hm : sep ≠ '-') (n : Int) :
    sep ∉ displayInt n := by
  intro h
  rcases mem_displayInt h with h | h
  · simp [hd] at h
  · exact hm h

end Text
