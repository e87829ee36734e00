import Cobrust.Text.Split
import Mathlib.Algebra.GroupWithZero.Nat

/-!
# Words of a command line

Lines, and the words that a line falls into: words are separated by blanks, single quotes take everything up to the next
one as it is, and outside of them a backslash takes one character as it is.

* `Reads.splitWords`: what the words of a line are that is put together from encoded words.
* `splitWords_raw_iff`: a text stands for itself as one word exactly when it is plain.
-/

namespace Text

/-- The lines that are complete. -/
def readLines (line : Text) : Text → List Text
  | [] => []
  | c :: rest => if c = '\n' then line :: readLines [] rest else readLines (line ++ [c]) rest

theorem readLines_append {a s : Text} (line : Text) (h : '\n' ∉ a) :
    readLines line (a ++ '\n' :: s) = (line ++ a) :: readLines [] s := by
  induction a generalizing line with
  | nil => simp [readLines]
  | cons c a ih =>
    obtain ⟨hc, ha⟩ := List.ne_and_not_mem_of_not_mem_cons h
    rw [List.cons_append, readLines, if_neg (Ne.symm hc), ih _ ha, List.append_assoc]
    rfl

theorem length_readLines (line s : Text) : (readLines line s).length = s.count '\n' := by
  induction s generalizing line with
  | nil => rfl
  | cons c s ih =>
    rw [readLines, List.count_cons]
    split
    · next hc => simp [hc, ih]
    · next hc => simp [hc, ih]

/-- Each text on a line of its own. -/
def writeLines (ts : List Text) : Text :=
  ts.flatMap fun t => t ++ ['\n']

theorem readLines_writeLines {ts : List Text} (h : ∀ t ∈ ts, '\n' ∉ t) : readLines [] (writeLines ts) = ts := by
  induction ts with
  | nil => rfl
  | cons t ts ih =>
    have hcons : writeLines (t :: ts) = t ++ '\n' :: writeLines ts := by simp [writeLines]
    rw [hcons, readLines_append [] (h t (by simp)), ih fun t' ht' => h t' (by simp [ht'])]
    rfl

/-- A text with a line feed in it makes more lines than one. -/
theorem length_readLines_writeLines (ts : List Text) :
    (readLines [] (writeLines ts)).length = ts.length + (ts.map (·.count '\n')).sum := by
  rw [length_readLines]
  induction ts with
  | nil => rfl
  | cons t ts ih =>
    have hcons : writeLines (t :: ts) = t ++ '\n' :: writeLines ts := by simp [writeLines]
    rw [hcons, List.count_append, List.count_cons_self, ih, List.length_cons, List.map_cons, List.sum_cons]
    omega

theorem readLines_writeLines_iff {ts : List Text} :
    (readLines [] (writeLines ts)).length = ts.length ↔ ∀ t ∈ ts, '\n' ∉ t := by
  rw [length_readLines_writeLines, Nat.add_eq_left, List.sum_eq_zero_iff_forall_eq_nat, List.forall_mem_map]
  simp only [List.count_eq_zero]

/-! ## Words -/

inductive Quoting where
  | plain | quoted | escaped
  deriving DecidableEq

structure WordReader where
  /-- The words that are complete. -/
  words : List Text
  /-- The word that is being read. -/
  word : Option Text
  mode : Quoting
  deriving DecidableEq

def isBlank (c : Char) : Bool :=
  c = ' ' || c = '\t'

/-- The character stands for itself outside of quotes. -/
def isPlain (c : Char) : Bool :=
  !isBlank c && c ≠ '\'' && c ≠ '\\'

namespace WordReader

def push (r : WordReader) (c : Char) (mode : Quoting) : WordReader :=
  { r with word := some (r.word.getD [] ++ [c]), mode := mode }

def step (r : WordReader) (c : Char) : WordReader :=
  match r.mode with
  | .quoted => if c = '\'' then { r with mode := .plain } else r.push c .quoted
  | .escaped => r.push c .plain
  | .plain =>
    if isBlank c then { words := r.words ++ r.word.toList, word := none, mode := .plain }
    else if c = '\'' then { r with word := some (r.word.getD []), mode := .quoted }
    else if c = '\\' then { r with word := some (r.word.getD []), mode := .escaped }
    else r.push c .plain

def read (r : WordReader) (s : Text) : WordReader :=
  s.foldl step r

def finish (r : WordReader) : Option (List Text) :=
  if r.mode = .plain then some (r.words ++ r.word.toList) else none

end WordReader

/-- The words of a line; none where a quote or a backslash has no end. -/
def splitWords (s : Text) : Option (List Text) :=
  (WordReader.read ⟨[], none, .plain⟩ s).finish

/-- A text in single quotes, with a quote of its own as `'\''`. -/
def quote (s : Text) : Text :=
  ['\''] ++ s.flatMap (fun c => if c = '\'' then "'\\''".toList else [c]) ++ ['\'']

/-! ## Encoded words -/

open WordReader

theorem read_append (r : WordReader) (a b : Text) : r.read (a ++ b) = (r.read a).read b :=
  List.foldl_append

theorem read_cons (r : WordReader) (c : Char) (s : Text) : r.read (c :: s) = (r.step c).read s :=
  rfl

/-- The text is read as the word, in front of which nothing stands. -/
def Reads (e w : Text) : Prop :=
  ∀ ws, WordReader.read ⟨ws, none, .plain⟩ e = ⟨ws, some w, .plain⟩

theorem isPlain_iff {c : Char} : isPlain c = true ↔ isBlank c = false ∧ c ≠ '\'' ∧ c ≠ '\\' := by
  simp [isPlain, and_assoc]

theorem step_plain {ws : List Text} {w : Option Text} {c : Char} (h : isPlain c = true) :
    WordReader.step ⟨ws, w, .plain⟩ c = ⟨ws, some (w.getD [] ++ [c]), .plain⟩ := by
  obtain ⟨hblank, hquote, hback⟩ := isPlain_iff.1 h
  simp [WordReader.step, push, hblank, hquote, hback]

theorem read_plain {s : Text} (h : ∀ c ∈ s, isPlain c = true) (ws : List Text) (w : Text) :
    WordReader.read ⟨ws, some w, .plain⟩ s = ⟨ws, some (w ++ s), .plain⟩ := by
  induction s generalizing w with
  | nil => rw [List.append_nil]; rfl
  | cons c s ih =>
    rw [read_cons, step_plain (h c (by simp)), ih fun d hd => h d (by simp [hd]), Option.getD_some, List.append_assoc]
    rfl

theorem reads_plain {s : Text} (hne : s ≠ []) (h : ∀ c ∈ s, isPlain c = true) : Reads s s := by
  intro ws
  obtain ⟨c, s, rfl⟩ := List.exists_cons_of_ne_nil hne
  rw [read_cons, step_plain (h c (by simp)), read_plain fun d hd => h d (by simp [hd])]
  rfl

theorem read_quoted (ws : List Text) (w s : Text) :
    WordReader.read ⟨ws, some w, .quoted⟩ (s.flatMap fun c => if c = '\'' then "'\\''".toList else [c]) =
      ⟨ws, some (w ++ s), .quoted⟩ := by
  induction s generalizing w with
  | nil => rw [List.append_nil]; rfl
  | cons c s ih =>
    have hstep : WordReader.read ⟨ws, some w, .quoted⟩ (if c = '\'' then "'\\''".toList else [c]) =
        ⟨ws, some (w ++ [c]), .quoted⟩ := by
      split
      · next hc => subst hc; rfl
      · next hc => simp [WordReader.read, WordReader.step, push, hc]
    rw [List.flatMap_cons, read_append, hstep, ih, List.append_assoc]
    rfl

/-- A quoted text is read as that text, whatever is in it. -/
theorem reads_quote (s : Text) : Reads (quote s) s := by
  intro ws
  rw [quote, read_append, read_append]
  have hopen : WordReader.read ⟨ws, none, .plain⟩ ['\''] = ⟨ws, some [], .quoted⟩ := rfl
  rw [hopen, read_quoted, List.nil_append]
  rfl

/-- The words so far, and a blank behind them. -/
def ReadsAll (line : Text) (ws : List Text) : Prop :=
  WordReader.read ⟨[], none, .plain⟩ line = ⟨ws, none, .plain⟩

instance (line : Text) (ws : List Text) : Decidable (ReadsAll line ws) :=
  inferInstanceAs (Decidable (_ = _))

theorem ReadsAll.snoc {line e w : Text} {ws : List Text} (h : ReadsAll line ws) (he : Reads e w) :
    ReadsAll (line ++ e ++ [' ']) (ws ++ [w]) := by
  rw [ReadsAll, read_append, read_append, h, he ws]
  rfl

theorem ReadsAll.splitWords {line e w : Text} {ws : List Text} (h : ReadsAll line ws) (he : Reads e w) :
    splitWords (line ++ e) = some (ws ++ [w]) := by
  rw [Text.splitWords, read_append, h, he ws]
  rfl

/-! ## Texts that are not quoted -/

/-- How many characters the words have. -/
def WordReader.size (r : WordReader) : Nat :=
  (r.words.map List.length).sum + (r.word.getD []).length

theorem size_push (r : WordReader) (c : Char) (mode : Quoting) : (r.push c mode).size = r.size + 1 := by
  simp only [WordReader.size, push, Option.getD_some, List.length_append, List.length_singleton]
  omega

/-- A character makes the words longer by one at most. -/
theorem size_step_le (r : WordReader) (c : Char) : (r.step c).size ≤ r.size + 1 := by
  unfold WordReader.step
  split
  · split
    · exact Nat.le_succ _
    · exact (size_push ..).le
  · exact (size_push ..).le
  · split
    · cases hw : r.word <;> simp [WordReader.size, hw]
    · split
      · simp [WordReader.size]
      · split
        · simp [WordReader.size]
        · exact (size_push ..).le

theorem size_read_le (r : WordReader) (s : Text) : (r.read s).size ≤ r.size + s.length := by
  induction s generalizing r with
  | nil => exact Nat.le_refl _
  | cons c s ih =>
    have := ih (r.step c)
    have := size_step_le r c
    rw [read_cons, List.length_cons]
    omega

theorem size_step_of_not_plain {ws : List Text} {w : Option Text} {c : Char} (h : isPlain c = false) :
    (WordReader.step ⟨ws, w, .plain⟩ c).size = WordReader.size ⟨ws, w, .plain⟩ := by
  have hcases : isBlank c = true ∨ c = '\'' ∨ c = '\\' := by
    by_contra hno
    push Not at hno
    rw [isPlain_iff.2 ⟨by simpa using hno.1, hno.2⟩] at h
    cases h
  rcases hcases with hblank | rfl | rfl
  · cases w <;> simp [WordReader.step, hblank, WordReader.size]
  · rfl
  · rfl

theorem size_of_finish {r : WordReader} {ws : List Text} (h : r.finish = some ws) :
    (ws.map List.length).sum = r.size := by
  unfold finish at h
  split at h
  · rw [Option.some.injEq] at h
    subst h
    cases hw : r.word <;> simp [WordReader.size, hw]
  · cases h

/-- A text with a character that is not plain loses that character. -/
theorem size_read_lt {s : Text} {ws : List Text} {w : Option Text} (h : ∃ c ∈ s, isPlain c = false) :
    (WordReader.read ⟨ws, w, .plain⟩ s).size < WordReader.size ⟨ws, w, .plain⟩ + s.length := by
  induction s generalizing w with
  | nil => simp at h
  | cons c s ih =>
    rw [read_cons, List.length_cons]
    cases hc : isPlain c with
    | true =>
      have htail : ∃ d ∈ s, isPlain d = false := by
        obtain ⟨d, hd, hplain⟩ := h
        rcases List.mem_cons.1 hd with rfl | hd
        · rw [hc] at hplain
          cases hplain
        · exact ⟨d, hd, hplain⟩
      have hrest := ih (w := some (w.getD [] ++ [c])) htail
      have hsize : WordReader.size ⟨ws, some (w.getD [] ++ [c]), .plain⟩ = WordReader.size ⟨ws, w, .plain⟩ + 1 :=
        size_push ⟨ws, w, .plain⟩ c .plain
      rw [step_plain hc]
      omega
    | false =>
      have hsize : (WordReader.step ⟨ws, w, .plain⟩ c).size = WordReader.size ⟨ws, w, .plain⟩ :=
        size_step_of_not_plain hc
      have hrest := size_read_le (WordReader.step ⟨ws, w, .plain⟩ c) s
      omega

/-- A text that is not quoted is one word, and the word it is, exactly when it is plain. -/
theorem splitWords_raw_iff {line : Text} {ws : List Text} (hline : ReadsAll line ws) (s : Text) :
    splitWords (line ++ s) = some (ws ++ [s]) ↔ s ≠ [] ∧ ∀ c ∈ s, isPlain c = true := by
  constructor
  · intro h
    rw [splitWords, read_append, hline] at h
    refine ⟨?_, ?_⟩
    · rintro rfl
      simp [WordReader.read, finish] at h
    · by_contra hplain
      push Not at hplain
      obtain ⟨c, hc, hbad⟩ := hplain
      have hlt : (WordReader.read ⟨ws, none, .plain⟩ s).size < WordReader.size ⟨ws, none, .plain⟩ + s.length :=
        size_read_lt ⟨c, hc, by simpa using hbad⟩
      have hsize := size_of_finish h
      simp only [List.map_append, List.sum_append, List.map_cons, List.map_nil, List.sum_cons, List.sum_nil,
        WordReader.size, Option.getD_none, List.length_nil] at hsize hlt
      omega
  · rintro ⟨hne, hplain⟩
    exact hline.splitWords (reads_plain hne hplain)

theorem read_inside {s : Text} (h : '\'' ∉ s) (ws : List Text) (w : Text) :
    WordReader.read ⟨ws, some w, .quoted⟩ s = ⟨ws, some (w ++ s), .quoted⟩ := by
  induction s generalizing w with
  | nil => rw [List.append_nil]; rfl
  | cons c s ih =>
    obtain ⟨hc, hs⟩ := List.ne_and_not_mem_of_not_mem_cons h
    have hstep : WordReader.step ⟨ws, some w, .quoted⟩ c = ⟨ws, some (w ++ [c]), .quoted⟩ := by
      simp [WordReader.step, push, Ne.symm hc]
    rw [read_cons, hstep, ih hs, List.append_assoc]
    rfl

/-- Between quotes, a text without quotes is one word. -/
theorem reads_between {s : Text} (h : '\'' ∉ s) : Reads (['\''] ++ s ++ ['\'']) s := by
  intro ws
  have hopen : WordReader.read ⟨ws, none, .plain⟩ ['\''] = ⟨ws, some [], .quoted⟩ := rfl
  rw [read_append, read_append, hopen, read_inside h, List.nil_append]
  rfl

theorem mode_step {r : WordReader} {c : Char} (h : (r.step c).mode = .escaped) : c = '\\' := by
  unfold WordReader.step at h
  split at h
  · split at h <;> cases h
  · cases h
  · split at h
    · cases h
    · split at h
      · cases h
      · split at h
        · next hc => exact hc
        · cases h

theorem size_step_quote {r : WordReader} (h : r.mode ≠ .escaped) : (r.step '\'').size = r.size := by
  obtain ⟨words, word, mode⟩ := r
  cases mode with
  | plain => rfl
  | quoted => rfl
  | escaped => exact absurd rfl h

theorem length_lt_of_quote {line s w : Text} {ws : List Text} (hline : ReadsAll line ws) (hquote : '\'' ∈ s)
    (hlast : s.getLast? ≠ some '\\')
    (h : splitWords (line ++ (['\''] ++ s ++ ['\''])) = some (ws ++ [w])) : w.length < s.length := by
  obtain ⟨p, q, rfl, hp⟩ := List.eq_append_cons_of_mem hquote
  have hopen : WordReader.read ⟨ws, none, .plain⟩ ['\''] = ⟨ws, some [], .quoted⟩ := rfl
  rw [splitWords, read_append, hline, read_append, read_append, hopen, read_append, read_inside hp, read_cons _ '\'' q,
    List.nil_append] at h
  have hclose : WordReader.step ⟨ws, some p, .quoted⟩ '\'' = ⟨ws, some p, .plain⟩ := rfl
  rw [hclose] at h
  have hmode : (WordReader.read ⟨ws, some p, .plain⟩ q).mode ≠ .escaped := by
    rcases List.eq_nil_or_concat' q with rfl | ⟨q, c, rfl⟩
    · intro hm
      cases hm
    · intro hm
      rw [read_append] at hm
      have hend : (p ++ '\'' :: (q ++ [c])).getLast? = some c := by
        rw [← List.cons_append, ← List.append_assoc, List.getLast?_concat]
      rw [hend, mode_step hm] at hlast
      exact hlast rfl
  have hsize := size_of_finish h
  have hq := size_read_le ⟨ws, some p, .plain⟩ q
  have hfinal : (WordReader.read (WordReader.read ⟨ws, some p, .plain⟩ q) ['\'']).size =
      (WordReader.read ⟨ws, some p, .plain⟩ q).size := size_step_quote hmode
  rw [hfinal] at hsize
  simp only [List.map_append, List.sum_append, List.map_cons, List.map_nil, List.sum_cons, List.sum_nil,
    WordReader.size, Option.getD_some] at hsize hq
  simp only [List.length_append, List.length_cons, WordReader.size] at *
  omega

end Text
