import Cobrust.Store.Rows
import Cobrust.Text.Split
import Cobrust.Toml.Document
import Mathlib.Data.String.Basic

/-!
# Where the strings of a document stand

* `mem_pieces`: the strings of a document, by its sections and rows.
* `all_iff`, `decodes_iff`: what holds of all strings of a document, by its sections.
* `Written.plain`, `Encoder.written`: the ways to write a string, and when they are as they should be.
-/

namespace Cobrust.Toml

open Cobrust.Store (lookup_eq_some)

variable {path p : List Step} {w : Written} {d : Document}

/-! ## By rows -/

/-- The strings of the right side of a row, which stands at `path`. -/
def Entry.Slot (path : List Step) (p : List Step) (w : Written) : Entry → Prop
  | .string w' => p = path ∧ w = w'
  | .integer _ => False
  | .strings ws => ∃ i : Nat, ws[i]? = some w ∧ p = path ++ [.index i]
  | .inline rows => ∃ row ∈ rows, p = path ++ [.key row.1] ∧ w = row.2

def Section.Slot (p : List Step) (w : Written) : Section → Prop
  | .table _ name rows => ∃ row ∈ rows, row.2.Slot [.key name, .key row.1] p w
  | .tables name elements => ∃ (i : Nat) (rows : List (String × Entry)), elements[i]? = some rows ∧
      ∃ row ∈ rows, row.2.Slot [.key name, .index i, .key row.1] p w

theorem not_mem_text (t : String) : Piece.string p w ∉ [Piece.text t] := by
  intro h
  cases List.mem_singleton.1 h

theorem mem_items (i : Nat) (ws : List Written) :
    .string p w ∈ itemPieces path i ws ↔ ∃ j : Nat, ws[j]? = some w ∧ p = path ++ [.index (i + j)] := by
  induction ws generalizing i with
  | nil => simp [itemPieces]
  | cons w' ws ih =>
    have hstep : (∃ j : Nat, (w' :: ws)[j]? = some w ∧ p = path ++ [.index (i + j)]) ↔
        (w' = w ∧ p = path ++ [.index i]) ∨ ∃ j : Nat, ws[j]? = some w ∧ p = path ++ [.index (i + 1 + j)] := by
      constructor
      · rintro ⟨j, hj, hp⟩
        cases j with
        | zero => exact .inl ⟨by simpa using hj, hp⟩
        | succ j => exact .inr ⟨j, by simpa using hj, by rwa [Nat.add_assoc, Nat.add_comm 1 j]⟩
      · rintro (⟨hw, hp⟩ | ⟨j, hj, hp⟩)
        · exact ⟨0, by simpa using hw, hp⟩
        · exact ⟨j + 1, by simpa using hj, by rwa [Nat.add_assoc, Nat.add_comm 1 j] at hp⟩
    rw [hstep, ← ih (i + 1)]
    cases ws with
    | nil => simp [itemPieces, and_comm, eq_comm]
    | cons w'' ws =>
      rw [itemPieces, List.mem_cons, List.mem_cons, Piece.string.injEq]
      simp [and_comm, eq_comm]

theorem mem_inline (rows : List (String × Written)) :
    .string p w ∈ inlinePieces path rows ↔ ∃ row ∈ rows, p = path ++ [.key row.1] ∧ w = row.2 := by
  induction rows with
  | nil => simp [inlinePieces]
  | cons row rows ih =>
    rw [List.exists_mem_cons_iff, ← ih]
    cases rows with
    | nil => simp [inlinePieces]
    | cons row' rows =>
      rw [inlinePieces, List.mem_cons, List.mem_cons, List.mem_cons, Piece.string.injEq]
      simp

theorem mem_entry (e : Entry) : .string p w ∈ e.pieces path ↔ e.Slot path p w := by
  cases e with
  | string w' => simp [Entry.pieces, Entry.Slot]
  | integer n => simp [Entry.pieces, Entry.Slot]
  | strings ws =>
    rw [Entry.pieces, List.mem_append, List.mem_append, mem_items]
    simp [Entry.Slot]
  | inline rows =>
    rw [Entry.pieces, List.mem_append, List.mem_append, mem_inline]
    simp [Entry.Slot]

theorem mem_table (rows : List (String × Entry)) :
    .string p w ∈ tablePieces path rows ↔ ∃ row ∈ rows, row.2.Slot (path ++ [.key row.1]) p w := by
  rw [tablePieces, List.mem_flatMap]
  refine exists_congr fun row => and_congr_right fun _ => ?_
  rw [rowPieces, List.mem_append, List.mem_append, mem_entry]
  simp

theorem mem_elements {name : String} (i : Nat) (elements : List (List (String × Entry))) :
    .string p w ∈ elementPieces name i elements ↔ ∃ (j : Nat) (rows : List (String × Entry)),
      elements[j]? = some rows ∧ ∃ row ∈ rows, row.2.Slot [.key name, .index (i + j), .key row.1] p w := by
  induction elements generalizing i with
  | nil => simp [elementPieces]
  | cons rows elements ih =>
    rw [elementPieces, List.mem_append, List.mem_append, mem_table, ih]
    constructor
    · rintro ((h | h) | ⟨j, rows', hj, hrow⟩)
      · exact absurd h (not_mem_text _)
      · exact ⟨0, rows, rfl, h⟩
      · refine ⟨j + 1, rows', by simpa using hj, ?_⟩
        rwa [← Nat.add_assoc, Nat.add_right_comm]
    · rintro ⟨j, rows', hj, hrow⟩
      cases j with
      | zero =>
        cases hj
        exact .inl (.inr hrow)
      | succ j =>
        refine .inr ⟨j, rows', by simpa using hj, ?_⟩
        rwa [Nat.add_right_comm, Nat.add_assoc]

theorem mem_section (s : Section) : .string p w ∈ s.pieces ↔ s.Slot p w := by
  cases s with
  | table spaced name rows =>
    rw [Section.pieces, List.mem_append, mem_table]
    simp [Section.Slot]
  | tables name elements =>
    rw [Section.pieces, mem_elements]
    simp [Section.Slot]

theorem mem_pieces : .string p w ∈ d.pieces ↔ ∃ s ∈ d.sections, s.Slot p w := by
  rw [Document.pieces, List.mem_append, List.mem_flatMap]
  simp [mem_section]

theorem slot_cons {step : Step} {path p : List Step} {e : Entry} (h : e.Slot (step :: path) p w) :
    ∃ q, p = step :: q ∧ e.Slot path q w := by
  cases e with
  | string w' => exact ⟨path, h.1, rfl, h.2⟩
  | integer n => exact h.elim
  | strings ws =>
    obtain ⟨i, hi, rfl⟩ := h
    exact ⟨_, rfl, i, hi, rfl⟩
  | inline rows =>
    obtain ⟨row, hrow, rfl, hw⟩ := h
    exact ⟨_, rfl, row, hrow, rfl, hw⟩

def Entry.All (P : Written → Prop) : Entry → Prop
  | .string w => P w
  | .integer _ => True
  | .strings ws => ∀ w ∈ ws, P w
  | .inline rows => ∀ row ∈ rows, P row.2

def Section.All (P : Written → Prop) : Section → Prop
  | .table _ _ rows => ∀ row ∈ rows, row.2.All P
  | .tables _ elements => ∀ rows ∈ elements, ∀ row ∈ rows, row.2.All P

variable {P : Written → Prop}

theorem Entry.all_iff {e : Entry} : e.All P ↔ ∀ p w, e.Slot path p w → P w := by
  cases e with
  | string w' =>
    refine ⟨?_, fun h => h path w' ⟨rfl, rfl⟩⟩
    rintro h p w ⟨-, rfl⟩
    exact h
  | integer n => exact ⟨fun _ _ _ h => h.elim, fun _ => trivial⟩
  | strings ws =>
    constructor
    · rintro h p w ⟨i, hi, -⟩
      exact h w (List.mem_of_getElem? hi)
    · intro h w hw
      obtain ⟨i, hi⟩ := List.mem_iff_getElem?.1 hw
      exact h _ w ⟨i, hi, rfl⟩
  | inline rows =>
    constructor
    · rintro h p w ⟨row, hrow, -, rfl⟩
      exact h row hrow
    · exact fun h row hrow => h _ row.2 ⟨row, hrow, rfl, rfl⟩

theorem Section.all_iff {s : Section} : s.All P ↔ ∀ p w, s.Slot p w → P w := by
  cases s with
  | table spaced name rows =>
    constructor
    · rintro h p w ⟨row, hrow, hslot⟩
      exact Entry.all_iff.1 (h row hrow) p w hslot
    · exact fun h row hrow => Entry.all_iff.2 fun p w hslot => h p w ⟨row, hrow, hslot⟩
  | tables name elements =>
    constructor
    · rintro h p w ⟨i, rows, hi, row, hrow, hslot⟩
      exact Entry.all_iff.1 (h rows (List.mem_of_getElem? hi) row hrow) p w hslot
    · intro h rows hrows row hrow
      obtain ⟨i, hi⟩ := List.mem_iff_getElem?.1 hrows
      exact Entry.all_iff.2 fun p w hslot => h p w ⟨i, rows, hi, row, hrow, hslot⟩

theorem all_iff : (∀ p w, .string p w ∈ d.pieces → P w) ↔ ∀ s ∈ d.sections, s.All P := by
  constructor
  · exact fun h s hs => Section.all_iff.2 fun p w hslot => h p w (mem_pieces.2 ⟨s, hs, hslot⟩)
  · intro h p w hmem
    obtain ⟨s, hs, hslot⟩ := mem_pieces.1 hmem
    exact Section.all_iff.1 (h s hs) p w hslot

theorem decodes_iff : d.Decodes ↔ ∀ s ∈ d.sections, s.All Written.Decodes :=
  all_iff

theorem keys_of_sublist {α : Type} {rows : List (String × α)} {keys : List String}
    (hsub : (rows.map Prod.fst).Sublist keys) (hnodup : keys.Nodup) (hbare : keys.all isBareKey = true) : Keys rows :=
  ⟨hsub.nodup hnodup, fun _ hrow => List.all_eq_true.1 hbare _ (hsub.subset (List.mem_map_of_mem hrow))⟩

theorem lookup_value (name : String) (rows : List (String × Entry)) :
    (rows.map fun row => (row.1, row.2.value)).lookup name = (rows.lookup name).map Entry.value := by
  induction rows with
  | nil => rfl
  | cons row rows ih =>
    rw [List.map_cons, List.lookup_cons, List.lookup_cons]
    cases name == row.1
    · exact ih
    · rfl

theorem Entry.get_value {e : Entry} (hwf : e.WellFormed) (hslot : e.Slot path p w) :
    ∃ q, p = path ++ q ∧ e.value.get q = some (.string w.text) := by
  cases e with
  | string w' =>
    obtain ⟨rfl, rfl⟩ := hslot
    exact ⟨[], (List.append_nil _).symm, rfl⟩
  | integer n => exact hslot.elim
  | strings ws =>
    obtain ⟨i, hi, rfl⟩ := hslot
    refine ⟨_, rfl, ?_⟩
    rw [Entry.value, Value.get, List.getElem?_map, hi]
    rfl
  | inline rows =>
    obtain ⟨row, hrow, rfl, rfl⟩ := hslot
    refine ⟨_, rfl, ?_⟩
    have hnodup : ((rows.map fun row => (row.1, Value.string row.2.text)).map Prod.fst).Nodup := by
      rw [List.map_map]
      exact hwf.1
    rw [Entry.value, Value.get, (lookup_eq_some hnodup).2 (List.mem_map_of_mem hrow)]
    rfl

theorem get_table (path : List Step) {rows : List (String × Entry)} {row : String × Entry}
    (hwf : RowsWellFormed rows) (hrow : row ∈ rows)
    (hslot : row.2.Slot (path ++ [.key row.1]) p w) :
    ∃ q, p = path ++ q ∧ (tableValue rows).get q = some (.string w.text) := by
  obtain ⟨q, rfl, hget⟩ := Entry.get_value (hwf.2 row hrow) hslot
  refine ⟨.key row.1 :: q, List.append_assoc _ _ _, ?_⟩
  have hnodup : ((rows.map fun row => (row.1, row.2.value)).map Prod.fst).Nodup := by
    rw [List.map_map]
    exact hwf.1.1
  rw [tableValue, Value.get, (lookup_eq_some hnodup).2 (List.mem_map_of_mem hrow)]
  exact hget

/-- In the value of a document, the strings stand where they stand in the document. -/
theorem get_value (hwf : d.WellFormed) (hmem : .string p w ∈ d.pieces) :
    (Value.table d.value).get p = some (.string w.text) := by
  obtain ⟨s, hs, hslot⟩ := mem_pieces.1 hmem
  have hnodup : (d.value.map Prod.fst).Nodup := by
    have hsub : (d.value.map Prod.fst).Sublist (d.sections.map Section.name) := by
      rw [Document.value]
      generalize d.sections = sections
      induction sections with
      | nil => exact List.Sublist.refl _
      | cons s sections ih =>
        rw [List.filterMap_cons]
        cases hrow : s.row with
        | none => exact ih.cons _
        | some row =>
          have hname : row.1 = s.name := by
            rcases s with ⟨spaced, name, rows⟩ | ⟨name, _ | ⟨rows, elements⟩⟩
            · cases hrow
              rfl
            · cases hrow
            · cases hrow
              rfl
          rw [List.map_cons, List.map_cons, hname]
          exact ih.cons_cons _
    exact hsub.nodup hwf.names
  have hroot {v : Value} {q : List Step} (hrow : s.row = some (s.name, v)) (hget : v.get q = some (.string w.text)) :
      (Value.table d.value).get (.key s.name :: q) = some (.string w.text) := by
    have hmem : (s.name, v) ∈ d.value := List.mem_filterMap.2 ⟨s, hs, hrow⟩
    rw [Value.get, (lookup_eq_some hnodup).2 hmem]
    exact hget
  have hwf := hwf.sections s hs
  cases s with
  | table spaced name rows =>
    obtain ⟨row, hrow, hslot⟩ := hslot
    obtain ⟨q, rfl, hget⟩ := get_table [.key name] hwf.2 hrow hslot
    exact hroot rfl hget
  | tables name elements =>
    obtain ⟨i, rows, hi, row, hrow, hslot⟩ := hslot
    obtain ⟨q, rfl, hget⟩ := get_table [.key name, .index i] (hwf.2 rows (List.mem_of_getElem? hi)) hrow hslot
    cases elements with
    | nil => cases hi
    | cons rows' elements =>
      refine hroot (v := .array ((rows' :: elements).map tableValue)) (q := .index i :: q) rfl ?_
      rw [Value.get, List.getElem?_map, hi]
      exact hget

/-- A parser that gives the value of a document that is written as it should be keeps to TOML there. -/
theorem follows_of_decodes {parse : List Char → Except String Root} (hd : d.Decodes)
    (hparse : parse d.chars = .ok d.value) : Follows parse d where
  accepts := fun _ _ => hparse
  reads := by
    intro before path w after root hwf hpieces _ hroot
    rw [hparse, Except.ok.injEq] at hroot
    subst hroot
    have hmem : .string path w ∈ d.pieces := by
      rw [hpieces]
      simp
    exact ⟨w.text, .basic (hd path w hmem), get_value hwf hmem⟩

/-- A parser that rejects a document whose strings are not written as they should be keeps to TOML there. -/
theorem follows_of_error {parse : List Char → Except String Root} {e : String} (hd : ¬ d.Decodes)
    (hparse : parse d.chars = .error e) : Follows parse d where
  accepts := fun _ hdecodes => absurd hdecodes hd
  reads := by
    intro before path w after root _ _ _ hroot
    rw [hparse] at hroot
    cases hroot

/-! ## Ways to write a string -/

/-- A text without quotation marks, backslashes and control characters other than tabs. -/
def IsPlain (text : String) : Prop :=
  ∀ c ∈ text.toList, unescaped c = true

instance : DecidablePred IsPlain :=
  fun text => List.decidableBAll (fun c => unescaped c = true) text.toList

theorem unescaped_of_bare {c : Char} (h : (c.isAlphanum || c == '_' || c == '-') = true) : unescaped c = true := by
  have hne (d : Char) (hd : (d.isAlphanum || d == '_' || d == '-') = false) : (c != d) = true := by
    rw [bne_iff_ne]
    rintro rfl
    rw [h] at hd
    cases hd
  have hin {lo hi : Nat} (hc : lo ≤ c.toNat ∧ c.toNat ≤ hi) (hlo : 0x20 ≤ lo) (hhi : hi < 0x7f) :
      0x20 ≤ c.toNat ∧ c.toNat ≠ 0x7f := ⟨by omega, by omega⟩
  have hrange : 0x20 ≤ c.toNat ∧ c.toNat ≠ 0x7f := by
    rw [Bool.or_eq_true, Bool.or_eq_true, Text.isAlphanum_iff, beq_iff_eq, beq_iff_eq] at h
    rcases h with (((h | h) | h) | rfl) | rfl
    · exact hin h (by decide) (by decide)
    · exact hin h (by decide) (by decide)
    · exact hin h (by decide) (by decide)
    · decide
    · decide
  rw [unescaped, hne '"' (by decide), hne '\\' (by decide)]
  simp [hrange.1, hrange.2]

/-- A key that needs no quotation marks is written as it is between them. -/
theorem plain_of_bare {key : String} (h : isBareKey key = true) : IsPlain key := by
  rw [isBareKey, Bool.and_eq_true, List.all_eq_true] at h
  exact fun c hc => unescaped_of_bare (h.2 c hc)

/-- The text stands between the quotation marks as it is. -/
def Written.plain (text : String) : Written :=
  ⟨text.toList, text⟩

def Encoder.written (enc : Encoder) (text : String) : Written :=
  ⟨enc.write text.toList, text⟩

/-- The string is written by a writer that keeps to its escapes: it is read back from where it stands only if
it is written as it should be. -/
def Written.Honest (w : Written) : Prop :=
  ∀ tail, Guarded tail → ReadsString ('"' :: (w.raw ++ '"' :: tail)) w.text.toList → w.Decodes

theorem decodes_plain {text : String} : (Written.plain text).Decodes ↔ IsPlain text :=
  ⟨fun h => Basic.unescaped_of_length h (Nat.le_refl _), basic_of_unescaped⟩

theorem honest_plain (text : String) : (Written.plain text).Honest :=
  fun _ hguard hread => decodes_plain.2 (unescaped_of_readsString hread hguard)

theorem decodes_written {enc : Encoder} {text : String} : (enc.written text).Decodes ↔ enc.Covers text.toList := by
  refine ⟨fun h => ?_, basic_encode⟩
  have htext : (enc.written text).raw ++ '"' :: [] = enc.write text.toList ++ '"' :: [] := rfl
  exact Basic.covers h htext

theorem honest_written (enc : Encoder) (text : String) : (enc.written text).Honest :=
  fun _ hguard hread => decodes_written.2 (covers_of_readsString hread hguard)

end Cobrust.Toml
