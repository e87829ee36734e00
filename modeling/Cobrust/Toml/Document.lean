import Cobrust.Toml.Strings
import Mathlib.Data.List.Induction
import Mathlib.Data.List.Nodup

/-!
# Documents of TOML

Documents of tables, arrays of tables and rows, as a writer lays them out: each string with the way it is
written. `Follows` is what TOML 1.0 says about the text of such a document, whether or not its strings are
written as they should be.

* `decodes_of_parse`: if every string of a document that is read back is written as it should be, then
  a document that is parsed has all its strings written as they should be.
-/

namespace Cobrust.Toml

inductive Value where
  | string (s : String)
  | integer (n : Int)
  /-- A float or a truth value, by its text. -/
  | scalar (text : String)
  /-- A date or a time, by its text. -/
  | datetime (text : String)
  | array (items : List Value)
  | table (rows : List (String × Value))

abbrev Root := List (String × Value)

/-- A step from a value to a part of it. -/
inductive Step where
  | key (name : String)
  | index (i : Nat)
  deriving DecidableEq, Repr

def Value.get : Value → List Step → Option Value
  | v, [] => some v
  | .table rows, .key name :: path => (rows.lookup name).bind fun v => v.get path
  | .array items, .index i :: path => items[i]?.bind fun v => v.get path
  | _, _ :: _ => none

/-! ## Documents -/

/-- A string, with the characters it is written with. -/
structure Written where
  raw : List Char
  text : String
  deriving DecidableEq

/-- The string is written as it should be. -/
def Written.Decodes (w : Written) : Prop :=
  Basic w.raw w.text.toList

/-- The right side of a row. -/
inductive Entry where
  | string (w : Written)
  | integer (n : Nat)
  | strings (ws : List Written)
  | inline (rows : List (String × Written))

inductive Section where
  /-- `[name]` and its rows, after a blank line or not. -/
  | table (spaced : Bool) (name : String) (rows : List (String × Entry))
  /-- `[[name]]` and its rows, for each element, after a blank line. -/
  | tables (name : String) (elements : List (List (String × Entry)))

structure Document where
  comments : List String
  sections : List Section

/-- A part of the text of a document. -/
inductive Piece where
  | text (t : String)
  | string (path : List Step) (w : Written)

def Piece.chars : Piece → List Char
  | .text t => t.toList
  | .string _ w => '"' :: (w.raw ++ ['"'])

def chars (pieces : List Piece) : List Char :=
  pieces.flatMap Piece.chars

def itemPieces (path : List Step) : Nat → List Written → List Piece
  | _, [] => []
  | i, [w] => [.string (path ++ [.index i]) w]
  | i, w :: w' :: ws => .string (path ++ [.index i]) w :: .text ", " :: itemPieces path (i + 1) (w' :: ws)

def inlinePieces (path : List Step) : List (String × Written) → List Piece
  | [] => []
  | [row] => [.text (row.1 ++ " = "), .string (path ++ [.key row.1]) row.2]
  | row :: row' :: rows =>
    .text (row.1 ++ " = ") :: .string (path ++ [.key row.1]) row.2 :: .text ", " :: inlinePieces path (row' :: rows)

def Entry.pieces (path : List Step) : Entry → List Piece
  | .string w => [.string path w]
  | .integer n => [.text (toString n)]
  | .strings ws => [.text "["] ++ itemPieces path 0 ws ++ [.text "]"]
  | .inline rows => [.text "\x7b "] ++ inlinePieces path rows ++ [.text " \x7d"]

def rowPieces (path : List Step) (row : String × Entry) : List Piece :=
  [.text (row.1 ++ " = ")] ++ row.2.pieces (path ++ [.key row.1]) ++ [.text "\n"]

def tablePieces (path : List Step) (rows : List (String × Entry)) : List Piece :=
  rows.flatMap (rowPieces path)

def elementPieces (name : String) : Nat → List (List (String × Entry)) → List Piece
  | _, [] => []
  | i, rows :: elements =>
    [.text ("\n[[" ++ name ++ "]]\n")] ++ tablePieces [.key name, .index i] rows ++
      elementPieces name (i + 1) elements

def Section.pieces : Section → List Piece
  | .table spaced name rows =>
    [.text ((if spaced then "\n[" else "[") ++ name ++ "]\n")] ++ tablePieces [.key name] rows
  | .tables name elements => elementPieces name 0 elements

def Document.pieces (d : Document) : List Piece :=
  d.comments.map (fun c => .text ("#" ++ c ++ "\n")) ++ d.sections.flatMap Section.pieces

/-- The text of the document. -/
def Document.chars (d : Document) : List Char :=
  Toml.chars d.pieces

def Entry.value : Entry → Value
  | .string w => .string w.text
  | .integer n => .integer n
  | .strings ws => .array (ws.map fun w => .string w.text)
  | .inline rows => .table (rows.map fun row => (row.1, .string row.2.text))

def tableValue (rows : List (String × Entry)) : Value :=
  .table (rows.map fun row => (row.1, row.2.value))

def Section.name : Section → String
  | .table _ name _ => name
  | .tables name _ => name

/-- The row that a section adds to the document; an array without elements is not written. -/
def Section.row : Section → Option (String × Value)
  | .table _ name rows => some (name, tableValue rows)
  | .tables _ [] => none
  | .tables name elements => some (name, .array (elements.map tableValue))

def Document.value (d : Document) : Root :=
  d.sections.filterMap Section.row

/-! ## What TOML says about it -/

def isBareKey (key : String) : Bool :=
  key.toList ≠ [] && key.toList.all fun c => c.isAlphanum || c == '_' || c == '-'

def Keys {α : Type} (rows : List (String × α)) : Prop :=
  (rows.map Prod.fst).Nodup ∧ ∀ row ∈ rows, isBareKey row.1 = true

def Entry.WellFormed : Entry → Prop
  | .inline rows => Keys rows
  | _ => True

def RowsWellFormed (rows : List (String × Entry)) : Prop :=
  Keys rows ∧ ∀ row ∈ rows, row.2.WellFormed

def Section.WellFormed : Section → Prop
  | .table _ name rows => isBareKey name = true ∧ RowsWellFormed rows
  | .tables name elements => isBareKey name = true ∧ ∀ rows ∈ elements, RowsWellFormed rows

structure Document.WellFormed (d : Document) : Prop where
  comments : ∀ comment ∈ d.comments, ∀ c ∈ comment.toList, c = '\t' ∨ 0x20 ≤ c.toNat ∧ c.toNat ≠ 0x7f
  names : (d.sections.map Section.name).Nodup
  sections : ∀ s ∈ d.sections, s.WellFormed

/-- All strings of the document are written as they should be. -/
def Document.Decodes (d : Document) : Prop :=
  ∀ path w, .string path w ∈ d.pieces → w.Decodes

/-- A parser that keeps to TOML 1.0 on the text of a document. It accepts the document if all strings are
written as they should be. If it accepts the document anyhow, then it has read it from left to right: what
stands at the path of a string, behind others that are written as they should be, is read from where it is. -/
structure Follows (parse : List Char → Except String Root) (d : Document) : Prop where
  accepts : d.WellFormed → d.Decodes → parse d.chars = .ok d.value
  reads : ∀ before path w after root, d.WellFormed → d.pieces = before ++ .string path w :: after →
    (∀ path' w', .string path' w' ∈ before → w'.Decodes) → parse d.chars = .ok root →
    ∃ s : String, ReadsString ('"' :: (w.raw ++ '"' :: Toml.chars after)) s.toList ∧
      (Value.table root).get path = some (.string s)

/-! ## What follows a string -/

variable {pieces pieces' : List Piece} {tail : List Char} {path : List Step} {w : Written}

theorem chars_append : chars (pieces ++ pieces') = chars pieces ++ chars pieces' :=
  List.flatMap_append

theorem chars_text (t : String) : chars [.text t] = t.toList := by
  simp [chars, Piece.chars]

/-- Behind each string there is what the reader needs to notice its end. -/
def GuardedIn (pieces : List Piece) (tail : List Char) : Prop :=
  ∀ before path w after, pieces = before ++ .string path w :: after → Guarded (chars after ++ tail)

/-- A text whose first character is copied by every reader, or none. -/
def Starts (tail : List Char) : Prop :=
  ∀ z rest, tail = z :: rest → copied z = true

theorem GuardedIn.append (h : GuardedIn pieces (chars pieces' ++ tail)) (h' : GuardedIn pieces' tail) :
    GuardedIn (pieces ++ pieces') tail := by
  intro before path w after heq
  rcases List.append_eq_append_iff.1 heq with ⟨mid, -, hmid⟩ | ⟨mid, hpieces, hmid⟩
  · exact h' mid path w after hmid
  · cases mid with
    | nil => exact h' [] path w after hmid.symm
    | cons p mid =>
      rw [List.cons_append, List.cons.injEq] at hmid
      obtain ⟨rfl, rfl⟩ := hmid
      rw [chars_append, List.append_assoc]
      exact h before path w mid hpieces

theorem guardedIn_text (t : String) (tail : List Char) : GuardedIn [.text t] tail := by
  intro before path w after heq
  rcases before with _ | ⟨p, _ | ⟨p', before⟩⟩ <;> simp at heq

theorem guardedIn_string (h : Guarded tail) : GuardedIn [.string path w] tail := by
  intro before path' w' after heq
  rcases before with _ | ⟨p, before⟩
  · rw [List.nil_append, List.cons.injEq] at heq
    rw [← heq.2]
    exact h
  · simp at heq

theorem guardedIn_nil (tail : List Char) : GuardedIn [] tail := by
  intro before path w after heq
  simp at heq

theorem guarded_lineEnd (h : Starts tail) : Guarded ('\n' :: tail) := by
  cases tail with
  | nil => exact .lastLine
  | cons z rest => exact .nextLine (h z rest rfl)

theorem guardedIn_items (i : Nat) (ws : List Written) (h : Guarded tail) : GuardedIn (itemPieces path i ws) tail := by
  induction ws generalizing i with
  | nil => exact guardedIn_nil _
  | cons w ws ih =>
    cases ws with
    | nil => exact guardedIn_string h
    | cons w' ws =>
      have hcomma : Guarded (chars ([.text ", "] ++ itemPieces path (i + 1) (w' :: ws)) ++ tail) := by
        rw [chars_append, chars_text]
        exact .char (by decide) (by decide)
      exact (guardedIn_string hcomma).append ((guardedIn_text _ _).append (ih (i + 1)))

theorem guardedIn_inline (rows : List (String × Written)) (h : Guarded tail) :
    GuardedIn (inlinePieces path rows) tail := by
  induction rows with
  | nil => exact guardedIn_nil _
  | cons row rows ih =>
    cases rows with
    | nil => exact (guardedIn_text _ _).append (guardedIn_string h)
    | cons row' rows =>
      have hcomma : Guarded (chars ([.text ", "] ++ inlinePieces path (row' :: rows)) ++ tail) := by
        rw [chars_append, chars_text]
        exact .char (by decide) (by decide)
      exact (guardedIn_text _ _).append ((guardedIn_string hcomma).append ((guardedIn_text _ _).append ih))

theorem guardedIn_entry (e : Entry) (h : Starts tail) : GuardedIn (e.pieces path) ('\n' :: tail) := by
  cases e with
  | string w => exact guardedIn_string (guarded_lineEnd h)
  | integer n => exact guardedIn_text _ _
  | strings ws =>
    refine ((guardedIn_text _ _).append (guardedIn_items 0 ws ?_)).append (guardedIn_text _ _)
    rw [chars_text]
    exact .char (by decide) (by decide)
  | inline rows =>
    refine ((guardedIn_text _ _).append (guardedIn_inline rows ?_)).append (guardedIn_text _ _)
    rw [chars_text]
    exact .char (by decide) (by decide)

theorem guardedIn_row (row : String × Entry) (h : Starts tail) : GuardedIn (rowPieces path row) tail := by
  refine ((guardedIn_text _ _).append ?_).append (guardedIn_text _ _)
  rw [chars_text]
  exact guardedIn_entry row.2 h

theorem copied_of_bare {c : Char} (h : (c.isAlphanum || c == '_' || c == '-') = true) : copied c = true := by
  by_contra hnot
  have hcases : c = '"' ∨ c = '\\' ∨ c = '\r' := by
    simp only [copied, Bool.and_eq_true, bne_iff_ne, ne_eq, not_and_or, not_not] at hnot
    tauto
  rcases hcases with rfl | rfl | rfl <;> exact absurd h (by decide)

theorem starts_key {key : String} (h : isBareKey key = true) : Starts (key.toList ++ tail) := by
  rw [isBareKey, Bool.and_eq_true, List.all_eq_true] at h
  intro z rest heq
  cases hkey : key.toList with
  | nil => simp [hkey] at h
  | cons c cs =>
    rw [hkey, List.cons_append, List.cons.injEq] at heq
    rw [← heq.1]
    exact copied_of_bare (h.2 c (by rw [hkey]; exact List.mem_cons_self))

theorem starts_table {rows : List (String × Entry)} (hkeys : ∀ row ∈ rows, isBareKey row.1 = true)
    (h : Starts tail) : Starts (chars (tablePieces path rows) ++ tail) := by
  cases rows with
  | nil => exact h
  | cons row rows =>
    rw [tablePieces, List.flatMap_cons, rowPieces, List.append_assoc, List.append_assoc, chars_append,
      chars_text, String.toList_append, List.append_assoc, List.append_assoc]
    exact starts_key (hkeys row List.mem_cons_self)

theorem guardedIn_table {rows : List (String × Entry)} (hkeys : ∀ row ∈ rows, isBareKey row.1 = true)
    (h : Starts tail) : GuardedIn (tablePieces path rows) tail := by
  induction rows with
  | nil => exact guardedIn_nil _
  | cons row rows ih =>
    have hrest : ∀ row ∈ rows, isBareKey row.1 = true := fun r hr => hkeys r (List.mem_cons_of_mem _ hr)
    exact (guardedIn_row row (starts_table hrest h)).append (ih hrest)

theorem starts_elements (name : String) (i : Nat) (elements : List (List (String × Entry))) (h : Starts tail) :
    Starts (chars (elementPieces name i elements) ++ tail) := by
  cases elements with
  | nil => exact h
  | cons rows elements =>
    rw [elementPieces, List.append_assoc, chars_append, chars_text, String.toList_append, String.toList_append]
    rintro z rest heq
    cases heq
    decide

theorem guardedIn_elements {name : String} {elements : List (List (String × Entry))} (i : Nat)
    (hkeys : ∀ rows ∈ elements, RowsWellFormed rows) (h : Starts tail) :
    GuardedIn (elementPieces name i elements) tail := by
  induction elements generalizing i with
  | nil => exact guardedIn_nil _
  | cons rows elements ih =>
    have hrows := (hkeys rows List.mem_cons_self).1.2
    refine ((guardedIn_text _ _).append (guardedIn_table hrows ?_)).append
      (ih (i + 1) fun r hr => hkeys r (List.mem_cons_of_mem _ hr))
    exact starts_elements name (i + 1) elements h

theorem starts_section (s : Section) (h : Starts tail) : Starts (chars s.pieces ++ tail) := by
  cases s with
  | table spaced name rows =>
    rw [Section.pieces, chars_append, chars_text, String.toList_append, String.toList_append]
    rintro z rest heq
    cases spaced <;> cases heq <;> decide
  | tables name elements => exact starts_elements name 0 elements h

theorem starts_sections (sections : List Section) (h : Starts tail) :
    Starts (chars (sections.flatMap Section.pieces) ++ tail) := by
  induction sections with
  | nil => exact h
  | cons s sections ih =>
    rw [List.flatMap_cons, chars_append, List.append_assoc]
    exact starts_section s ih

theorem guardedIn_sections {sections : List Section} (hwf : ∀ s ∈ sections, s.WellFormed) (h : Starts tail) :
    GuardedIn (sections.flatMap Section.pieces) tail := by
  induction sections with
  | nil => exact guardedIn_nil _
  | cons s sections ih =>
    have hrest := starts_sections sections h
    rw [List.flatMap_cons]
    refine GuardedIn.append ?_ (ih fun s' hs' => hwf s' (List.mem_cons_of_mem _ hs'))
    have hs := hwf s List.mem_cons_self
    cases s with
    | table spaced name rows => exact (guardedIn_text _ _).append (guardedIn_table hs.2.1.2 hrest)
    | tables name elements => exact guardedIn_elements 0 hs.2 hrest

/-- Behind each string of a document there is what the reader needs to notice its end. -/
theorem guarded_of_pieces {d : Document} (hwf : d.WellFormed) {before after : List Piece}
    (h : d.pieces = before ++ .string path w :: after) : Guarded (chars after) := by
  have hcomments : ∀ tail, GuardedIn (d.comments.map fun c => Piece.text ("#" ++ c ++ "\n")) tail := by
    intro tail before path w after heq
    have hmem : Piece.string path w ∈ d.comments.map fun c => Piece.text ("#" ++ c ++ "\n") := by
      rw [heq]
      simp
    obtain ⟨c, -, hc⟩ := List.mem_map.1 hmem
    cases hc
  have hall : GuardedIn d.pieces [] := (hcomments _).append (guardedIn_sections hwf.sections fun _ _ heq => by cases heq)
  have hguard := hall before path w after h
  rwa [List.append_nil] at hguard

/-- If a string that is read back is written as it should be, all strings of a parsed document are. -/
theorem decodes_of_parse {parse : List Char → Except String Root} {d : Document} {root : Root}
    (hf : Follows parse d) (hwf : d.WellFormed) (hparse : parse d.chars = .ok root)
    (hread : ∀ path w tail (s : String), .string path w ∈ d.pieces → Guarded tail →
      ReadsString ('"' :: (w.raw ++ '"' :: tail)) s.toList →
      (Value.table root).get path = some (.string s) → w.Decodes) :
    d.Decodes := by
  have hall : ∀ before after, d.pieces = before ++ after → ∀ path w, .string path w ∈ before → w.Decodes := by
    intro before
    induction before using List.reverseRecOn with
    | nil => exact fun _ _ _ _ hmem => absurd hmem List.not_mem_nil
    | append_singleton before p ih =>
      intro after heq path w hmem
      rw [List.append_assoc] at heq
      have hbefore := ih _ heq
      rcases List.mem_append.1 hmem with hmem | hmem
      · exact hbefore path w hmem
      · rw [List.mem_singleton] at hmem
        subst hmem
        obtain ⟨s, hs, hget⟩ := hf.reads before path w after root hwf heq hbefore hparse
        exact hread path w _ s (by rw [heq]; simp) (guarded_of_pieces hwf heq) hs hget
  exact hall d.pieces [] (List.append_nil _).symm

end Cobrust.Toml
