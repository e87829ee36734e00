import Cobrust.Store.Rows
import Cobrust.Text.Split
import Mathlib.Data.Rat.Defs
import Mathlib.Data.String.Basic

/-!
# JSON documents

A reader for the grammar of JSON, and the value of a document: its numbers as rationals, its objects with the last of
the rows of a key, by key. A document keeps its numbers as they are written.

* `readJson`: the document that a text is, if it is one.
* `RowMap`: a way to make maps of rows, and `JsonDoc.collect`, which makes every object one.
* `JsonDoc.value`: the value that a document denotes.
* `JsonDoc.normal_collect`: the value does not depend on how the maps are made.
-/

namespace Text

inductive JsonDoc (N : Type) where
  | null
  | bool (b : Bool)
  | number (n : N)
  | string (s : String)
  | array (items : List (JsonDoc N))
  | object (rows : List (String × JsonDoc N))

/-- A number as it is written. -/
structure JsonNumber where
  neg : Bool
  whole : Text
  frac : Option Text
  /-- The sign and the digits of the exponent. -/
  exp : Option (Bool × Text)
  deriving DecidableEq, Repr

namespace JsonNumber

def digitsValue (digits : Text) : Nat :=
  Nat.ofDigitChars 10 digits 0

/-- The value of the digits without sign and exponent. -/
def mantissa (n : JsonNumber) : ℚ :=
  digitsValue n.whole + (n.frac.elim 0 fun frac => (digitsValue frac : ℚ) / 10 ^ frac.length)

def scale (n : JsonNumber) : ℚ :=
  match n.exp with
  | none => 1
  | some (false, digits) => 10 ^ digitsValue digits
  | some (true, digits) => 1 / 10 ^ digitsValue digits

def value (n : JsonNumber) : ℚ :=
  (if n.neg then -1 else 1) * n.mantissa * n.scale

end JsonNumber

/-! ## The reader -/

def jsonBlank (c : Char) : Bool :=
  c == ' ' || c == '\t' || c == '\n' || c == '\r'

def skipBlanks (s : Text) : Text :=
  s.dropWhile jsonBlank

def hexValue (c : Char) : Option Nat :=
  if '0' ≤ c ∧ c ≤ '9' then some (c.toNat - '0'.toNat)
  else if 'a' ≤ c ∧ c ≤ 'f' then some (c.toNat - 'a'.toNat + 10)
  else if 'A' ≤ c ∧ c ≤ 'F' then some (c.toNat - 'A'.toNat + 10)
  else none

def readHex4 : Text → Option (Nat × Text)
  | a :: b :: c :: d :: s =>
    match hexValue a, hexValue b, hexValue c, hexValue d with
    | some a, some b, some c, some d => some (((a * 16 + b) * 16 + c) * 16 + d, s)
    | _, _, _, _ => none
  | _ => none

/-- The rest of a surrogate pair. -/
def readLow (high : Nat) : Text → Option (Char × Text)
  | '\\' :: 'u' :: s =>
    match readHex4 s with
    | some (low, s) =>
      if 0xdc00 ≤ low ∧ low < 0xe000 then some (Char.ofNat (0x10000 + (high - 0xd800) * 0x400 + (low - 0xdc00)), s)
      else none
    | none => none
  | _ => none

/-- The escape behind a backslash. -/
def readEscape : Text → Option (Char × Text)
  | '"' :: s => some ('"', s)
  | '\\' :: s => some ('\\', s)
  | '/' :: s => some ('/', s)
  | 'b' :: s => some ('\x08', s)
  | 'f' :: s => some ('\x0c', s)
  | 'n' :: s => some ('\n', s)
  | 'r' :: s => some ('\r', s)
  | 't' :: s => some ('\t', s)
  | 'u' :: s =>
    match readHex4 s with
    | some (n, s) =>
      if 0xd800 ≤ n ∧ n < 0xdc00 then readLow n s
      else if 0xdc00 ≤ n ∧ n < 0xe000 then none
      else some (Char.ofNat n, s)
    | none => none
  | _ => none

/-- The characters of a string up to its closing quote. -/
def readChars : Nat → Text → Option (Text × Text)
  | 0, _ => none
  | _ + 1, [] => none
  | _ + 1, '"' :: s => some ([], s)
  | fuel + 1, '\\' :: s =>
    match readEscape s with
    | some (c, s) => (readChars fuel s).map fun r => (c :: r.1, r.2)
    | none => none
  | fuel + 1, c :: s => if c.toNat < 0x20 then none else (readChars fuel s).map fun r => (c :: r.1, r.2)

def readString (s : Text) : Option (Text × Text) :=
  readChars (s.length + 1) s

def readSign : Text → Bool × Text
  | '-' :: s => (true, s)
  | s => (false, s)

def readDigits (s : Text) : Option (Text × Text) :=
  if s.takeWhile Char.isDigit = [] then none else some (s.takeWhile Char.isDigit, s.dropWhile Char.isDigit)

/-- The digits of an integer: no zero in front. -/
def readWhole (s : Text) : Option (Text × Text) :=
  (readDigits s).filter fun r => r.1.head? ≠ some '0' ∨ r.1.length = 1

def readFrac : Text → Option (Option Text × Text)
  | '.' :: s => (readDigits s).map fun r => (some r.1, r.2)
  | s => some (none, s)

def readExpDigits : Text → Option (Option (Bool × Text) × Text)
  | '-' :: s => (readDigits s).map fun r => (some (true, r.1), r.2)
  | '+' :: s => (readDigits s).map fun r => (some (false, r.1), r.2)
  | s => (readDigits s).map fun r => (some (false, r.1), r.2)

def readExp : Text → Option (Option (Bool × Text) × Text)
  | 'e' :: s => readExpDigits s
  | 'E' :: s => readExpDigits s
  | s => some (none, s)

def readNumber (s : Text) : Option (JsonNumber × Text) :=
  (readWhole (readSign s).2).bind fun whole =>
    (readFrac whole.2).bind fun frac =>
      (readExp frac.2).map fun exp => (⟨(readSign s).1, whole.1, frac.1, exp.1⟩, exp.2)

mutual

def readValue : Nat → Text → Option (JsonDoc JsonNumber × Text)
  | 0, _ => none
  | _ + 1, 'n' :: 'u' :: 'l' :: 'l' :: s => some (.null, s)
  | _ + 1, 't' :: 'r' :: 'u' :: 'e' :: s => some (.bool true, s)
  | _ + 1, 'f' :: 'a' :: 'l' :: 's' :: 'e' :: s => some (.bool false, s)
  | _ + 1, '"' :: s => (readString s).map fun r => (.string (String.ofList r.1), r.2)
  | fuel + 1, '[' :: s =>
    match skipBlanks s with
    | ']' :: s => some (.array [], s)
    | s => (readItems fuel s).map fun r => (.array r.1, r.2)
  | fuel + 1, '{' :: s =>
    match skipBlanks s with
    | '}' :: s => some (.object [], s)
    | s => (readRows fuel s).map fun r => (.object r.1, r.2)
  | _ + 1, s => (readNumber s).map fun r => (.number r.1, r.2)

/-- The items of an array up to its closing bracket. -/
def readItems : Nat → Text → Option (List (JsonDoc JsonNumber) × Text)
  | 0, _ => none
  | fuel + 1, s =>
    match readValue fuel s with
    | none => none
    | some (v, s) =>
      match skipBlanks s with
      | ',' :: s => (readItems fuel (skipBlanks s)).map fun r => (v :: r.1, r.2)
      | ']' :: s => some ([v], s)
      | _ => none

/-- The rows of an object up to its closing brace. -/
def readRows : Nat → Text → Option (List (String × JsonDoc JsonNumber) × Text)
  | fuel + 1, '"' :: s =>
    match readString s with
    | none => none
    | some (k, s) =>
      match skipBlanks s with
      | ':' :: s =>
        match readValue fuel (skipBlanks s) with
        | none => none
        | some (v, s) =>
          match skipBlanks s with
          | ',' :: s => (readRows fuel (skipBlanks s)).map fun r => ((String.ofList k, v) :: r.1, r.2)
          | '}' :: s => some ([(String.ofList k, v)], s)
          | _ => none
      | _ => none
  | _, _ => none

end

/-- The document that a text is. Every step down takes a character, so the fuel suffices. -/
def readJson (t : Text) : Option (JsonDoc JsonNumber) :=
  match readValue (2 * t.length + 2) (skipBlanks t) with
  | some (d, s) => if skipBlanks s = [] then some d else none
  | none => none

/-! ## Trees -/

namespace JsonDoc

variable {N M : Type}

mutual

def map (f : N → M) : JsonDoc N → JsonDoc M
  | .null => .null
  | .bool b => .bool b
  | .number n => .number (f n)
  | .string s => .string s
  | .array items => .array (mapItems f items)
  | .object rows => .object (mapRows f rows)

def mapItems (f : N → M) : List (JsonDoc N) → List (JsonDoc M)
  | [] => []
  | v :: items => v.map f :: mapItems f items

def mapRows (f : N → M) : List (String × JsonDoc N) → List (String × JsonDoc M)
  | [] => []
  | (k, v) :: rows => (k, v.map f) :: mapRows f rows

end

mutual

def numbers : JsonDoc N → List N
  | .number n => [n]
  | .array items => itemNumbers items
  | .object rows => rowNumbers rows
  | _ => []

def itemNumbers : List (JsonDoc N) → List N
  | [] => []
  | v :: items => v.numbers ++ itemNumbers items

def rowNumbers : List (String × JsonDoc N) → List N
  | [] => []
  | (_, v) :: rows => v.numbers ++ rowNumbers rows

end

mutual

/-- Every number is read, or the document is not. -/
def traverse (f : N → Option M) : JsonDoc N → Option (JsonDoc M)
  | .null => some .null
  | .bool b => some (.bool b)
  | .number n => (f n).map .number
  | .string s => some (.string s)
  | .array items => (traverseItems f items).map .array
  | .object rows => (traverseRows f rows).map .object

def traverseItems (f : N → Option M) : List (JsonDoc N) → Option (List (JsonDoc M))
  | [] => some []
  | v :: items => (v.traverse f).bind fun v => (traverseItems f items).map fun items => v :: items

def traverseRows (f : N → Option M) : List (String × JsonDoc N) → Option (List (String × JsonDoc M))
  | [] => some []
  | (k, v) :: rows => (v.traverse f).bind fun v => (traverseRows f rows).map fun rows => (k, v) :: rows

end

end JsonDoc

/-! ## Objects as maps -/

open Cobrust.Store

/-- A way to make a map of rows: the last row of a key counts. -/
structure RowMap where
  ofRows {ν : Type} : List (String × ν) → List (String × ν)
  lookup_ofRows {ν : Type} (rows : List (String × ν)) (k : String) : (ofRows rows).lookup k = rows.reverse.lookup k
  nodup_ofRows {ν : Type} (rows : List (String × ν)) : ((ofRows rows).map Prod.fst).Nodup
  ofRows_ofRows {ν : Type} (rows : List (String × ν)) : ofRows (ofRows rows) = ofRows rows
  ofRows_map {μ ν : Type} (f : μ → ν) (rows : List (String × μ)) :
    ofRows (rows.map fun r => (r.1, f r.2)) = (ofRows rows).map fun r => (r.1, f r.2)

theorem lookup_reverse {ν : Type} {rows : List (String × ν)} (h : (rows.map Prod.fst).Nodup) (k : String) :
    rows.reverse.lookup k = rows.lookup k := by
  have hreverse : (rows.reverse.map Prod.fst).Nodup := by rw [List.map_reverse, List.nodup_reverse]; exact h
  refine Option.ext fun v => ?_
  rw [lookup_eq_some hreverse, lookup_eq_some h, List.mem_reverse]

/-- The rows by key. -/
def byKey : RowMap where
  ofRows rows := sortRows rows.reverse
  lookup_ofRows rows k := lookup_sortRows rows.reverse
  nodup_ofRows rows := (sortedRows_sortRows _).nodup
  ofRows_ofRows rows := by
    have hsorted := sortedRows_sortRows rows.reverse
    rw [sortRows_perm (List.reverse_perm _) (by rw [List.map_reverse, List.nodup_reverse]; exact hsorted.nodup)]
    exact sortRows_of_sorted hsorted
  ofRows_map f rows := by
    rw [← List.map_reverse, sortRows_map]

/-- A map of the rows of a map, by key, is the map of the rows by key. -/
theorem byKey_ofRows (m : RowMap) {ν : Type} (rows : List (String × ν)) :
    byKey.ofRows (m.ofRows rows) = byKey.ofRows rows := by
  refine eq_of_lookup (sortedRows_sortRows (m.ofRows rows).reverse) (sortedRows_sortRows rows.reverse) fun k => ?_
  rw [byKey.lookup_ofRows, byKey.lookup_ofRows, lookup_reverse (m.nodup_ofRows rows), m.lookup_ofRows]

theorem mem_of_mem_ofRows (m : RowMap) {ν : Type} {rows : List (String × ν)} {r : String × ν} (h : r ∈ m.ofRows rows) :
    r ∈ rows := by
  have hlookup := (lookup_eq_some (m.nodup_ofRows rows)).mpr h
  rw [m.lookup_ofRows] at hlookup
  obtain ⟨before, after, hsplit, -⟩ := List.lookup_eq_some_iff.mp hlookup
  rw [← List.mem_reverse, hsplit]
  simp

namespace JsonDoc

variable {N M : Type}

mutual

/-- Every object is made a map. -/
def collect (m : RowMap) : JsonDoc N → JsonDoc N
  | .array items => .array (collectItems m items)
  | .object rows => .object (m.ofRows (collectRows m rows))
  | .null => .null
  | .bool b => .bool b
  | .number n => .number n
  | .string s => .string s

def collectItems (m : RowMap) : List (JsonDoc N) → List (JsonDoc N)
  | [] => []
  | v :: items => v.collect m :: collectItems m items

def collectRows (m : RowMap) : List (String × JsonDoc N) → List (String × JsonDoc N)
  | [] => []
  | (k, v) :: rows => (k, v.collect m) :: collectRows m rows

end

/-- Each object by key, with the last of the rows of a key. -/
def normal (d : JsonDoc N) : JsonDoc N :=
  d.collect byKey

/-- The value that a document denotes. -/
def value (d : JsonDoc JsonNumber) : JsonDoc ℚ :=
  d.normal.map JsonNumber.value

variable {P : Type} (m : RowMap) (f : N → M) (g : M → P)

theorem mapRows_eq (rows : List (String × JsonDoc N)) : mapRows f rows = rows.map fun r => (r.1, r.2.map f) := by
  induction rows with
  | nil => rfl
  | cons r rows ih => rw [mapRows, ih]; rfl

theorem collectRows_eq (rows : List (String × JsonDoc N)) : collectRows m rows = rows.map fun r => (r.1,
    r.2.collect m) := by
  induction rows with
  | nil => rfl
  | cons r rows ih => rw [collectRows, ih]; rfl

mutual

theorem map_map (d : JsonDoc N) : (d.map f).map g = d.map (g ∘ f) := by
  cases d with
  | null => rfl
  | bool b => rfl
  | number n => rfl
  | string s => rfl
  | array items => exact congrArg JsonDoc.array (mapItems_map items)
  | object rows => exact congrArg JsonDoc.object (mapRows_map rows)

theorem mapItems_map (items : List (JsonDoc N)) : mapItems g (mapItems f items) = mapItems (g ∘ f) items := by
  cases items with
  | nil => rfl
  | cons v items => rw [mapItems, mapItems, mapItems, map_map v, mapItems_map items]

theorem mapRows_map (rows : List (String × JsonDoc N)) : mapRows g (mapRows f rows) = mapRows (g ∘ f) rows := by
  cases rows with
  | nil => rfl
  | cons r rows =>
    obtain ⟨k, v⟩ := r
    rw [mapRows, mapRows, mapRows, map_map v, mapRows_map rows]

end

mutual

theorem collect_map (d : JsonDoc N) : (d.map f).collect m = (d.collect m).map f := by
  cases d with
  | null => rfl
  | bool b => rfl
  | number n => rfl
  | string s => rfl
  | array items => exact congrArg JsonDoc.array (collectItems_map items)
  | object rows =>
    rw [map, collect, collect, map, collectRows_map rows, mapRows_eq, mapRows_eq]
    exact congrArg JsonDoc.object (m.ofRows_map _ _)

theorem collectItems_map (items : List (JsonDoc N)) :
    collectItems m (mapItems f items) = mapItems f (collectItems m items) := by
  cases items with
  | nil => rfl
  | cons v items => rw [mapItems, collectItems, collectItems, mapItems, collect_map v, collectItems_map items]

theorem collectRows_map (rows : List (String × JsonDoc N)) :
    collectRows m (mapRows f rows) = mapRows f (collectRows m rows) := by
  cases rows with
  | nil => rfl
  | cons r rows =>
    obtain ⟨k, v⟩ := r
    rw [mapRows, collectRows, collectRows, mapRows, collect_map v, collectRows_map rows]

end

mutual

theorem collect_collect (d : JsonDoc N) : (d.collect m).collect m = d.collect m := by
  cases d with
  | null => rfl
  | bool b => rfl
  | number n => rfl
  | string s => rfl
  | array items => exact congrArg JsonDoc.array (collectItems_collect items)
  | object rows =>
    rw [collect, collect, collectRows_eq, ← m.ofRows_map, ← collectRows_eq, collectRows_collect rows, m.ofRows_ofRows]

theorem collectItems_collect (items : List (JsonDoc N)) :
    collectItems m (collectItems m items) = collectItems m items := by
  cases items with
  | nil => rfl
  | cons v items => rw [collectItems, collectItems, collect_collect v, collectItems_collect items]

theorem collectRows_collect (rows : List (String × JsonDoc N)) :
    collectRows m (collectRows m rows) = collectRows m rows := by
  cases rows with
  | nil => rfl
  | cons r rows =>
    obtain ⟨k, v⟩ := r
    rw [collectRows, collectRows, collect_collect v, collectRows_collect rows]

end

mutual

/-- The normal form forgets which maps the objects were made. -/
theorem normal_collect (d : JsonDoc N) : (d.collect m).normal = d.normal := by
  cases d with
  | null => rfl
  | bool b => rfl
  | number n => rfl
  | string s => rfl
  | array items => exact congrArg JsonDoc.array (normalItems_collect items)
  | object rows =>
    rw [normal, normal, collect, collect, collect, collectRows_eq byKey (m.ofRows _), ← m.ofRows_map, ← collectRows_eq,
      normalRows_collect rows, byKey_ofRows]

theorem normalItems_collect (items : List (JsonDoc N)) :
    collectItems byKey (collectItems m items) = collectItems byKey items := by
  cases items with
  | nil => rfl
  | cons v items =>
    have := normal_collect v
    rw [normal, normal] at this
    rw [collectItems, collectItems, collectItems, this, normalItems_collect items]

theorem normalRows_collect (rows : List (String × JsonDoc N)) :
    collectRows byKey (collectRows m rows) = collectRows byKey rows := by
  cases rows with
  | nil => rfl
  | cons r rows =>
    obtain ⟨k, v⟩ := r
    have := normal_collect v
    rw [normal, normal] at this
    rw [collectRows, collectRows, collectRows, this, normalRows_collect rows]

end

mutual

theorem map_id (d : JsonDoc N) : d.map id = d := by
  cases d with
  | null => rfl
  | bool b => rfl
  | number n => rfl
  | string s => rfl
  | array items => exact congrArg JsonDoc.array (mapItems_id items)
  | object rows => exact congrArg JsonDoc.object (mapRows_id rows)

theorem mapItems_id (items : List (JsonDoc N)) : mapItems id items = items := by
  cases items with
  | nil => rfl
  | cons v items => rw [mapItems, map_id v, mapItems_id items]

theorem mapRows_id (rows : List (String × JsonDoc N)) : mapRows id rows = rows := by
  cases rows with
  | nil => rfl
  | cons r rows =>
    obtain ⟨k, v⟩ := r
    rw [mapRows, map_id v, mapRows_id rows]

end

mutual

theorem numbers_map (d : JsonDoc N) : (d.map f).numbers = d.numbers.map f := by
  cases d with
  | null => rfl
  | bool b => rfl
  | number n => rfl
  | string s => rfl
  | array items => exact itemNumbers_map items
  | object rows => exact rowNumbers_map rows

theorem itemNumbers_map (items : List (JsonDoc N)) : itemNumbers (mapItems f items) = (itemNumbers items).map f := by
  cases items with
  | nil => rfl
  | cons v items => rw [mapItems, itemNumbers, itemNumbers, List.map_append, numbers_map v, itemNumbers_map items]

theorem rowNumbers_map (rows : List (String × JsonDoc N)) : rowNumbers (mapRows f rows) = (rowNumbers rows).map f := by
  cases rows with
  | nil => rfl
  | cons r rows =>
    obtain ⟨k, v⟩ := r
    rw [mapRows, rowNumbers, rowNumbers, List.map_append, numbers_map v, rowNumbers_map rows]

end

theorem mem_rowNumbers {rows : List (String × JsonDoc N)} {n : N} :
    n ∈ rowNumbers rows ↔ ∃ r ∈ rows, n ∈ r.2.numbers := by
  induction rows with
  | nil => simp [rowNumbers]
  | cons r rows ih => simp [rowNumbers, ih]

mutual

theorem mem_of_mem_collect (d : JsonDoc N) {n : N} (h : n ∈ (d.collect m).numbers) : n ∈ d.numbers := by
  cases d with
  | null => exact h
  | bool b => exact h
  | number k => exact h
  | string s => exact h
  | array items => exact mem_of_mem_collectItems items h
  | object rows =>
    obtain ⟨r, hr, hn⟩ := mem_rowNumbers.mp h
    exact mem_of_mem_collectRows rows (mem_rowNumbers.mpr ⟨r, mem_of_mem_ofRows m hr, hn⟩)

theorem mem_of_mem_collectItems (items : List (JsonDoc N)) {n : N} (h : n ∈ itemNumbers (collectItems m items)) :
    n ∈ itemNumbers items := by
  cases items with
  | nil => exact h
  | cons v items =>
    rw [collectItems, itemNumbers, List.mem_append] at h
    rw [itemNumbers, List.mem_append]
    exact h.imp (mem_of_mem_collect v) (mem_of_mem_collectItems items)

theorem mem_of_mem_collectRows (rows : List (String × JsonDoc N)) {n : N} (h : n ∈ rowNumbers (collectRows m rows)) :
    n ∈ rowNumbers rows := by
  cases rows with
  | nil => exact h
  | cons r rows =>
    obtain ⟨k, v⟩ := r
    rw [collectRows, rowNumbers, List.mem_append] at h
    rw [rowNumbers, List.mem_append]
    exact h.imp (mem_of_mem_collect v) (mem_of_mem_collectRows rows)

end

variable {f} {f' : N → M}

mutual

theorem map_congr (d : JsonDoc N) : d.map f = d.map f' ↔ ∀ n ∈ d.numbers, f n = f' n := by
  cases d with
  | null => simp [map, numbers]
  | bool b => simp [map, numbers]
  | number n => simp [map, numbers]
  | string s => simp [map, numbers]
  | array items => simpa [map, numbers] using mapItems_congr items
  | object rows => simpa [map, numbers] using mapRows_congr rows

theorem mapItems_congr (items : List (JsonDoc N)) :
    mapItems f items = mapItems f' items ↔ ∀ n ∈ itemNumbers items, f n = f' n := by
  cases items with
  | nil => simp [mapItems, itemNumbers]
  | cons v items => simp [mapItems, itemNumbers, map_congr v, mapItems_congr items, or_imp, forall_and]

theorem mapRows_congr (rows : List (String × JsonDoc N)) :
    mapRows f rows = mapRows f' rows ↔ ∀ n ∈ rowNumbers rows, f n = f' n := by
  cases rows with
  | nil => simp [mapRows, rowNumbers]
  | cons r rows =>
    obtain ⟨k, v⟩ := r
    simp [mapRows, rowNumbers, map_congr v, mapRows_congr rows, or_imp, forall_and]

end

mutual

theorem traverse_eq_some {h : N → Option M} (d : JsonDoc N) (hf : ∀ n ∈ d.numbers, h n = some (f n)) :
    d.traverse h = some (d.map f) := by
  cases d with
  | null => rfl
  | bool b => rfl
  | number n => rw [traverse, hf n (by simp [numbers])]; rfl
  | string s => rfl
  | array items => rw [traverse, traverseItems_eq_some items hf]; rfl
  | object rows => rw [traverse, traverseRows_eq_some rows hf]; rfl

theorem traverseItems_eq_some {h : N → Option M} (items : List (JsonDoc N))
    (hf : ∀ n ∈ itemNumbers items, h n = some (f n)) : traverseItems h items = some (mapItems f items) := by
  cases items with
  | nil => rfl
  | cons v items =>
    rw [traverseItems, traverse_eq_some v fun n hn => hf n (by simp [itemNumbers, hn]),
      traverseItems_eq_some items fun n hn => hf n (by simp [itemNumbers, hn])]
    rfl

theorem traverseRows_eq_some {h : N → Option M} (rows : List (String × JsonDoc N))
    (hf : ∀ n ∈ rowNumbers rows, h n = some (f n)) : traverseRows h rows = some (mapRows f rows) := by
  cases rows with
  | nil => rfl
  | cons r rows =>
    obtain ⟨k, v⟩ := r
    rw [traverseRows, traverse_eq_some v fun n hn => hf n (by simp [rowNumbers, hn]),
      traverseRows_eq_some rows fun n hn => hf n (by simp [rowNumbers, hn])]
    rfl

end

mutual

theorem isSome_of_traverse {h : N → Option M} (d : JsonDoc N) (hd : (d.traverse h).isSome) :
    ∀ n ∈ d.numbers, (h n).isSome := by
  cases d with
  | null => simp [numbers]
  | bool b => simp [numbers]
  | number n => simpa [numbers, traverse] using hd
  | string s => simp [numbers]
  | array items => exact isSome_of_traverseItems items (by simpa [traverse] using hd)
  | object rows => exact isSome_of_traverseRows rows (by simpa [traverse] using hd)

theorem isSome_of_traverseItems {h : N → Option M} (items : List (JsonDoc N)) (hd : (traverseItems h items).isSome) :
    ∀ n ∈ itemNumbers items, (h n).isSome := by
  cases items with
  | nil => simp [itemNumbers]
  | cons v items =>
    rw [traverseItems] at hd
    cases hv : v.traverse h with
    | none => simp [hv] at hd
    | some w =>
      have htail : (traverseItems h items).isSome := by simpa [hv] using hd
      intro n hn
      rw [itemNumbers, List.mem_append] at hn
      exact hn.elim (isSome_of_traverse v (by simp [hv]) n) (isSome_of_traverseItems items htail n)

theorem isSome_of_traverseRows {h : N → Option M} (rows : List (String × JsonDoc N)) (hd :
    (traverseRows h rows).isSome) :
    ∀ n ∈ rowNumbers rows, (h n).isSome := by
  cases rows with
  | nil => simp [rowNumbers]
  | cons r rows =>
    obtain ⟨k, v⟩ := r
    rw [traverseRows] at hd
    cases hv : v.traverse h with
    | none => simp [hv] at hd
    | some w =>
      have htail : (traverseRows h rows).isSome := by simpa [hv] using hd
      intro n hn
      rw [rowNumbers, List.mem_append] at hn
      exact hn.elim (isSome_of_traverse v (by simp [hv]) n) (isSome_of_traverseRows rows htail n)

end

end JsonDoc

end Text
