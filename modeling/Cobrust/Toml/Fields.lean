import Cobrust.Toml.Document
import Mathlib.Data.Option.Basic
import Mathlib.Data.List.Forall2

/-!
# Reading records from values

What the readers derived by `serde` do with a value. A record is read from a table, or from an array with its
fields in order; a date is a table with one row.

* `optionalAt_some`, `requiredAt_some`: what a field of a record is, read off a path into the value.
-/

namespace Cobrust.Toml

variable {α : Type}

def readString : Value → Option String
  | .string s => some s
  | _ => none

/-- An array, read item by item. -/
def readArray (read : Value → Option α) : Value → Option (List α)
  | .array items => items.mapM read
  | _ => none

/-- The row under which a date is handed over. -/
def datetimeKey : String :=
  "$__toml_private_datetime"

/-- The rows that a reader of a map sees. -/
def Value.rows : Value → Option (List (String × Value))
  | .table rows => some rows
  | .datetime text => some [(datetimeKey, .string text)]
  | _ => none

/-- The fields that a reader of a record with the fields `names` sees. -/
def Value.field (names : List String) : Value → Option (String → Option Value)
  | .table rows => some fun name => rows.lookup name
  | .datetime text => some fun name => [(datetimeKey, Value.string text)].lookup name
  | .array items => some fun name => (names.idxOf? name).bind fun i => items[i]?
  | _ => none

/-- A field that may be missing. -/
def optionalAt (read : Value → Option α) : Option Value → Option (Option α)
  | none => some none
  | some v => (read v).map some

/-- A field with a default. -/
def defaultAt (default : α) (read : Value → Option α) : Option Value → Option α
  | none => some default
  | some v => read v

/-- A field that must be there. -/
def requiredAt (read : Value → Option α) (v : Option Value) : Option α :=
  v.bind read

variable {names : List String} {name : String} {v : Value} {field : String → Option Value} {path : List Step}
  {x : Value} {s : String}

theorem get_key (h : v.get (.key name :: path) = some x) :
    ∃ rows w, v = .table rows ∧ rows.lookup name = some w ∧ w.get path = some x := by
  cases v with
  | table rows =>
    obtain ⟨w, hw, hx⟩ := Option.bind_eq_some_iff.1 h
    exact ⟨rows, w, rfl, hw, hx⟩
  | string s => cases h
  | integer n => cases h
  | scalar text => cases h
  | datetime text => cases h
  | array items => cases h

theorem get_index {i : Nat} (h : v.get (.index i :: path) = some x) :
    ∃ items w, v = .array items ∧ items[i]? = some w ∧ w.get path = some x := by
  cases v with
  | array items =>
    obtain ⟨w, hw, hx⟩ := Option.bind_eq_some_iff.1 h
    exact ⟨items, w, rfl, hw, hx⟩
  | string s => cases h
  | integer n => cases h
  | scalar text => cases h
  | datetime text => cases h
  | table rows => cases h

theorem get_nil : v.get [] = some x ↔ v = x := by
  cases v <;> simp [Value.get]

theorem get_root {root : Root} {key : String} {x : Value} (h : (Value.table root).get (.key key :: path) = some x) :
    ∃ v, root.lookup key = some v ∧ v.get path = some x := by
  obtain ⟨rows, v, hrows, hlookup, hx⟩ := get_key h
  cases hrows
  exact ⟨v, hlookup, hx⟩

/-- A string below a record is what its reader sees in that field. -/
theorem field_of_get (hfield : v.field names = some field) (h : v.get (.key name :: path) = some x) :
    ∃ w, field name = some w ∧ w.get path = some x := by
  obtain ⟨rows, w, rfl, hw, hx⟩ := get_key h
  cases hfield
  exact ⟨w, hw, hx⟩

/-! ## Fields -/

theorem requiredAt_some (hfield : v.field names = some field) (h : v.get [.key name] = some (.string s)) :
    requiredAt readString (field name) = some s := by
  obtain ⟨w, hw, hx⟩ := field_of_get hfield h
  rw [hw, get_nil.1 hx]
  rfl

theorem optionalAt_some (hfield : v.field names = some field) (h : v.get [.key name] = some (.string s)) :
    optionalAt readString (field name) = some (some s) := by
  obtain ⟨w, hw, hx⟩ := field_of_get hfield h
  rw [hw, get_nil.1 hx]
  rfl

theorem required_text {names : List String} {name text : String} {field : String → Option Value}
    (hfield : v.field names = some field) (hread : requiredAt readString (field name) = some text)
    (hget : v.get [.key name] = some (.string s)) : s = text := by
  rw [requiredAt_some hfield hget, Option.some.injEq] at hread
  exact hread

theorem optional_text {names : List String} {name : String} {text : Option String} {field : String → Option Value}
    (hfield : v.field names = some field) (hread : optionalAt readString (field name) = some text)
    (hget : v.get [.key name] = some (.string s)) : text = some s := by
  rw [optionalAt_some hfield hget, Option.some.injEq] at hread
  exact hread.symm

theorem mapM_eq_some {β : Type} {f : β → Option α} {bs : List β} {as : List α} :
    bs.mapM f = some as ↔ List.Forall₂ (fun b a => f b = some a) bs as := by
  induction bs generalizing as with
  | nil => cases as <;> simp [List.mapM_nil]
  | cons b bs ih =>
    rw [List.mapM_cons, Option.bind_eq_bind, Option.bind_eq_some_iff]
    constructor
    · rintro ⟨a, ha, h⟩
      obtain ⟨as', has, h⟩ := Option.bind_eq_some_iff.1 h
      cases h
      exact .cons ha (ih.1 has)
    · intro h
      cases h with
      | cons ha has => exact ⟨_, ha, Option.bind_eq_some_iff.2 ⟨_, ih.2 has, rfl⟩⟩

theorem getElem?_of_mapM {read : Value → Option α} {items : List Value} {as : List α} {i : Nat} {w : Value}
    (h : items.mapM read = some as) (hi : items[i]? = some w) : as[i]? = read w := by
  rw [mapM_eq_some] at h
  have hlen := h.length_eq
  obtain ⟨hlt, rfl⟩ := List.getElem?_eq_some_iff.1 hi
  have hlt' : i < as.length := hlen ▸ hlt
  have hget := (List.forall₂_iff_get.1 h).2 i hlt hlt'
  rw [List.getElem?_eq_getElem hlt']
  exact hget.symm

theorem readStrings_item {texts : List String} {i : Nat} (hread : readArray readString v = some texts)
    (h : v.get [.index i] = some (.string s)) : texts[i]? = some s := by
  obtain ⟨items, w, rfl, hi, hx⟩ := get_index h
  rw [getElem?_of_mapM hread hi, get_nil.1 hx]
  rfl

theorem readStrings_array (texts : List String) :
    readArray readString (.array (texts.map .string)) = some texts := by
  rw [readArray, mapM_eq_some]
  exact List.forall₂_map_left_iff.2 (List.forall₂_same.2 fun _ _ => rfl)

end Cobrust.Toml
