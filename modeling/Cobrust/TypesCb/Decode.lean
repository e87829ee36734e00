import Cobrust.Store.Rows
import Cobrust.TypesCb.Arena
import Mathlib.Data.String.Basic

/-!
# The type of a handle

`decode` reads the tree that a handle stands for. Where every entry refers only to smaller handles (`Ordered`), it is
the entry with its children decoded (`decode_eq`), and entries that are appended do not change it (`decode_extends`).
-/

namespace Cobrust.TypesCb

open Store

/-- `Record::from_pairs`: the later of two fields with one name wins. -/
def fromPairs (pairs : List (String × Ty)) : List (String × Ty) :=
  pairs.foldl (fun fields pair => insertRow pair.1 pair.2 fields) []

theorem fromPairs_of_sorted {pairs : List (String × Ty)} (h : SortedRows pairs) : fromPairs pairs = pairs := by
  have hrev : fromPairs pairs = sortRows pairs.reverse := by
    rw [fromPairs, sortRows, List.foldr_reverse]
  have hnodup : (pairs.reverse.map Prod.fst).Nodup := by
    rw [List.map_reverse, List.nodup_reverse]
    exact h.imp fun hlt => hlt.ne
  rw [hrev, sortRows_perm (List.reverse_perm pairs) hnodup, sortRows_of_sorted h]

namespace TyEntry

/-- The type of an entry, by the types of its children. -/
def toTy (arena : TyArena) (child : TyId → Ty) : TyEntry → Ty
  | .bool => .bool
  | .int => .int
  | .float => .float
  | .imag => .imag
  | .str => .str
  | .bytes => .bytes
  | .none => .none
  | .never => .never
  | .tuple items => .tuple (items.map child)
  | .list inner => .list (child inner)
  | .set inner => .set (child inner)
  | .dict k v => .dict (child k) (child v)
  | .record rid =>
    match arena.lookupRecord rid with
    | Option.some entry => .record (fromPairs (entry.fields.map fun f => (f.1, child f.2)))
    | Option.none => .none
  | .fn fid =>
    match arena.lookupFn fid with
    | Option.some entry => .fn (entry.positional.map child) (entry.named.map fun f => (f.1, child f.2))
      (entry.varPositional.map child) (entry.varKeyword.map child) (child entry.returnTy)
    | Option.none => .none
  | .adt id args => .adt (asU32 id) (args.map child)
  | .alias id args => .alias (asU32 id) (args.map child)
  | .generic id => .generic (asU32 id)
  | .var id => .var (asU32 id)
  | .ref inner => .ref (child inner)

/-- The handles that an entry refers to, also through the record and function arenas. -/
def children (arena : TyArena) : TyEntry → List TyId
  | .tuple items => items
  | .list inner | .set inner | .ref inner => [inner]
  | .dict k v => [k, v]
  | .record rid =>
    match arena.lookupRecord rid with
    | Option.some entry => entry.fields.map Prod.snd
    | Option.none => []
  | .fn fid =>
    match arena.lookupFn fid with
    | Option.some entry => entry.positional ++ (entry.named.map Prod.snd ++ (entry.varPositional.toList ++
      (entry.varKeyword.toList ++ [entry.returnTy])))
    | Option.none => []
  | .adt _ args | .alias _ args => args
  | _ => []

/-- The record or function that an entry refers to is there. -/
def Resolves (arena : TyArena) : TyEntry → Prop
  | .record rid => rid < arena.recordEntries.length
  | .fn fid => fid < arena.fnEntries.length
  | _ => True

/-- A stored id fits the `u32` that it was made from. -/
def FitsU32 : TyEntry → Prop
  | .adt id _ | .alias id _ | .generic id | .var id => 0 ≤ id ∧ id < 2 ^ 32
  | _ => True

instance (arena : TyArena) (entry : TyEntry) : Decidable (entry.Resolves arena) :=
  match entry with
  | .record rid => inferInstanceAs (Decidable (rid < arena.recordEntries.length))
  | .fn fid => inferInstanceAs (Decidable (fid < arena.fnEntries.length))
  | .bool | .int | .float | .imag | .str | .bytes | .none | .never | .tuple _ | .list _ | .set _ | .dict _ _
  | .adt _ _ | .alias _ _ | .generic _ | .var _ | .ref _ => isTrue trivial

end TyEntry

/-- Decode to a given depth. -/
def decodeWith : Nat → TyArena → TyId → Ty
  | 0, _, _ => .none
  | fuel + 1, arena, id =>
    match arena.lookup id with
    | some entry => entry.toTy arena (decodeWith fuel arena)
    | none => .none

/-- The type that a handle stands for. -/
def decode (arena : TyArena) (id : TyId) : Ty :=
  decodeWith (id + 1) arena id

namespace TyArena

/-- Every entry refers only to smaller handles. -/
def Ordered (arena : TyArena) : Prop :=
  ∀ id entry, arena.lookup id = some entry →
    entry.Resolves arena ∧ ∀ child ∈ entry.children arena, child < id

theorem ordered_iff {arena : TyArena} : arena.Ordered ↔ ∀ id < arena.entries.length, ∀ entry ∈ arena.lookup id,
    entry.Resolves arena ∧ ∀ child ∈ entry.children arena, child < id :=
  ⟨fun h id _ entry he => h id entry he, fun h id entry he => h id (List.getElem?_eq_some_iff.1 he).1 entry he⟩

instance (arena : TyArena) : Decidable arena.Ordered :=
  decidable_of_iff' _ ordered_iff

/-- What the documentation of the entries promises: the fields of a record are sorted by name, and the ids of the other
families were `u32`. -/
structure Regular (arena : TyArena) : Prop where
  fields : ∀ rid entry, arena.lookupRecord rid = some entry → SortedRows entry.fields
  ids : ∀ id entry, arena.lookup id = some entry → entry.FitsU32

structure Good (arena : TyArena) : Prop where
  ordered : arena.Ordered
  regular : arena.Regular

/-- The arena keeps what the other one has. -/
structure Extends (arena arena' : TyArena) : Prop where
  lookup : ∀ {id entry}, arena.lookup id = some entry → arena'.lookup id = some entry
  lookupFn : ∀ {id entry}, arena.lookupFn id = some entry → arena'.lookupFn id = some entry
  lookupRecord : ∀ {id entry}, arena.lookupRecord id = some entry → arena'.lookupRecord id = some entry

variable {A B C : TyArena} {entry : TyEntry} {id : TyId} {child child' : TyId → Ty}

theorem Extends.refl (A : TyArena) : A.Extends A :=
  ⟨id, id, id⟩

theorem Extends.trans (h : A.Extends B) (h' : B.Extends C) : A.Extends C :=
  ⟨h'.lookup ∘ h.lookup, h'.lookupFn ∘ h.lookupFn, h'.lookupRecord ∘ h.lookupRecord⟩

/-- A handle of the arena. -/
def Valid (arena : TyArena) (id : TyId) : Prop :=
  id < arena.entries.length

instance (arena : TyArena) (id : TyId) : Decidable (arena.Valid id) :=
  inferInstanceAs (Decidable (id < arena.entries.length))

theorem Valid.exists_lookup (h : A.Valid id) : ∃ entry, A.lookup id = some entry :=
  ⟨_, List.getElem?_eq_getElem h⟩

theorem valid_of_lookup (h : A.lookup id = some entry) : A.Valid id :=
  (List.getElem?_eq_some_iff.1 h).1

theorem Valid.extends (h : A.Extends B) (hid : A.Valid id) : B.Valid id := by
  obtain ⟨entry, hentry⟩ := hid.exists_lookup
  exact valid_of_lookup (h.lookup hentry)

theorem empty_good : ({} : TyArena).Good :=
  ⟨nofun, nofun, nofun⟩

end TyArena

open TyArena

variable {A B : TyArena} {entry : TyEntry} {id : TyId} {child child' : TyId → Ty}

/-! ## Decoding an entry -/

theorem toTy_congr (h : ∀ c ∈ entry.children A, child c = child' c) : entry.toTy A child = entry.toTy A child' := by
  have hlist : ∀ {items : List TyId}, (∀ c ∈ items, child c = child' c) → items.map child = items.map child' :=
    fun h => List.map_congr_left h
  have hfields : ∀ {fields : List (String × TyId)}, (∀ c ∈ fields.map Prod.snd, child c = child' c) →
      (fields.map fun f => (f.1, child f.2)) = fields.map fun f => (f.1, child' f.2) :=
    fun h => List.map_congr_left fun f hf => by rw [h f.2 (List.mem_map_of_mem hf)]
  cases entry with
  | tuple items => exact congrArg Ty.tuple (hlist h)
  | list inner => exact congrArg Ty.list (h inner List.mem_cons_self)
  | set inner => exact congrArg Ty.set (h inner List.mem_cons_self)
  | ref inner => exact congrArg Ty.ref (h inner List.mem_cons_self)
  | dict k v =>
    exact congrArg₂ Ty.dict (h k List.mem_cons_self) (h v (List.mem_cons_of_mem _ List.mem_cons_self))
  | adt n args => exact congrArg (Ty.adt _) (hlist h)
  | «alias» n args => exact congrArg (Ty.alias _) (hlist h)
  | record rid =>
    simp only [TyEntry.children, TyEntry.toTy] at h ⊢
    split
    · next entry hentry => simp only [hentry] at h; rw [hfields h]
    · rfl
  | fn fid =>
    simp only [TyEntry.children, TyEntry.toTy] at h ⊢
    split
    · next entry hentry =>
      simp only [hentry, List.mem_append, List.mem_singleton] at h
      have hoption : ∀ {o : Option TyId}, (∀ c ∈ o.toList, child c = child' c) → o.map child = o.map child' := by
        intro o ho
        cases o with
        | none => rfl
        | some c => exact congrArg some (ho c List.mem_cons_self)
      rw [hlist fun c hc => h c (.inl hc), hfields fun c hc => h c (.inr (.inl hc)),
        hoption fun c hc => h c (.inr (.inr (.inl hc))), hoption fun c hc => h c (.inr (.inr (.inr (.inl hc)))),
        h _ (.inr (.inr (.inr (.inr rfl))))]
    · rfl
  | _ => rfl

theorem lookupRecord_extends (h : A.Extends B) {rid : RecordId} (hr : rid < A.recordEntries.length) :
    B.lookupRecord rid = A.lookupRecord rid := by
  have hsome : A.lookupRecord rid = some A.recordEntries[rid] := List.getElem?_eq_getElem hr
  rw [hsome, h.lookupRecord hsome]

theorem lookupFn_extends (h : A.Extends B) {fid : FnTyId} (hf : fid < A.fnEntries.length) :
    B.lookupFn fid = A.lookupFn fid := by
  have hsome : A.lookupFn fid = some A.fnEntries[fid] := List.getElem?_eq_getElem hf
  rw [hsome, h.lookupFn hsome]

theorem toTy_extends (h : A.Extends B) (hr : entry.Resolves A) : entry.toTy B child = entry.toTy A child := by
  cases entry with
  | record rid => simp only [TyEntry.toTy, lookupRecord_extends h hr]
  | fn fid => simp only [TyEntry.toTy, lookupFn_extends h hr]
  | _ => rfl

theorem children_extends (h : A.Extends B) (hr : entry.Resolves A) : entry.children B = entry.children A := by
  cases entry with
  | record rid => simp only [TyEntry.children, lookupRecord_extends h hr]
  | fn fid => simp only [TyEntry.children, lookupFn_extends h hr]
  | _ => rfl

theorem decodeWith_succ (fuel : Nat) (h : A.lookup id = some entry) :
    decodeWith (fuel + 1) A id = entry.toTy A (decodeWith fuel A) := by
  rw [decodeWith, h]

theorem decodeWith_eq (hA : A.Ordered) {fuel : Nat} (hfuel : id < fuel) : decodeWith fuel A id = decode A id := by
  induction id using Nat.strong_induction_on generalizing fuel with
  | _ id ih =>
    obtain ⟨fuel, rfl⟩ : ∃ n, fuel = n + 1 := ⟨_, (Nat.succ_pred_eq_of_pos (Nat.zero_lt_of_lt hfuel)).symm⟩
    cases hentry : A.lookup id with
    | none => rw [decode, decodeWith, decodeWith, hentry]
    | some entry =>
      rw [decode, decodeWith_succ _ hentry, decodeWith_succ _ hentry]
      refine toTy_congr fun c hc => ?_
      have hlt := (hA id entry hentry).2 c hc
      rw [ih c hlt (hlt.trans_le (Nat.le_of_lt_succ hfuel)), ih c hlt hlt]

/-- The type of a handle is its entry with the children decoded. -/
theorem decode_eq (hA : A.Ordered) (h : A.lookup id = some entry) : decode A id = entry.toTy A (decode A) := by
  rw [decode, decodeWith_succ _ h]
  exact toTy_congr fun c hc => decodeWith_eq hA ((hA id entry h).2 c hc)

/-- What is appended does not change the types of the handles there were. -/
theorem decode_extends (hA : A.Ordered) (h : A.Extends B) (hid : A.Valid id) : decode B id = decode A id := by
  suffices hfuel : ∀ fuel id, A.Valid id → decodeWith fuel B id = decodeWith fuel A id from hfuel _ id hid
  intro fuel
  induction fuel with
  | zero => exact fun _ _ => rfl
  | succ fuel ih =>
    intro id hid
    obtain ⟨entry, hentry⟩ := hid.exists_lookup
    obtain ⟨hresolves, hchildren⟩ := hA id entry hentry
    rw [decodeWith_succ _ hentry, decodeWith_succ _ (h.lookup hentry), toTy_extends h hresolves]
    exact toTy_congr fun c hc => ih c ((hchildren c hc).trans hid)

end Cobrust.TypesCb
