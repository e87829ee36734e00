import Cobrust.Parity.Key
import Cobrust.Store.FirstSeen

/-!
# Types with numbered ids

The harness renames while it walks. `numbered` does it at once: every id becomes its position among the first
occurrences of its family. The key of a type is then the numbered type, written out (`keyOf_eq_spell`), and two types
agree after numbering just when injective renamings take one to the other (`numbered_eq_iff`).
-/

namespace Cobrust

open Parity Store

/-- A map of the ids of every family. -/
abbrev Renaming :=
  Namespace → Nat → Nat

namespace Ty

mutual

/-- Rename the ids of a type. -/
def rename (ρ : Renaming) : Ty → Ty
  | .tuple items => .tuple (renameList ρ items)
  | .list t => .list (rename ρ t)
  | .set t => .set (rename ρ t)
  | .dict k v => .dict (rename ρ k) (rename ρ v)
  | .record fields => .record (renameFields ρ fields)
  | .fn positional named varPositional varKeyword returnTy =>
    .fn (renameList ρ positional) (renameFields ρ named) (renameOption ρ varPositional) (renameOption ρ varKeyword)
      (rename ρ returnTy)
  | .adt id args => .adt (ρ .adt id) (renameList ρ args)
  | .alias id args => .alias (ρ .alias id) (renameList ρ args)
  | .generic id => .generic (ρ .generic id)
  | .var id => .var (ρ .var id)
  | .ref inner => .ref (rename ρ inner)
  | .array elem len => .array (rename ρ elem) len
  | .bool => .bool
  | .int => .int
  | .float => .float
  | .imag => .imag
  | .str => .str
  | .bytes => .bytes
  | .none => .none
  | .never => .never
  | .intN width => .intN width

def renameList (ρ : Renaming) : List Ty → List Ty
  | [] => []
  | t :: rest => rename ρ t :: renameList ρ rest

def renameFields (ρ : Renaming) : List (String × Ty) → List (String × Ty)
  | [] => []
  | (n, t) :: rest => (n, rename ρ t) :: renameFields ρ rest

def renameOption (ρ : Renaming) : Option Ty → Option Ty
  | .none => .none
  | .some t => .some (rename ρ t)

end

/-- An id, where the family is its own. -/
def own (ns' : Namespace) (id : Nat) (ns : Namespace) : List Nat :=
  if ns' = ns then [id] else []

mutual

/-- The ids of one family in the order of the walk. -/
def ids (ns : Namespace) : Ty → List Nat
  | .tuple items => idsList ns items
  | .list t => ids ns t
  | .set t => ids ns t
  | .dict k v => ids ns k ++ ids ns v
  | .record fields => idsFields ns fields
  | .fn positional named varPositional varKeyword returnTy =>
    idsList ns positional ++ (idsFields ns named ++ (idsOption ns varPositional ++ (idsOption ns varKeyword ++
      ids ns returnTy)))
  | .adt id args => own .adt id ns ++ idsList ns args
  | .alias id args => own .alias id ns ++ idsList ns args
  | .generic id => own .generic id ns
  | .var id => own .var id ns
  | .ref inner => ids ns inner
  | .array elem _ => ids ns elem
  | _ => []

def idsList (ns : Namespace) : List Ty → List Nat
  | [] => []
  | t :: rest => ids ns t ++ idsList ns rest

def idsFields (ns : Namespace) : List (String × Ty) → List Nat
  | [] => []
  | (_, t) :: rest => ids ns t ++ idsFields ns rest

def idsOption (ns : Namespace) : Option Ty → List Nat
  | .none => []
  | .some t => ids ns t

end

open CanonicalKey in
mutual

/-- The key with the ids as they are. -/
def spell : Ty → CanonicalKey
  | .bool => leaf "Bool"
  | .int => leaf "Int"
  | .float => leaf "Float"
  | .imag => leaf "Imag"
  | .str => leaf "Str"
  | .bytes => leaf "Bytes"
  | .none => leaf "None"
  | .never => leaf "Never"
  | .tuple items => node "Tuple" (spellList items)
  | .list inner => node "List" [spell inner]
  | .set inner => node "Set" [spell inner]
  | .dict k v => node "Dict" [spell k, spell v]
  | .record fields => node "Record" (spellFields fields)
  | .fn positional named varPositional varKeyword returnTy =>
    node "Fn" (spellList positional ++ spellFields named ++ spellOption "*args" varPositional ++
      spellOption "**kwargs" varKeyword ++ [node "->" [spell returnTy]])
  | .adt id args => node ("Adt#" ++ toString id) (spellList args)
  | .alias id args => node ("Alias#" ++ toString id) (spellList args)
  | .generic g => leaf ("Generic#" ++ toString g)
  | .var v => leaf ("Var#" ++ toString v)
  | .ref inner => node "Ref" [spell inner]
  | .intN w => leaf ("IntN#" ++ toString w)
  | .array elem n => node ("Array#" ++ toString n) [spell elem]

def spellList : List Ty → List CanonicalKey
  | [] => []
  | t :: rest => spell t :: spellList rest

def spellFields : List (String × Ty) → List CanonicalKey
  | [] => []
  | (name, t) :: rest => node name [spell t] :: spellFields rest

def spellOption (name : String) : Option Ty → List CanonicalKey
  | .none => []
  | .some t => [node name [spell t]]

end

/-- The number of an id of a type. -/
def numbering (t : Ty) : Renaming := fun ns => numberIn (t.ids ns)

/-- The type with its ids replaced by their numbers. -/
def numbered (t : Ty) : Ty :=
  t.rename t.numbering

end Ty

namespace Parity

/-! ## The walk -/

namespace TyArena

/-- The raw ids in the order in which they were met. -/
def seen (arena : TyArena) (ns : Namespace) : List Nat :=
  (arena.canon ns).map Prod.fst

/-- The canonical ids are the positions. -/
def Dense (arena : TyArena) : Prop :=
  ∀ ns, arena.canon ns = (arena.seen ns).zipIdx

end TyArena

open TyArena CanonicalKey

theorem lookup_zipIdx (raws : List Nat) (raw k : Nat) :
    (raws.zipIdx k).lookup raw = if raw ∈ raws then some (raws.idxOf raw + k) else none := by
  induction raws generalizing k with
  | nil => rfl
  | cons a raws ih =>
    by_cases h : raw = a
    · simp [h]
    · have hbeq : (raw == a) = false := beq_eq_false_iff_ne.2 h
      rw [List.zipIdx_cons, List.lookup_cons, hbeq, ih, List.idxOf_cons_ne _ (Ne.symm h)]
      simp only [List.mem_cons, h, false_or]
      split
      · simp only [Option.some.injEq]
        omega
      · rfl

theorem orInsert_zipIdx (raws : List Nat) (raw : Nat) :
    CanonMap.orInsert raws.zipIdx raw = (raws.idxOf raw, (see raws raw).zipIdx) := by
  rw [CanonMap.orInsert, lookup_zipIdx]
  by_cases h : raw ∈ raws
  · rw [if_pos h, see_of_mem h]
    rfl
  · rw [if_neg h, see_of_not_mem h, List.idxOf_eq_length h, List.zipIdx_append]
    simp

theorem canon_setCanon (arena : TyArena) (canon : CanonMap) (ns ns' : Namespace) :
    (arena.setCanon canon ns).canon ns' = if ns = ns' then canon else arena.canon ns' := by
  cases ns <;> cases ns' <;> rfl

/-- The renaming gives the ids seen their positions. -/
def Agrees (ρ : Renaming) (arena : TyArena) : Prop :=
  ∀ ns, ∀ a ∈ arena.seen ns, ρ ns a = (arena.seen ns).idxOf a

/-- The action meets these ids and returns this value, whatever numbers the ids get. -/
def Encodes {α : Type} (m : StateM TyArena α) (ids : Namespace → List Nat) (value : Renaming → α) : Prop :=
  ∀ arena, arena.Dense →
    (m arena).2.Dense ∧ (∀ ns, (m arena).2.seen ns = (ids ns).foldl see (arena.seen ns)) ∧
      ∀ ρ, Agrees ρ (m arena).2 → (m arena).1 = value ρ

namespace Encodes

variable {α β : Type} {m : StateM TyArena α} {f : α → StateM TyArena β} {ids ids' : Namespace → List Nat}
  {value : Renaming → α}

theorem ofPure (x : α) : Encodes (pure x) (fun _ => []) fun _ => x :=
  fun _ hdense => ⟨hdense, fun _ => rfl, fun _ _ => rfl⟩

theorem andThen {value' : α → Renaming → β} (h : Encodes m ids value) (h' : ∀ x, Encodes (f x) ids' (value' x)) :
    Encodes (m >>= f) (fun ns => ids ns ++ ids' ns) fun ρ => value' (value ρ) ρ := by
  intro arena hdense
  obtain ⟨hdense₁, hseen₁, hvalue₁⟩ := h arena hdense
  obtain ⟨hdense₂, hseen₂, hvalue₂⟩ := h' (m arena).1 (m arena).2 hdense₁
  refine ⟨hdense₂, fun ns => ?_, fun ρ hρ => ?_⟩
  · rw [List.foldl_append, ← hseen₁]
    exact hseen₂ ns
  · have hagrees : Agrees ρ (m arena).2 := by
      intro ns a ha
      have hgrows : (m arena).2.seen ns <+: (f (m arena).1 (m arena).2).2.seen ns :=
        hseen₂ ns ▸ prefix_foldl_see _ _
      exact (hρ ns a (hgrows.subset ha)).trans (idxOf_of_grows hgrows ha)
    exact (hvalue₂ ρ hρ).trans (congrArg (value' · ρ) (hvalue₁ ρ hagrees))

theorem andPure {g : α → β} (h : Encodes m ids value) :
    Encodes (m >>= fun x => pure (g x)) ids fun ρ => g (value ρ) := by
  simpa using h.andThen fun x => ofPure (g x)

theorem ofCanonId (ns : Namespace) (raw : Nat) : Encodes (canonId ns raw) (Ty.own ns raw) fun ρ => ρ ns raw := by
  intro arena hdense
  have hrun : canonId ns raw arena =
      ((arena.seen ns).idxOf raw, arena.setCanon (see (arena.seen ns) raw).zipIdx ns) := by
    rw [canonId, hdense ns, orInsert_zipIdx]
  have hseen : ∀ ns', (canonId ns raw arena).2.seen ns' = (Ty.own ns raw ns').foldl see (arena.seen ns') := by
    intro ns'
    rw [hrun, seen, canon_setCanon, Ty.own]
    split
    · next h => subst h; simp
    · rfl
  refine ⟨fun ns' => ?_, hseen, fun ρ hρ => ?_⟩
  · rw [hseen, hrun, canon_setCanon, Ty.own]
    split
    · next h => subst h; rfl
    · exact hdense ns'
  · have hself : (canonId ns raw arena).2.seen ns = see (arena.seen ns) raw := by
      rw [hseen, Ty.own, if_pos rfl]
      rfl
    refine Eq.trans ?_ (hρ ns raw (hself ▸ mem_see.2 (.inr rfl))).symm
    rw [hself, hrun]
    by_cases h : raw ∈ arena.seen ns
    · rw [see_of_mem h]
    · rw [see_of_not_mem h, List.idxOf_append_of_notMem h, List.idxOf_eq_length h]
      simp

theorem afterCounter {counter : StateM TyArena β} (hcanon : ∀ arena, (counter arena).2.canon = arena.canon)
    (h : Encodes m ids value) : Encodes (counter >>= fun _ => m) ids value := by
  intro arena hdense
  have hseen : (counter arena).2.seen = arena.seen := by
    funext ns
    rw [seen, seen, hcanon]
  obtain ⟨hdense', hseen', hvalue⟩ := h (counter arena).2 fun ns => by rw [hseen, hcanon, hdense ns]
  exact ⟨hdense', fun ns => hseen ▸ hseen' ns, hvalue⟩

end Encodes

mutual

/-- The walk over a type meets its ids and writes it out. -/
theorem canonicalize_encodes : ∀ t : Ty, Encodes (canonicalize t) (fun ns => t.ids ns) fun ρ => (t.rename ρ).spell
  | .tuple items => (canonicalizeList_encodes items).andPure
  | .list inner => (canonicalize_encodes inner).andPure
  | .set inner => (canonicalize_encodes inner).andPure
  | .dict k v => (canonicalize_encodes k).andThen fun _ => (canonicalize_encodes v).andPure
  | .record fields => .afterCounter (fun _ => rfl) (canonicalizeFields_encodes fields).andPure
  | .fn positional named varPositional varKeyword returnTy =>
    .afterCounter (fun _ => rfl) <| (canonicalizeList_encodes positional).andThen fun _ =>
      (canonicalizeFields_encodes named).andThen fun _ =>
        (canonicalizeOption_encodes "*args" varPositional).andThen fun _ =>
          (canonicalizeOption_encodes "**kwargs" varKeyword).andThen fun _ => (canonicalize_encodes returnTy).andPure
  | .adt id args => (Encodes.ofCanonId .adt id).andThen fun _ => (canonicalizeList_encodes args).andPure
  | .alias id args => (Encodes.ofCanonId .alias id).andThen fun _ => (canonicalizeList_encodes args).andPure
  | .generic id => (Encodes.ofCanonId .generic id).andPure
  | .var id => (Encodes.ofCanonId .var id).andPure
  | .ref inner => (canonicalize_encodes inner).andPure
  | .array elem _ => (canonicalize_encodes elem).andPure
  | .bool | .int | .float | .imag | .str | .bytes | .none | .never | .intN _ => .ofPure _

theorem canonicalizeList_encodes : ∀ items : List Ty, Encodes (canonicalizeList items) (fun ns => Ty.idsList ns items)
    fun ρ => Ty.spellList (Ty.renameList ρ items)
  | [] => .ofPure []
  | t :: rest => (canonicalize_encodes t).andThen fun _ => (canonicalizeList_encodes rest).andPure

theorem canonicalizeFields_encodes : ∀ fields : List (String × Ty), Encodes (canonicalizeFields fields)
    (fun ns => Ty.idsFields ns fields) fun ρ => Ty.spellFields (Ty.renameFields ρ fields)
  | [] => .ofPure []
  | (_, t) :: rest => (canonicalize_encodes t).andThen fun _ => (canonicalizeFields_encodes rest).andPure

theorem canonicalizeOption_encodes (name : String) : ∀ o : Option Ty, Encodes (canonicalizeOption name o)
    (fun ns => Ty.idsOption ns o) fun ρ => Ty.spellOption name (Ty.renameOption ρ o)
  | .none => .ofPure []
  | .some t => (canonicalize_encodes t).andPure

end

/-- The key from a fresh arena is the numbered type, written out. -/
theorem keyOf_eq_spell (t : Ty) : keyOf t = t.numbered.spell := by
  obtain ⟨-, hseen, hvalue⟩ := canonicalize_encodes t {} fun ns => by cases ns <;> rfl
  refine hvalue t.numbering fun ns a _ => ?_
  have hempty : TyArena.seen {} ns = [] := by cases ns <;> rfl
  rw [hseen, hempty]
  rfl

end Parity

namespace Ty

/-! ## Renamings -/

mutual

theorem rename_congr {ρ σ : Renaming} : ∀ t : Ty, (∀ ns, ∀ a ∈ t.ids ns, ρ ns a = σ ns a) → t.rename ρ = t.rename σ
  | .tuple items, h => congrArg tuple (renameList_congr items h)
  | .list t, h => congrArg list (rename_congr t h)
  | .set t, h => congrArg set (rename_congr t h)
  | .ref t, h => congrArg ref (rename_congr t h)
  | .array t len, h => congrArg (array · len) (rename_congr t h)
  | .dict k v, h => congrArg₂ dict (rename_congr k fun ns a ha => h ns a (List.mem_append_left _ ha))
      (rename_congr v fun ns a ha => h ns a (List.mem_append_right _ ha))
  | .record fields, h => congrArg record (renameFields_congr fields h)
  | .fn positional named varPositional varKeyword returnTy, h => by
    simp only [ids, List.mem_append] at h
    simp only [rename]
    rw [renameList_congr positional fun ns a ha => h ns a (.inl ha),
      renameFields_congr named fun ns a ha => h ns a (.inr (.inl ha)),
      renameOption_congr varPositional fun ns a ha => h ns a (.inr (.inr (.inl ha))),
      renameOption_congr varKeyword fun ns a ha => h ns a (.inr (.inr (.inr (.inl ha)))),
      rename_congr returnTy fun ns a ha => h ns a (.inr (.inr (.inr (.inr ha))))]
  | .adt id args, h => congrArg₂ adt (h .adt id (List.mem_append_left _ (List.mem_singleton.2 rfl)))
      (renameList_congr args fun ns a ha => h ns a (List.mem_append_right _ ha))
  | .alias id args, h => congrArg₂ Ty.alias (h .alias id (List.mem_append_left _ (List.mem_singleton.2 rfl)))
      (renameList_congr args fun ns a ha => h ns a (List.mem_append_right _ ha))
  | .generic id, h => congrArg generic (h .generic id (List.mem_singleton.2 rfl))
  | .var id, h => congrArg var (h .var id (List.mem_singleton.2 rfl))
  | .bool, _ | .int, _ | .float, _ | .imag, _ | .str, _ | .bytes, _ | .none, _ | .never, _ | .intN _, _ => rfl

theorem renameList_congr {ρ σ : Renaming} : ∀ items : List Ty, (∀ ns, ∀ a ∈ idsList ns items, ρ ns a = σ ns a) →
    renameList ρ items = renameList σ items
  | [], _ => rfl
  | t :: rest, h => congrArg₂ List.cons (rename_congr t fun ns a ha => h ns a (List.mem_append_left _ ha))
      (renameList_congr rest fun ns a ha => h ns a (List.mem_append_right _ ha))

theorem renameFields_congr {ρ σ : Renaming} : ∀ fields : List (String × Ty),
    (∀ ns, ∀ a ∈ idsFields ns fields, ρ ns a = σ ns a) → renameFields ρ fields = renameFields σ fields
  | [], _ => rfl
  | (n, t) :: rest, h =>
    congrArg₂ (fun t rest => (n, t) :: rest) (rename_congr t fun ns a ha => h ns a (List.mem_append_left _ ha))
      (renameFields_congr rest fun ns a ha => h ns a (List.mem_append_right _ ha))

theorem renameOption_congr {ρ σ : Renaming} : ∀ o : Option Ty, (∀ ns, ∀ a ∈ idsOption ns o, ρ ns a = σ ns a) →
    renameOption ρ o = renameOption σ o
  | .none, _ => rfl
  | .some t, h => congrArg some (rename_congr t h)

end

mutual

theorem rename_rename (ρ σ : Renaming) : ∀ t : Ty, (t.rename ρ).rename σ = t.rename fun ns => σ ns ∘ ρ ns
  | .tuple items => congrArg tuple (renameList_renameList ρ σ items)
  | .list t => congrArg list (rename_rename ρ σ t)
  | .set t => congrArg set (rename_rename ρ σ t)
  | .ref t => congrArg ref (rename_rename ρ σ t)
  | .array t len => congrArg (array · len) (rename_rename ρ σ t)
  | .dict k v => congrArg₂ dict (rename_rename ρ σ k) (rename_rename ρ σ v)
  | .record fields => congrArg record (renameFields_renameFields ρ σ fields)
  | .fn positional named varPositional varKeyword returnTy => by
    simp only [rename, renameList_renameList, renameFields_renameFields, renameOption_renameOption,
      rename_rename ρ σ returnTy]
  | .adt id args => congrArg (adt _) (renameList_renameList ρ σ args)
  | .alias id args => congrArg (Ty.alias _) (renameList_renameList ρ σ args)
  | .generic _ | .var _ | .bool | .int | .float | .imag | .str | .bytes | .none | .never | .intN _ => rfl

theorem renameList_renameList (ρ σ : Renaming) : ∀ items : List Ty,
    renameList σ (renameList ρ items) = renameList (fun ns => σ ns ∘ ρ ns) items
  | [] => rfl
  | t :: rest => congrArg₂ List.cons (rename_rename ρ σ t) (renameList_renameList ρ σ rest)

theorem renameFields_renameFields (ρ σ : Renaming) : ∀ fields : List (String × Ty),
    renameFields σ (renameFields ρ fields) = renameFields (fun ns => σ ns ∘ ρ ns) fields
  | [] => rfl
  | (n, t) :: rest =>
    congrArg₂ (fun t rest => (n, t) :: rest) (rename_rename ρ σ t) (renameFields_renameFields ρ σ rest)

theorem renameOption_renameOption (ρ σ : Renaming) : ∀ o : Option Ty,
    renameOption σ (renameOption ρ o) = renameOption (fun ns => σ ns ∘ ρ ns) o
  | .none => rfl
  | .some t => congrArg some (rename_rename ρ σ t)

end

mutual

theorem rename_id : ∀ t : Ty, t.rename (fun _ => id) = t
  | .tuple items => congrArg tuple (renameList_id items)
  | .list t => congrArg list (rename_id t)
  | .set t => congrArg set (rename_id t)
  | .ref t => congrArg ref (rename_id t)
  | .array t len => congrArg (array · len) (rename_id t)
  | .dict k v => congrArg₂ dict (rename_id k) (rename_id v)
  | .record fields => congrArg record (renameFields_id fields)
  | .fn positional named varPositional varKeyword returnTy => by
    simp only [rename, renameList_id, renameFields_id, renameOption_id, rename_id returnTy]
  | .adt _ args => congrArg (adt _) (renameList_id args)
  | .alias _ args => congrArg (Ty.alias _) (renameList_id args)
  | .generic _ | .var _ | .bool | .int | .float | .imag | .str | .bytes | .none | .never | .intN _ => rfl

theorem renameList_id : ∀ items : List Ty, renameList (fun _ => id) items = items
  | [] => rfl
  | t :: rest => congrArg₂ List.cons (rename_id t) (renameList_id rest)

theorem renameFields_id : ∀ fields : List (String × Ty), renameFields (fun _ => id) fields = fields
  | [] => rfl
  | (n, t) :: rest => congrArg₂ (fun t rest => (n, t) :: rest) (rename_id t) (renameFields_id rest)

theorem renameOption_id : ∀ o : Option Ty, renameOption (fun _ => id) o = o
  | .none => rfl
  | .some t => congrArg some (rename_id t)

end

theorem own_rename (ρ : Renaming) (ns' : Namespace) (id : Nat) (ns : Namespace) :
    own ns' (ρ ns' id) ns = (own ns' id ns).map (ρ ns) := by
  unfold own
  split
  · next h => subst h; rfl
  · rfl

mutual

theorem ids_rename (ρ : Renaming) (ns : Namespace) : ∀ t : Ty, (t.rename ρ).ids ns = (t.ids ns).map (ρ ns)
  | .tuple items => idsList_rename ρ ns items
  | .list t | .set t | .ref t | .array t _ => ids_rename ρ ns t
  | .dict k v => by simp only [rename, ids, ids_rename ρ ns k, ids_rename ρ ns v, List.map_append]
  | .record fields => idsFields_rename ρ ns fields
  | .fn positional named varPositional varKeyword returnTy => by
    simp only [rename, ids, idsList_rename, idsFields_rename, idsOption_rename, ids_rename ρ ns returnTy,
      List.map_append]
  | .adt id args | .alias id args => by simp only [rename, ids, idsList_rename, own_rename, List.map_append]
  | .generic id | .var id => own_rename ρ _ id ns
  | .bool | .int | .float | .imag | .str | .bytes | .none | .never | .intN _ => rfl

theorem idsList_rename (ρ : Renaming) (ns : Namespace) : ∀ items : List Ty,
    idsList ns (renameList ρ items) = (idsList ns items).map (ρ ns)
  | [] => rfl
  | t :: rest => by simp only [renameList, idsList, ids_rename ρ ns t, idsList_rename ρ ns rest, List.map_append]

theorem idsFields_rename (ρ : Renaming) (ns : Namespace) : ∀ fields : List (String × Ty),
    idsFields ns (renameFields ρ fields) = (idsFields ns fields).map (ρ ns)
  | [] => rfl
  | (_, t) :: rest => by
    simp only [renameFields, idsFields, ids_rename ρ ns t, idsFields_rename ρ ns rest, List.map_append]

theorem idsOption_rename (ρ : Renaming) (ns : Namespace) : ∀ o : Option Ty,
    idsOption ns (renameOption ρ o) = (idsOption ns o).map (ρ ns)
  | .none => rfl
  | .some t => ids_rename ρ ns t

end

variable {t u : Ty}

theorem numbered_rename {ρ : Renaming} (hρ : ∀ ns, Function.Injective (ρ ns)) (t : Ty) :
    (t.rename ρ).numbered = t.numbered := by
  rw [numbered, rename_rename]
  refine rename_congr t fun ns a _ => ?_
  rw [Function.comp_apply, numbering, ids_rename]
  exact numberIn_map (hρ ns) _ a

/-- The id with a given number. -/
def rawId (t : Ty) : Renaming := fun ns n => ((firsts (t.ids ns))[n]?).getD 0

theorem rawId_numbering {ns : Namespace} {a : Nat} (h : a ∈ t.ids ns) : t.rawId ns (t.numbering ns a) = a := by
  rw [rawId, numbering, getElem?_numberIn h, Option.getD_some]

theorem rename_rawId : t.numbered.rename t.rawId = t := by
  rw [numbered, rename_rename]
  exact (rename_congr t fun ns a ha => rawId_numbering ha).trans (rename_id t)

/-- Two types agree after numbering just when injective renamings take one to the other. -/
theorem numbered_eq_iff : t.numbered = u.numbered ↔ ∃ ρ : Renaming, (∀ ns, Function.Injective (ρ ns)) ∧ t.rename ρ = u := by
  constructor
  · intro h
    have hext : ∀ ns, ∃ g : Nat → Nat, Function.Injective g ∧ ∀ a ∈ t.ids ns, g a = u.rawId ns (t.numbering ns a) := by
      intro ns
      refine exists_injective_extension fun a ha b hb hab => ?_
      have hnumber : ∀ c ∈ t.ids ns, ∃ d ∈ u.ids ns, u.numbering ns d = t.numbering ns c := by
        intro c hc
        have hmem : t.numbering ns c ∈ t.numbered.ids ns := by
          rw [numbered, ids_rename]
          exact List.mem_map_of_mem hc
        rw [h, numbered, ids_rename] at hmem
        exact List.mem_map.1 hmem
      obtain ⟨a', ha', hnum⟩ := hnumber a ha
      obtain ⟨b', hb', hnum'⟩ := hnumber b hb
      rw [← hnum, ← hnum', rawId_numbering ha', rawId_numbering hb'] at hab
      exact numberIn_injOn ha hb (hnum.symm.trans ((congrArg _ hab).trans hnum'))
    choose ρ hinj hρ using hext
    refine ⟨ρ, hinj, ?_⟩
    calc t.rename ρ = t.rename fun ns => u.rawId ns ∘ t.numbering ns := rename_congr t hρ
      _ = t.numbered.rename u.rawId := (rename_rename t.numbering u.rawId t).symm
      _ = u := by rw [h, rename_rawId]
  · rintro ⟨ρ, hinj, rfl⟩
    exact (numbered_rename hinj t).symm

end Ty

end Cobrust
