import Cobrust.Parity.Numbered
import Mathlib.Data.List.TakeWhile
import Mathlib.Logic.Relation

/-!
# What the key does not tell apart

The tag of a named parameter is its name and nothing else, so `List: i64` is written like a positional `List[i64]`, and
a variadic parameter like a named one called `*args`. `Reread` moves one parameter to the neighbouring role in this
way. Two types have the same key just when a chain of such steps links them after numbering (`keyOf_eq_iff`).
-/

namespace Cobrust

open Parity CanonicalKey Relation

namespace Ty

/-- The type is written as the tag around the other type. -/
inductive Spells : Ty → String → Ty → Prop
  | tuple (t : Ty) : Spells (.tuple [t]) "Tuple" t
  | list (t : Ty) : Spells (.list t) "List" t
  | set (t : Ty) : Spells (.set t) "Set" t
  | ref (t : Ty) : Spells (.ref t) "Ref" t
  | array (t : Ty) (n : Nat) : Spells (.array t n) ("Array#" ++ toString n) t
  | adt (id : AdtId) (t : Ty) : Spells (.adt id [t]) ("Adt#" ++ toString id) t
  | alias (id : Nat) (t : Ty) : Spells (.alias id [t]) ("Alias#" ++ toString id) t
  | record {x t : Ty} {field : String} : Spells x field t → Spells (.record [(field, t)]) "Record" x

/-- The types with a hole for one component. -/
inductive Place : (Ty → Ty) → Prop
  | tuple (as bs : List Ty) : Place fun t => .tuple (as ++ t :: bs)
  | list : Place .list
  | set : Place .set
  | key (v : Ty) : Place fun t => .dict t v
  | value (k : Ty) : Place fun t => .dict k t
  | field (as bs : List (String × Ty)) (name : String) : Place fun t => .record (as ++ (name, t) :: bs)
  | positional (as bs : List Ty) (named : List (String × Ty)) (varPositional varKeyword : Option Ty) (returnTy : Ty) :
    Place fun t => .fn (as ++ t :: bs) named varPositional varKeyword returnTy
  | named (positional : List Ty) (as bs : List (String × Ty)) (name : String) (varPositional varKeyword : Option Ty)
      (returnTy : Ty) : Place fun t => .fn positional (as ++ (name, t) :: bs) varPositional varKeyword returnTy
  | varPositional (positional : List Ty) (named : List (String × Ty)) (varKeyword : Option Ty) (returnTy : Ty) :
    Place fun t => .fn positional named (some t) varKeyword returnTy
  | varKeyword (positional : List Ty) (named : List (String × Ty)) (varPositional : Option Ty) (returnTy : Ty) :
    Place fun t => .fn positional named varPositional (some t) returnTy
  | returnTy (positional : List Ty) (named : List (String × Ty)) (varPositional varKeyword : Option Ty) :
    Place (.fn positional named varPositional varKeyword)
  | adt (id : AdtId) (as bs : List Ty) : Place fun t => .adt id (as ++ t :: bs)
  | alias (id : Nat) (as bs : List Ty) : Place fun t => .alias id (as ++ t :: bs)
  | ref : Place .ref
  | array (len : Nat) : Place fun t => .array t len

/-- One parameter of one function type changes its role: the last positional parameter becomes the first named one, with
the tag of its type for a name, or a variadic parameter becomes the last named one. -/
inductive Reread : Ty → Ty → Prop
  | positional {p t : Ty} {name : String} {positional : List Ty} {named : List (String × Ty)}
      {varPositional varKeyword : Option Ty} {returnTy : Ty} : Spells p name t →
    Reread (.fn (positional ++ [p]) named varPositional varKeyword returnTy)
      (.fn positional ((name, t) :: named) varPositional varKeyword returnTy)
  | varPositional (positional : List Ty) (named : List (String × Ty)) (t : Ty) (varKeyword : Option Ty) (returnTy : Ty) :
    Reread (.fn positional named (some t) varKeyword returnTy)
      (.fn positional (named ++ [("*args", t)]) .none varKeyword returnTy)
  | varKeyword (positional : List Ty) (named : List (String × Ty)) (t returnTy : Ty) :
    Reread (.fn positional named .none (some t) returnTy)
      (.fn positional (named ++ [("**kwargs", t)]) .none .none returnTy)
  | component {C : Ty → Ty} {t u : Ty} : Place C → Reread t u → Reread (C t) (C u)

/-- The types are linked by rereadings, in either direction. -/
abbrev ReadsAs : Ty → Ty → Prop :=
  EqvGen Reread

variable {t u : Ty}

/-- A named child. -/
def spellField (field : String × Ty) : CanonicalKey :=
  node field.1 [field.2.spell]

theorem spellList_eq (items : List Ty) : spellList items = items.map spell := by
  induction items with
  | nil => rfl
  | cons t rest ih => rw [spellList, ih, List.map_cons]

theorem spellFields_eq (fields : List (String × Ty)) : spellFields fields = fields.map spellField := by
  induction fields with
  | nil => rfl
  | cons f rest ih =>
    obtain ⟨name, t⟩ := f
    rw [spellFields, ih, List.map_cons]
    rfl

theorem spell_of_spells {p : Ty} {name : String} (h : Spells p name t) : p.spell = node name [t.spell] := by
  induction h with
  | record _ ih => simp [spell, spellFields, ih]
  | _ => rfl

theorem spell_place {C : Ty → Ty} (hC : Place C) (h : t.spell = u.spell) : (C t).spell = (C u).spell := by
  cases hC <;> simp [spell, spellList_eq, spellFields_eq, spellField, spellOption, h]

theorem spell_of_reread (h : Reread t u) : t.spell = u.spell := by
  induction h with
  | positional hp => simp [spell, spellList_eq, spellFields_eq, spellField, spell_of_spells hp]
  | varPositional => simp [spell, spellFields_eq, spellField, spellOption]
  | varKeyword => simp [spell, spellFields_eq, spellField, spellOption]
  | component hC _ ih => exact spell_place hC ih

theorem spell_of_readsAs (h : ReadsAs t u) : t.spell = u.spell := by
  induction h with
  | rel _ _ h => exact spell_of_reread h
  | refl => rfl
  | symm _ _ _ ih => exact ih.symm
  | trans _ _ _ _ _ ih ih' => exact ih.trans ih'

/-! ## The tag tells the constructor -/

/-- The tags without their numbers, in the order of the constructors. -/
def bases : List String :=
  ["Bool", "Int", "Float", "Imag", "Str", "Bytes", "None", "Never", "Tuple", "List", "Set", "Dict", "Record", "Fn",
    "Adt#", "Alias#", "Generic#", "Var#", "Ref", "IntN#", "Array#"]

def base (t : Ty) : String :=
  bases.getD t.ctorIdx ""

def number : Ty → Option Nat
  | .adt n _ | .alias n _ | .generic n | .var n | .intN n | .array _ n => Option.some n
  | _ => Option.none

/-- A tag from its base and its number. -/
def label (base : String) : Option Nat → String
  | .none => base
  | .some n => base ++ toString n

theorem exists_spell_eq (t : Ty) : ∃ children, t.spell = node (label t.base t.number) children := by
  cases t <;> exact ⟨_, rfl⟩

theorem base_mem (t : Ty) : t.base ∈ bases := by
  cases t <;> exact List.mem_of_elem_eq_true rfl

theorem idxOf_base (t : Ty) : bases.idxOf t.base = t.ctorIdx := by
  cases t <;> rfl

theorem not_isDigit_of_mem_base {base : String} (h : base ∈ bases) {c : Char} (hc : c ∈ base.toList) :
    c.isDigit = false := by
  have hall : bases.all fun base => base.toList.all fun c => !c.isDigit := by decide
  simpa using List.all_eq_true.1 (List.all_eq_true.1 hall base h) c hc

theorem takeWhile_label {base : String} (h : base ∈ bases) (n : Option Nat) :
    (label base n).toList.takeWhile (!·.isDigit) = base.toList := by
  have hbase : ∀ c ∈ base.toList, (!c.isDigit) = true := fun c hc => by rw [not_isDigit_of_mem_base h hc]; rfl
  match n with
  | .none => exact List.takeWhile_eq_self_iff.2 hbase
  | .some n =>
    have hdigits : (toString n).toList.takeWhile (!·.isDigit) = [] := by
      rw [List.takeWhile_eq_nil_iff]
      intro hlt
      have hmem : (toString n).toList.get ⟨0, hlt⟩ ∈ Nat.toDigits 10 n := (Nat.toList_repr (n := n)) ▸ List.get_mem _ _
      rw [Text.isDigit_of_mem_toDigits hmem]
      decide
    rw [label, String.toList_append, List.takeWhile_append_of_pos hbase, hdigits, List.append_nil]

theorem digits_injective {n n' : Nat} (h : Nat.toDigits 10 n = Nat.toDigits 10 n') : n = n' := by
  rw [← Option.some_inj, ← Text.parseDigits_toDigits, h, Text.parseDigits_toDigits]

theorem toList_label (base : String) (n : Option Nat) :
    (label base n).toList = base.toList ++ (n.map (Nat.toDigits 10)).getD [] := by
  match n with
  | .none => exact (List.append_nil _).symm
  | .some n => exact (String.toList_append ..).trans (congrArg _ Nat.toList_repr)

theorem label_injective {base base' : String} {n n' : Option Nat} (hb : base ∈ bases) (hb' : base' ∈ bases)
    (h : label base n = label base' n') : base = base' ∧ n = n' := by
  have hbase : base = base' := by
    rw [← String.toList_inj, ← takeWhile_label hb n, h, takeWhile_label hb' n']
  subst hbase
  refine ⟨rfl, ?_⟩
  have hdigits := congrArg String.toList h
  rw [toList_label, toList_label, List.append_cancel_left_eq] at hdigits
  match n, n' with
  | .none, .none => rfl
  | .none, .some _ => exact absurd hdigits.symm Nat.toDigits_ne_nil
  | .some _, .none => exact absurd hdigits Nat.toDigits_ne_nil
  | .some _, .some _ => exact congrArg some (digits_injective hdigits)

/-- Types with the same key have the same constructor and the same number. -/
theorem same_head (h : t.spell = u.spell) : t.ctorIdx = u.ctorIdx ∧ t.number = u.number := by
  obtain ⟨cs, ht⟩ := exists_spell_eq t
  obtain ⟨ds, hu⟩ := exists_spell_eq u
  rw [ht, hu] at h
  obtain ⟨hbase, hnumber⟩ := label_injective (base_mem t) (base_mem u) (node.inj h).1
  exact ⟨by rw [← idxOf_base, hbase, idxOf_base], hnumber⟩

theorem arrow_not_label (t : Ty) : label t.base t.number ≠ "->" := by
  intro h
  have hbase := takeWhile_label (base_mem t) t.number
  rw [h] at hbase
  have harrow : t.base = "->" := String.toList_inj.1 hbase.symm
  exact absurd (harrow ▸ base_mem t) (by decide)

theorem fn_ne_wrapped {positional : List Ty} {named : List (String × Ty)} {varPositional varKeyword : Option Ty}
    {returnTy : Ty} {name : String} :
    (fn positional named varPositional varKeyword returnTy).spell ≠ node name [t.spell] := by
  intro h
  obtain ⟨children, ht⟩ := exists_spell_eq t
  have hlast := (List.append_inj' ((node.inj h).2.trans (List.nil_append _).symm) rfl).2
  rw [ht] at hlast
  exact arrow_not_label t (node.inj (List.cons.inj hlast).1).1.symm

theorem spellFields_singleton {fields : List (String × Ty)} {key : CanonicalKey} (h : spellFields fields = [key]) :
    ∃ field x, fields = [(field, x)] ∧ node field [x.spell] = key := by
  rw [spellFields_eq] at h
  obtain ⟨⟨field, x⟩, rfl, hkey⟩ := List.map_eq_singleton_iff.1 h
  exact ⟨field, x, rfl, hkey⟩

theorem spellList_singleton {items : List Ty} {key : CanonicalKey} (h : spellList items = [key]) :
    ∃ x, items = [x] ∧ x.spell = key := by
  rw [spellList_eq] at h
  exact List.map_eq_singleton_iff.1 h

theorem sizeOf_lt_node (name : String) (key : CanonicalKey) : sizeOf key < sizeOf (node name [key]) := by
  simp only [node.sizeOf_spec, List.cons.sizeOf_spec]
  omega

/-- A type that is written like a tag around a type is that tag around a type which is written the same; and the type
inside may be exchanged. The two go down the nested records in turns. -/
theorem exists_spells_of_size (n : Nat) :
    (∀ (p x : Ty) (name : String), sizeOf p.spell < n → p.spell = node name [x.spell] →
      ∃ t, Spells p name t ∧ t.spell = x.spell) ∧
    ∀ (x t : Ty) (name : String), sizeOf x.spell < n → x.spell = node name [t.spell] →
      ∃ x', Spells x' name t ∧ x'.spell = x.spell := by
  induction n with
  | zero => exact ⟨fun _ _ _ h => absurd h (Nat.not_lt_zero _), fun _ _ _ h => absurd h (Nat.not_lt_zero _)⟩
  | succ n ih =>
    constructor
    · intro p x name hlt h
      have hsmall : sizeOf x.spell < n := (sizeOf_lt_node name x.spell).trans_le (Nat.le_of_lt_succ (h ▸ hlt))
      cases p with
      | tuple items =>
        obtain ⟨rfl, hitems⟩ := node.inj h
        obtain ⟨t, rfl, ht⟩ := spellList_singleton hitems
        exact ⟨t, .tuple t, ht⟩
      | adt id args =>
        obtain ⟨rfl, hargs⟩ := node.inj h
        obtain ⟨t, rfl, ht⟩ := spellList_singleton hargs
        exact ⟨t, .adt id t, ht⟩
      | «alias» id args =>
        obtain ⟨rfl, hargs⟩ := node.inj h
        obtain ⟨t, rfl, ht⟩ := spellList_singleton hargs
        exact ⟨t, .alias id t, ht⟩
      | list t =>
        obtain ⟨rfl, ht⟩ := node.inj h
        exact ⟨t, .list t, (List.cons.inj ht).1⟩
      | set t =>
        obtain ⟨rfl, ht⟩ := node.inj h
        exact ⟨t, .set t, (List.cons.inj ht).1⟩
      | ref t =>
        obtain ⟨rfl, ht⟩ := node.inj h
        exact ⟨t, .ref t, (List.cons.inj ht).1⟩
      | array t len =>
        obtain ⟨rfl, ht⟩ := node.inj h
        exact ⟨t, .array t len, (List.cons.inj ht).1⟩
      | record fields =>
        obtain ⟨rfl, hfields⟩ := node.inj h
        obtain ⟨field, y, rfl, hy⟩ := spellFields_singleton hfields
        obtain ⟨x', hspells, hx'⟩ := ih.2 x y field hsmall hy.symm
        exact ⟨x', .record hspells, hx'⟩
      | fn => exact absurd h fn_ne_wrapped
      | dict => exact absurd (congrArg List.length (node.inj h).2) (by simp)
      | _ => exact absurd (node.inj h).2 (by simp)
    · intro x t name hlt h
      have hsmall : sizeOf t.spell < n := (sizeOf_lt_node name t.spell).trans_le (Nat.le_of_lt_succ (h ▸ hlt))
      cases x with
      | tuple items =>
        obtain ⟨rfl, -⟩ := node.inj h
        exact ⟨.tuple [t], .tuple t, h.symm⟩
      | adt id args =>
        obtain ⟨rfl, -⟩ := node.inj h
        exact ⟨.adt id [t], .adt id t, h.symm⟩
      | «alias» id args =>
        obtain ⟨rfl, -⟩ := node.inj h
        exact ⟨.alias id [t], .alias id t, h.symm⟩
      | list w =>
        obtain ⟨rfl, -⟩ := node.inj h
        exact ⟨.list t, .list t, h.symm⟩
      | set w =>
        obtain ⟨rfl, -⟩ := node.inj h
        exact ⟨.set t, .set t, h.symm⟩
      | ref w =>
        obtain ⟨rfl, -⟩ := node.inj h
        exact ⟨.ref t, .ref t, h.symm⟩
      | array w len =>
        obtain ⟨rfl, -⟩ := node.inj h
        exact ⟨.array t len, .array t len, h.symm⟩
      | record fields =>
        obtain ⟨rfl, hfields⟩ := node.inj h
        obtain ⟨field, w, rfl, hw⟩ := spellFields_singleton hfields
        obtain ⟨w', hspells, hw'⟩ := ih.1 t w field hsmall hw.symm
        refine ⟨.record [(field, w')], .record hspells, ?_⟩
        simp [spell, spellFields, hw']
      | fn => exact absurd h fn_ne_wrapped
      | dict => exact absurd (congrArg List.length (node.inj h).2) (by simp)
      | _ => exact absurd (node.inj h).2 (by simp)

theorem exists_spells {p x : Ty} {name : String} (h : p.spell = node name [x.spell]) :
    ∃ t, Spells p name t ∧ t.spell = x.spell :=
  (exists_spells_of_size _).1 p x name (Nat.lt_succ_self _) h

theorem readsAs_place {C : Ty → Ty} (hC : Place C) (h : ReadsAs t u) : ReadsAs (C t) (C u) := by
  induction h with
  | rel _ _ h => exact .rel _ _ (.component hC h)
  | refl => exact .refl _
  | symm _ _ _ ih => exact ih.symm
  | trans _ _ _ _ _ ih ih' => exact ih.trans _ _ _ ih'

theorem readsAs_list {C : List Ty → Ty} (hC : ∀ as bs, Place fun t => C (as ++ t :: bs)) {items items' : List Ty}
    (h : List.Forall₂ ReadsAs items items') : ReadsAs (C items) (C items') := by
  suffices hall : ∀ as, ReadsAs (C (as ++ items)) (C (as ++ items')) from hall []
  induction h with
  | nil => exact fun as => .refl _
  | @cons t u rest rest' htu _ ih =>
    intro as
    refine .trans _ (C (as ++ u :: rest)) _ (readsAs_place (hC as rest) htu) ?_
    simpa using ih (as ++ [u])

theorem readsAs_fields {C : List (String × Ty) → Ty} (hC : ∀ as bs name, Place fun t => C (as ++ (name, t) :: bs))
    {fields fields' : List (String × Ty)}
    (h : List.Forall₂ (fun f f' => f.1 = f'.1 ∧ ReadsAs f.2 f'.2) fields fields') :
    ReadsAs (C fields) (C fields') := by
  suffices hall : ∀ as, ReadsAs (C (as ++ fields)) (C (as ++ fields')) from hall []
  induction h with
  | nil => exact fun as => .refl _
  | @cons f f' rest rest' hff _ ih =>
    intro as
    obtain ⟨name, t⟩ := f
    obtain ⟨name', u⟩ := f'
    obtain ⟨rfl, htu⟩ := hff
    refine .trans _ (C (as ++ (name, u) :: rest)) _ (readsAs_place (hC as rest name) htu) ?_
    simpa using ih (as ++ [(name, u)])

/-- The variadic parameters as named ones. -/
def variadicFields (varPositional varKeyword : Option Ty) : List (String × Ty) :=
  varPositional.toList.map ("*args", ·) ++ varKeyword.toList.map ("**kwargs", ·)

theorem readsAs_variadics (positional : List Ty) (named : List (String × Ty)) (varPositional varKeyword : Option Ty)
    (returnTy : Ty) : ReadsAs (.fn positional named varPositional varKeyword returnTy)
      (.fn positional (named ++ variadicFields varPositional varKeyword) .none .none returnTy) := by
  have hkeyword : ∀ named, ReadsAs (.fn positional named .none varKeyword returnTy)
      (.fn positional (named ++ variadicFields .none varKeyword) .none .none returnTy) := by
    intro named
    cases varKeyword with
    | none => simpa [variadicFields] using EqvGen.refl _
    | some t => exact .rel _ _ (.varKeyword positional named t returnTy)
  cases varPositional with
  | none => exact hkeyword named
  | some t =>
    refine .trans _ _ _ (.rel _ _ (.varPositional positional named t varKeyword returnTy)) ?_
    simpa [variadicFields] using hkeyword (named ++ [("*args", t)])

/-- Positional parameters that are written like named ones can all be made named. -/
theorem exists_readsAs_named (returnTy : Ty) : ∀ (params : List Ty) (fields : List (String × Ty)),
    params.map spell = fields.map spellField →
    ∃ fields', fields'.map spellField = fields.map spellField ∧ ∀ positional named,
      ReadsAs (.fn (positional ++ params) named .none .none returnTy)
        (.fn positional (fields' ++ named) .none .none returnTy)
  | [], [], _ => ⟨[], rfl, fun positional named => by simpa using EqvGen.refl _⟩
  | p :: params, (name, x) :: fields, h => by
    obtain ⟨hp, hparams⟩ := List.cons.inj h
    obtain ⟨t, hspells, ht⟩ := exists_spells hp
    obtain ⟨fields', hfields', hmove⟩ := exists_readsAs_named returnTy params fields hparams
    refine ⟨(name, t) :: fields', by simp [spellField, ht, hfields'], fun positional named => ?_⟩
    refine .trans _ _ _ ?_ (.rel _ _ (.positional hspells))
    simpa using hmove (positional ++ [p]) named

/-! ### The chain -/

theorem sizeOf_lt_of_mem {key : CanonicalKey} {name : String} {keys : List CanonicalKey} (h : key ∈ keys) :
    sizeOf key < sizeOf (node name keys) := by
  have := List.sizeOf_lt_of_mem h
  simp only [node.sizeOf_spec]
  omega

theorem forall₂_of_map_eq {α β : Type} {f : α → β} {R : α → α → Prop} : ∀ {as bs : List α}, as.map f = bs.map f →
    (∀ a ∈ as, ∀ b, f a = f b → R a b) → List.Forall₂ R as bs
  | [], [], _, _ => .nil
  | a :: as, b :: bs, h, hR =>
    .cons (hR a List.mem_cons_self b (List.cons.inj h).1)
      (forall₂_of_map_eq (List.cons.inj h).2 fun a ha => hR a (List.mem_cons_of_mem _ ha))

section

variable {n : Nat} (ih : ∀ a b : Ty, sizeOf a.spell < n → a.spell = b.spell → ReadsAs a b)

include ih

theorem readsAs_items {items items' : List Ty} (hsize : ∀ a ∈ items, sizeOf a.spell < n)
    (h : items.map spell = items'.map spell) : List.Forall₂ ReadsAs items items' :=
  forall₂_of_map_eq h fun a ha b hab => ih a b (hsize a ha) hab

theorem readsAs_named {fields fields' : List (String × Ty)} (hsize : ∀ f ∈ fields, sizeOf f.2.spell < n)
    (h : fields.map spellField = fields'.map spellField) :
    List.Forall₂ (fun f f' => f.1 = f'.1 ∧ ReadsAs f.2 f'.2) fields fields' :=
  forall₂_of_map_eq h fun f hf f' hff' =>
    ⟨(node.inj hff').1, ih f.2 f'.2 (hsize f hf) (List.cons.inj (node.inj hff').2).1⟩

/-- Functions without variadic parameters; the second has at least as many positional ones, and those past the number
of the first are made named. -/
theorem readsAs_fn {positional positional' : List Ty} {named named' : List (String × Ty)} {returnTy returnTy' : Ty}
    (hpositional : ∀ a ∈ positional, sizeOf a.spell < n) (hnamed : ∀ f ∈ named, sizeOf f.2.spell < n)
    (hreturn : ReadsAs returnTy returnTy') (hle : positional.length ≤ positional'.length)
    (h : positional.map spell ++ named.map spellField = positional'.map spell ++ named'.map spellField) :
    ReadsAs (.fn positional named .none .none returnTy) (.fn positional' named' .none .none returnTy') := by
  obtain ⟨kept, params, rfl, hkept⟩ : ∃ kept params, positional' = kept ++ params ∧ kept.length = positional.length :=
    ⟨_, _, (List.take_append_drop positional.length positional').symm, List.length_take_of_le hle⟩
  rw [List.map_append, List.append_assoc] at h
  obtain ⟨hsame, hmoved⟩ := List.append_inj h (by simp [hkept])
  obtain ⟨fields, rest, rfl, hfields, hrest⟩ := List.map_eq_append_iff.1 hmoved
  obtain ⟨fields', hfields', hmove⟩ := exists_readsAs_named returnTy' params fields hfields.symm
  have hall : (fields ++ rest).map spellField = (fields' ++ named').map spellField := by
    rw [List.map_append, List.map_append, hfields', hrest]
  have hitems := readsAs_list (C := (.fn · (fields ++ rest) .none .none returnTy))
    (fun as bs => .positional as bs _ _ _ _) (readsAs_items ih hpositional hsame)
  have hfield := readsAs_fields (C := (.fn kept · .none .none returnTy))
    (fun as bs name => .named kept as bs name _ _ _) (readsAs_named ih hnamed hall)
  have hret : ReadsAs _ (.fn kept (fields' ++ named') .none .none returnTy') := readsAs_place (.returnTy _ _ _ _) hreturn
  exact ((hitems.trans _ _ _ hfield).trans _ _ _ hret).trans _ _ _ (hmove kept named').symm

end

theorem spell_fn (positional : List Ty) (named : List (String × Ty)) (varPositional varKeyword : Option Ty)
    (returnTy : Ty) : (fn positional named varPositional varKeyword returnTy).spell =
      node "Fn" (positional.map spell ++ (named ++ variadicFields varPositional varKeyword).map spellField ++
        [node "->" [returnTy.spell]]) := by
  cases varPositional <;> cases varKeyword <;>
    simp [spell, spellList_eq, spellFields_eq, spellOption, variadicFields, spellField]

theorem mem_params_of_positional {positional : List Ty} {keys last : List CanonicalKey} {a : Ty}
    (h : a ∈ positional) : a.spell ∈ positional.map spell ++ keys ++ last :=
  List.mem_append_left _ (List.mem_append_left _ (List.mem_map_of_mem h))

theorem mem_params_of_named {fields : List (String × Ty)} {keys last : List CanonicalKey} {f : String × Ty}
    (h : f ∈ fields) : spellField f ∈ keys ++ fields.map spellField ++ last :=
  List.mem_append_left _ (List.mem_append_right _ (List.mem_map_of_mem h))

theorem readsAs_of_size (n : Nat) : ∀ t u : Ty, sizeOf t.spell < n → t.spell = u.spell → ReadsAs t u := by
  induction n with
  | zero => exact fun _ _ h => absurd h (Nat.not_lt_zero _)
  | succ n ih =>
    intro t u hlt h
    have hsmall : ∀ {name : String} {keys : List CanonicalKey}, t.spell = node name keys → ∀ key ∈ keys,
        sizeOf key < n := fun ht key hkey => (sizeOf_lt_of_mem hkey).trans_le (Nat.le_of_lt_succ (ht ▸ hlt))
    have hone : ∀ {a b : Ty} {name : String}, t.spell = node name [a.spell] → [a.spell] = [b.spell] → ReadsAs a b :=
      fun ht hab => ih _ _ (hsmall ht _ List.mem_cons_self) (List.cons.inj hab).1
    have hitems : ∀ {items items' : List Ty} {name : String}, t.spell = node name (spellList items) →
        spellList items = spellList items' → List.Forall₂ ReadsAs items items' := by
      intro items items' name ht heq
      rw [spellList_eq] at ht heq
      rw [spellList_eq] at heq
      exact readsAs_items ih (fun a ha => hsmall ht _ (List.mem_map_of_mem ha)) heq
    obtain ⟨hctor, hnumber⟩ := same_head h
    cases t <;> cases u <;> try cases hctor
    case tuple.tuple.refl items items' =>
      exact readsAs_list (fun as bs => .tuple as bs) (hitems rfl (node.inj h).2)
    case list.list.refl a b => exact readsAs_place .list (hone rfl (node.inj h).2)
    case set.set.refl a b => exact readsAs_place .set (hone rfl (node.inj h).2)
    case ref.ref.refl a b => exact readsAs_place .ref (hone rfl (node.inj h).2)
    case array.array.refl a len b len' =>
      obtain rfl : len = len' := Option.some.inj hnumber
      exact readsAs_place (.array len) (hone rfl (node.inj h).2)
    case dict.dict.refl k v k' v' =>
      obtain ⟨hk, hv⟩ := List.cons.inj (node.inj h).2
      refine .trans _ (.dict k' v) _ (readsAs_place (.key v) (ih k k' (hsmall rfl _ List.mem_cons_self) hk)) ?_
      exact readsAs_place (.value k')
        (ih v v' (hsmall rfl _ (List.mem_cons_of_mem _ List.mem_cons_self)) (List.cons.inj hv).1)
    case record.record.refl fields fields' =>
      have hfields := (node.inj h).2
      rw [spellFields_eq, spellFields_eq] at hfields
      refine readsAs_fields (fun as bs name => .field as bs name) (readsAs_named ih (fun f hf => ?_) hfields)
      exact (sizeOf_lt_node f.1 f.2.spell).trans
        (hsmall rfl (spellField f) (by rw [spellFields_eq]; exact List.mem_map_of_mem hf))
    case fn.fn.refl positional named va vk r positional' named' va' vk' r' =>
      have hspell := spell_fn positional named va vk r
      have hspell' := h.trans (spell_fn positional' named' va' vk' r')
      have hparams := hspell.symm.trans hspell'
      obtain ⟨hparams, hret⟩ := List.append_inj' (node.inj hparams).2 rfl
      have hreturn : ReadsAs r r' :=
        ih r r' ((sizeOf_lt_node "->" r.spell).trans (hsmall hspell _ (List.mem_append_right _ List.mem_cons_self)))
          (List.cons.inj (node.inj (List.cons.inj hret).1).2).1
      -- every variadic parameter is made named, on both sides
      refine .trans _ _ _ (readsAs_variadics positional named va vk r) (.trans _ _ _ ?_ (readsAs_variadics _ _ _ _ _).symm)
      rcases Nat.le_total positional.length positional'.length with hle | hle
      · exact readsAs_fn ih (fun a ha => hsmall hspell _ (mem_params_of_positional ha))
          (fun f hf => (sizeOf_lt_node _ _).trans (hsmall hspell _ (mem_params_of_named hf))) hreturn hle hparams
      · exact (readsAs_fn ih (fun a ha => hsmall hspell' _ (mem_params_of_positional ha))
          (fun f hf => (sizeOf_lt_node _ _).trans (hsmall hspell' _ (mem_params_of_named hf))) hreturn.symm hle
          hparams.symm).symm
    case adt.adt.refl id args id' args' =>
      obtain rfl : id = id' := Option.some.inj hnumber
      exact readsAs_list (fun as bs => .adt id as bs) (hitems rfl (node.inj h).2)
    case alias.alias.refl id args id' args' =>
      obtain rfl : id = id' := Option.some.inj hnumber
      exact readsAs_list (fun as bs => .alias id as bs) (hitems rfl (node.inj h).2)
    case generic.generic.refl id id' => exact Option.some.inj hnumber ▸ .refl _
    case var.var.refl id id' => exact Option.some.inj hnumber ▸ .refl _
    case intN.intN.refl w w' => exact Option.some.inj hnumber ▸ .refl _
    all_goals exact .refl _

theorem spell_eq_iff : t.spell = u.spell ↔ ReadsAs t u :=
  ⟨readsAs_of_size _ t u (Nat.lt_succ_self _), spell_of_readsAs⟩

end Ty

namespace Parity

theorem parityCheck_eq_ok {R C : Type} [Canonicalize R] [Canonicalize C] {rust : R} {cb : C} :
    parityCheck rust cb = .ok () ↔ keyOf rust = keyOf cb := by
  unfold parityCheck
  split
  · next h => simp [h]
  · next h => simp [h]

/-- Two types have the same key just when rereadings link them after numbering. -/
theorem keyOf_eq_iff (t u : Ty) : keyOf t = keyOf u ↔ Ty.ReadsAs t.numbered u.numbered := by
  rw [keyOf_eq_spell, keyOf_eq_spell, Ty.spell_eq_iff]

/-- **The parity check.** It passes for the types that agree up to renaming, and only for these, just when no rereading
links the numbered types, unless they are one type. -/
theorem parityCheck_iff (t u : Ty) :
    (parityCheck t u = .ok () ↔ ∃ ρ : Renaming, (∀ ns, Function.Injective (ρ ns)) ∧ t.rename ρ = u) ↔
      (Ty.ReadsAs t.numbered u.numbered → t.numbered = u.numbered) := by
  rw [parityCheck_eq_ok, keyOf_eq_iff, ← Ty.numbered_eq_iff]
  exact ⟨fun h => h.1, fun h => ⟨h, fun heq => heq ▸ .refl _⟩⟩

/-- A positional list passes for a parameter called `List`. -/
theorem parityCheck_list_parameter :
    parityCheck (Ty.fn [.list .int] [] .none .none .bool) (Ty.fn [] [("List", .int)] .none .none .bool) = .ok () ∧
      ¬ ∃ ρ : Renaming, (∀ ns, Function.Injective (ρ ns)) ∧
        (Ty.fn [.list .int] [] .none .none .bool).rename ρ = Ty.fn [] [("List", .int)] .none .none .bool := by
  constructor
  · decide
  · rintro ⟨ρ, -, h⟩
    cases h

end Parity

end Cobrust
