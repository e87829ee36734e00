import Cobrust.Types.Infer
import Cobrust.Unify.Triangular

/-!
# Types as terms

A type is an inference variable or a constructor with components. The components that `unify` compares
(`parts`) are kept apart from the variadic parts of a function type (`variadics`), which it passes over;
`shape` is what remains when the components are taken out.
-/

namespace Cobrust

namespace Ty

/-- The components that are compared, in order. -/
def parts : Ty → List Ty
  | .tuple items => items
  | .list t => [t]
  | .set t => [t]
  | .dict k v => [k, v]
  | .record fields => fields.map Prod.snd
  | .fn positional named _ _ returnTy => positional ++ named.map Prod.snd ++ [returnTy]
  | .adt _ args => args
  | .alias _ args => args
  | .ref inner => [inner]
  | .array elem _ => [elem]
  | _ => []

/-- The variadic parts of a function type. -/
def variadics : Ty → List (Option Ty)
  | .fn _ _ varPositional varKeyword _ => [varPositional, varKeyword]
  | _ => []

/-- The constructor with its lengths and names. -/
def shape : Ty → Ty
  | .tuple items => .tuple (items.map fun _ => .none)
  | .list _ => .list .none
  | .set _ => .set .none
  | .dict _ _ => .dict .none .none
  | .record fields => .record (fields.map fun f => (f.1, .none))
  | .fn positional named _ _ _ =>
    .fn (positional.map fun _ => .none) (named.map fun f => (f.1, .none)) .none .none .none
  | .adt id args => .adt id (args.map fun _ => .none)
  | .alias id args => .alias id (args.map fun _ => .none)
  | .ref _ => .ref .none
  | .array _ len => .array .none len
  | t => t

def IsVar : Ty → Prop
  | .var _ => True
  | _ => False

mutual

/-- Replace the inference variables. -/
def bind (f : Nat → Ty) : Ty → Ty
  | .var v => f v
  | .tuple items => .tuple (bindList f items)
  | .list t => .list (bind f t)
  | .set t => .set (bind f t)
  | .dict k v => .dict (bind f k) (bind f v)
  | .record fields => .record (bindFields f fields)
  | .fn positional named varPositional varKeyword returnTy =>
    .fn (bindList f positional) (bindFields f named) (bindOption f varPositional)
      (bindOption f varKeyword) (bind f returnTy)
  | .adt id args => .adt id (bindList f args)
  | .alias id args => .alias id (bindList f args)
  | .ref inner => .ref (bind f inner)
  | .array elem len => .array (bind f elem) len
  | .bool => .bool
  | .int => .int
  | .float => .float
  | .imag => .imag
  | .str => .str
  | .bytes => .bytes
  | .none => .none
  | .never => .never
  | .generic id => .generic id
  | .intN width => .intN width

def bindList (f : Nat → Ty) : List Ty → List Ty
  | [] => []
  | t :: rest => bind f t :: bindList f rest

def bindFields (f : Nat → Ty) : List (String × Ty) → List (String × Ty)
  | [] => []
  | (n, t) :: rest => (n, bind f t) :: bindFields f rest

def bindOption (f : Nat → Ty) : Option Ty → Option Ty
  | .none => .none
  | .some t => .some (bind f t)

end

theorem bindList_eq (f : Nat → Ty) (items : List Ty) : bindList f items = items.map (bind f) := by
  induction items with
  | nil => rfl
  | cons t rest ih => rw [bindList, ih, List.map_cons]

theorem bindFields_eq (f : Nat → Ty) (fields : List (String × Ty)) :
    bindFields f fields = fields.map fun p => (p.1, bind f p.2) := by
  induction fields with
  | nil => rfl
  | cons p rest ih =>
    obtain ⟨n, t⟩ := p
    rw [bindFields, ih, List.map_cons]

theorem bindOption_eq (f : Nat → Ty) (o : Option Ty) : bindOption f o = o.map (bind f) := by
  cases o with
  | none => rfl
  | some t => rfl

section

variable {t : Ty}

theorem shape_bind (f : Nat → Ty) (h : ¬ t.IsVar) : (t.bind f).shape = t.shape := by
  cases t with
  | var v => exact absurd trivial h
  | _ => simp [bind, shape, bindList_eq, bindFields_eq, Function.comp_def]

theorem parts_bind (f : Nat → Ty) (h : ¬ t.IsVar) : (t.bind f).parts = t.parts.map (bind f) := by
  cases t with
  | var v => exact absurd trivial h
  | _ => simp [bind, parts, bindList_eq, bindFields_eq, Function.comp_def]

theorem variadics_bind (f : Nat → Ty) (h : ¬ t.IsVar) :
    (t.bind f).variadics = t.variadics.map (Option.map (bind f)) := by
  cases t with
  | var v => exact absurd trivial h
  | _ => simp [bind, variadics, bindOption_eq]

theorem not_isVar_bind (f : Nat → Ty) (h : ¬ t.IsVar) : ¬ (t.bind f).IsVar := by
  cases t with
  | var v => exact absurd trivial h
  | _ => exact id

theorem fields_ext {a b : List (String × Ty)}
    (hn : (a.map fun f => (f.1, Ty.none)) = b.map fun f => (f.1, Ty.none))
    (ht : a.map Prod.snd = b.map Prod.snd) : a = b := by
  have hn' : a.map Prod.fst = b.map Prod.fst := by
    simpa [Function.comp_def] using congrArg (List.map Prod.fst) hn
  rw [← List.zip_unzip a, ← List.zip_unzip b, List.unzip_fst, List.unzip_snd, List.unzip_fst,
    List.unzip_snd, hn', ht]

theorem length_eq_of_map_none {a b : List Ty} (h : (a.map fun _ => Ty.none) = b.map fun _ => Ty.none) :
    a.length = b.length := by
  simpa using congrArg List.length h

theorem ext_parts {t t' : Ty} (hs : t.shape = t'.shape) (hp : t.parts = t'.parts)
    (hv : t.variadics = t'.variadics) : t = t' := by
  cases t <;> cases t' <;> first | rfl | (cases hs; done) | skip
  case tuple.tuple a b => exact congrArg Ty.tuple hp
  case list.list a b => exact congrArg Ty.list (List.cons.inj hp).1
  case set.set a b => exact congrArg Ty.set (List.cons.inj hp).1
  case dict.dict k v k' v' =>
    obtain ⟨hk, hp⟩ := List.cons.inj hp
    rw [hk, (List.cons.inj hp).1]
  case record.record a b => exact congrArg Ty.record (fields_ext (Ty.record.inj hs) hp)
  case fn.fn p n vp vk r p' n' vp' vk' r' =>
    obtain ⟨hpos, hnamed, -, -, -⟩ := Ty.fn.inj hs
    obtain ⟨hvp, hvk⟩ := List.cons.inj hv
    have hlen := length_eq_of_map_none hpos
    have hnlen : (n.map Prod.snd).length = (n'.map Prod.snd).length := by
      simpa using congrArg List.length hnamed
    obtain ⟨hpn, hr⟩ := List.append_inj' hp rfl
    obtain ⟨hp, hn⟩ := List.append_inj hpn hlen
    rw [hp, fields_ext hnamed hn, hvp, (List.cons.inj hvk).1, (List.cons.inj hr).1]
  case adt.adt id a id' a' =>
    obtain ⟨hid, -⟩ := Ty.adt.inj hs
    exact congrArg₂ Ty.adt hid hp
  case alias.alias id a id' a' =>
    obtain ⟨hid, -⟩ := Ty.alias.inj hs
    exact congrArg₂ Ty.alias hid hp
  case generic.generic a b => exact hs
  case var.var a b => exact hs
  case ref.ref a b => exact congrArg Ty.ref (List.cons.inj hp).1
  case intN.intN a b => exact hs
  case array.array a n a' n' =>
    obtain ⟨-, hn⟩ := Ty.array.inj hs
    rw [hn, (List.cons.inj hp).1]

theorem length_parts {t t' : Ty} (hs : t.shape = t'.shape) : t.parts.length = t'.parts.length := by
  have h (t : Ty) : t.parts.length = t.shape.parts.length := by
    cases t <;> simp [parts, shape]
  rw [h t, h t', hs]

theorem length_variadics {t t' : Ty} (hs : t.shape = t'.shape) :
    t.variadics.length = t'.variadics.length := by
  have h (t : Ty) : t.variadics.length = t.shape.variadics.length := by
    cases t <;> rfl
  rw [h t, h t', hs]

end

/-! ## Induction over the components -/

theorem sizeOf_lt_of_mem_fields {p : Ty} {fields : List (String × Ty)}
    (h : p ∈ fields.map Prod.snd) : sizeOf p < sizeOf fields := by
  obtain ⟨f, hf, rfl⟩ := List.mem_map.1 h
  have hlt := List.sizeOf_lt_of_mem hf
  have hfst : sizeOf f.2 < sizeOf f := by
    cases f with
    | mk n t =>
      simp only [Prod.mk.sizeOf_spec]
      omega
  omega

theorem sizeOf_lt_of_mem_parts {p t : Ty} (h : p ∈ t.parts) : sizeOf p < sizeOf t := by
  cases t with
  | tuple items =>
    have hlt := List.sizeOf_lt_of_mem (show p ∈ items from h)
    simp only [tuple.sizeOf_spec]
    omega
  | adt id args =>
    have hlt := List.sizeOf_lt_of_mem (show p ∈ args from h)
    simp only [adt.sizeOf_spec]
    omega
  | «alias» id args =>
    have hlt := List.sizeOf_lt_of_mem (show p ∈ args from h)
    simp only [«alias».sizeOf_spec]
    omega
  | record fields =>
    have hlt := sizeOf_lt_of_mem_fields (show p ∈ fields.map Prod.snd from h)
    simp only [record.sizeOf_spec]
    omega
  | fn positional named varPositional varKeyword returnTy =>
    simp only [fn.sizeOf_spec]
    rcases List.mem_append.1 h with h | h
    · rcases List.mem_append.1 h with h | h
      · have hlt := List.sizeOf_lt_of_mem h
        omega
      · have hlt := sizeOf_lt_of_mem_fields h
        omega
    · obtain rfl := List.mem_singleton.1 h
      omega
  | dict k v =>
    simp only [dict.sizeOf_spec]
    rcases List.mem_cons.1 h with rfl | h
    · omega
    · obtain rfl := List.mem_singleton.1 h
      omega
  | list t | set t | ref t | array t n =>
    obtain rfl := List.mem_singleton.1 h
    simp only [list.sizeOf_spec, set.sizeOf_spec, ref.sizeOf_spec, array.sizeOf_spec]
    omega
  | _ => cases h

theorem sizeOf_lt_of_mem_variadics {p t : Ty} (h : some p ∈ t.variadics) : sizeOf p < sizeOf t := by
  cases t with
  | fn positional named varPositional varKeyword returnTy =>
    simp only [fn.sizeOf_spec]
    rcases List.mem_cons.1 h with h | h
    · rw [← h, Option.some.sizeOf_spec]
      omega
    · rw [← List.mem_singleton.1 h, Option.some.sizeOf_spec]
      omega
  | _ => cases h

theorem rec_parts {motive : Ty → Prop} (var : ∀ v, motive (.var v))
    (node : ∀ t, ¬ t.IsVar → (∀ p ∈ t.parts, motive p) → (∀ p, some p ∈ t.variadics → motive p) →
      motive t) : ∀ t, motive t := by
  intro t
  induction ht : sizeOf t using Nat.strong_induction_on generalizing t with
  | _ n ih =>
    by_cases hv : t.IsVar
    · cases t with
      | var v => exact var v
      | _ => exact hv.elim
    · refine node t hv (fun p hp => ?_) fun p hp => ?_
      · exact ih _ (ht ▸ sizeOf_lt_of_mem_parts hp) p rfl
      · exact ih _ (ht ▸ sizeOf_lt_of_mem_variadics hp) p rfl

/-- `u` is `t` or stands in it. -/
inductive Within (u : Ty) : Ty → Prop
  | refl : Within u u
  | part {p t} : p ∈ t.parts → Within u p → Within u t
  | variadic {p t} : some p ∈ t.variadics → Within u p → Within u t

theorem within_var {u : Ty} {v : Nat} : Within u (.var v) ↔ u = .var v := by
  constructor
  · intro h
    cases h with
    | refl => rfl
    | part h _ => cases h
    | variadic h _ => cases h
  · rintro rfl
    exact .refl

theorem bind_eq_bind_iff {t : Ty} (hv : ¬ t.IsVar) {f g : Nat → Ty} :
    t.bind f = t.bind g ↔ (∀ p ∈ t.parts, p.bind f = p.bind g) ∧
      ∀ p, some p ∈ t.variadics → p.bind f = p.bind g := by
  constructor
  · intro h
    have hp := congrArg parts h
    have hva := congrArg variadics h
    rw [parts_bind f hv, parts_bind g hv] at hp
    rw [variadics_bind f hv, variadics_bind g hv] at hva
    refine ⟨List.map_inj_left.1 hp, fun p hm => ?_⟩
    exact Option.some.inj (List.map_inj_left.1 hva (some p) hm)
  · rintro ⟨hp, hva⟩
    refine ext_parts ?_ ?_ ?_
    · rw [shape_bind f hv, shape_bind g hv]
    · rw [parts_bind f hv, parts_bind g hv]
      exact List.map_congr_left hp
    · rw [variadics_bind f hv, variadics_bind g hv]
      refine List.map_congr_left fun o ho => ?_
      cases o with
      | none => rfl
      | some p => exact congrArg some (hva p ho)

theorem bind_congr {f g : Nat → Ty} (t : Ty) (h : ∀ v, Within (.var v) t → f v = g v) :
    t.bind f = t.bind g := by
  induction t using rec_parts with
  | var v => exact h v .refl
  | node t hv ihp ihv =>
    refine (bind_eq_bind_iff hv).2 ⟨fun p hp => ?_, fun p hp => ?_⟩
    · exact ihp p hp fun v hw => h v (.part hp hw)
    · exact ihv p hp fun v hw => h v (.variadic hp hw)

theorem bind_bind (f g : Nat → Ty) (t : Ty) : (t.bind f).bind g = t.bind fun v => (f v).bind g := by
  induction t using rec_parts with
  | var v => rfl
  | node t hv ihp ihv =>
    have hv' := not_isVar_bind f hv
    refine ext_parts ?_ ?_ ?_
    · rw [shape_bind g hv', shape_bind f hv, shape_bind _ hv]
    · rw [parts_bind g hv', parts_bind f hv, parts_bind _ hv, List.map_map]
      exact List.map_congr_left ihp
    · rw [variadics_bind g hv', variadics_bind f hv, variadics_bind _ hv, List.map_map]
      refine List.map_congr_left fun o ho => ?_
      cases o with
      | none => rfl
      | some p => exact congrArg some (ihv p ho)

theorem bind_var_id (t : Ty) : t.bind .var = t := by
  induction t using rec_parts with
  | var v => rfl
  | node t hv ihp ihv =>
    refine ext_parts (shape_bind _ hv) ?_ ?_
    · rw [parts_bind _ hv]
      exact (List.map_congr_left ihp).trans (List.map_id _)
    · rw [variadics_bind _ hv]
      refine (List.map_congr_left (g := id) fun o ho => ?_).trans (List.map_id _)
      cases o with
      | none => rfl
      | some p => exact congrArg some (ihv p ho)

/-- A leaf of `t.bind f` stands in the image of a variable or, where it is none, in `t` itself. -/
theorem within_bind {f : Nat → Ty} {u : Ty} (hp : u.parts = []) (hva : u.variadics = []) (t : Ty) :
    Within u (t.bind f) ↔ (∃ v, Within (.var v) t ∧ Within u (f v)) ∨ ¬ u.IsVar ∧ Within u t := by
  induction t using rec_parts with
  | var v =>
    constructor
    · exact fun h => .inl ⟨v, .refl, h⟩
    · rintro (⟨w, hw, h⟩ | ⟨hu, h⟩)
      · obtain rfl := Ty.var.inj (within_var.1 hw)
        exact h
      · rw [within_var.1 h] at hu
        exact absurd trivial hu
  | node t hv ihp ihv =>
    constructor
    · intro h
      generalize hb : t.bind f = t' at h
      cases h with
      | refl =>
        have hut : u = t := by
          have hparts := parts_bind f hv
          have hvars := variadics_bind f hv
          have hshape := shape_bind f hv
          rw [hb, hp] at hparts
          rw [hb, hva] at hvars
          rw [hb] at hshape
          exact ext_parts hshape (hp.trans (List.map_eq_nil_iff.1 hparts.symm).symm)
            (hva.trans (List.map_eq_nil_iff.1 hvars.symm).symm)
        rw [hut]
        exact .inr ⟨hv, .refl⟩
      | @part q _ hq h =>
        rw [← hb, parts_bind f hv] at hq
        obtain ⟨p, hpm, rfl⟩ := List.mem_map.1 hq
        rcases (ihp p hpm).1 h with ⟨v, hw, h⟩ | ⟨hu, h⟩
        · exact .inl ⟨v, .part hpm hw, h⟩
        · exact .inr ⟨hu, .part hpm h⟩
      | @variadic q _ hq h =>
        rw [← hb, variadics_bind f hv] at hq
        obtain ⟨o, hom, ho⟩ := List.mem_map.1 hq
        obtain ⟨p, rfl, rfl⟩ := Option.map_eq_some_iff.1 ho
        rcases (ihv p hom).1 h with ⟨v, hw, h⟩ | ⟨hu, h⟩
        · exact .inl ⟨v, .variadic hom hw, h⟩
        · exact .inr ⟨hu, .variadic hom h⟩
    · have hpart {p : Ty} (hm : p ∈ t.parts) (h : Within u (p.bind f)) : Within u (t.bind f) :=
        .part (by rw [parts_bind f hv]; exact List.mem_map_of_mem hm) h
      have hvariadic {p : Ty} (hm : some p ∈ t.variadics) (h : Within u (p.bind f)) :
          Within u (t.bind f) :=
        .variadic (by rw [variadics_bind f hv]; exact List.mem_map_of_mem (f := Option.map (bind f)) hm) h
      rintro (⟨v, hw, h⟩ | ⟨hu, h⟩)
      · cases hw with
        | refl => exact absurd trivial hv
        | part hm hw => exact hpart hm ((ihp _ hm).2 (.inl ⟨v, hw, h⟩))
        | variadic hm hw => exact hvariadic hm ((ihv _ hm).2 (.inl ⟨v, hw, h⟩))
      · cases h with
        | refl =>
          have hut : u.bind f = u := by
            refine ext_parts (shape_bind f hv) ?_ ?_
            · rw [parts_bind f hv, hp, List.map_nil]
            · rw [variadics_bind f hv, hva, List.map_nil]
          rw [hut]
          exact .refl
        | part hm h => exact hpart hm ((ihp _ hm).2 (.inr ⟨hu, h⟩))
        | variadic hm h => exact hvariadic hm ((ihv _ hm).2 (.inr ⟨hu, h⟩))

instance : Unify.Substitutive Nat Ty where
  var := .var
  bind := bind
  Occurs v t := Within (.var v) t
  bind_var _ _ := rfl
  bind_bind := bind_bind
  bind_congr _ _ := bind_congr
  bind_id := bind_var_id
  occurs_var v w := by
    rw [within_var, Ty.var.injEq]
  occurs_bind f w t := by
    rw [within_bind rfl rfl]
    constructor
    · rintro (h | ⟨h, -⟩)
      · exact h
      · exact absurd trivial h
    · exact .inl

end Ty

end Cobrust
