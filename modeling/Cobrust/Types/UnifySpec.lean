import Cobrust.Types.Term

/-!
# What a unification does

`apply` computes the closure of an acyclic substitution. A successful `unify` is a derivation of
`Compares`: a list of pairs is worked off, a variable is bound or a constructor taken off at each step,
and the variadic parts of two function types are set aside. The derivation says which equations have
been solved and which pairs have been set aside.
-/

namespace Cobrust

open Unify (Acyclic Extends Solves closure)

namespace InferM

variable {α β : Type}

theorem bind_eq_ok {m : InferM α} {f : α → InferM β} {s s' : Subst} {b : β} :
    (m >>= f) s = some (.ok b, s') ↔ ∃ a s₁, m s = some (.ok a, s₁) ∧ f a s₁ = some (.ok b, s') := by
  change (m s).bind (fun p => (ExceptT.bindCont f p.1) p.2) = _ ↔ _
  cases hm : m s with
  | none => simp
  | some p =>
    obtain ⟨r, s₁⟩ := p
    cases r with
    | error e =>
      constructor
      · intro h
        cases h
      · rintro ⟨_, _, h, -⟩
        cases h
    | ok a =>
      constructor
      · exact fun h => ⟨a, s₁, rfl, h⟩
      · rintro ⟨_, _, h, hf⟩
        cases h
        exact hf

theorem pure_eq_ok {a b : α} {s s' : Subst} :
    (pure a : InferM α) s = some (.ok b, s') ↔ a = b ∧ s = s' := by
  change some (Except.ok a, s) = _ ↔ _
  simp

theorem throw_ne_ok {e : TypeError} {b : α} {s s' : Subst} :
    (throw e : InferM α) s = some (.ok b, s') ↔ False := by
  change some (Except.error e, s) = _ ↔ _
  simp

theorem modify_eq_ok {g : Subst → Subst} {u : Unit} {s s' : Subst} :
    (modify g : InferM Unit) s = some (.ok u, s') ↔ g s = s' := by
  change some (Except.ok PUnit.unit, g s) = _ ↔ _
  simp

theorem applyM_eq_ok {fuel : Nat} {t r : Ty} {s s' : Subst} :
    applyM fuel t s = some (.ok r, s') ↔ s.apply fuel t = some r ∧ s = s' := by
  unfold applyM
  cases s.apply fuel t with
  | none => simp
  | some x => simp

end InferM

/-! ## Free variables and substitution -/

namespace Ty

theorem mem_collectVarsList {w : Nat} {items : List Ty} {out : List Nat}
    (h : ∀ p ∈ items, ∀ out, w ∈ p.collectVars out ↔ w ∈ out ∨ Within (.var w) p) :
    w ∈ collectVarsList out items ↔ w ∈ out ∨ ∃ p ∈ items, Within (.var w) p := by
  induction items generalizing out with
  | nil => simp [collectVarsList]
  | cons p rest ih =>
    rw [collectVarsList, ih fun q hq => h q (by simp [hq]), h p (by simp), or_assoc]
    simp

theorem mem_collectVarsFields {w : Nat} {fields : List (String × Ty)} {out : List Nat}
    (h : ∀ p ∈ fields.map Prod.snd, ∀ out, w ∈ p.collectVars out ↔ w ∈ out ∨ Within (.var w) p) :
    w ∈ collectVarsFields out fields ↔ w ∈ out ∨ ∃ p ∈ fields.map Prod.snd, Within (.var w) p := by
  induction fields generalizing out with
  | nil => simp [collectVarsFields]
  | cons f rest ih =>
    obtain ⟨n, p⟩ := f
    rw [collectVarsFields, ih fun q hq => h q (by
      rw [List.map_cons]
      exact List.mem_cons_of_mem _ hq), h p (by simp), or_assoc]
    simp

theorem mem_collectVarsOption {w : Nat} {o : Option Ty} {out : List Nat}
    (h : ∀ p, o = some p → ∀ out, w ∈ p.collectVars out ↔ w ∈ out ∨ Within (.var w) p) :
    w ∈ collectVarsOption out o ↔ w ∈ out ∨ ∃ p, o = some p ∧ Within (.var w) p := by
  cases o with
  | none => simp [collectVarsOption]
  | some p => simp [collectVarsOption, h p rfl]

/-- A variable stands in a type that is none when it stands in a component. -/
theorem within_node {u t : Ty} (hv : ¬ t.IsVar) (hu : u.IsVar) :
    Within u t ↔ (∃ p ∈ t.parts, Within u p) ∨ ∃ p, some p ∈ t.variadics ∧ Within u p := by
  constructor
  · intro h
    cases h with
    | refl => exact absurd hu hv
    | part hm h => exact .inl ⟨_, hm, h⟩
    | variadic hm h => exact .inr ⟨_, hm, h⟩
  · rintro (⟨p, hm, h⟩ | ⟨p, hm, h⟩)
    · exact .part hm h
    · exact .variadic hm h

theorem mem_collectVars (w : Nat) (t : Ty) (out : List Nat) :
    w ∈ t.collectVars out ↔ w ∈ out ∨ Within (.var w) t := by
  induction t using rec_parts generalizing out with
  | var v =>
    rw [collectVars, within_var, Ty.var.injEq]
    by_cases hv : v ∈ out
    · rw [if_pos hv]
      exact ⟨.inl, fun h => h.elim id fun e => e ▸ hv⟩
    · rw [if_neg hv]
      simp
  | node t hv ihp ihv =>
    rw [within_node (u := .var w) hv trivial]
    cases t with
    | var v => exact absurd trivial hv
    | tuple items => simpa [collectVars, parts, variadics] using mem_collectVarsList ihp
    | adt id args => simpa [collectVars, parts, variadics] using mem_collectVarsList ihp
    | «alias» id args => simpa [collectVars, parts, variadics] using mem_collectVarsList ihp
    | record fields => simpa [collectVars, parts, variadics] using mem_collectVarsFields ihp
    | list t | set t | ref t | array t n =>
      simpa [collectVars, parts, variadics] using ihp t (by simp [parts]) out
    | dict k v =>
      rw [collectVars, ihp v (by simp [parts]), ihp k (by simp [parts])]
      simp [parts, variadics, or_assoc]
    | fn positional named varPositional varKeyword returnTy =>
      rw [collectVars, ihp returnTy (by simp [parts]),
        mem_collectVarsOption fun p hp => ihv p (by simp [variadics, hp]),
        mem_collectVarsOption fun p hp => ihv p (by simp [variadics, hp]),
        mem_collectVarsFields fun p hp => ihp p (by
          unfold parts
          exact List.mem_append_left _ (List.mem_append_right _ hp)),
        mem_collectVarsList fun p hp => ihp p (by
          unfold parts
          exact List.mem_append_left _ (List.mem_append_left _ hp))]
      simp only [parts, variadics, List.mem_append, List.mem_cons, List.not_mem_nil, or_false,
        or_and_right, exists_or, exists_eq_left, @eq_comm _ (some _)]
      simp only [or_assoc, or_left_comm, or_comm]
    | _ => simp [collectVars, parts, variadics]

theorem mem_freeVars (w : Nat) (t : Ty) : w ∈ t.freeVars ↔ Within (.var w) t := by
  rw [freeVars, mem_collectVars]
  simp

theorem traverseList_eq {f : Nat → Option Ty} {g : Nat → Ty} {items : List Ty}
    (h : ∀ p ∈ items, p.traverse f = some (p.bind g)) :
    traverseList f items = some (bindList g items) := by
  induction items with
  | nil => rfl
  | cons p rest ih => simp [traverseList, bindList, h p, ih fun q hq => h q (by simp [hq])]

theorem traverseFields_eq {f : Nat → Option Ty} {g : Nat → Ty} {fields : List (String × Ty)}
    (h : ∀ p ∈ fields.map Prod.snd, p.traverse f = some (p.bind g)) :
    traverseFields f fields = some (bindFields g fields) := by
  induction fields with
  | nil => rfl
  | cons q rest ih =>
    obtain ⟨n, p⟩ := q
    have hrest := ih fun q hq => h q (by
      rw [List.map_cons]
      exact List.mem_cons_of_mem _ hq)
    simp [traverseFields, bindFields, h p, hrest]

theorem traverseOption_eq {f : Nat → Option Ty} {g : Nat → Ty} {o : Option Ty}
    (h : ∀ p, o = some p → p.traverse f = some (p.bind g)) :
    traverseOption f o = some (bindOption g o) := by
  cases o with
  | none => rfl
  | some p => simp [traverseOption, bindOption, h p]

theorem traverse_eq {f : Nat → Option Ty} {g : Nat → Ty} (t : Ty)
    (h : ∀ v, Within (.var v) t → f v = some (g v)) : t.traverse f = some (t.bind g) := by
  induction t using rec_parts with
  | var v => exact h v .refl
  | node t hv ihp ihv =>
    have hp (p : Ty) (hm : p ∈ t.parts) : p.traverse f = some (p.bind g) :=
      ihp p hm fun v hw => h v (.part hm hw)
    have hva (p : Ty) (hm : some p ∈ t.variadics) : p.traverse f = some (p.bind g) :=
      ihv p hm fun v hw => h v (.variadic hm hw)
    clear ihp ihv h
    cases t with
    | var v => exact absurd trivial hv
    | tuple items =>
      have hitems : ∀ p ∈ items, p.traverse f = some (p.bind g) := hp
      simp [traverse, bind, traverseList_eq hitems]
    | adt id args =>
      have hitems : ∀ p ∈ args, p.traverse f = some (p.bind g) := hp
      simp [traverse, bind, traverseList_eq hitems]
    | «alias» id args =>
      have hitems : ∀ p ∈ args, p.traverse f = some (p.bind g) := hp
      simp [traverse, bind, traverseList_eq hitems]
    | record fields => simp [traverse, bind, traverseFields_eq hp]
    | list t | set t | ref t | array t n => simp [traverse, bind, hp t (by simp [parts])]
    | dict k v => simp [traverse, bind, hp k (by simp [parts]), hp v (by simp [parts])]
    | fn positional named varPositional varKeyword returnTy =>
      have hpos := traverseList_eq (f := f) (g := g) fun p hm => hp p (by
        unfold parts
        exact List.mem_append_left _ (List.mem_append_left _ hm))
      have hnamed := traverseFields_eq (f := f) (g := g) fun p hm => hp p (by
        unfold parts
        exact List.mem_append_left _ (List.mem_append_right _ hm))
      have hvp : traverseOption f varPositional = some (bindOption g varPositional) :=
        traverseOption_eq fun p hm => hva p (by simp [variadics, hm])
      have hvk : traverseOption f varKeyword = some (bindOption g varKeyword) :=
        traverseOption_eq fun p hm => hva p (by simp [variadics, hm])
      simp [traverse, bind, hpos, hnamed, hvp, hvk, hp returnTy (by simp [parts])]
    | _ => rfl

theorem isSome_traverseList {f : Nat → Option Ty} {items : List Ty} {r : List Ty}
    (h : traverseList f items = some r) : ∀ p ∈ items, (p.traverse f).isSome := by
  induction items generalizing r with
  | nil => simp
  | cons p rest ih =>
    simp only [traverseList, Option.bind_eq_bind, Option.bind_eq_some_iff] at h
    obtain ⟨x, hx, xs, hxs, -⟩ := h
    exact List.forall_mem_cons.2 ⟨by rw [hx]; rfl, ih hxs⟩

theorem isSome_traverseFields {f : Nat → Option Ty} {fields : List (String × Ty)}
    {r : List (String × Ty)} (h : traverseFields f fields = some r) :
    ∀ p ∈ fields.map Prod.snd, (p.traverse f).isSome := by
  induction fields generalizing r with
  | nil => simp
  | cons q rest ih =>
    obtain ⟨n, p⟩ := q
    simp only [traverseFields, Option.bind_eq_bind, Option.bind_eq_some_iff] at h
    obtain ⟨x, hx, xs, hxs, -⟩ := h
    exact List.forall_mem_cons.2 ⟨by rw [hx]; rfl, ih hxs⟩

theorem isSome_traverseOption {f : Nat → Option Ty} {o r : Option Ty}
    (h : traverseOption f o = some r) (p : Ty) (hp : o = some p) : (p.traverse f).isSome := by
  subst hp
  obtain ⟨x, hx, -⟩ := Option.map_eq_some_iff.1 h
  rw [hx]
  rfl

/-- A type is rebuilt only where all its components are. -/
theorem isSome_traverse {f : Nat → Option Ty} {t r : Ty} (h : t.traverse f = some r)
    (hv : ¬ t.IsVar) :
    (∀ p ∈ t.parts, (p.traverse f).isSome) ∧ ∀ p, some p ∈ t.variadics → (p.traverse f).isSome := by
  have hone {x y : Ty} {c : Ty → Ty} (h : (x.traverse f).map c = some y) : (x.traverse f).isSome := by
    obtain ⟨z, hz, -⟩ := Option.map_eq_some_iff.1 h
    rw [hz]
    rfl
  cases t with
  | var v => exact absurd trivial hv
  | tuple items =>
    obtain ⟨x, hx, -⟩ := Option.map_eq_some_iff.1 h
    exact ⟨isSome_traverseList hx, by simp [variadics]⟩
  | adt id args =>
    obtain ⟨x, hx, -⟩ := Option.map_eq_some_iff.1 h
    exact ⟨isSome_traverseList hx, by simp [variadics]⟩
  | «alias» id args =>
    obtain ⟨x, hx, -⟩ := Option.map_eq_some_iff.1 h
    exact ⟨isSome_traverseList hx, by simp [variadics]⟩
  | record fields =>
    obtain ⟨x, hx, -⟩ := Option.map_eq_some_iff.1 h
    exact ⟨isSome_traverseFields hx, by simp [variadics]⟩
  | list t | set t | ref t | array t n =>
    exact ⟨by simpa [parts] using hone h, by simp [variadics]⟩
  | dict k v =>
    simp only [traverse, Option.bind_eq_bind, Option.bind_eq_some_iff] at h
    obtain ⟨x, hx, y, hy, -⟩ := h
    simp [parts, variadics, hx, hy]
  | fn positional named varPositional varKeyword returnTy =>
    simp only [traverse, Option.bind_eq_bind, Option.bind_eq_some_iff] at h
    obtain ⟨a, ha, b, hb, c, hc, d, hd, e, he, -⟩ := h
    constructor
    · intro p hp
      rcases List.mem_append.1 hp with hp | hp
      · rcases List.mem_append.1 hp with hp | hp
        · exact isSome_traverseList ha p hp
        · exact isSome_traverseFields hb p hp
      · rw [List.mem_singleton.1 hp, he]
        rfl
    · intro p hp
      rcases List.mem_cons.1 hp with hp | hp
      · exact isSome_traverseOption hc p hp.symm
      · exact isSome_traverseOption hd p (List.mem_singleton.1 hp).symm
  | _ => simp [parts, variadics]

theorem isSome_of_traverse {f : Nat → Option Ty} {t r : Ty} (h : t.traverse f = some r) :
    ∀ v, Within (.var v) t → (f v).isSome := by
  induction t using rec_parts generalizing r with
  | var v =>
    intro w hw
    obtain rfl := Ty.var.inj (within_var.1 hw)
    have hf : f w = some r := h
    rw [hf]
    rfl
  | node t hv ihp ihv =>
    obtain ⟨hp, hva⟩ := isSome_traverse h hv
    intro w hw
    rcases (within_node (u := .var w) hv trivial).1 hw with ⟨p, hm, hw⟩ | ⟨p, hm, hw⟩
    · obtain ⟨x, hx⟩ := Option.isSome_iff_exists.1 (hp p hm)
      exact ihp p hm hx w hw
    · obtain ⟨x, hx⟩ := Option.isSome_iff_exists.1 (hva p hm)
      exact ihv p hm hx w hw

end Ty

/-! ## Apply -/

namespace Subst

theorem get_extend (s : Subst) (v : Nat) (t : Ty) : (s.extend v t).get = Unify.update s.get v t := by
  funext w
  unfold extend get Unify.update
  by_cases h : w = v
  · simp [h]
  · have hne : ¬ v = w := fun e => h e.symm
    rw [if_neg h, List.find?_cons_of_neg (by simpa using hne), List.find?_filter]
    congr 2
    funext e
    by_cases hew : e.1 = w
    · simp [hew, h]
    · simp [hew]

theorem finite_bound (s : Subst) : {v | (s.get v).isSome}.Finite := by
  refine (List.finite_toSet (s.map.map Prod.fst)).subset fun v hv => ?_
  obtain ⟨t, ht⟩ := Option.isSome_iff_exists.1 hv
  obtain ⟨e, he, -⟩ := Option.map_eq_some_iff.1 ht
  have hmem := List.mem_of_find?_eq_some he
  have hfst := List.find?_some he
  simp only [decide_eq_true_eq] at hfst
  exact List.mem_map.2 ⟨e, hmem, hfst⟩

theorem wellFounded {s : Subst} (hac : Acyclic s.get) : WellFounded (Unify.Depends s.get) :=
  Unify.wellFounded_depends s.finite_bound hac

section

variable {s : Subst} (hac : Acyclic s.get)

include hac

/-- The closure of an acyclic substitution. -/
noncomputable def closed (hac : Acyclic s.get) : Nat → Ty :=
  closure (s.wellFounded hac)

theorem solves_closed : Solves (closed hac) s.get :=
  Unify.solves_closure _

theorem closed_of_none {v : Nat} (h : s.get v = none) : closed hac v = .var v :=
  Unify.closure_of_none _ h

theorem closed_of_some {v : Nat} {t : Ty} (h : s.get v = some t) :
    closed hac v = t.bind (closed hac) :=
  Unify.closure_of_some _ h

theorem apply_eq {fuel : Nat} {t r : Ty} (h : s.apply fuel t = some r) : r = t.bind (closed hac) := by
  induction fuel generalizing t r with
  | zero => cases h
  | succ fuel ih =>
    have hsome := Ty.isSome_of_traverse h
    refine Option.some.inj (h.symm.trans (Ty.traverse_eq t fun v hv => ?_))
    obtain ⟨x, hx⟩ := Option.isSome_iff_exists.1 (hsome v hv)
    rw [hx]
    cases hs : s.get v with
    | none =>
      rw [hs] at hx
      rw [closed_of_none hac hs, ← Option.some.inj hx]
    | some inner =>
      rw [hs] at hx
      rw [closed_of_some hac hs, ← ih hx]

theorem apply_of_vars {fuel : Nat} {t : Ty}
    (h : ∀ v, Ty.Within (.var v) t → ∀ inner, s.get v = some inner →
      s.apply fuel inner = some (inner.bind (closed hac))) :
    s.apply (fuel + 1) t = some (t.bind (closed hac)) := by
  refine Ty.traverse_eq t fun v hv => ?_
  cases hs : s.get v with
  | none => rw [closed_of_none hac hs]
  | some inner => rw [closed_of_some hac hs]; exact h v hv inner hs

theorem exists_apply (t : Ty) : ∃ n, ∀ fuel, n ≤ fuel → s.apply fuel t = some (t.bind (closed hac)) := by
  have hvars (t : Ty) (h : ∀ v, Ty.Within (.var v) t → ∀ inner, s.get v = some inner → ∃ n, ∀ fuel,
      n ≤ fuel → s.apply fuel inner = some (inner.bind (closed hac))) :
      ∃ n, ∀ fuel, n ≤ fuel → s.apply fuel t = some (t.bind (closed hac)) := by
    -- the largest of the bounds for the variables of `t`
    have hbound (l : List Nat) (hl : ∀ v ∈ l, Ty.Within (.var v) t) : ∃ n, ∀ v ∈ l, ∀ inner,
        s.get v = some inner → ∀ fuel, n ≤ fuel →
          s.apply fuel inner = some (inner.bind (closed hac)) := by
      induction l with
      | nil => exact ⟨0, by simp⟩
      | cons v rest ih =>
        obtain ⟨n, hn⟩ := ih fun w hw => hl w (by simp [hw])
        cases hs : s.get v with
        | none =>
          refine ⟨n, List.forall_mem_cons.2 ⟨fun inner hi => ?_, hn⟩⟩
          rw [hs] at hi
          cases hi
        | some x =>
          obtain ⟨m, hm⟩ := h v (hl v (by simp)) x hs
          refine ⟨max n m, List.forall_mem_cons.2 ⟨fun inner hi fuel hf => ?_, fun w hw inner hi fuel hf => ?_⟩⟩
          · obtain rfl := Option.some.inj (hs.symm.trans hi)
            exact hm fuel (by omega)
          · exact hn w hw inner hi fuel (by omega)
    obtain ⟨n, hn⟩ := hbound t.freeVars fun v hv => (Ty.mem_freeVars v t).1 hv
    refine ⟨n + 1, fun fuel hf => ?_⟩
    obtain ⟨k, rfl⟩ : ∃ k, fuel = k + 1 := ⟨fuel - 1, by omega⟩
    refine apply_of_vars hac fun v hv inner hi => ?_
    exact hn v ((Ty.mem_freeVars v t).2 hv) inner hi k (by omega)
  have hvar (v : Nat) : ∀ inner, s.get v = some inner → ∃ n, ∀ fuel, n ≤ fuel →
      s.apply fuel inner = some (inner.bind (closed hac)) := by
    induction v using (s.wellFounded hac).induction with
    | _ v ih => exact fun inner hi => hvars inner fun w hw => ih w ⟨inner, hi, hw⟩
  exact hvars t fun v _ => hvar v

theorem apply_mono {fuel fuel' : Nat} (hle : fuel ≤ fuel') {t r : Ty} (h : s.apply fuel t = some r) :
    s.apply fuel' t = some r := by
  induction fuel generalizing fuel' t r with
  | zero => cases h
  | succ fuel ih =>
    obtain ⟨k, rfl⟩ : ∃ k, fuel' = k + 1 := ⟨fuel' - 1, by omega⟩
    rw [apply_eq hac h]
    refine apply_of_vars hac fun v hv inner hi => ?_
    have hsome := Ty.isSome_of_traverse h v hv
    rw [hi] at hsome
    obtain ⟨x, hx⟩ := Option.isSome_iff_exists.1 hsome
    rw [← apply_eq hac hx]
    exact ih (by omega) hx

theorem apply_idem {fuel : Nat} {t r : Ty} (h : s.apply fuel t = some r) : s.apply fuel r = some r := by
  obtain ⟨k, rfl⟩ : ∃ k, fuel = k + 1 := by
    cases fuel with
    | zero => cases h
    | succ k => exact ⟨k, rfl⟩
  have hr := apply_eq hac h
  have hself : r.bind (closed hac) = r := by
    rw [hr]
    exact Unify.bind_closure_idem _ t
  conv_rhs => rw [← hself]
  refine apply_of_vars hac fun v hv inner hi => ?_
  rw [hr] at hv
  rw [Unify.unbound_of_occurs_bind (s.wellFounded hac) hv] at hi
  cases hi

end

end Subst

end Cobrust
