import Cobrust.Types.Visits
import Mathlib.Tactic.FinCases

/-!
# Which names are one type

The tables of `cobrust-types/src/check.rs` along the visits of a module, and the types that `lower_named_type` gives the
names. A class is told by its definition, a handle by its row of the manifest and any other name by its hash. The tables
have no scopes: a name stands for the class that was bound last under it.

* `toldApart_exact`: when two names of a module have unifiable types exactly if they denote the same type.
* `unknown_names_unify`: two unknown names with one hash.
-/

namespace Cobrust

open Hir
open Store (Table)

/-! ## The tables -/

def Names.empty : Names :=
  ⟨Table.empty, Table.empty⟩

/-- `fresh` is the number of the next inference variable. -/
def Names.visit (fresh : Nat) (names : Names) : Visit → Names
  | .declareClass id s => { names with classNames := names.classNames.insert s id }
  | .declareAlias s value => { names with aliasMap := names.aliasMap.insert s (lowerType names value fresh).1 }
  | .lookUp _ _ => names

/-- The tables behind some visits, the latest first. -/
def tables (fresh : List Visit → Nat) : List Visit → Names
  | [] => .empty
  | v :: earlier => (tables fresh earlier).visit (fresh earlier) v

/-- The class that was bound last under a name, in any scope. -/
def lastClass (s : String) : List Visit → Option DefId
  | .declareClass id name :: earlier => if name = s then some id else lastClass s earlier
  | .declareAlias _ _ :: earlier | .lookUp _ _ :: earlier => lastClass s earlier
  | [] => none

/-- An alias was bound under a name, in any scope. -/
def aliased (s : String) : List Visit → Bool
  | .declareAlias name _ :: earlier => name = s || aliased s earlier
  | .declareClass _ _ :: earlier | .lookUp _ _ :: earlier => aliased s earlier
  | [] => false

section Tables

variable {fresh : List Visit → Nat} {s : String} {earlier : List Visit}

theorem tables_classNames : (tables fresh earlier).classNames s = lastClass s earlier := by
  induction earlier with
  | nil => rfl
  | cons v earlier ih =>
    cases v with
    | declareClass id name =>
      change (tables fresh earlier).classNames.insert name id s = _
      rw [lastClass]
      split
      · next heq => rw [heq, Table.insert_self]
      · next hne => rw [Table.insert_of_ne (Ne.symm hne), ih]
    | declareAlias name value => exact ih
    | lookUp s' scopes => exact ih

theorem tables_aliasMap (h : aliased s earlier = false) : (tables fresh earlier).aliasMap s = none := by
  induction earlier with
  | nil => rfl
  | cons v earlier ih =>
    cases v with
    | declareClass id name => exact ih h
    | declareAlias name value =>
      obtain ⟨hne, h⟩ := Bool.or_eq_false_iff.1 h
      change (tables fresh earlier).aliasMap.insert name _ s = none
      rw [Table.insert_of_ne (Ne.symm (of_decide_eq_false hne)), ih h]
    | lookUp s' scopes => exact ih h

theorem declared_of_lastClass {id : DefId} (h : lastClass s earlier = some id) : .declareClass id s ∈ earlier := by
  induction earlier with
  | nil => cases h
  | cons v earlier ih =>
    cases v with
    | declareClass id' name =>
      rw [lastClass] at h
      split at h
      · next heq =>
        cases h
        rw [heq]
        exact List.mem_cons_self
      · exact List.mem_cons_of_mem _ (ih h)
    | declareAlias name value => exact List.mem_cons_of_mem _ (ih h)
    | lookUp s' scopes => exact List.mem_cons_of_mem _ (ih h)

end Tables

/-! ## What a name denotes -/

inductive Denoted where
  | ofClass (id : DefId)
  | handle (s : String)
  | unresolved (s : String)
  deriving DecidableEq, Repr

/-- What a class statement or the name in an annotation denotes, by the scopes; aliases and builtin types are no classes
and no unknown names. -/
def Visit.denotes : Visit → Option Denoted
  | .declareClass id _ => some (.ofClass id)
  | .declareAlias _ _ => none
  | .lookUp s scopes =>
    match resolve scopes s with
    | some (.ofClass id) => some (.ofClass id)
    | some (.ofAlias _) => none
    | none =>
      if (ecosystemHandle s).isSome then some (.handle s)
      else if (builtinType s).isSome then none
      else some (.unresolved s)

/-- A visit and those before it. -/
structure Occurrence where
  earlier : List Visit
  visit : Visit

def occurrencesFrom (earlier : List Visit) : List Visit → List Occurrence
  | [] => []
  | v :: rest => ⟨earlier, v⟩ :: occurrencesFrom (v :: earlier) rest

def occurrences (returnType : DefId → Option TypeExpr) (m : Module) : List Occurrence :=
  occurrencesFrom [] (moduleVisits returnType m)

/-- The type that the checker has for an occurrence; that of a class statement is what its constructor returns. -/
def Occurrence.ty (fresh : List Visit → Nat) (o : Occurrence) : Ty :=
  match o.visit with
  | .declareClass id _ => .adt id []
  | .declareAlias _ value => (lowerType (tables fresh o.earlier) value (fresh o.earlier)).1
  | .lookUp s _ => lowerNamedType (tables fresh o.earlier) s

def Unifies (span : Span) (s : Subst) (t₁ t₂ : Ty) : Prop :=
  ∃ fuel s', unify span fuel t₁ t₂ s = some (.ok (), s')

/-- Two occurrences have unifiable types if and only if they denote the same type. -/
def ToldApart (span : Span) (s : Subst) (fresh : List Visit → Nat) (os : List Occurrence) : Prop :=
  ∀ o₁ ∈ os, ∀ o₂ ∈ os, ∀ d₁ d₂, o₁.visit.denotes = some d₁ → o₂.visit.denotes = some d₂ →
    (Unifies span s (o₁.ty fresh) (o₂.ty fresh) ↔ d₁ = d₂)

def Denoted.classId : Denoted → Option DefId
  | ofClass id => some id
  | handle _ | unresolved _ => none

/-- No alias of another scope bears the name of a class, a handle or an unknown type. -/
def Unhidden (os : List Occurrence) : Prop :=
  ∀ o ∈ os, ∀ s scopes d, o.visit = .lookUp s scopes → o.visit.denotes = some d → aliased s o.earlier = false

/-- The class bound last under a name is the one that the scopes give it, and there is none where they give none. -/
def OwnClasses (os : List Occurrence) : Prop :=
  ∀ o ∈ os, ∀ s scopes d, o.visit = .lookUp s scopes → o.visit.denotes = some d → lastClass s o.earlier = d.classId

structure Distinct (os : List Occurrence) : Prop where
  own : OwnClasses os
  /-- No two unknown names have one hash. -/
  hash : ∀ o₁ ∈ os, ∀ o₂ ∈ os, ∀ s₁ s₂, o₁.visit.denotes = some (.unresolved s₁) →
    o₂.visit.denotes = some (.unresolved s₂) → opaqueId s₁ = opaqueId s₂ → s₁ = s₂
  /-- No class has the number of a handle. -/
  reserved : ∀ o₁ ∈ os, ∀ o₂ ∈ os, ∀ id s, o₁.visit.denotes = some (.ofClass id) →
    o₂.visit.denotes = some (.handle s) → ecosystemHandle s ≠ some id

/-- No class is called as a handle or `Never`. -/
def PlainClasses (os : List Occurrence) : Prop :=
  ∀ o ∈ os, ∀ id s, o.visit = .declareClass id s → ecosystemHandle s = none ∧ builtinType s ≠ some .never

/-- A class, a handle or an opaque alias. -/
inductive Ty.Nominal : Ty → Prop
  | adt (id : AdtId) : Nominal (.adt id [])
  | alias (id : Nat) : Nominal (.alias id [])

section Unify

variable {span : Span} {s : Subst} {t t₁ t₂ : Ty}

theorem apply_nominal (h : t.Nominal) (fuel : Nat) : s.apply (fuel + 1) t = some t := by
  cases h <;> rfl

theorem unifies_refl (h : t.Nominal) : Unifies span s t t := by
  refine ⟨2, s, unify_succ.2 ⟨t, t, apply_nominal h 0, apply_nominal h 0, ?_⟩⟩
  cases h with
  | adt id =>
    rw [unifyArms, if_pos rfl]
    rfl
  | «alias» id =>
    rw [unifyArms, if_pos rfl]
    rfl

theorem unifies_nominal (h₁ : t₁.Nominal) (h₂ : t₂.Nominal) : Unifies span s t₁ t₂ ↔ t₁ = t₂ := by
  constructor
  · rintro ⟨fuel, s', h⟩
    cases fuel with
    | zero => cases h
    | succ fuel =>
      obtain ⟨r₁, r₂, happly₁, happly₂, harms⟩ := unify_succ.1 h
      cases fuel with
      | zero => cases happly₁
      | succ fuel =>
        rw [apply_nominal h₁] at happly₁
        rw [apply_nominal h₂] at happly₂
        cases happly₁
        cases happly₂
        cases h₁ with
        | adt id₁ =>
          cases h₂ with
          | adt id₂ =>
            rw [unifyArms] at harms
            split at harms
            · next heq => rw [heq]
            · cases harms
          | «alias» id₂ => cases harms
        | «alias» id₁ =>
          cases h₂ with
          | adt id₂ => cases harms
          | «alias» id₂ =>
            rw [unifyArms] at harms
            split at harms
            · next heq => rw [heq]
            · cases harms
  · rintro rfl
    exact unifies_refl h₁

end Unify

theorem not_unifies_builtin {span : Span} {s : Subst} {name : String} {t : Ty} {id : DefId}
    (h : builtinType name = some t) (hne : t ≠ .never) : ¬ Unifies span s t (.adt id []) := by
  rintro ⟨fuel, s', hunify⟩
  cases fuel with
  | zero => cases hunify
  | succ fuel =>
    obtain ⟨r₁, r₂, happly₁, happly₂, harms⟩ := unify_succ.1 hunify
    cases fuel with
    | zero => cases happly₁
    | succ fuel =>
      rw [apply_nominal (.adt id)] at happly₂
      cases happly₂
      unfold builtinType at h
      split at h <;> cases h <;> cases happly₁ <;> first
        | exact hne rfl
        | cases harms

/-- The type that stands for what is denoted. -/
def Denoted.ty : Denoted → Ty
  | ofClass id => .adt id []
  | handle s => .adt ((ecosystemHandle s).getD 0) []
  | unresolved s => .alias (opaqueId s) []

theorem Denoted.nominal (d : Denoted) : d.ty.Nominal := by
  cases d with
  | ofClass id => exact .adt id
  | handle s => exact .adt _
  | unresolved s => exact .alias _

theorem ecosystemHandle_inj {s₁ s₂ : String} {id : AdtId} (h₁ : ecosystemHandle s₁ = some id)
    (h₂ : ecosystemHandle s₂ = some id) : s₁ = s₂ := by
  unfold ecosystemHandle coilBufferAdt at h₁ h₂
  split at h₁ <;> cases h₁ <;> split at h₂ <;> first
    | rfl
    | cases h₂

section Denotes

variable {s : String} {scopes : List Frame} {d : Denoted} {id : DefId}

theorem denotes_lookUp (h : (Visit.lookUp s scopes).denotes = some d) :
    (∃ id, resolve scopes s = some (.ofClass id) ∧ d = .ofClass id) ∨
      (∃ id, ecosystemHandle s = some id ∧ d = .handle s) ∨
      (ecosystemHandle s = none ∧ builtinType s = none ∧ d = .unresolved s) := by
  unfold Visit.denotes at h
  dsimp only at h
  split at h
  · next id hresolve =>
    cases h
    exact .inl ⟨id, hresolve, rfl⟩
  · cases h
  · split at h
    · next hhandle =>
      cases h
      obtain ⟨id, hid⟩ := Option.isSome_iff_exists.1 hhandle
      exact .inr (.inl ⟨id, hid, rfl⟩)
    · next hhandle =>
      split at h
      · cases h
      · next hbuiltin =>
        cases h
        exact .inr (.inr ⟨Option.not_isSome_iff_eq_none.1 hhandle, Option.not_isSome_iff_eq_none.1 hbuiltin, rfl⟩)

theorem lookUp_of_handle {v : Visit} (h : v.denotes = some (.handle s)) :
    ∃ id, ecosystemHandle s = some id := by
  cases v with
  | declareClass id name => cases h
  | declareAlias name value => cases h
  | lookUp name scopes =>
    obtain ⟨_, -, heq⟩ | ⟨id, hid, heq⟩ | ⟨-, -, heq⟩ := denotes_lookUp h
    · cases heq
    · cases heq
      exact ⟨id, hid⟩
    · cases heq

variable {fresh : List Visit → Nat} {earlier : List Visit} {names : Names}

theorem lowerNamedType_class (halias : names.aliasMap s = none) (hclass : names.classNames s = some id) :
    lowerNamedType names s = .adt id [] := by
  rw [lowerNamedType, halias, hclass]

/-- A name whose own class was bound last has the type of what it denotes. -/
theorem ty_lookUp (hhidden : aliased s earlier = false) (hown : lastClass s earlier = d.classId)
    (h : (Visit.lookUp s scopes).denotes = some d) :
    (Occurrence.mk earlier (.lookUp s scopes)).ty fresh = d.ty := by
  change lowerNamedType (tables fresh earlier) s = d.ty
  have halias : (tables fresh earlier).aliasMap s = none := tables_aliasMap hhidden
  have hclass : (tables fresh earlier).classNames s = d.classId := tables_classNames.trans hown
  obtain ⟨id, -, rfl⟩ | ⟨id, hid, rfl⟩ | ⟨hhandle, hbuiltin, rfl⟩ := denotes_lookUp h
  · exact lowerNamedType_class halias hclass
  · rw [lowerNamedType, halias, hclass, Denoted.classId, hid, Denoted.ty, hid]
    rfl
  · rw [lowerNamedType, halias, hclass, Denoted.classId, hhandle, hbuiltin]
    rfl

end Denotes

/-! ## Occurrences -/

theorem exists_occurrence {v : Visit} {vs : List Visit} (hv : v ∈ vs) (earlier : List Visit) :
    ∃ o ∈ occurrencesFrom earlier vs, o.visit = v := by
  induction vs generalizing earlier with
  | nil => cases hv
  | cons w rest ih =>
    obtain rfl | hv := List.mem_cons.1 hv
    · exact ⟨⟨earlier, v⟩, List.mem_cons_self, rfl⟩
    · obtain ⟨o, ho, heq⟩ := ih hv (w :: earlier)
      exact ⟨o, List.mem_cons_of_mem _ ho, heq⟩

theorem visit_mem {o : Occurrence} {earlier vs : List Visit} (ho : o ∈ occurrencesFrom earlier vs) : o.visit ∈ vs := by
  induction vs generalizing earlier with
  | nil => cases ho
  | cons w rest ih =>
    obtain rfl | ho := List.mem_cons.1 ho
    · exact List.mem_cons_self
    · exact List.mem_cons_of_mem _ (ih ho)

theorem earlier_mem {o : Occurrence} {earlier vs : List Visit} {v : Visit} (ho : o ∈ occurrencesFrom earlier vs)
    (hv : v ∈ o.earlier) : v ∈ earlier ∨ v ∈ vs := by
  induction vs generalizing earlier with
  | nil => cases ho
  | cons w rest ih =>
    obtain rfl | ho := List.mem_cons.1 ho
    · exact .inl hv
    · obtain hmem | hmem := ih ho
      · obtain rfl | hmem := List.mem_cons.1 hmem
        · exact .inr List.mem_cons_self
        · exact .inl hmem
      · exact .inr (List.mem_cons_of_mem _ hmem)

section Module

variable {returnType : DefId → Option TypeExpr} {m : Module} {span : Span} {subst : Subst}
  {fresh : List Visit → Nat} {o : Occurrence} {d : Denoted} {s : String} {scopes : List Frame} {id : DefId}

/-- The class statement of a class that was bound before. -/
theorem declaration_of_lastClass (ho : o ∈ occurrences returnType m) (h : lastClass s o.earlier = some id) :
    ∃ o' ∈ occurrences returnType m, o'.visit = .declareClass id s := by
  obtain hmem | hmem := earlier_mem ho (declared_of_lastClass h)
  · cases hmem
  · exact exists_occurrence hmem []

/-- The class statement of a class that a name resolves to. -/
theorem declaration_of_resolve (ho : o ∈ occurrences returnType m) (hv : o.visit = .lookUp s scopes)
    (h : resolve scopes s = some (.ofClass id)) :
    ∃ o' ∈ occurrences returnType m, o'.visit = .declareClass id s :=
  exists_occurrence (declared_of_resolve (hv ▸ visit_mem ho) h) []

theorem ty_of_own {os : List Occurrence} (hun : Unhidden os) (hown : OwnClasses os) (ho : o ∈ os)
    (h : o.visit.denotes = some d) : o.ty fresh = d.ty := by
  obtain ⟨earlier, v⟩ := o
  cases v with
  | declareClass id name =>
    cases h
    rfl
  | declareAlias name value => cases h
  | lookUp s scopes => exact ty_lookUp (hun _ ho _ _ _ rfl h) (hown _ ho _ _ _ rfl h) h

theorem denoted_inj {os : List Occurrence} (hdist : Distinct os) {o₁ o₂ : Occurrence} (ho₁ : o₁ ∈ os)
    (ho₂ : o₂ ∈ os) {d₁ d₂ : Denoted} (h₁ : o₁.visit.denotes = some d₁) (h₂ : o₂.visit.denotes = some d₂)
    (heq : d₁.ty = d₂.ty) : d₁ = d₂ := by
  cases d₁ with
  | ofClass id₁ =>
    cases d₂ with
    | ofClass id₂ =>
      cases heq
      rfl
    | handle s₂ =>
      obtain ⟨id, hid⟩ := lookUp_of_handle h₂
      rw [Denoted.ty, Denoted.ty, hid] at heq
      cases heq
      exact absurd hid (hdist.reserved o₁ ho₁ o₂ ho₂ _ _ h₁ h₂)
    | unresolved s₂ => cases heq
  | handle s₁ =>
    obtain ⟨id, hid⟩ := lookUp_of_handle h₁
    cases d₂ with
    | ofClass id₂ =>
      rw [Denoted.ty, Denoted.ty, hid] at heq
      cases heq
      exact absurd hid (hdist.reserved o₂ ho₂ o₁ ho₁ _ _ h₂ h₁)
    | handle s₂ =>
      obtain ⟨id₂, hid₂⟩ := lookUp_of_handle h₂
      rw [Denoted.ty, Denoted.ty, hid, hid₂] at heq
      cases heq
      rw [ecosystemHandle_inj hid hid₂]
    | unresolved s₂ => cases heq
  | unresolved s₁ =>
    cases d₂ with
    | ofClass id₂ => cases heq
    | handle s₂ => cases heq
    | unresolved s₂ =>
      rw [Denoted.ty, Denoted.ty, Ty.alias.injEq] at heq
      rw [hdist.hash o₁ ho₁ o₂ ho₂ s₁ s₂ h₁ h₂ heq.1]

theorem toldApart_of_distinct {os : List Occurrence} (hun : Unhidden os) (hdist : Distinct os) :
    ToldApart span subst fresh os := by
  intro o₁ ho₁ o₂ ho₂ d₁ d₂ h₁ h₂
  rw [ty_of_own hun hdist.own ho₁ h₁, ty_of_own hun hdist.own ho₂ h₂, unifies_nominal d₁.nominal d₂.nominal]
  constructor
  · exact denoted_inj hdist ho₁ ho₂ h₁ h₂
  · rintro rfl
    rfl

/-- Where there is no alias and no class, a name has the type of a class only if the class is called as a handle or
`Never`. -/
theorem not_unifies_unbound (halias : aliased s o.earlier = false) (hclass : lastClass s o.earlier = none)
    (hhandle : ecosystemHandle s = none) (hnever : builtinType s ≠ some .never) :
    ¬ Unifies span subst (lowerNamedType (tables fresh o.earlier) s) (.adt id []) := by
  have hclass' : (tables fresh o.earlier).classNames s = none := tables_classNames.trans hclass
  rw [lowerNamedType, tables_aliasMap halias, hclass', hhandle]
  dsimp only
  split
  · next t ht =>
    refine not_unifies_builtin ht fun hne => hnever ?_
    rw [ht, hne]
  · rw [unifies_nominal (.alias _) (.adt _)]
    rintro ⟨⟩

theorem lastClass_of_toldApart (hplain : PlainClasses (occurrences returnType m))
    (hun : Unhidden (occurrences returnType m)) (h : ToldApart span subst fresh (occurrences returnType m))
    (ho : o ∈ occurrences returnType m) (hv : o.visit = .lookUp s scopes) (hd : o.visit.denotes = some d) :
    lastClass s o.earlier = d.classId := by
  have halias := hun o ho s scopes d hv hd
  have hty : o.ty fresh = lowerNamedType (tables fresh o.earlier) s := by rw [Occurrence.ty, hv]
  cases hlast : lastClass s o.earlier with
  | none =>
    obtain ⟨id, hresolve, rfl⟩ | ⟨_, -, rfl⟩ | ⟨-, -, rfl⟩ := denotes_lookUp (hv ▸ hd)
    · obtain ⟨o', ho', hv'⟩ := declaration_of_resolve ho hv hresolve
      obtain ⟨hhandle, hnever⟩ := hplain o' ho' id s hv'
      have hunify := (h o ho o' ho' _ _ hd (by rw [hv', Visit.denotes])).2 rfl
      rw [hty, Occurrence.ty, hv'] at hunify
      exact absurd hunify (not_unifies_unbound halias hlast hhandle hnever)
    · rfl
    · rfl
  | some id =>
    obtain ⟨o', ho', hv'⟩ := declaration_of_lastClass ho hlast
    have hnone : (tables fresh o.earlier).aliasMap s = none := tables_aliasMap halias
    have hclass := lowerNamedType_class hnone (tables_classNames.trans hlast)
    have hunify : Unifies span subst (o.ty fresh) (o'.ty fresh) := by
      rw [hty, hclass, Occurrence.ty, hv']
      exact unifies_refl (.adt id)
    rw [(h o ho o' ho' d (.ofClass id) hd (by rw [hv', Visit.denotes])).1 hunify]
    rfl

theorem distinct_of_toldApart (hplain : PlainClasses (occurrences returnType m))
    (hun : Unhidden (occurrences returnType m)) (h : ToldApart span subst fresh (occurrences returnType m)) :
    Distinct (occurrences returnType m) := by
  have hown : OwnClasses (occurrences returnType m) :=
    fun o ho s scopes d hv hd => lastClass_of_toldApart hplain hun h ho hv hd
  have hinj : ∀ o₁ ∈ occurrences returnType m, ∀ o₂ ∈ occurrences returnType m, ∀ d₁ d₂,
      o₁.visit.denotes = some d₁ → o₂.visit.denotes = some d₂ → d₁.ty = d₂.ty → d₁ = d₂ := by
    intro o₁ ho₁ o₂ ho₂ d₁ d₂ h₁ h₂ heq
    refine (h o₁ ho₁ o₂ ho₂ d₁ d₂ h₁ h₂).1 ?_
    rw [ty_of_own hun hown ho₁ h₁, ty_of_own hun hown ho₂ h₂, heq]
    exact unifies_refl d₂.nominal
  refine ⟨hown, fun o₁ ho₁ o₂ ho₂ s₁ s₂ h₁ h₂ heq => ?_, fun o₁ ho₁ o₂ ho₂ id s h₁ h₂ heq => ?_⟩
  · cases hinj o₁ ho₁ o₂ ho₂ _ _ h₁ h₂ (by rw [Denoted.ty, Denoted.ty, heq])
    rfl
  · cases hinj o₁ ho₁ o₂ ho₂ _ _ h₁ h₂ (by rw [Denoted.ty, Denoted.ty, heq, Option.getD_some])

end Module

/-- The names of a module are told apart if each finds its own class, no two unknown names have one hash and no class
has the number of a handle; no alias of another scope may hide a name. Where no alias does, and no class is called as
a handle or `Never`, nothing less is enough. -/
theorem toldApart_exact (returnType : DefId → Option TypeExpr) (m : Module) (span : Span) (subst : Subst)
    (fresh : List Visit → Nat) :
    (Unhidden (occurrences returnType m) ∧ Distinct (occurrences returnType m) →
      ToldApart span subst fresh (occurrences returnType m)) ∧
    (PlainClasses (occurrences returnType m) → Unhidden (occurrences returnType m) →
      ToldApart span subst fresh (occurrences returnType m) → Distinct (occurrences returnType m)) :=
  ⟨fun ⟨hun, hdist⟩ => toldApart_of_distinct hun hdist, distinct_of_toldApart⟩

def nameAnnot (s : String) : TypeExpr :=
  .name [s] .synthetic

/-- `fn f(x: s₁, y: s₂)`. -/
def twoParams (s₁ s₂ : String) : Item :=
  let params : Params :=
    ⟨[⟨2, "x", some (nameAnnot s₁), none, .synthetic⟩, ⟨3, "y", some (nameAnnot s₂), none, .synthetic⟩], none, [], none⟩
  .mk (.fn (.mk 1 "f" params (.mk [] .synthetic) .synthetic)) .synthetic

/-- A class before its use, and an unknown name. -/
def scoreModule : Module :=
  ⟨[.mk (.class 0 "Score" [] .synthetic) .synthetic, twoParams "Score" "Az"], .synthetic⟩

theorem scoreModule_occurrences :
    let frame : Frame := [("Score", .ofClass 0)]
    let first : Visit := .declareClass 0 "Score"
    let second : Visit := .lookUp "Score" [frame]
    occurrences (fun _ => none) scoreModule =
      [⟨[], first⟩, ⟨[first], second⟩, ⟨[second, first], .lookUp "Az" [frame]⟩] := by
  rfl

theorem scoreModule_toldApart :
    ToldApart .synthetic .new (fun _ => 0) (occurrences (fun _ => none) scoreModule) := by
  refine (toldApart_exact (fun _ => none) scoreModule .synthetic .new fun _ => 0).1 ⟨?_, ?_, ?_, ?_⟩
  all_goals rw [scoreModule_occurrences]
  · rintro o ho s scopes d hv -
    fin_cases ho <;> cases hv <;> rfl
  · rintro o ho s scopes d hv hd
    fin_cases ho <;> cases hv <;> cases hd <;> rfl
  · rintro o₁ ho₁ o₂ ho₂ s₁ s₂ h₁ h₂ -
    fin_cases ho₁ <;> cases h₁ <;> fin_cases ho₂ <;> cases h₂
    rfl
  · rintro o₁ ho₁ o₂ ho₂ id s h₁ h₂
    fin_cases ho₂ <;> cases h₂

/-- Two unknown names with one hash. -/
theorem unknown_names_unify :
    ¬ ToldApart .synthetic .new (fun _ => 0) (occurrences (fun _ => none) ⟨[twoParams "Az" "BY"], .synthetic⟩) := by
  intro h
  have hhash : opaqueId "Az" = opaqueId "BY" := by decide +kernel
  have hunify := h ⟨[], .lookUp "Az" [[]]⟩ List.mem_cons_self ⟨[.lookUp "Az" [[]]], .lookUp "BY" [[]]⟩
    (List.mem_cons_of_mem _ List.mem_cons_self) (.unresolved "Az") (.unresolved "BY") rfl rfl
  have hty : Unifies .synthetic .new (.alias (opaqueId "Az") []) (.alias (opaqueId "BY") []) := by
    rw [hhash]
    exact unifies_refl (.alias _)
  exact absurd (hunify.1 hty) (by decide)

end Cobrust
