import Cobrust.Types.CheckCtx
import Mathlib.Data.List.Infix

/-!
# Histories of the incremental context

What the tables of a context should hold after a sequence of calls: the rows of the versions that are
live, one version a file at most.

* `consistent_iff`: the tables hold that after each call of a history exactly when every call is `Safe`.
* `has_invalidate_iff`: an invalidated file has rows left exactly when it wrote types for more than its items.
-/

namespace Cobrust

open Store (Table IsUnion)
open Hir (Item)

/-! ## Versions -/

/-- The rows of a merged module. A name has a binding where it has an owner, and the owner is an item. -/
structure Version where
  bindings : Table String Ty
  bindingDefs : Table String DefId
  defTypes : Table DefId Ty
  items : List DefId
  named : ∀ name, (bindings name).isSome = (bindingDefs name).isSome
  owned : ∀ name id, bindingDefs name = some id → id ∈ items

namespace ItemRows

/-- What a version asks of its rows. -/
structure Tidy (rows : ItemRows) : Prop where
  named : ∀ name, (rows.bindings name).isSome = (rows.bindingDefs name).isSome
  owned : ∀ name id, rows.bindingDefs name = some id → id ∈ rows.owned

def empty : ItemRows :=
  ⟨Table.empty, Table.empty, []⟩

/-- The rows behind those of an earlier state. -/
def onTop (rows before : ItemRows) : ItemRows :=
  ⟨Table.shadow rows.bindings before.bindings, Table.shadow rows.bindingDefs before.bindingDefs,
    before.owned ++ rows.owned⟩

variable {defTypes : Table DefId Ty} {rows before : ItemRows}

theorem tidy_bind_own (name : String) (id : DefId) (h : rows.Tidy) :
    ((rows.bind defTypes name id).own id).Tidy := by
  unfold bind own
  cases defTypes id with
  | none => exact ⟨h.named, fun n d hd => List.mem_append_left _ (h.owned n d hd)⟩
  | some ty =>
    refine ⟨fun n => ?_, fun n d hd => ?_⟩
    · by_cases hn : n = name
      · subst hn
        simp [Table.insert]
      · simpa [Table.insert, hn] using h.named n
    · by_cases hn : n = name
      · subst hn
        simp only [Table.insert, Function.update_self, Option.some.injEq] at hd
        simp [hd]
      · simp only [Table.insert, Function.update_of_ne hn] at hd
        exact List.mem_append_left _ (h.owned n d hd)

theorem tidy_own (id : DefId) (h : rows.Tidy) : (rows.own id).Tidy :=
  ⟨h.named, fun n d hd => List.mem_append_left _ (h.owned n d hd)⟩

theorem onTop_bind_own (name : String) (id : DefId) :
    (((rows.onTop before).bind defTypes name id).own id) =
      ((rows.bind defTypes name id).own id).onTop before := by
  unfold bind own onTop
  cases defTypes id <;> simp [Table.shadow_insert]

theorem onTop_own (id : DefId) : (rows.onTop before).own id = (rows.own id).onTop before := by
  simp [own, onTop]

theorem tidy_mergeItem (item : Item) (h : rows.Tidy) : (rows.mergeItem defTypes item).Tidy := by
  unfold mergeItem
  split
  · exact tidy_bind_own _ _ h
  · split
    · exact tidy_bind_own _ _ h
    · exact h
  · exact tidy_bind_own _ _ h
  · exact tidy_own _ h
  · exact tidy_own _ h
  · exact h
  · exact h

theorem onTop_mergeItem (item : Item) :
    (rows.onTop before).mergeItem defTypes item = (rows.mergeItem defTypes item).onTop before := by
  unfold mergeItem
  split
  · exact onTop_bind_own _ _
  · split
    · exact onTop_bind_own _ _
    · rfl
  · exact onTop_bind_own _ _
  · exact onTop_own _
  · exact onTop_own _
  · rfl
  · rfl

theorem tidy_foldl (items : List Item) (h : rows.Tidy) :
    (items.foldl (mergeItem defTypes) rows).Tidy := by
  induction items generalizing rows with
  | nil => exact h
  | cons item items ih => exact ih (tidy_mergeItem item h)

theorem onTop_foldl (items : List Item) :
    items.foldl (mergeItem defTypes) (rows.onTop before) =
      (items.foldl (mergeItem defTypes) rows).onTop before := by
  induction items generalizing rows with
  | nil => rfl
  | cons item items ih =>
    rw [List.foldl_cons, List.foldl_cons, onTop_mergeItem, ih]

end ItemRows

/-- The rows that the items of a module write to empty tables. -/
def TypedModule.rows (m : TypedModule) : ItemRows :=
  m.hir.items.foldl (ItemRows.mergeItem m.defTypes) .empty

theorem TypedModule.rows_tidy (m : TypedModule) : m.rows.Tidy :=
  ItemRows.tidy_foldl _ ⟨fun _ => rfl, fun _ _ h => by cases h⟩

def TypedModule.version (m : TypedModule) : Version where
  bindings := m.rows.bindings
  bindingDefs := m.rows.bindingDefs
  defTypes := m.defTypes
  items := m.rows.owned
  named := m.rows_tidy.named
  owned := m.rows_tidy.owned

/-- Merging puts the rows of the module over the tables. -/
theorem TypeCheckCtx.mergeModule_eq (ctx : TypeCheckCtx) (m : TypedModule) (file : FileKey) :
    ctx.mergeModule m file =
      { bindings := Table.shadow m.version.bindings ctx.bindings
        bindingDefs := Table.shadow m.version.bindingDefs ctx.bindingDefs
        defTypes := Table.shadow m.version.defTypes ctx.defTypes
        fileDefs := ctx.fileDefs.insert file m.version.items
        version := ctx.version + 1 } := by
  have hrows : m.hir.items.foldl (ItemRows.mergeItem m.defTypes) ⟨ctx.bindings, ctx.bindingDefs, []⟩ =
      m.rows.onTop ⟨ctx.bindings, ctx.bindingDefs, []⟩ := by
    rw [TypedModule.rows, ← ItemRows.onTop_foldl]
    rfl
  rw [TypeCheckCtx.mergeModule, hrows]
  rfl

/-- The version without the rows of one definition. -/
def Version.erase (v : Version) (id : DefId) : Version where
  bindings := v.bindings.retain fun name _ => v.bindingDefs name != some id
  bindingDefs := v.bindingDefs.retain fun name _ => v.bindingDefs name != some id
  defTypes := v.defTypes.retain fun d _ => d != id
  items := v.items.filter fun d => d != id
  named name := by
    have h := v.named name
    cases hb : v.bindings name <;> cases hd : v.bindingDefs name <;> rw [hb, hd] at h
    · simp [Table.retain, hb, hd]
    · cases h
    · cases h
    · simp only [Table.retain, hb, hd, Option.filter]
      split <;> rfl
  owned name d h := by
    obtain ⟨hd, hne⟩ := Table.retain_eq_some.1 h
    refine List.mem_filter.2 ⟨v.owned name d hd, ?_⟩
    rw [hd] at hne
    simpa using hne

/-- The definitions that a version has rows for or owns. -/
def Version.Has (v : Version) (id : DefId) : Prop :=
  (v.defTypes id).isSome ∨ id ∈ v.items

/-! ## Histories -/

inductive Op where
  | merge (m : TypedModule) (file : FileKey)
  | invalidate (file : FileKey)
  | invalidateDef (id : DefId)

def TypeCheckCtx.step (ctx : TypeCheckCtx) : Op → TypeCheckCtx
  | .merge m file => ctx.mergeModule m file
  | .invalidate file => ctx.invalidate file
  | .invalidateDef id => ctx.invalidateDef id

/-- The context after a history. -/
def TypeCheckCtx.run (ops : List Op) : TypeCheckCtx :=
  ops.foldl TypeCheckCtx.step .new

/-- The version of each file that was merged last and is not invalidated since. -/
abbrev Live :=
  FileKey → Option Version

namespace Live

def step (live : Live) : Op → Live
  | .merge m file => Function.update live file (some m.version)
  | .invalidate file => Function.update live file none
  | .invalidateDef id => fun file => (live file).map fun v => v.erase id

def run (ops : List Op) : Live :=
  ops.foldl step fun _ => none

end Live

/-- The three tables hold the rows of the live versions, and nothing else. -/
structure Consistent (ctx : TypeCheckCtx) (live : Live) : Prop where
  bindings : IsUnion ctx.bindings fun file => (live file).map Version.bindings
  bindingDefs : IsUnion ctx.bindingDefs fun file => (live file).map Version.bindingDefs
  defTypes : IsUnion ctx.defTypes fun file => (live file).map Version.defTypes

/-- The calls after which the tables are right, in a state where they were.
- A merged module shares no name with another file, and covers the live version of its own file.
- An invalidated version has rows for its items only, and no binding of another file mentions them.
- Of an invalidated definition, no binding but its own mentions it. -/
def Live.Safe (live : Live) : Op → Prop
  | .merge m file =>
    (∀ other v, other ≠ file → live other = some v →
      ∀ name, (v.bindings name).isSome → m.version.bindings name = none) ∧
    ∀ v, live file = some v →
      (∀ name, (v.bindings name).isSome → (m.version.bindings name).isSome) ∧
      ∀ id, (v.defTypes id).isSome → (m.version.defTypes id).isSome
  | .invalidate file =>
    ∀ v, live file = some v →
      (∀ id, (v.defTypes id).isSome → id ∈ v.items) ∧
      ∀ other w name ty, other ≠ file → live other = some w → w.bindings name = some ty →
        typeRefsAny (fun id => v.items.contains id) ty = false
  | .invalidateDef id =>
    ∀ file v name ty, live file = some v → v.bindings name = some ty → v.bindingDefs name ≠ some id →
      typeRefsAny (fun d => d == id) ty = false

/-- The versions of different files have no definition in common. -/
def Live.Apart (live : Live) : Prop :=
  ∀ file other v w id, file ≠ other → live file = some v → live other = some w → v.Has id → ¬ w.Has id

/-! ## Facts about versions -/

namespace Version

variable {v : Version} {name : String} {id : DefId}

theorem exists_owner (h : (v.bindings name).isSome) : ∃ id, v.bindingDefs name = some id := by
  rw [v.named name] at h
  exact Option.isSome_iff_exists.1 h

theorem has_owner (h : v.bindingDefs name = some id) : v.Has id :=
  .inr (v.owned name id h)

theorem has_of_defType {ty : Ty} (h : v.defTypes id = some ty) : v.Has id :=
  .inl (by rw [h]; rfl)

theorem bindings_eq_none (h : v.bindingDefs name = none) : v.bindings name = none := by
  have hnamed := v.named name
  rw [h] at hnamed
  exact Option.isNone_iff_eq_none.1 (Option.isSome_eq_false_iff.1 hnamed)

theorem bindingDefs_eq_none (h : v.bindings name = none) : v.bindingDefs name = none := by
  have hnamed := v.named name
  rw [h] at hnamed
  exact Option.isNone_iff_eq_none.1 (Option.isSome_eq_false_iff.1 hnamed.symm)

end Version

variable {ctx : TypeCheckCtx} {live : Live} {m : TypedModule} {file : FileKey} {id : DefId}

theorem parts_some {κ ν : Type} (g : Version → Table κ ν) (w : Version) :
    (fun f => (Function.update live file (some w) f).map g) =
      Function.update (fun f => (live f).map g) file (some (g w)) := by
  funext f
  by_cases hf : f = file
  · subst hf
    simp
  · simp [hf]

theorem parts_none {κ ν : Type} (g : Version → Table κ ν) :
    (fun f => (Function.update live file none f).map g) =
      Function.update (fun f => (live f).map g) file none := by
  funext f
  by_cases hf : f = file
  · subst hf
    simp
  · simp [hf]

theorem row_of_live {κ ν : Type} {t : Table κ ν} {g : Version → Table κ ν} {v : Version} {k : κ} {x : ν}
    (h : IsUnion t fun f => (live f).map g) (hv : live file = some v) (hx : g v k = some x) : t k = some x :=
  (h k x).2 ⟨file, g v, Option.map_eq_some_iff.2 ⟨v, hv, rfl⟩, hx⟩

theorem live_of_row {κ ν : Type} {t : Table κ ν} {g : Version → Table κ ν} {k : κ} {x : ν}
    (h : IsUnion t fun f => (live f).map g) (hx : t k = some x) :
    ∃ f v, live f = some v ∧ g v k = some x := by
  obtain ⟨f, part, hpart, hx⟩ := (h k x).1 hx
  obtain ⟨v, hv, rfl⟩ := Option.map_eq_some_iff.1 hpart
  exact ⟨f, v, hv, hx⟩

theorem consistent_merge (h : Consistent ctx live) (hsafe : live.Safe (.merge m file))
    (hapart : (live.step (.merge m file)).Apart) :
    Consistent (ctx.step (.merge m file)) (live.step (.merge m file)) := by
  obtain ⟨hnames, hcover⟩ := hsafe
  show Consistent (ctx.mergeModule m file) _
  rw [TypeCheckCtx.mergeModule_eq]
  refine ⟨?_, ?_, ?_⟩
  · show IsUnion _ fun f => (Function.update live file (some m.version) f).map Version.bindings
    rw [parts_some]
    refine h.bindings.shadow ?_ ?_
    · intro old hold name hname
      obtain ⟨v, hv, rfl⟩ := Option.map_eq_some_iff.1 hold
      exact (hcover v hv).1 name hname
    · intro other part hne hpart name hname
      obtain ⟨v, hv, rfl⟩ := Option.map_eq_some_iff.1 hpart
      exact hnames other v hne hv name hname
  · show IsUnion _ fun f => (Function.update live file (some m.version) f).map Version.bindingDefs
    rw [parts_some]
    refine h.bindingDefs.shadow ?_ ?_
    · intro old hold name hname
      obtain ⟨v, hv, rfl⟩ := Option.map_eq_some_iff.1 hold
      rw [← Version.named] at hname ⊢
      exact (hcover v hv).1 name hname
    · intro other part hne hpart name hname
      obtain ⟨v, hv, rfl⟩ := Option.map_eq_some_iff.1 hpart
      rw [← Version.named] at hname
      exact Version.bindingDefs_eq_none (hnames other v hne hv name hname)
  · show IsUnion _ fun f => (Function.update live file (some m.version) f).map Version.defTypes
    rw [parts_some]
    refine h.defTypes.shadow ?_ ?_
    · intro old hold id hid
      obtain ⟨v, hv, rfl⟩ := Option.map_eq_some_iff.1 hold
      exact (hcover v hv).2 id hid
    · intro other part hne hpart id hid
      obtain ⟨v, hv, rfl⟩ := Option.map_eq_some_iff.1 hpart
      by_contra hsome
      have hother : (live.step (.merge m file)) other = some v := by
        rw [Live.step, Function.update_of_ne hne]
        exact hv
      have hself : (live.step (.merge m file)) file = some m.version := Function.update_self ..
      exact hapart other file v m.version id hne hother hself (.inl hid)
        (.inl (Option.isSome_iff_ne_none.2 hsome))

theorem safe_merge (h : Consistent ctx live) (hapart : live.Apart)
    (h' : Consistent (ctx.step (.merge m file)) (live.step (.merge m file)))
    (hapart' : (live.step (.merge m file)).Apart) : live.Safe (.merge m file) := by
  have hself : (live.step (.merge m file)) file = some m.version := Function.update_self ..
  have hother : ∀ {f : FileKey}, f ≠ file → (live.step (.merge m file)) f = live f :=
    fun hne => Function.update_of_ne hne ..
  have htables : ctx.step (.merge m file) = ctx.mergeModule m file := rfl
  rw [htables, TypeCheckCtx.mergeModule_eq] at h'
  refine ⟨?_, ?_⟩
  · intro other v hne hv name hname
    obtain ⟨id, hid⟩ := Version.exists_owner hname
    apply Version.bindings_eq_none
    cases hm : m.version.bindingDefs name with
    | none => rfl
    | some id' =>
      exfalso
      have hrow := row_of_live h'.bindingDefs hself hm
      have hrow' := row_of_live h'.bindingDefs ((hother hne).trans hv) hid
      obtain rfl : id' = id := Option.some.inj (hrow.symm.trans hrow')
      exact hapart' file other m.version v id' hne.symm hself ((hother hne).trans hv)
        (Version.has_owner hm) (Version.has_owner hid)
  · intro v hv
    refine ⟨fun name hname => ?_, fun id hid => ?_⟩
    · obtain ⟨id, hid⟩ := Version.exists_owner hname
      rw [Version.named]
      cases hm : m.version.bindingDefs name with
      | some id' => rfl
      | none =>
        exfalso
        have hrow : Table.shadow m.version.bindingDefs ctx.bindingDefs name = some id :=
          Table.shadow_eq_some.2 (.inr ⟨hm, row_of_live h.bindingDefs hv hid⟩)
        obtain ⟨f, w, hw, hwid⟩ := live_of_row h'.bindingDefs hrow
        by_cases hf : f = file
        · subst hf
          rw [hself, Option.some.injEq] at hw
          subst hw
          rw [hm] at hwid
          cases hwid
        · exact hapart file f v w id (Ne.symm hf) hv ((hother hf).symm.trans hw)
            (Version.has_owner hid) (Version.has_owner hwid)
    · obtain ⟨ty, hty⟩ := Option.isSome_iff_exists.1 hid
      cases hm : m.version.defTypes id with
      | some ty' => rfl
      | none =>
        exfalso
        have hrow : Table.shadow m.version.defTypes ctx.defTypes id = some ty :=
          Table.shadow_eq_some.2 (.inr ⟨hm, row_of_live h.defTypes hv hty⟩)
        obtain ⟨f, w, hw, hwty⟩ := live_of_row h'.defTypes hrow
        by_cases hf : f = file
        · subst hf
          rw [hself, Option.some.injEq] at hw
          subst hw
          rw [hm] at hwty
          cases hwty
        · exact hapart file f v w id (Ne.symm hf) hv ((hother hf).symm.trans hw)
            (Version.has_of_defType hty) (Version.has_of_defType hwty)

/-! ## Invalidation of a file -/

mutual

theorem typeRefsAny_none (ty : Ty) : typeRefsAny (fun _ => false) ty = false := by
  cases ty with
  | adt id args => simp [typeRefsAny, anyRefs_none args]
  | «alias» id args => simp [typeRefsAny, anyRefs_none args]
  | tuple items => simp [typeRefsAny, anyRefs_none items]
  | list t => simp [typeRefsAny, typeRefsAny_none t]
  | set t => simp [typeRefsAny, typeRefsAny_none t]
  | ref t => simp [typeRefsAny, typeRefsAny_none t]
  | array t n => simp [typeRefsAny, typeRefsAny_none t]
  | dict k v => simp [typeRefsAny, typeRefsAny_none k, typeRefsAny_none v]
  | record fields => simp [typeRefsAny, anyFieldRefs_none fields]
  | fn positional named varPositional varKeyword returnTy =>
    simp [typeRefsAny, anyRefs_none positional, anyFieldRefs_none named, optionRefs_none varPositional,
      optionRefs_none varKeyword, typeRefsAny_none returnTy]
  | _ => simp [typeRefsAny]

theorem anyRefs_none (tys : List Ty) : anyRefs (fun _ => false) tys = false := by
  cases tys with
  | nil => rfl
  | cons t ts => simp [anyRefs, typeRefsAny_none t, anyRefs_none ts]

theorem anyFieldRefs_none (fields : List (String × Ty)) : anyFieldRefs (fun _ => false) fields = false := by
  cases fields with
  | nil => rfl
  | cons field rest =>
    obtain ⟨name, t⟩ := field
    simp [anyFieldRefs, typeRefsAny_none t, anyFieldRefs_none rest]

theorem optionRefs_none (t : Option Ty) : optionRefs (fun _ => false) t = false := by
  cases t with
  | none => rfl
  | some t => simp [optionRefs, typeRefsAny_none t]

end

theorem retain_all {κ ν : Type} {t : Table κ ν} {p : κ → ν → Bool} (h : ∀ k v, p k v = true) :
    t.retain p = t := by
  funext k
  rw [Table.retain]
  cases t k with
  | none => rfl
  | some v => exact if_pos (h k v)

/-- The test for an empty set of removed definitions changes nothing. -/
theorem TypeCheckCtx.invalidate_eq (ctx : TypeCheckCtx) (file : FileKey) :
    ctx.invalidate file =
      let removed (id : DefId) : Bool := ((ctx.fileDefs file).getD []).contains id
      { defTypes := ctx.defTypes.retain fun id _ => !removed id
        bindingDefs := ctx.bindingDefs.retain fun _ id => !removed id
        bindings := ctx.bindings.retain (ctx.keepBinding removed)
        fileDefs := Function.update ctx.fileDefs file none
        version := ctx.version + 1 } := by
  unfold invalidate
  dsimp only
  split
  · next hempty =>
    have hnil := List.isEmpty_iff.1 hempty
    have hkeep : ∀ name ty, ctx.keepBinding (fun _ => false) name ty = true := by
      intro name ty
      unfold keepBinding
      rw [typeRefsAny_none]
      cases ctx.bindingDefs name <;> rfl
    rw [hnil]
    simp only [List.contains_nil, Bool.not_false]
    rw [retain_all fun _ _ => rfl, retain_all fun _ _ => rfl, retain_all hkeep]
  · rfl

/-- The recorded definitions of a file are the items of its live version. -/
def Recorded (ctx : TypeCheckCtx) (live : Live) : Prop :=
  ∀ file, ctx.fileDefs file = (live file).map Version.items

theorem invalidate_of_live {v : Version} (hrec : Recorded ctx live) (hv : live file = some v) :
    ctx.invalidate file =
      { defTypes := ctx.defTypes.retain fun id _ => !v.items.contains id
        bindingDefs := ctx.bindingDefs.retain fun _ id => !v.items.contains id
        bindings := ctx.bindings.retain (ctx.keepBinding fun id => v.items.contains id)
        fileDefs := Function.update ctx.fileDefs file none
        version := ctx.version + 1 } := by
  rw [TypeCheckCtx.invalidate_eq, hrec file, hv]
  rfl

theorem invalidate_of_none (hrec : Recorded ctx live) (hnone : live file = none) :
    (ctx.invalidate file).bindings = ctx.bindings ∧ (ctx.invalidate file).bindingDefs = ctx.bindingDefs ∧
      (ctx.invalidate file).defTypes = ctx.defTypes := by
  have hdefs : ctx.fileDefs file = none := by rw [hrec file, hnone]; rfl
  unfold TypeCheckCtx.invalidate
  rw [hdefs]
  exact ⟨rfl, rfl, rfl⟩

theorem not_contains_of_apart {v w : Version} {other : FileKey} (hapart : live.Apart) (hne : other ≠ file)
    (hv : live file = some v) (hw : live other = some w) (hid : w.Has id) : v.items.contains id = false := by
  rw [List.contains_eq_mem, decide_eq_false_iff_not]
  exact fun hmem => hapart other file w v id hne hw hv hid (.inr hmem)

theorem contains_owner {v : Version} {name : String} (h : v.bindingDefs name = some id) :
    v.items.contains id = true := by
  rw [List.contains_iff_mem]
  exact v.owned name id h

theorem consistent_invalidate (h : Consistent ctx live) (hrec : Recorded ctx live) (hapart : live.Apart)
    (hsafe : live.Safe (.invalidate file)) :
    Consistent (ctx.step (.invalidate file)) (live.step (.invalidate file)) := by
  show Consistent (ctx.invalidate file) (Function.update live file none)
  cases hv : live file with
  | none =>
    obtain ⟨hb, hd, ht⟩ := invalidate_of_none hrec hv
    have hlive : Function.update live file none = live := by rw [← hv, Function.update_eq_self]
    rw [hlive]
    exact ⟨by rw [hb]; exact h.bindings, by rw [hd]; exact h.bindingDefs, by rw [ht]; exact h.defTypes⟩
  | some v =>
    obtain ⟨hitems, hmention⟩ := hsafe v hv
    rw [invalidate_of_live hrec hv]
    refine ⟨?_, ?_, ?_⟩
    · rw [parts_none]
      refine h.bindings.remove ?_ ?_
      · intro part hpart name ty hty
        obtain ⟨w, hw, rfl⟩ := Option.map_eq_some_iff.1 hpart
        obtain rfl : v = w := Option.some.inj (hv.symm.trans hw)
        obtain ⟨id, hid⟩ := Version.exists_owner (by rw [hty]; rfl)
        rw [TypeCheckCtx.keepBinding, row_of_live h.bindingDefs hv hid, Option.any_some, contains_owner hid]
        rfl
      · intro other part hne hpart name ty hty
        obtain ⟨w, hw, rfl⟩ := Option.map_eq_some_iff.1 hpart
        obtain ⟨id, hid⟩ := Version.exists_owner (by rw [hty]; rfl)
        rw [TypeCheckCtx.keepBinding, row_of_live h.bindingDefs hw hid, Option.any_some,
          not_contains_of_apart hapart hne hv hw (Version.has_owner hid),
          hmention other w name ty hne hw hty]
        rfl
    · rw [parts_none]
      refine h.bindingDefs.remove ?_ ?_
      · intro part hpart name id hid
        obtain ⟨w, hw, rfl⟩ := Option.map_eq_some_iff.1 hpart
        obtain rfl : v = w := Option.some.inj (hv.symm.trans hw)
        rw [contains_owner hid]
        rfl
      · intro other part hne hpart name id hid
        obtain ⟨w, hw, rfl⟩ := Option.map_eq_some_iff.1 hpart
        rw [not_contains_of_apart hapart hne hv hw (Version.has_owner hid)]
        rfl
    · rw [parts_none]
      refine h.defTypes.remove ?_ ?_
      · intro part hpart id ty hty
        obtain ⟨w, hw, rfl⟩ := Option.map_eq_some_iff.1 hpart
        obtain rfl : v = w := Option.some.inj (hv.symm.trans hw)
        have hmem : v.items.contains id = true := by
          rw [List.contains_iff_mem]
          exact hitems id (by rw [hty]; rfl)
        rw [hmem]
        rfl
      · intro other part hne hpart id ty hty
        obtain ⟨w, hw, rfl⟩ := Option.map_eq_some_iff.1 hpart
        rw [not_contains_of_apart hapart hne hv hw (Version.has_of_defType hty)]
        rfl

theorem safe_invalidate (h : Consistent ctx live) (hrec : Recorded ctx live) (hapart : live.Apart)
    (h' : Consistent (ctx.step (.invalidate file)) (live.step (.invalidate file))) :
    live.Safe (.invalidate file) := by
  intro v hv
  have htables : ctx.step (.invalidate file) = ctx.invalidate file := rfl
  rw [htables, invalidate_of_live hrec hv] at h'
  have hother : ∀ {f : FileKey}, f ≠ file → (live.step (.invalidate file)) f = live f :=
    fun hne => Function.update_of_ne hne ..
  refine ⟨fun id hid => ?_, fun other w name ty hne hw hty => ?_⟩
  · by_contra hmem
    obtain ⟨ty, hty⟩ := Option.isSome_iff_exists.1 hid
    have hkept : (ctx.defTypes.retain fun id _ => !v.items.contains id) id = some ty := by
      refine Table.retain_eq_some.2 ⟨row_of_live h.defTypes hv hty, ?_⟩
      simpa using hmem
    obtain ⟨f, w, hw, hwty⟩ := live_of_row h'.defTypes hkept
    by_cases hf : f = file
    · subst hf
      rw [Live.step, Function.update_self] at hw
      cases hw
    · exact hapart file f v w id (Ne.symm hf) hv ((hother hf).symm.trans hw) (.inl hid)
        (Version.has_of_defType hwty)
  · have hrow := row_of_live h'.bindings ((hother hne).trans hw) hty
    have hkeep := (Table.retain_eq_some.1 hrow).2
    rw [TypeCheckCtx.keepBinding, Bool.and_eq_true, Bool.not_eq_true', Bool.not_eq_true'] at hkeep
    exact hkeep.2

theorem update_none_eq_retain {κ ν : Type} [DecidableEq κ] (t : Table κ ν) (k : κ) :
    Function.update t k none = t.retain fun j _ => decide (j ≠ k) := by
  funext j
  rw [Table.retain]
  by_cases hj : j = k
  · subst hj
    cases t j <;> simp
  · cases ht : t j with
    | none => simp [hj, ht]
    | some x => simp [hj, ht, Option.filter]

theorem consistent_invalidateDef (h : Consistent ctx live) (hsafe : live.Safe (.invalidateDef id)) :
    Consistent (ctx.step (.invalidateDef id)) (live.step (.invalidateDef id)) := by
  /- The rows that a version keeps, by the owners of its names. -/
  let keeps (file : FileKey) (name : String) : Bool :=
    match live file with
    | some v => v.bindingDefs name != some id
    | none => true
  have hkeeps : ∀ {file v}, live file = some v → ∀ name, keeps file name = (v.bindingDefs name != some id) := by
    intro file v hv name
    show (match live file with | some v => v.bindingDefs name != some id | none => true) = _
    rw [hv]
  refine ⟨?_, ?_, ?_⟩
  · have hretain := h.bindings.retain (p := ctx.keepBinding fun d => d == id) (q := fun file name _ => keeps file name) ?_
    · refine (congrArg (IsUnion _) ?_).mp hretain
      funext file
      cases hv : live file with
      | none => simp [Live.step, hv]
      | some v =>
        simp only [Live.step, hv, Option.map_some, Version.erase]
        congr 2
        funext name _
        exact hkeeps hv name
    · intro file part hpart name ty hty
      obtain ⟨v, hv, rfl⟩ := Option.map_eq_some_iff.1 hpart
      obtain ⟨d, hd⟩ := Version.exists_owner (by rw [hty]; rfl)
      rw [hkeeps hv, TypeCheckCtx.keepBinding, row_of_live h.bindingDefs hv hd, hd]
      by_cases hid : d = id
      · subst hid
        simp
      · have howner : v.bindingDefs name ≠ some id := by
          rw [hd]
          exact fun heq => hid (Option.some.inj heq)
        rw [hsafe file v name ty hv hty howner, bne, Option.some_beq_some, Option.any_some]
        cases d == id <;> rfl
  · have hretain := h.bindingDefs.retain (p := fun _ d => d != id) (q := fun file name _ => keeps file name) ?_
    · refine (congrArg (IsUnion _) ?_).mp hretain
      funext file
      cases hv : live file with
      | none => simp [Live.step, hv]
      | some v =>
        simp only [Live.step, hv, Option.map_some, Version.erase]
        congr 2
        funext name _
        exact hkeeps hv name
    · intro file part hpart name d hd
      obtain ⟨v, hv, rfl⟩ := Option.map_eq_some_iff.1 hpart
      rw [hkeeps hv, hd]
      rfl
  · have hretain := h.defTypes.retain (p := fun d _ => d != id) (q := fun _ d _ => d != id) ?_
    · have htable : (ctx.step (.invalidateDef id)).defTypes = ctx.defTypes.retain fun d _ => d != id := by
        show Function.update ctx.defTypes id none = _
        rw [update_none_eq_retain]
        congr 1
        funext d _
        by_cases hd : d = id <;> simp [hd]
      rw [htable]
      refine (congrArg (IsUnion _) ?_).mp hretain
      funext file
      cases hv : live file <;> simp [Live.step, hv, Version.erase]
    · intros
      rfl

theorem safe_invalidateDef (h' : Consistent (ctx.step (.invalidateDef id)) (live.step (.invalidateDef id))) :
    live.Safe (.invalidateDef id) := by
  intro file v name ty hv hty howner
  have hlive : (live.step (.invalidateDef id)) file = some (v.erase id) := by
    show (live file).map _ = _
    rw [hv]
    rfl
  have hkept : (v.erase id).bindings name = some ty := by
    show v.bindings.retain (fun name _ => v.bindingDefs name != some id) name = some ty
    refine Table.retain_eq_some.2 ⟨hty, ?_⟩
    simpa using howner
  have hrow := row_of_live h'.bindings hlive hkept
  have hkeep := (Table.retain_eq_some.1 hrow).2
  rw [TypeCheckCtx.keepBinding, Bool.and_eq_true, Bool.not_eq_true', Bool.not_eq_true'] at hkeep
  exact hkeep.2

theorem recorded_step (hrec : Recorded ctx live) (op : Op) : Recorded (ctx.step op) (live.step op) := by
  intro f
  cases op with
  | merge m file =>
    show (ctx.mergeModule m file).fileDefs f = (Function.update live file (some m.version) f).map Version.items
    rw [TypeCheckCtx.mergeModule_eq]
    by_cases hf : f = file
    · subst hf
      simp [Table.insert]
    · simp only [Table.insert, Function.update_of_ne hf]
      exact hrec f
  | invalidate file =>
    show (ctx.invalidate file).fileDefs f = (Function.update live file none f).map Version.items
    rw [TypeCheckCtx.invalidate_eq]
    by_cases hf : f = file
    · subst hf
      simp
    · simp only [Function.update_of_ne hf]
      exact hrec f
  | invalidateDef id =>
    show (ctx.fileDefs f).map _ = ((live f).map fun v => v.erase id).map Version.items
    rw [hrec f, Option.map_map, Option.map_map]
    rfl

/-- From a state in which the tables are right, a call leaves them right exactly when it is safe. -/
theorem consistent_step_iff (h : Consistent ctx live) (hrec : Recorded ctx live) (hapart : live.Apart)
    (op : Op) (hapart' : (live.step op).Apart) :
    Consistent (ctx.step op) (live.step op) ↔ live.Safe op := by
  cases op with
  | merge m file =>
    exact ⟨fun h' => safe_merge h hapart h' hapart', fun hsafe => consistent_merge h hsafe hapart'⟩
  | invalidate file =>
    exact ⟨safe_invalidate h hrec hapart, consistent_invalidate h hrec hapart⟩
  | invalidateDef id => exact ⟨safe_invalidateDef, consistent_invalidateDef h⟩

/-! ## Histories of calls -/

/-- The modules of different files use different definitions. -/
def Separated (ops : List Op) : Prop :=
  ∀ m file m' file', .merge m file ∈ ops → .merge m' file' ∈ ops → file ≠ file' →
    ∀ id, m.version.Has id → ¬ m'.version.Has id

theorem has_erase {v : Version} {d : DefId} (h : (v.erase id).Has d) : v.Has d := by
  rcases h with hty | hmem
  · obtain ⟨ty, hty⟩ := Option.isSome_iff_exists.1 hty
    have hkept : v.defTypes.retain (fun d' _ => d' != id) d = some ty := hty
    exact Version.has_of_defType (Table.retain_eq_some.1 hkept).1
  · exact .inr (List.mem_filter.1 hmem).1

theorem live_origin {ops : List Op} {v : Version} (h : Live.run ops file = some v) :
    ∃ m, .merge m file ∈ ops ∧ ∀ id, v.Has id → m.version.Has id := by
  induction ops using List.reverseRecOn generalizing v with
  | nil => cases h
  | append_singleton ops op ih =>
    rw [Live.run, List.foldl_append] at h
    have hbefore : ∀ w, Live.run ops file = some w → (∀ id, v.Has id → w.Has id) →
        ∃ m, .merge m file ∈ ops ++ [op] ∧ ∀ id, v.Has id → m.version.Has id := by
      intro w hw hsub
      obtain ⟨m, hmem, hm⟩ := ih hw
      exact ⟨m, List.mem_append_left _ hmem, fun id hid => hm id (hsub id hid)⟩
    cases op with
    | merge m f =>
      by_cases hf : file = f
      · subst hf
        simp only [List.foldl_cons, List.foldl_nil, Live.step, Function.update_self, Option.some.injEq] at h
        subst h
        exact ⟨m, List.mem_append_right _ (List.mem_singleton_self _), fun _ hid => hid⟩
      · simp only [List.foldl_cons, List.foldl_nil, Live.step, Function.update_of_ne hf] at h
        exact hbefore v h fun _ hid => hid
    | invalidate f =>
      by_cases hf : file = f
      · subst hf
        simp only [List.foldl_cons, List.foldl_nil, Live.step, Function.update_self] at h
        cases h
      · simp only [List.foldl_cons, List.foldl_nil, Live.step, Function.update_of_ne hf] at h
        exact hbefore v h fun _ hid => hid
    | invalidateDef id =>
      obtain ⟨w, hw, rfl⟩ := Option.map_eq_some_iff.1 h
      exact hbefore w hw fun _ hid => has_erase hid

theorem apart_run {ops pre : List Op} (hsep : Separated ops) (hpre : pre <+: ops) : (Live.run pre).Apart := by
  intro file other v w id hne hv hw hid
  obtain ⟨m, hmem, hm⟩ := live_origin hv
  obtain ⟨m', hmem', hm'⟩ := live_origin hw
  have hnot := hsep m file m' other (hpre.subset hmem) (hpre.subset hmem') hne id (hm id hid)
  exact fun hother => hnot (hm' id hother)

theorem recorded_run (ops : List Op) : Recorded (TypeCheckCtx.run ops) (Live.run ops) := by
  induction ops using List.reverseRecOn with
  | nil => exact fun _ => rfl
  | append_singleton ops op ih =>
    rw [TypeCheckCtx.run, Live.run, List.foldl_append, List.foldl_append]
    exact recorded_step ih op

theorem consistent_append_iff {ops pre : List Op} {op : Op} (hsep : Separated ops) (hpre : pre ++ [op] <+: ops)
    (h : Consistent (TypeCheckCtx.run pre) (Live.run pre)) :
    Consistent (TypeCheckCtx.run (pre ++ [op])) (Live.run (pre ++ [op])) ↔ (Live.run pre).Safe op := by
  have hlive : Live.run (pre ++ [op]) = (Live.run pre).step op := by rw [Live.run, List.foldl_append]; rfl
  have hctx : TypeCheckCtx.run (pre ++ [op]) = (TypeCheckCtx.run pre).step op := by
    rw [TypeCheckCtx.run, List.foldl_append]
    rfl
  have hapart' := apart_run hsep hpre
  rw [hlive] at hapart' ⊢
  rw [hctx]
  exact consistent_step_iff h (recorded_run pre)
    (apart_run hsep ((List.prefix_append pre [op]).trans hpre)) op hapart'

/-- After every call of a history the tables hold the rows of the live versions and nothing else, exactly
when every call of it is safe. -/
theorem consistent_iff {ops : List Op} (hsep : Separated ops) :
    (∀ pre, pre <+: ops → Consistent (TypeCheckCtx.run pre) (Live.run pre)) ↔
      ∀ pre op, pre ++ [op] <+: ops → (Live.run pre).Safe op := by
  constructor
  · intro hall pre op hpre
    have hbefore := hall pre ((List.prefix_append pre [op]).trans hpre)
    exact (consistent_append_iff hsep hpre hbefore).1 (hall _ hpre)
  · intro hsafe pre hpre
    induction pre using List.reverseRecOn with
    | nil => exact ⟨IsUnion.none, IsUnion.none, IsUnion.none⟩
    | append_singleton pre op ih =>
      have hbefore := ih ((List.prefix_append pre [op]).trans hpre)
      exact (consistent_append_iff hsep hpre hbefore).2 (hsafe pre op hpre)

/-- A module with a function, and rows for it and for what is declared in its body. -/
def functionModule (id : DefId) (name : String) (defTypes : Table DefId Ty) : TypedModule where
  defTypes := defTypes
  hir := ⟨[.mk (.fn (.mk id name ⟨[], none, [], none⟩ (.mk [] default) default)) default], default⟩

theorem functionModule_version (name : String) {defTypes : Table DefId Ty} {ty : Ty}
    (hty : defTypes id = some ty) :
    (functionModule id name defTypes).version.bindings = Table.insert Table.empty name ty ∧
      (functionModule id name defTypes).version.defTypes = defTypes ∧
      (functionModule id name defTypes).version.items = [id] := by
  simp [TypedModule.version, TypedModule.rows, functionModule, ItemRows.mergeItem, ItemRows.bind,
    ItemRows.own, ItemRows.empty, hty]

/-- A file whose rows are those of its items is merged and dropped. -/
theorem consistent_iff_merge_invalidate :
    let m := functionModule 1 "f" (Table.insert Table.empty 1 .int)
    let ops : List Op := [.merge m 0, .invalidate 0]
    Separated ops ∧ ∀ pre, pre <+: ops → Consistent (TypeCheckCtx.run pre) (Live.run pre) := by
  intro m ops
  have hsep : Separated ops := by
    intro m₁ f₁ m₂ f₂ h₁ h₂ hne
    simp only [ops, List.mem_cons, Op.merge.injEq, reduceCtorEq, List.not_mem_nil, or_false] at h₁ h₂
    exact absurd (h₁.2.trans h₂.2.symm) hne
  refine ⟨hsep, (consistent_iff hsep).2 ?_⟩
  have hrow : Table.insert (Table.empty : Table DefId Ty) 1 .int 1 = some .int := Function.update_self ..
  obtain ⟨-, htypes, hitems⟩ := functionModule_version "f" hrow
  intro pre op hpre
  rcases pre with _ | ⟨op₁, _ | ⟨op₂, pre⟩⟩
  · obtain ⟨rfl, -⟩ := List.cons_prefix_cons.1 hpre
    constructor
    · intro _ _ _ h
      cases h
    · intro _ h
      cases h
  · obtain ⟨rfl, hrest⟩ := List.cons_prefix_cons.1 hpre
    obtain ⟨rfl, -⟩ := List.cons_prefix_cons.1 hrest
    intro v hv
    obtain rfl : m.version = v := by
      simpa [Live.run, Live.step] using hv
    refine ⟨fun id hid => ?_, fun other w name ty hne hw => ?_⟩
    · rw [htypes] at hid
      rw [hitems]
      by_contra hne
      simp only [List.mem_singleton] at hne
      simp [Table.insert, Table.empty, hne] at hid
    · simp [Live.run, Live.step, hne] at hw
  · have hlen := hpre.length_le
    simp [ops] at hlen

/-- Dropping a file keeps the row of a name declared inside its function. -/
theorem invalidate_keeps_inner_row :
    let m := functionModule 1 "f" (Table.insert (Table.insert Table.empty 1 .int) 2 .int)
    let ops : List Op := [.merge m 0, .invalidate 0]
    Separated ops ∧ (TypeCheckCtx.run ops).defTypes 2 = some .int ∧
      (∀ file, Live.run ops file = none) ∧ ¬ Consistent (TypeCheckCtx.run ops) (Live.run ops) := by
  intro m ops
  have hsep : Separated ops := by
    intro m₁ f₁ m₂ f₂ h₁ h₂ hne
    simp only [ops, List.mem_cons, Op.merge.injEq, reduceCtorEq, List.not_mem_nil, or_false] at h₁ h₂
    exact absurd (h₁.2.trans h₂.2.symm) hne
  have hrow : (TypeCheckCtx.run ops).defTypes 2 = some .int := rfl
  have hlive : ∀ file, Live.run ops file = none := by
    intro file
    simp [ops, Live.run, Live.step]
  refine ⟨hsep, hrow, hlive, fun h => ?_⟩
  obtain ⟨file, v, hv, -⟩ := live_of_row h.defTypes hrow
  rw [hlive file] at hv
  cases hv

end Cobrust

/-!
## The rows that a file wrote

The context with the file that wrote each row last. The files are not part of `TypeCheckCtx`; they say which rows are
left of a file.
-/

namespace Cobrust

open Store (Table)

/-- The files beside the rows of the context: of a name, and of a definition. -/
structure RowsCtx where
  ctx : TypeCheckCtx
  nameFile : Table String FileKey
  defFile : Table DefId FileKey

namespace RowsCtx

def new : RowsCtx :=
  ⟨.new, Table.empty, Table.empty⟩

/-- The file of the keys that a table has, the files before for the others. -/
def written {κ ν : Type} (file : FileKey) (rows : Table κ ν) (files : Table κ FileKey) : Table κ FileKey :=
  Table.shadow (fun k => (rows k).map fun _ => file) files

def mergeModule (c : RowsCtx) (m : TypedModule) (file : FileKey) : RowsCtx where
  ctx := c.ctx.mergeModule m file
  nameFile := written file m.version.bindings c.nameFile
  defFile := written file m.version.defTypes c.defFile

def invalidate (c : RowsCtx) (file : FileKey) : RowsCtx :=
  { c with ctx := c.ctx.invalidate file }

/-- A row is left that the file wrote last. -/
inductive Has (c : RowsCtx) (file : FileKey) : Prop
  | binding (name : String) (ty : Ty) (hfile : c.nameFile name = some file) (h : c.ctx.bindings name = some ty)
  | bindingDef (name : String) (id : DefId) (hfile : c.nameFile name = some file) (h : c.ctx.bindingDefs name = some id)
  | defType (id : DefId) (ty : Ty) (hfile : c.defFile id = some file) (h : c.ctx.defTypes id = some ty)
  | items (ids : List DefId) (h : c.ctx.fileDefs file = some ids)

/-- Every binding has a definition, which is an item of the file that wrote it. -/
structure Linked (c : RowsCtx) : Prop where
  named : ∀ name ty, c.ctx.bindings name = some ty → ∃ id, c.ctx.bindingDefs name = some id
  bindingDef : ∀ file name id, c.nameFile name = some file → c.ctx.bindingDefs name = some id →
    ∃ ids, c.ctx.fileDefs file = some ids ∧ id ∈ ids

/-- The definitions with a type that a file wrote are items of it. -/
def ItemsOnly (c : RowsCtx) (file : FileKey) : Prop :=
  ∀ id ty, c.defFile id = some file → c.ctx.defTypes id = some ty → ∃ ids, c.ctx.fileDefs file = some ids ∧ id ∈ ids

variable {c : RowsCtx} {m : TypedModule} {file other : FileKey}

theorem linked_new : new.Linked where
  named _ _ h := by cases h
  bindingDef _ _ _ h := by cases h

theorem not_has_new : ¬ new.Has file := by
  intro h
  cases h with
  | binding _ _ hfile => cases hfile
  | bindingDef _ _ hfile => cases hfile
  | defType _ _ hfile => cases hfile
  | items _ h => cases h

/-! ## Invalidation -/

/-- The definitions that `invalidate` removes. -/
def removed (c : RowsCtx) (file : FileKey) (id : DefId) : Bool :=
  ((c.ctx.fileDefs file).getD []).contains id

theorem invalidate_defTypes {id : DefId} {ty : Ty} :
    (c.invalidate file).ctx.defTypes id = some ty ↔ c.ctx.defTypes id = some ty ∧ c.removed file id = false := by
  unfold invalidate TypeCheckCtx.invalidate removed
  generalize (c.ctx.fileDefs file).getD [] = ids
  cases ids with
  | nil => simp
  | cons d ds => simp [Table.retain_eq_some]

theorem invalidate_bindingDefs {name : String} {id : DefId} :
    (c.invalidate file).ctx.bindingDefs name = some id ↔
      c.ctx.bindingDefs name = some id ∧ c.removed file id = false := by
  unfold invalidate TypeCheckCtx.invalidate removed
  generalize (c.ctx.fileDefs file).getD [] = ids
  cases ids with
  | nil => simp
  | cons d ds => simp [Table.retain_eq_some]

/-- A binding that is kept has an owner that is kept. -/
theorem binding_of_invalidate {name : String} {ty : Ty} (h : (c.invalidate file).ctx.bindings name = some ty) :
    c.ctx.bindings name = some ty ∧ ∀ id, c.ctx.bindingDefs name = some id → c.removed file id = false := by
  unfold invalidate TypeCheckCtx.invalidate at h
  unfold removed
  generalize (c.ctx.fileDefs file).getD [] = ids at h ⊢
  cases ids with
  | nil => exact ⟨h, fun _ _ => rfl⟩
  | cons d ds =>
    obtain ⟨hrow, hkeep⟩ := Table.retain_eq_some.1 (show _ = some ty from h)
    refine ⟨hrow, fun id hid => ?_⟩
    unfold TypeCheckCtx.keepBinding at hkeep
    rw [hid, Bool.and_eq_true, Bool.not_eq_true'] at hkeep
    exact hkeep.1

theorem invalidate_fileDefs : (c.invalidate file).ctx.fileDefs = Function.update c.ctx.fileDefs file none := by
  unfold invalidate TypeCheckCtx.invalidate
  generalize (c.ctx.fileDefs file).getD [] = ids
  cases ids <;> rfl

/-- A row that is kept belongs to an item of another file. -/
theorem owner_ne {id : DefId} (hremoved : c.removed file id = false)
    (h : ∃ ids, c.ctx.fileDefs other = some ids ∧ id ∈ ids) :
    other ≠ file ∧ ∃ ids, (c.invalidate file).ctx.fileDefs other = some ids ∧ id ∈ ids := by
  obtain ⟨ids, hids, hmem⟩ := h
  have hne : other ≠ file := by
    rintro rfl
    rw [removed, hids, Option.getD_some] at hremoved
    have hin : ids.contains id = true := List.contains_iff_mem.2 hmem
    rw [hin] at hremoved
    cases hremoved
  exact ⟨hne, ids, by rw [invalidate_fileDefs, Function.update_of_ne hne, hids], hmem⟩

theorem Linked.invalidate (h : c.Linked) (file : FileKey) : (c.invalidate file).Linked where
  named name ty hrow := by
    obtain ⟨hrow, hkept⟩ := binding_of_invalidate hrow
    obtain ⟨id, hid⟩ := h.named name ty hrow
    exact ⟨id, invalidate_bindingDefs.2 ⟨hid, hkept id hid⟩⟩
  bindingDef other name id hfile hrow := by
    obtain ⟨hrow, hkept⟩ := invalidate_bindingDefs.1 hrow
    exact (owner_ne hkept (h.bindingDef other name id hfile hrow)).2

theorem Linked.no_bindingDef (h : c.Linked) {name : String} {id : DefId} (hfile : c.nameFile name = some file) :
    (c.invalidate file).ctx.bindingDefs name ≠ some id := by
  intro hrow
  obtain ⟨hrow, hkept⟩ := invalidate_bindingDefs.1 hrow
  exact (owner_ne hkept (h.bindingDef file name id hfile hrow)).1 rfl

theorem removed_iff {id : DefId} : c.removed file id = true ↔ ∃ ids, c.ctx.fileDefs file = some ids ∧ id ∈ ids := by
  rw [removed, List.contains_iff_mem]
  cases c.ctx.fileDefs file with
  | none => simp
  | some ids => simp

/-- Something is left of an invalidated file exactly when it wrote a type for another definition than its items. -/
theorem has_invalidate_iff (h : c.Linked) : (c.invalidate file).Has file ↔ ¬ c.ItemsOnly file := by
  refine ⟨fun hhas hitems => ?_, fun hitems => ?_⟩
  · cases hhas with
    | binding name ty hfile hrow =>
      obtain ⟨id, hid⟩ := (h.invalidate file).named name ty hrow
      exact h.no_bindingDef hfile hid
    | bindingDef name id hfile hrow => exact h.no_bindingDef hfile hrow
    | defType id ty hfile hrow =>
      obtain ⟨hrow, hkept⟩ := invalidate_defTypes.1 hrow
      exact (owner_ne hkept (hitems id ty hfile hrow)).1 rfl
    | items ids hids =>
      rw [invalidate_fileDefs, Function.update_self] at hids
      cases hids
  · simp only [ItemsOnly, not_forall] at hitems
    obtain ⟨id, ty, hfile, hrow, hitem⟩ := hitems
    have hkept : c.removed file id = false := Bool.eq_false_iff.2 fun hremoved => hitem (removed_iff.1 hremoved)
    exact .defType id ty hfile (invalidate_defTypes.2 ⟨hrow, hkept⟩)

theorem Has.of_invalidate (h : (c.invalidate file).Has other) : c.Has other := by
  cases h with
  | binding name ty hfile hrow => exact .binding name ty hfile (binding_of_invalidate hrow).1
  | bindingDef name id hfile hrow => exact .bindingDef name id hfile (invalidate_bindingDefs.1 hrow).1
  | defType id ty hfile hrow => exact .defType id ty hfile (invalidate_defTypes.1 hrow).1
  | items ids hids =>
    rw [invalidate_fileDefs] at hids
    by_cases hne : other = file
    · subst hne
      rw [Function.update_self] at hids
      cases hids
    · rw [Function.update_of_ne hne] at hids
      exact .items ids hids

/-! ## Merging -/

theorem written_of_some {κ ν : Type} {rows : Table κ ν} {files : Table κ FileKey} {k : κ} {v : ν}
    (h : rows k = some v) : written file rows files k = some file := by
  rw [written, Table.shadow, h]
  rfl

theorem written_of_none {κ ν : Type} {rows : Table κ ν} {files : Table κ FileKey} {k : κ} (h : rows k = none) :
    written file rows files k = files k := by
  rw [written, Table.shadow, h]
  rfl

theorem mergeModule_fileDefs : (c.mergeModule m file).ctx.fileDefs = c.ctx.fileDefs.insert file m.version.items := by
  rw [mergeModule, TypeCheckCtx.mergeModule_eq]

/-- A binding definition behind a merge is one of the module, or one from before. -/
theorem mergeModule_bindingDefs {name : String} {id : DefId}
    (h : (c.mergeModule m file).ctx.bindingDefs name = some id) :
    m.version.bindingDefs name = some id ∧ (c.mergeModule m file).nameFile name = some file ∨
      c.ctx.bindingDefs name = some id ∧ (c.mergeModule m file).nameFile name = c.nameFile name := by
  rw [mergeModule, TypeCheckCtx.mergeModule_eq] at h
  rcases Table.shadow_eq_some.1 h with hm | ⟨hm, hc⟩
  · obtain ⟨ty, hty⟩ := Option.isSome_iff_exists.1 ((m.version.named name).trans (by rw [hm]; rfl))
    exact .inl ⟨hm, written_of_some hty⟩
  · exact .inr ⟨hc, written_of_none (Version.bindings_eq_none hm)⟩

theorem mergeModule_bindings {name : String} {ty : Ty} (h : (c.mergeModule m file).ctx.bindings name = some ty) :
    m.version.bindings name = some ty ∧ (c.mergeModule m file).nameFile name = some file ∨
      m.version.bindings name = none ∧ c.ctx.bindings name = some ty ∧
        (c.mergeModule m file).nameFile name = c.nameFile name := by
  rw [mergeModule, TypeCheckCtx.mergeModule_eq] at h
  rcases Table.shadow_eq_some.1 h with hm | ⟨hm, hc⟩
  · exact .inl ⟨hm, written_of_some hm⟩
  · exact .inr ⟨hm, hc, written_of_none hm⟩

theorem mergeModule_defTypes {id : DefId} {ty : Ty} (h : (c.mergeModule m file).ctx.defTypes id = some ty) :
    m.version.defTypes id = some ty ∧ (c.mergeModule m file).defFile id = some file ∨
      c.ctx.defTypes id = some ty ∧ (c.mergeModule m file).defFile id = c.defFile id := by
  rw [mergeModule, TypeCheckCtx.mergeModule_eq] at h
  rcases Table.shadow_eq_some.1 h with hm | ⟨hm, hc⟩
  · exact .inl ⟨hm, written_of_some hm⟩
  · exact .inr ⟨hc, written_of_none hm⟩

/-- The items of a file that is not merged, and those of the module for the file that is. -/
theorem owner_mergeModule {id : DefId} (hclean : other = file → id ∈ m.version.items)
    (h : other ≠ file → ∃ ids, c.ctx.fileDefs other = some ids ∧ id ∈ ids) :
    ∃ ids, (c.mergeModule m file).ctx.fileDefs other = some ids ∧ id ∈ ids := by
  rw [mergeModule_fileDefs]
  by_cases hne : other = file
  · subst hne
    exact ⟨_, Table.insert_self _ _ _, hclean rfl⟩
  · rw [Table.insert_of_ne hne]
    exact h hne

/-- A file is merged when its bindings are invalidated. -/
theorem Linked.mergeModule (h : c.Linked)
    (hclean : ∀ name id, c.nameFile name = some file → c.ctx.bindingDefs name ≠ some id) :
    (c.mergeModule m file).Linked where
  named name ty hrow := by
    rw [RowsCtx.mergeModule, TypeCheckCtx.mergeModule_eq]
    rcases mergeModule_bindings hrow with ⟨hm, -⟩ | ⟨hm, hc, -⟩
    · obtain ⟨id, hid⟩ := Version.exists_owner (by rw [hm]; rfl)
      exact ⟨id, Table.shadow_eq_some.2 (.inl hid)⟩
    · obtain ⟨id, hid⟩ := h.named name ty hc
      exact ⟨id, Table.shadow_eq_some.2 (.inr ⟨Version.bindingDefs_eq_none hm, hid⟩)⟩
  bindingDef other name id hfile hrow := by
    rcases mergeModule_bindingDefs hrow with ⟨hm, hwriter⟩ | ⟨hc, hwriter⟩
    · rw [hwriter] at hfile
      cases hfile
      exact owner_mergeModule (fun _ => m.version.owned name id hm) fun hne => absurd rfl hne
    · rw [hwriter] at hfile
      refine owner_mergeModule (fun heq => ?_) fun _ => h.bindingDef other name id hfile hc
      subst heq
      exact absurd hc (hclean name id hfile)

theorem Has.of_mergeModule (h : (c.mergeModule m file).Has other) (hne : other ≠ file) : c.Has other := by
  cases h with
  | binding name ty hfile hrow =>
    rcases mergeModule_bindings hrow with ⟨-, hwriter⟩ | ⟨-, hc, hwriter⟩
    · rw [hwriter] at hfile
      exact absurd (Option.some.inj hfile).symm hne
    · exact .binding name ty (hwriter ▸ hfile) hc
  | bindingDef name id hfile hrow =>
    rcases mergeModule_bindingDefs hrow with ⟨-, hwriter⟩ | ⟨hc, hwriter⟩
    · rw [hwriter] at hfile
      exact absurd (Option.some.inj hfile).symm hne
    · exact .bindingDef name id (hwriter ▸ hfile) hc
  | defType id ty hfile hrow =>
    rcases mergeModule_defTypes hrow with ⟨-, hwriter⟩ | ⟨hc, hwriter⟩
    · rw [hwriter] at hfile
      exact absurd (Option.some.inj hfile).symm hne
    · exact .defType id ty (hwriter ▸ hfile) hc
  | items ids hids =>
    rw [mergeModule_fileDefs, Table.insert_of_ne hne] at hids
    exact .items ids hids

end RowsCtx

end Cobrust
