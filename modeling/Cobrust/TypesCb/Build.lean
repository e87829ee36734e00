import Cobrust.TypesCb.Decode

/-!
# Actions that build types

`Makes A m Q`: in every good arena that keeps `A`, the action `m` succeeds, keeps what is there, leaves a good arena and
has a result with `Q`. One rule for each kind of step; the traversals are put together from these.
-/

namespace Cobrust.TypesCb

open Store TyArena

/-- The handle stands for the type. -/
def HandleOf (t : Ty) (arena : TyArena) (id : TyId) : Prop :=
  arena.Valid id ∧ decode arena id = t

/-- Handles of types, in order. -/
def HandlesOf (ts : List Ty) (arena : TyArena) (ids : List TyId) : Prop :=
  List.Forall₂ (fun id t => HandleOf t arena id) ids ts

/-- Named handles. -/
def FieldsOf (fields : List (String × Ty)) (arena : TyArena) (ids : List (String × TyId)) : Prop :=
  List.Forall₂ (fun f g => f.1 = g.1 ∧ HandleOf g.2 arena f.2) ids fields

def OptionOf : Option Ty → TyArena → Option TyId → Prop
  | some t, arena, some id => HandleOf t arena id
  | none, _, none => True
  | _, _, _ => False

/-- The entry may be appended and then stands for the type. -/
structure EntryOf (t : Ty) (arena : TyArena) (entry : TyEntry) : Prop where
  resolves : entry.Resolves arena
  valid : ∀ c ∈ entry.children arena, arena.Valid c
  fits : entry.FitsU32
  toTy : entry.toTy arena (decode arena) = t

/-- What an action does to every good arena that keeps `A`. -/
def Makes {α : Type} (A : TyArena) (m : Build α) (Q : TyArena → α → Prop) : Prop :=
  ∀ B, A.Extends B → B.Good → ∃ x C, m B = some (x, C) ∧ B.Extends C ∧ C.Good ∧ Q C x

section

variable {A B : TyArena} {t : Ty} {ts : List Ty} {fields : List (String × Ty)} {o : Option Ty}

theorem HandleOf.extends {id : TyId} (hA : A.Good) (h : A.Extends B) (hid : HandleOf t A id) : HandleOf t B id :=
  ⟨hid.1.extends h, (decode_extends hA.ordered h hid.1).trans hid.2⟩

theorem HandlesOf.extends {ids : List TyId} (hA : A.Good) (h : A.Extends B) (hids : HandlesOf ts A ids) :
    HandlesOf ts B ids :=
  hids.imp fun _ _ hid => hid.extends hA h

theorem FieldsOf.extends {ids : List (String × TyId)} (hA : A.Good) (h : A.Extends B) (hids : FieldsOf fields A ids) :
    FieldsOf fields B ids :=
  hids.imp fun _ _ hid => ⟨hid.1, hid.2.extends hA h⟩

theorem OptionOf.extends {id : Option TyId} (hA : A.Good) (h : A.Extends B) (hid : OptionOf o A id) :
    OptionOf o B id := by
  cases o <;> cases id
  · trivial
  · exact hid
  · exact hid
  · exact HandleOf.extends hA h hid

theorem EntryOf.extends {entry : TyEntry} (hA : A.Good) (h : A.Extends B) (he : EntryOf t A entry) :
    EntryOf t B entry := by
  refine ⟨?_, fun c hc => ?_, he.fits, ?_⟩
  · cases entry with
    | record rid =>
      exact (List.getElem?_eq_some_iff.1 (h.lookupRecord (List.getElem?_eq_getElem he.resolves))).1
    | fn fid => exact (List.getElem?_eq_some_iff.1 (h.lookupFn (List.getElem?_eq_getElem he.resolves))).1
    | _ => trivial
  · rw [children_extends h he.resolves] at hc
    exact (he.valid c hc).extends h
  · rw [toTy_extends h he.resolves, ← he.toTy]
    exact toTy_congr fun c hc => decode_extends hA.ordered h (he.valid c hc)

end

/-! ## Rules -/

namespace Makes

variable {α β : Type} {A B : TyArena} {m : Build α} {f : α → Build β} {Q : TyArena → α → Prop}
  {R : TyArena → β → Prop}

theorem mono (h : Makes A m Q) (hAB : A.Extends B) : Makes B m Q :=
  fun C hBC hC => h C (hAB.trans hBC) hC

theorem bind (h : Makes A m Q) (hf : ∀ x B, A.Extends B → B.Good → Q B x → Makes B (f x) R) : Makes A (m >>= f) R := by
  intro B hAB hB
  obtain ⟨x, C, hm, hBC, hC, hx⟩ := h B hAB hB
  obtain ⟨y, D, hy, hCD, hD, hR⟩ := hf x C (hAB.trans hBC) hC hx C (.refl C) hC
  refine ⟨y, D, ?_, hBC.trans hCD, hD, hR⟩
  rw [← hy]
  change (m B).bind _ = _
  rw [hm]
  rfl

theorem ofPure {x : α} (h : ∀ B, A.Extends B → B.Good → Q B x) : Makes A (pure x) Q :=
  fun B hAB hB => ⟨x, B, rfl, .refl B, hB, h B hAB hB⟩

theorem ofHere {look : TyArena → Option α} {x : α} (h : ∀ B, A.Extends B → look B = some x) :
    Makes A (here look) fun _ y => y = x :=
  fun B hAB hB => ⟨x, B, by simp [here, h B hAB], .refl B, hB, rfl⟩

theorem ofThere {x : α} : Makes A (there (some x)) fun _ y => y = x :=
  fun B _ hB => ⟨x, B, rfl, .refl B, hB, rfl⟩

end Makes

variable {A : TyArena} {t : Ty}

theorem getElem?_push {α : Type} {xs : List α} {x y : α} {i : Nat} (h : (xs ++ [x])[i]? = some y) :
    xs[i]? = some y ∨ i = xs.length ∧ y = x := by
  rcases Nat.lt_trichotomy i xs.length with hlt | rfl | hgt
  · exact .inl (by rwa [List.getElem?_append_left hlt] at h)
  · exact .inr ⟨rfl, by simpa using h.symm⟩
  · rw [List.getElem?_eq_none (by simpa using Nat.succ_le_of_lt hgt)] at h
    cases h

theorem getElem?_push_of_some {α : Type} {xs : List α} {x y : α} {i : Nat} (h : xs[i]? = some y) :
    (xs ++ [x])[i]? = some y := by
  rw [List.getElem?_append_left (List.getElem?_eq_some_iff.1 h).1, h]

theorem makes_insert {entry : TyEntry} (hA : A.Good) (he : EntryOf t A entry) : Makes A (insert entry) (HandleOf t) := by
  intro B hAB hB
  have heB := he.extends hA hAB
  let C : TyArena := { B with entries := B.entries ++ [entry] }
  have hext : B.Extends C := ⟨getElem?_push_of_some, id, id⟩
  have hnew : C.lookup B.entries.length = some entry := List.getElem?_concat_length
  have hordered : C.Ordered := by
    intro id e hid
    rcases getElem?_push hid with hold | ⟨rfl, rfl⟩
    · obtain ⟨hresolves, hlt⟩ := hB.ordered id e hold
      exact ⟨hresolves, children_extends hext hresolves ▸ hlt⟩
    · exact ⟨heB.resolves, fun c hc => heB.valid c (children_extends hext heB.resolves ▸ hc)⟩
  refine ⟨B.entries.length, C, rfl, hext, ⟨hordered, hB.regular.fields, fun id e hid => ?_⟩, valid_of_lookup hnew, ?_⟩
  · rcases getElem?_push hid with hold | ⟨rfl, rfl⟩
    · exact hB.regular.ids id e hold
    · exact heB.fits
  · rw [decode_eq hordered hnew]
    exact (heB.extends hB hext).toTy

theorem makes_insertRecord {fields : List (String × TyId)} (hfields : SortedRows fields) :
    Makes A (insertRecord ⟨fields⟩) fun B rid => B.lookupRecord rid = some ⟨fields⟩ := by
  intro B hAB hB
  let C : TyArena := { B with recordEntries := B.recordEntries ++ [⟨fields⟩] }
  have hext : B.Extends C := ⟨id, id, getElem?_push_of_some⟩
  refine ⟨B.recordEntries.length, C, rfl, hext, ⟨fun id e hid => ?_, fun rid e hrid => ?_, hB.regular.ids⟩,
    List.getElem?_concat_length⟩
  · obtain ⟨hresolves, hlt⟩ := hB.ordered id e hid
    refine ⟨?_, children_extends hext hresolves ▸ hlt⟩
    cases e with
    | record rid => exact (List.getElem?_eq_some_iff.1 (getElem?_push_of_some (List.getElem?_eq_getElem hresolves))).1
    | fn fid => exact hresolves
    | _ => trivial
  · rcases getElem?_push hrid with hold | ⟨rfl, rfl⟩
    · exact hB.regular.fields rid e hold
    · exact hfields

theorem makes_insertFn (entry : FnTyEntry) :
    Makes A (insertFn entry) fun B fid => B.lookupFn fid = some entry := by
  intro B hAB hB
  let C : TyArena := { B with fnEntries := B.fnEntries ++ [entry] }
  have hext : B.Extends C := ⟨id, getElem?_push_of_some, id⟩
  refine ⟨B.fnEntries.length, C, rfl, hext, ⟨fun id e hid => ?_, hB.regular.fields, hB.regular.ids⟩,
    List.getElem?_concat_length⟩
  obtain ⟨hresolves, hlt⟩ := hB.ordered id e hid
  refine ⟨?_, children_extends hext hresolves ▸ hlt⟩
  cases e with
  | record rid => exact hresolves
  | fn fid => exact (List.getElem?_eq_some_iff.1 (getElem?_push_of_some (List.getElem?_eq_getElem hresolves))).1
  | _ => trivial

/-! ## Entries by their children -/

section Entries

variable {ts : List Ty} {ids : List TyId} {a b : TyId} {u : Ty} {fields : List (String × Ty)}
  {names : List (String × TyId)} {o : Option Ty} {oid : Option TyId}

theorem HandlesOf.valid (h : HandlesOf ts A ids) : ∀ c ∈ ids, A.Valid c := by
  induction h with
  | nil => exact nofun
  | cons h _ ih => exact List.forall_mem_cons.2 ⟨h.1, ih⟩

theorem HandlesOf.map_decode (h : HandlesOf ts A ids) : ids.map (decode A) = ts := by
  induction h with
  | nil => rfl
  | cons h _ ih => rw [List.map_cons, h.2, ih]

theorem FieldsOf.valid (h : FieldsOf fields A names) : ∀ c ∈ names.map Prod.snd, A.Valid c := by
  induction h with
  | nil => exact nofun
  | cons h _ ih => exact List.forall_mem_cons.2 ⟨h.2.1, ih⟩

theorem FieldsOf.map_decode (h : FieldsOf fields A names) : (names.map fun f => (f.1, decode A f.2)) = fields := by
  induction h with
  | nil => rfl
  | cons h _ ih => rw [List.map_cons, ih, h.1, h.2.2]

theorem FieldsOf.sorted (h : FieldsOf fields A names) (hfields : SortedRows fields) : SortedRows names := by
  have hnames : names.map Prod.fst = fields.map Prod.fst := by
    rw [← h.map_decode, List.map_map]
    rfl
  rwa [SortedRows, hnames]

theorem OptionOf.valid (h : OptionOf o A oid) : ∀ c ∈ oid.toList, A.Valid c := by
  cases o <;> cases oid
  · exact nofun
  · exact h.elim
  · exact h.elim
  · exact fun c hc => List.mem_singleton.1 hc ▸ h.1

theorem OptionOf.map_decode (h : OptionOf o A oid) : oid.map (decode A) = o := by
  cases o <;> cases oid
  · rfl
  · exact h.elim
  · exact h.elim
  · exact congrArg some h.2

theorem entryOf_tuple (h : HandlesOf ts A ids) : EntryOf (.tuple ts) A (.tuple ids) :=
  ⟨trivial, h.valid, trivial, congrArg Ty.tuple h.map_decode⟩

theorem entryOf_list (h : HandleOf t A a) : EntryOf (.list t) A (.list a) :=
  ⟨trivial, List.forall_mem_singleton.2 h.1, trivial, congrArg Ty.list h.2⟩

theorem entryOf_set (h : HandleOf t A a) : EntryOf (.set t) A (.set a) :=
  ⟨trivial, List.forall_mem_singleton.2 h.1, trivial, congrArg Ty.set h.2⟩

theorem entryOf_ref (h : HandleOf t A a) : EntryOf (.ref t) A (.ref a) :=
  ⟨trivial, List.forall_mem_singleton.2 h.1, trivial, congrArg Ty.ref h.2⟩

theorem entryOf_dict (h : HandleOf t A a) (h' : HandleOf u A b) : EntryOf (.dict t u) A (.dict a b) :=
  ⟨trivial, List.forall_mem_cons.2 ⟨h.1, List.forall_mem_singleton.2 h'.1⟩, trivial, congrArg₂ Ty.dict h.2 h'.2⟩

theorem entryOf_adt {id : Int} (hid : 0 ≤ id ∧ id < 2 ^ 32) (h : HandlesOf ts A ids) :
    EntryOf (.adt (asU32 id) ts) A (.adt id ids) :=
  ⟨trivial, h.valid, hid, congrArg (Ty.adt _) h.map_decode⟩

theorem entryOf_alias {id : Int} (hid : 0 ≤ id ∧ id < 2 ^ 32) (h : HandlesOf ts A ids) :
    EntryOf (.alias (asU32 id) ts) A (.alias id ids) :=
  ⟨trivial, h.valid, hid, congrArg (Ty.alias _) h.map_decode⟩

theorem entryOf_record {rid : RecordId} (hrid : A.lookupRecord rid = some ⟨names⟩) (hsorted : SortedRows fields)
    (h : FieldsOf fields A names) : EntryOf (.record fields) A (.record rid) := by
  refine ⟨(List.getElem?_eq_some_iff.1 hrid).1, ?_, trivial, ?_⟩
  · simp only [TyEntry.children, hrid]
    exact h.valid
  · simp only [TyEntry.toTy, hrid, h.map_decode, fromPairs_of_sorted hsorted]

theorem entryOf_fn {fid : FnTyId} {positional : List TyId} {named : List (String × TyId)}
    {varPositional varKeyword : Option TyId} {returnTy : TyId} {va vk : Option Ty}
    (hfid : A.lookupFn fid = some ⟨positional, named, varPositional, varKeyword, returnTy⟩)
    (hpositional : HandlesOf ts A positional) (hnamed : FieldsOf fields A named) (hva : OptionOf va A varPositional)
    (hvk : OptionOf vk A varKeyword) (hreturn : HandleOf t A returnTy) :
    EntryOf (.fn ts fields va vk t) A (.fn fid) := by
  refine ⟨(List.getElem?_eq_some_iff.1 hfid).1, ?_, trivial, ?_⟩
  · simp only [TyEntry.children, hfid, List.mem_append, List.mem_singleton]
    rintro c (hc | hc | hc | hc | rfl)
    · exact hpositional.valid c hc
    · exact hnamed.valid c hc
    · exact hva.valid c hc
    · exact hvk.valid c hc
    · exact hreturn.1
  · simp only [TyEntry.toTy, hfid, hpositional.map_decode, hnamed.map_decode, hva.map_decode, hvk.map_decode, hreturn.2]

end Entries

section Children

variable {f : TyId → Build TyId} {g : TyId → Ty}

theorem makes_mapM {items : List TyId} (hf : ∀ c ∈ items, Makes A (f c) (HandleOf (g c))) :
    Makes A (items.mapM f) (HandlesOf (items.map g)) := by
  induction items generalizing A with
  | nil => exact .ofPure fun _ _ _ => .nil
  | cons c items ih =>
    rw [List.mapM_cons]
    obtain ⟨hc, hitems⟩ := List.forall_mem_cons.1 hf
    refine hc.bind fun id B hAB hB hid => ?_
    refine (ih fun c hc => (hitems c hc).mono hAB).bind fun ids C hBC hC hids => ?_
    exact .ofPure fun D hCD hD => .cons (hid.extends hB (hBC.trans hCD)) (hids.extends hC hCD)

theorem makes_mapFields {fields : List (String × TyId)}
    (hf : ∀ c ∈ fields.map Prod.snd, Makes A (f c) (HandleOf (g c))) :
    Makes A (mapFields f fields) (FieldsOf (fields.map fun field => (field.1, g field.2))) := by
  induction fields generalizing A with
  | nil => exact .ofPure fun _ _ _ => .nil
  | cons field fields ih =>
    obtain ⟨hc, hfields⟩ := List.forall_mem_cons.1 hf
    rw [mapFields, List.mapM_cons, bind_assoc]
    refine hc.bind fun id B hAB hB hid => ?_
    rw [pure_bind]
    refine (ih fun c hc => (hfields c hc).mono hAB).bind fun ids C hBC hC hids => ?_
    exact .ofPure fun D hCD hD => .cons ⟨rfl, hid.extends hB (hBC.trans hCD)⟩ (hids.extends hC hCD)

theorem makes_mapOption {o : Option TyId} (hf : ∀ c ∈ o.toList, Makes A (f c) (HandleOf (g c))) :
    Makes A (mapOption f o) (OptionOf (o.map g)) := by
  match o with
  | none => exact .ofPure fun _ _ _ => trivial
  | some c =>
    refine (hf c List.mem_cons_self).bind fun id B hAB hB hid => ?_
    exact .ofPure fun C hBC hC => HandleOf.extends hB hBC hid

/-- The shared arms: an entry over the new children that stands for the old entry with new types of its children. -/
theorem makes_rebuild {S : TyArena} {id : TyId} {entry : TyEntry} (hS : S.Good) (hentry : S.lookup id = some entry)
    {lookupRecord : RecordId → Build RecordEntry} {lookupFn : FnTyId → Build FnTyEntry}
    (hrecord : ∀ rid e, S.lookupRecord rid = some e → Makes A (lookupRecord rid) fun _ y => y = e)
    (hfn : ∀ fid e, S.lookupFn fid = some e → Makes A (lookupFn fid) fun _ y => y = e)
    (hf : ∀ c ∈ entry.children S, Makes A (f c) (HandleOf (g c))) :
    Makes A (rebuild lookupRecord lookupFn f entry) (EntryOf (entry.toTy S g)) := by
  have hfits := hS.regular.ids id entry hentry
  obtain ⟨hresolves, -⟩ := hS.ordered id entry hentry
  cases entry with
  | tuple items =>
    refine (makes_mapM hf).bind fun ids B _ hB hids => ?_
    exact .ofPure fun C hBC hC => entryOf_tuple (hids.extends hB hBC)
  | adt n args =>
    refine (makes_mapM hf).bind fun ids B _ hB hids => ?_
    exact .ofPure fun C hBC hC => entryOf_adt hfits (hids.extends hB hBC)
  | «alias» n args =>
    refine (makes_mapM hf).bind fun ids B _ hB hids => ?_
    exact .ofPure fun C hBC hC => entryOf_alias hfits (hids.extends hB hBC)
  | list inner =>
    refine (hf inner List.mem_cons_self).bind fun id B _ hB hid => ?_
    exact .ofPure fun C hBC hC => entryOf_list (hid.extends hB hBC)
  | set inner =>
    refine (hf inner List.mem_cons_self).bind fun id B _ hB hid => ?_
    exact .ofPure fun C hBC hC => entryOf_set (hid.extends hB hBC)
  | ref inner =>
    refine (hf inner List.mem_cons_self).bind fun id B _ hB hid => ?_
    exact .ofPure fun C hBC hC => entryOf_ref (hid.extends hB hBC)
  | dict k v =>
    refine (hf k List.mem_cons_self).bind fun mk B hAB hB hk => ?_
    refine ((hf v (List.mem_cons_of_mem _ List.mem_cons_self)).mono hAB).bind fun mv C hBC hC hv => ?_
    exact .ofPure fun D hCD hD => entryOf_dict (hk.extends hB (hBC.trans hCD)) (hv.extends hC hCD)
  | record rid =>
    have hrid : S.lookupRecord rid = some S.recordEntries[rid] := List.getElem?_eq_getElem hresolves
    have hsorted := hS.regular.fields rid _ hrid
    simp only [TyEntry.children, TyEntry.toTy, hrid] at hf ⊢
    have hsorted' : SortedRows (S.recordEntries[rid].fields.map fun f => (f.1, g f.2)) := by
      rw [SortedRows, List.map_map]
      exact hsorted
    rw [fromPairs_of_sorted hsorted']
    refine (hrecord rid _ hrid).bind fun e B hAB hB he => ?_
    subst he
    refine (makes_mapFields fun c hc => (hf c hc).mono hAB).bind fun names C _ hC hnames => ?_
    refine (makes_insertRecord (hnames.sorted hsorted')).bind fun newRid D hCD hD hnew => ?_
    exact .ofPure fun E hDE hE =>
      entryOf_record (hDE.lookupRecord hnew) hsorted' (hnames.extends hC (hCD.trans hDE))
  | fn fid =>
    have hfid : S.lookupFn fid = some S.fnEntries[fid] := List.getElem?_eq_getElem hresolves
    simp only [TyEntry.children, TyEntry.toTy, hfid, List.mem_append, List.mem_singleton] at hf ⊢
    refine (hfn fid _ hfid).bind fun e B hAB hB he => ?_
    subst he
    refine (makes_mapM fun c hc => (hf c (.inl hc)).mono hAB).bind fun positional C hBC hC hpos => ?_
    have hAC := hAB.trans hBC
    refine (makes_mapFields fun c hc => (hf c (.inr (.inl hc))).mono hAC).bind fun named D hCD hD hnamed => ?_
    have hAD := hAC.trans hCD
    refine (makes_mapOption fun c hc => (hf c (.inr (.inr (.inl hc)))).mono hAD).bind fun va E hDE hE hva => ?_
    have hAE := hAD.trans hDE
    refine (makes_mapOption fun c hc => (hf c (.inr (.inr (.inr (.inl hc))))).mono hAE).bind
      fun vk F hEF hF hvk => ?_
    refine ((hf _ (.inr (.inr (.inr (.inr rfl))))).mono (hAE.trans hEF)).bind fun ret G hFG hG hret => ?_
    refine (makes_insertFn _).bind fun newFid H hGH hH hnew => ?_
    refine .ofPure fun I hHI hI => ?_
    have hGI := hGH.trans hHI
    have hFI := hFG.trans hGI
    have hEI := hEF.trans hFI
    have hDI := hDE.trans hEI
    exact entryOf_fn (hHI.lookupFn hnew) (hpos.extends hC (hCD.trans hDI)) (hnamed.extends hD hDI)
      (hva.extends hE hEI) (hvk.extends hF hFI) (hret.extends hG hGI)
  | _ => exact .ofPure fun _ _ _ => ⟨trivial, fun _ h => absurd h List.not_mem_nil, hfits, rfl⟩

end Children

end Cobrust.TypesCb
