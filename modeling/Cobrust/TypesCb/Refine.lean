import Cobrust.TypesCb.Build

/-!
# The mirror refines the tree

Every traversal of the arena does under `decode` what its counterpart does to the tree.

* `makes_insertRust`, `makes_cloneIntoArena`, `makes_substVar`: the traversals that build.
* `collectVars_eq`, `canonicalizeArenaRoot_eq`: the traversals that read.
* `arena_refines`: all of them, in the words of the types.
-/

namespace Cobrust

open Store

namespace Ty

mutual

/-- What the mirror can hold: no `IntN` and no `Array`, ids that are `u32`, records sorted as their maps are. -/
def Mirrored : Ty → Prop
  | .intN _ | .array _ _ => False
  | .tuple items => MirroredList items
  | .list t | .set t | .ref t => Mirrored t
  | .dict k v => Mirrored k ∧ Mirrored v
  | .record fields => SortedRows fields ∧ MirroredFields fields
  | .fn positional named varPositional varKeyword returnTy =>
    MirroredList positional ∧ MirroredFields named ∧ MirroredOption varPositional ∧ MirroredOption varKeyword ∧
      Mirrored returnTy
  | .adt id args | .alias id args => id < 2 ^ 32 ∧ MirroredList args
  | .generic id | .var id => id < 2 ^ 32
  | _ => True

def MirroredList : List Ty → Prop
  | [] => True
  | t :: rest => Mirrored t ∧ MirroredList rest

def MirroredFields : List (String × Ty) → Prop
  | [] => True
  | (_, t) :: rest => Mirrored t ∧ MirroredFields rest

def MirroredOption : Option Ty → Prop
  | .none => True
  | .some t => Mirrored t

end

end Ty

namespace TypesCb

open TyArena

variable {A B S : TyArena} {id : TyId} {entry : TyEntry}

theorem asU32_ofNat {n : Nat} (h : n < 2 ^ 32) : asU32 n = n := by
  unfold asU32
  omega

theorem fits_ofNat {n : Nat} (h : n < 2 ^ 32) : (0 : Int) ≤ n ∧ (n : Int) < 2 ^ 32 := by
  omega

mutual

theorem makes_insertRust : ∀ t : Ty, t.Mirrored → ∀ {A : TyArena}, A.Good →
    Makes A (insertRustIntoArena t) (HandleOf t)
  | .tuple items, h, _, hA => (makes_insertRustList items h hA).bind fun _ _ _ hB hids =>
      makes_insert hB (entryOf_tuple hids)
  | .list t, h, _, hA => (makes_insertRust t h hA).bind fun _ _ _ hB hid => makes_insert hB (entryOf_list hid)
  | .set t, h, _, hA => (makes_insertRust t h hA).bind fun _ _ _ hB hid => makes_insert hB (entryOf_set hid)
  | .ref t, h, _, hA => (makes_insertRust t h hA).bind fun _ _ _ hB hid => makes_insert hB (entryOf_ref hid)
  | .dict k v, h, _, hA => (makes_insertRust k h.1 hA).bind fun _ _ _ hB hk =>
      (makes_insertRust v h.2 hB).bind fun _ _ hBC hC hv => makes_insert hC (entryOf_dict (hk.extends hB hBC) hv)
  | .record fields, h, _, hA => (makes_insertRustFields fields h.2 hA).bind fun _ _ _ hB hnames =>
      (makes_insertRecord (hnames.sorted h.1)).bind fun _ _ hBC hC hrid =>
        makes_insert hC (entryOf_record hrid h.1 (hnames.extends hB hBC))
  | .fn positional named varPositional varKeyword returnTy, ⟨hp, hn, ha, hk, hr⟩, _, hA =>
    (makes_insertRustList positional hp hA).bind fun _ B _ hB hpos =>
      (makes_insertRustFields named hn hB).bind fun _ C hBC hC hnamed =>
        (makes_insertRustOption varPositional ha hC).bind fun _ D hCD hD hva =>
          (makes_insertRustOption varKeyword hk hD).bind fun _ E hDE hE hvk =>
            (makes_insertRust returnTy hr hE).bind fun _ F hEF hF hret =>
              (makes_insertFn _).bind fun _ G hFG hG hnew =>
                have hEG := hEF.trans hFG
                have hDG := hDE.trans hEG
                have hCG := hCD.trans hDG
                makes_insert hG (entryOf_fn hnew (hpos.extends hB (hBC.trans hCG)) (hnamed.extends hC hCG)
                  (hva.extends hD hDG) (hvk.extends hE hEG) (hret.extends hF hFG))
  | .adt n args, h, _, hA => (makes_insertRustList args h.2 hA).bind fun _ _ _ hB hids =>
      makes_insert hB (by simpa only [asU32_ofNat h.1] using entryOf_adt (fits_ofNat h.1) hids)
  | .alias n args, h, _, hA => (makes_insertRustList args h.2 hA).bind fun _ _ _ hB hids =>
      makes_insert hB (by simpa only [asU32_ofNat h.1] using entryOf_alias (fits_ofNat h.1) hids)
  | .generic n, h, _, hA => makes_insert hA ⟨trivial, nofun, fits_ofNat h, congrArg Ty.generic (asU32_ofNat h)⟩
  | .var n, h, _, hA => makes_insert hA ⟨trivial, nofun, fits_ofNat h, congrArg Ty.var (asU32_ofNat h)⟩
  | .bool, _, _, hA | .int, _, _, hA | .float, _, _, hA | .imag, _, _, hA | .str, _, _, hA | .bytes, _, _, hA
  | .none, _, _, hA | .never, _, _, hA => makes_insert hA ⟨trivial, nofun, trivial, rfl⟩
  | .intN _, h, _, _ | .array _ _, h, _, _ => h.elim

theorem makes_insertRustList : ∀ items : List Ty, Ty.MirroredList items → ∀ {A : TyArena}, A.Good →
    Makes A (insertRustList items) (HandlesOf items)
  | [], _, _, _ => .ofPure fun _ _ _ => .nil
  | t :: rest, h, _, hA => (makes_insertRust t h.1 hA).bind fun _ _ _ hB hid =>
      (makes_insertRustList rest h.2 hB).bind fun _ _ hBC hC hids =>
        .ofPure fun _ hCD _ => .cons (hid.extends hB (hBC.trans hCD)) (hids.extends hC hCD)

theorem makes_insertRustFields : ∀ fields : List (String × Ty), Ty.MirroredFields fields → ∀ {A : TyArena}, A.Good →
    Makes A (insertRustFields fields) (FieldsOf fields)
  | [], _, _, _ => .ofPure fun _ _ _ => .nil
  | (_, t) :: rest, h, _, hA => (makes_insertRust t h.1 hA).bind fun _ _ _ hB hid =>
      (makes_insertRustFields rest h.2 hB).bind fun _ _ hBC hC hids =>
        .ofPure fun _ hCD _ => .cons ⟨rfl, hid.extends hB (hBC.trans hCD)⟩ (hids.extends hC hCD)

theorem makes_insertRustOption : ∀ o : Option Ty, Ty.MirroredOption o → ∀ {A : TyArena}, A.Good →
    Makes A (insertRustOption o) (OptionOf o)
  | .none, _, _, _ => .ofPure fun _ _ _ => trivial
  | .some t, h, _, hA => (makes_insertRust t h hA).bind fun _ _ _ hB hid =>
      .ofPure fun _ hBC _ => HandleOf.extends hB hBC hid

end

theorem makes_cloneIntoArena (hS : S.Good) {fuel : Nat} (hid : S.Valid id) (hfuel : id < fuel) :
    Makes A (cloneIntoArena fuel S id) (HandleOf (decode S id)) := by
  induction fuel generalizing id A with
  | zero => exact absurd hfuel (Nat.not_lt_zero _)
  | succ fuel ih =>
    obtain ⟨entry, hentry⟩ := hid.exists_lookup
    rw [cloneIntoArena, hentry, decode_eq hS.ordered hentry]
    refine Makes.ofThere.bind fun e B _ _ he => ?_
    subst he
    refine (makes_rebuild hS hentry (fun rid r hr => hr ▸ .ofThere) (fun fid r hr => hr ▸ .ofThere) fun c hc => ?_).bind
      fun e C _ hC he => makes_insert hC he
    have hlt := (hS.ordered id _ hentry).2 c hc
    exact ih (hlt.trans hid) (hlt.trans_le (Nat.le_of_lt_succ hfuel))

theorem makes_cloneWithinArena (hA : A.Good) {fuel : Nat} (hid : A.Valid id) (hfuel : id < fuel) :
    Makes A (cloneWithinArena fuel id) (HandleOf (decode A id)) := by
  induction fuel generalizing id with
  | zero => exact absurd hfuel (Nat.not_lt_zero _)
  | succ fuel ih =>
    obtain ⟨entry, hentry⟩ := hid.exists_lookup
    rw [cloneWithinArena, decode_eq hA.ordered hentry]
    refine (Makes.ofHere fun B hAB => hAB.lookup hentry).bind fun e B hAB _ he => ?_
    subst he
    refine (makes_rebuild hA hentry (fun rid r hr => .ofHere fun C hBC => hBC.lookupRecord (hAB.lookupRecord hr))
      (fun fid r hr => .ofHere fun C hBC => hBC.lookupFn (hAB.lookupFn hr)) fun c hc => ?_).bind
      fun e C _ hC he => makes_insert hC he
    have hlt := (hA.ordered id _ hentry).2 c hc
    exact (ih (hlt.trans hid) (hlt.trans_le (Nat.le_of_lt_succ hfuel))).mono hAB

/-- Substitution goes through an entry to its children. -/
theorem substVar_toTy {v : Nat} {r : Ty} {child : TyId → Ty} (hentry : ∀ n, entry ≠ .var n)
    (hsorted : ∀ rid e, A.lookupRecord rid = some e → SortedRows e.fields) :
    (entry.toTy A child).substVar v r = entry.toTy A fun c => (child c).substVar v r := by
  cases entry with
  | var n => exact absurd rfl (hentry n)
  | record rid =>
    simp only [TyEntry.toTy]
    split
    · next e he =>
      have hrows : ∀ g : TyId → Ty, SortedRows (e.fields.map fun f => (f.1, g f.2)) := by
        intro g
        rw [SortedRows, List.map_map]
        exact hsorted rid e he
      rw [fromPairs_of_sorted (hrows child), fromPairs_of_sorted (hrows fun c => (child c).substVar v r)]
      simp [Ty.substVar, Ty.bind, Ty.bindFields_eq, Function.comp_def]
    · rfl
  | fn fid =>
    simp only [TyEntry.toTy]
    split
    · simp [Ty.substVar, Ty.bind, Ty.bindList_eq, Ty.bindFields_eq, Ty.bindOption_eq, Function.comp_def]
    · rfl
  | _ => simp [TyEntry.toTy, Ty.substVar, Ty.bind, Ty.bindList_eq, Function.comp_def]

theorem makes_substVar (hA : A.Good) {fuel : Nat} {v : Nat} {replacement : TyId} (hrep : A.Valid replacement)
    (hid : A.Valid id) (hfuel : id + replacement + 1 < fuel) :
    Makes A (substVar fuel id v replacement) (HandleOf ((decode A id).substVar v (decode A replacement))) := by
  induction fuel generalizing id with
  | zero => exact absurd hfuel (Nat.not_lt_zero _)
  | succ fuel ih =>
    obtain ⟨entry, hentry⟩ := hid.exists_lookup
    have hdecode := decode_eq hA.ordered hentry
    have hfits := hA.regular.ids id entry hentry
    rw [substVar]
    refine (Makes.ofHere fun B hAB => hAB.lookup hentry).bind fun e B hAB _ he => ?_
    subst he
    have hself : HandleOf (decode A id) A id := ⟨hid, rfl⟩
    have hleaf : (decode A id).substVar v (decode A replacement) = decode A id → Makes B (pure id)
        (HandleOf ((decode A id).substVar v (decode A replacement))) := by
      intro hsame
      rw [hsame]
      exact .ofPure fun C hBC _ => hself.extends hA (hAB.trans hBC)
    have hcomposite : (∀ n, e ≠ .var n) → Makes B
        (rebuild (fun rid => here (·.lookupRecord rid)) (fun fid => here (·.lookupFn fid))
          (fun child => substVar fuel child v replacement) e >>= insert)
        (HandleOf ((decode A id).substVar v (decode A replacement))) := by
      intro hvar
      rw [hdecode, substVar_toTy hvar hA.regular.fields]
      refine (makes_rebuild hA hentry (fun rid r hr => .ofHere fun C hBC => hBC.lookupRecord (hAB.lookupRecord hr))
        (fun fid r hr => .ofHere fun C hBC => hBC.lookupFn (hAB.lookupFn hr)) fun c hc => ?_).bind
        fun e C _ hC he => makes_insert hC he
      have hlt : c < id := (hA.ordered id _ hentry).2 c hc
      exact (ih (hlt.trans hid) (by unfold TyId at *; omega)).mono hAB
    cases e with
    | var n =>
      obtain ⟨hpos, hlt⟩ := hfits
      have hvar : decode A id = .var (asU32 n) := hdecode
      by_cases hn : n = (v : Int)
      · simp only [hn, if_true]
        have hclone : (decode A id).substVar v (decode A replacement) = decode A replacement := by
          rw [hvar, hn, Ty.substVar, Ty.bind, if_pos (asU32_ofNat (by omega))]
        rw [hclone]
        exact (makes_cloneWithinArena hA hrep (by unfold TyId at *; omega)).mono hAB
      · simp only [hn, if_false]
        refine hleaf ?_
        have hne : asU32 n ≠ v := by
          unfold asU32
          omega
        rw [hvar, Ty.substVar, Ty.bind, if_neg hne]
    | tuple items => exact hcomposite fun _ h => by cases h
    | list inner => exact hcomposite fun _ h => by cases h
    | set inner => exact hcomposite fun _ h => by cases h
    | ref inner => exact hcomposite fun _ h => by cases h
    | dict k w => exact hcomposite fun _ h => by cases h
    | record rid => exact hcomposite fun _ h => by cases h
    | fn fid => exact hcomposite fun _ h => by cases h
    | adt n args => exact hcomposite fun _ h => by cases h
    | «alias» n args => exact hcomposite fun _ h => by cases h
    | _ => exact hleaf (by rw [hdecode]; rfl)

/-- The ids of variables as they are stored. -/
def stored (vars : List Nat) : List Int :=
  vars.map Int.ofNat

theorem mem_stored {n : Int} (hn : 0 ≤ n ∧ n < 2 ^ 32) (vars : List Nat) : n ∈ stored vars ↔ asU32 n ∈ vars := by
  have hcast : ((asU32 n : Nat) : Int) = n := by
    unfold asU32
    omega
  constructor
  · intro h
    obtain ⟨m, hm, hmn⟩ := List.mem_map.1 h
    have hmn' : m = asU32 n := by
      have : (m : Int) = n := hmn
      omega
    exact hmn' ▸ hm
  · intro h
    exact List.mem_map.2 ⟨asU32 n, h, hcast⟩

theorem collectVarsList_eq (items : List Ty) (out : List Nat) :
    Ty.collectVarsList out items = items.foldl Ty.collectVars out := by
  induction items generalizing out with
  | nil => rfl
  | cons t rest ih => rw [Ty.collectVarsList, ih, List.foldl_cons]

theorem collectVarsFields_eq (fields : List (String × Ty)) (out : List Nat) :
    Ty.collectVarsFields out fields = (fields.map Prod.snd).foldl Ty.collectVars out := by
  induction fields generalizing out with
  | nil => rfl
  | cons f rest ih => rw [Ty.collectVarsFields, ih, List.map_cons, List.foldl_cons]

theorem collectVarsOption_eq (o : Option Ty) (out : List Nat) :
    Ty.collectVarsOption out o = o.toList.foldl Ty.collectVars out := by
  cases o <;> rfl

theorem collectAll_eq {f : TyId → List Int → Option (List Int)} {child : TyId → Ty} {items : List TyId} {out : List Nat}
    (hf : ∀ c ∈ items, ∀ out, f c (stored out) = some (stored ((child c).collectVars out))) :
    collectAll f items (stored out) = some (stored ((items.map child).foldl Ty.collectVars out)) := by
  induction items generalizing out with
  | nil => rfl
  | cons c items ih =>
    obtain ⟨hc, hitems⟩ := List.forall_mem_cons.1 hf
    rw [collectAll, List.foldlM_cons, hc]
    exact ih hitems

theorem collectVars_eq (hA : A.Good) {fuel : Nat} (hid : A.Valid id) (hfuel : id < fuel) (out : List Nat) :
    collectVars fuel A id (stored out) = some (stored ((decode A id).collectVars out)) := by
  induction fuel generalizing id out with
  | zero => exact absurd hfuel (Nat.not_lt_zero _)
  | succ fuel ih =>
    obtain ⟨entry, hentry⟩ := hid.exists_lookup
    obtain ⟨hresolves, hchildren⟩ := hA.ordered id entry hentry
    have hfits := hA.regular.ids id entry hentry
    have hchild : ∀ c ∈ entry.children A, ∀ out, collectVars fuel A c (stored out) =
        some (stored ((decode A c).collectVars out)) := fun c hc out =>
      ih ((hchildren c hc).trans hid) ((hchildren c hc).trans_le (Nat.le_of_lt_succ hfuel)) out
    rw [collectVars, decode_eq hA.ordered hentry, hentry, Option.bind_eq_bind, Option.bind_some]
    cases entry with
    | var n =>
      simp only [TyEntry.toTy, Ty.collectVars, mem_stored hfits]
      split
      · rfl
      · have hcast : n = Int.ofNat (asU32 n) := by
          obtain ⟨hpos, hlt⟩ := hfits
          unfold asU32
          simp only [Int.ofNat_eq_natCast]
          omega
        rw [stored, stored, List.map_append, List.map_singleton, ← hcast]
    | tuple items | adt _ items | «alias» _ items =>
      rw [TyEntry.toTy, Ty.collectVars, collectVarsList_eq]
      exact collectAll_eq hchild
    | list inner => exact hchild inner List.mem_cons_self out
    | set inner => exact hchild inner List.mem_cons_self out
    | ref inner => exact hchild inner List.mem_cons_self out
    | dict k v =>
      simp only [hchild k List.mem_cons_self, Option.bind_eq_bind, Option.bind_some]
      exact hchild v (List.mem_cons_of_mem _ List.mem_cons_self) _
    | record rid =>
      have hrid : A.lookupRecord rid = some A.recordEntries[rid] := List.getElem?_eq_getElem hresolves
      have hsorted : SortedRows (A.recordEntries[rid].fields.map fun f => (f.1, decode A f.2)) := by
        rw [SortedRows, List.map_map]
        exact hA.regular.fields rid _ hrid
      simp only [TyEntry.children, TyEntry.toTy, hrid] at hchild ⊢
      rw [fromPairs_of_sorted hsorted]
      refine (collectAll_eq hchild).trans ?_
      rw [Ty.collectVars, collectVarsFields_eq, List.map_map, List.map_map]
      rfl
    | fn fid =>
      have hfid : A.lookupFn fid = some A.fnEntries[fid] := List.getElem?_eq_getElem hresolves
      simp only [TyEntry.children, TyEntry.toTy, hfid, List.mem_append, List.mem_singleton] at hchild ⊢
      simp only [Option.bind_eq_bind, Option.bind_some,
        collectAll_eq fun c hc => hchild c (.inl hc), collectAll_eq fun c hc => hchild c (.inr (.inl hc)),
        collectAll_eq fun c hc => hchild c (.inr (.inr (.inl hc))),
        collectAll_eq fun c hc => hchild c (.inr (.inr (.inr (.inl hc))))]
      rw [hchild _ (.inr (.inr (.inr (.inr rfl)))), Ty.collectVars, collectVarsList_eq, collectVarsFields_eq,
        collectVarsOption_eq, collectVarsOption_eq, List.map_map, List.map_map]
      cases A.fnEntries[fid].varPositional <;> cases A.fnEntries[fid].varKeyword <;> rfl
    | _ => rfl

section Keys

open Parity CanonicalKey

variable {f : TyId → StateT Parity.TyArena Option CanonicalKey} {child : TyId → Ty}

theorem mapM_eq_total {items : List TyId} (hf : ∀ c ∈ items, f c = total (canonicalize (child c))) :
    items.mapM f = total (canonicalizeList (items.map child)) := by
  induction items with
  | nil => rfl
  | cons c items ih =>
    obtain ⟨hc, hitems⟩ := List.forall_mem_cons.1 hf
    rw [List.mapM_cons, hc, ih hitems]
    rfl

theorem canonicalizeFields_eq_total {fields : List (String × TyId)}
    (hf : ∀ c ∈ fields.map Prod.snd, f c = total (canonicalize (child c))) :
    TypesCb.canonicalizeFields f fields =
      total (Parity.canonicalizeFields (fields.map fun field => (field.1, child field.2))) := by
  induction fields with
  | nil => rfl
  | cons field fields ih =>
    obtain ⟨hc, hfields⟩ := List.forall_mem_cons.1 hf
    obtain ⟨name, c⟩ := field
    have hrest := ih hfields
    rw [TypesCb.canonicalizeFields] at hrest ⊢
    rw [List.mapM_cons, hrest]
    simp only [show f c = total (canonicalize (child c)) from hc]
    rfl

theorem canonicalizeOption_eq_total {o : Option TyId} (name : String)
    (hf : ∀ c ∈ o.toList, f c = total (canonicalize (child c))) :
    TypesCb.canonicalizeOption f name o = total (Parity.canonicalizeOption name (o.map child)) := by
  match o with
  | none => rfl
  | some c =>
    rw [TypesCb.canonicalizeOption, hf c List.mem_cons_self]
    rfl

theorem canonicalizeFnEntry_eq_total {e : FnTyEntry}
    (hpositional : ∀ c ∈ e.positional, f c = total (canonicalize (child c)))
    (hnamed : ∀ c ∈ e.named.map Prod.snd, f c = total (canonicalize (child c)))
    (hva : ∀ c ∈ e.varPositional.toList, f c = total (canonicalize (child c)))
    (hvk : ∀ c ∈ e.varKeyword.toList, f c = total (canonicalize (child c)))
    (hreturn : f e.returnTy = total (canonicalize (child e.returnTy))) :
    canonicalizeFnEntry f e = total (do
      let positional ← canonicalizeList (e.positional.map child)
      let named ← Parity.canonicalizeFields (e.named.map fun field => (field.1, child field.2))
      let varPositional ← Parity.canonicalizeOption "*args" (e.varPositional.map child)
      let varKeyword ← Parity.canonicalizeOption "**kwargs" (e.varKeyword.map child)
      let returnTy ← canonicalize (child e.returnTy)
      pure (node "Fn" (positional ++ named ++ varPositional ++ varKeyword ++ [node "->" [returnTy]]))) := by
  rw [canonicalizeFnEntry, mapM_eq_total hpositional, canonicalizeFields_eq_total hnamed,
    canonicalizeOption_eq_total "*args" hva, canonicalizeOption_eq_total "**kwargs" hvk, hreturn]
  rfl

theorem canonicalizeArenaRoot_eq (hA : A.Good) {fuel : Nat} (hid : A.Valid id) (hfuel : id < fuel) :
    canonicalizeArenaRoot fuel A id = total (canonicalize (decode A id)) := by
  induction fuel generalizing id with
  | zero => exact absurd hfuel (Nat.not_lt_zero _)
  | succ fuel ih =>
    obtain ⟨entry, hentry⟩ := hid.exists_lookup
    obtain ⟨hresolves, hchildren⟩ := hA.ordered id entry hentry
    have hchild : ∀ c ∈ entry.children A, canonicalizeArenaRoot fuel A c = total (canonicalize (decode A c)) :=
      fun c hc => ih ((hchildren c hc).trans hid) ((hchildren c hc).trans_le (Nat.le_of_lt_succ hfuel))
    rw [canonicalizeArenaRoot, decode_eq hA.ordered hentry, hentry]
    cases entry with
    | tuple items =>
      have hitems : items.mapM (canonicalizeArenaRoot fuel A) = _ := mapM_eq_total hchild
      change (items.mapM (canonicalizeArenaRoot fuel A) >>= fun children => pure (node "Tuple" children)) = _
      rw [hitems]
      rfl
    | list inner =>
      change (canonicalizeArenaRoot fuel A inner >>= fun c => pure (node "List" [c])) = _
      rw [hchild inner List.mem_cons_self]
      rfl
    | set inner =>
      change (canonicalizeArenaRoot fuel A inner >>= fun c => pure (node "Set" [c])) = _
      rw [hchild inner List.mem_cons_self]
      rfl
    | ref inner =>
      change (canonicalizeArenaRoot fuel A inner >>= fun c => pure (node "Ref" [c])) = _
      rw [hchild inner List.mem_cons_self]
      rfl
    | dict k v =>
      change (canonicalizeArenaRoot fuel A k >>= fun kc => canonicalizeArenaRoot fuel A v >>= fun vc =>
        pure (node "Dict" [kc, vc])) = _
      rw [hchild k List.mem_cons_self, hchild v (List.mem_cons_of_mem _ List.mem_cons_self)]
      rfl
    | adt n args =>
      have hargs : args.mapM (canonicalizeArenaRoot fuel A) = _ := mapM_eq_total hchild
      change (total (Parity.TyArena.adtId (asU32 n)) >>= fun canon => args.mapM (canonicalizeArenaRoot fuel A) >>=
        fun children => pure (node ("Adt#" ++ toString canon) children)) = _
      rw [hargs]
      rfl
    | «alias» n args =>
      have hargs : args.mapM (canonicalizeArenaRoot fuel A) = _ := mapM_eq_total hchild
      change (total (Parity.TyArena.aliasId (asU32 n)) >>= fun canon => args.mapM (canonicalizeArenaRoot fuel A) >>=
        fun children => pure (node ("Alias#" ++ toString canon) children)) = _
      rw [hargs]
      rfl
    | record rid =>
      obtain ⟨e, hrid⟩ : ∃ e, A.lookupRecord rid = some e := ⟨_, List.getElem?_eq_getElem hresolves⟩
      have hsorted : SortedRows (e.fields.map fun f => (f.1, decode A f.2)) := by
        rw [SortedRows, List.map_map]
        exact hA.regular.fields rid _ hrid
      change (total Parity.TyArena.freshRecordId >>= fun _ => liftM (A.lookupRecord rid) >>= fun e =>
        TypesCb.canonicalizeFields (canonicalizeArenaRoot fuel A) e.fields >>= fun children =>
          pure (node "Record" children)) = _
      simp only [TyEntry.children, TyEntry.toTy, hrid] at hchild ⊢
      rw [fromPairs_of_sorted hsorted]
      change (total Parity.TyArena.freshRecordId >>= fun _ =>
        TypesCb.canonicalizeFields (canonicalizeArenaRoot fuel A) e.fields >>= fun children =>
          pure (node "Record" children)) = _
      rw [canonicalizeFields_eq_total hchild]
      rfl
    | fn fid =>
      obtain ⟨e, hfid⟩ : ∃ e, A.lookupFn fid = some e := ⟨_, List.getElem?_eq_getElem hresolves⟩
      change (total Parity.TyArena.freshFnTyId >>= fun _ => liftM (A.lookupFn fid) >>=
        canonicalizeFnEntry (canonicalizeArenaRoot fuel A)) = _
      simp only [TyEntry.children, TyEntry.toTy, hfid, List.mem_append, List.mem_singleton] at hchild ⊢
      have hrun := canonicalizeFnEntry_eq_total (fun c hc => hchild c (.inl hc)) (fun c hc => hchild c (.inr (.inl hc)))
        (fun c hc => hchild c (.inr (.inr (.inl hc)))) (fun c hc => hchild c (.inr (.inr (.inr (.inl hc)))))
        (hchild _ (.inr (.inr (.inr (.inr rfl)))))
      change (total Parity.TyArena.freshFnTyId >>= fun _ => canonicalizeFnEntry (canonicalizeArenaRoot fuel A) e) = _
      rw [hrun]
      rfl
    | _ => rfl

end Keys

/-! ## The mirror -/

/-- The action ends with a handle of the type in a good arena, and the handles there were keep their types. -/
def Builds (A : TyArena) (m : Build TyId) (t : Ty) : Prop :=
  ∃ id A', m A = some (id, A') ∧ A'.Good ∧ A'.Valid id ∧ decode A' id = t ∧
    ∀ old, A.Valid old → A'.Valid old ∧ decode A' old = decode A old

theorem Makes.builds {m : Build TyId} {t : Ty} (hA : A.Good) (h : Makes A m (HandleOf t)) : Builds A m t := by
  obtain ⟨id, A', hm, hext, hgood, hvalid, ht⟩ := h A (.refl A) hA
  exact ⟨id, A', hm, hgood, hvalid, ht, fun old hold => ⟨hold.extends hext, decode_extends hA.ordered hext hold⟩⟩

/-- **The mirror.** A type goes into an arena and comes back out of it; in good arenas the traversals end, and do under
`decode` what is done to the tree. -/
theorem arena_refines {t : Ty} (ht : t.Mirrored) {A B : TyArena} (hA : A.Good) (hB : B.Good) :
    (∃ root arena, tyCbArenaFromRust t = some (root, arena) ∧ arena.Ordered ∧ arena.Valid root ∧
      decode arena root = t) ∧
    ∀ id, A.Valid id →
      (∀ (v : Nat) replacement fuel, A.Valid replacement → id + replacement + 1 < fuel →
        Builds A (substVar fuel id v replacement) ((decode A id).substVar v (decode A replacement))) ∧
      ∀ fuel, id < fuel →
        Builds B (cloneIntoArena fuel A id) (decode A id) ∧
        freeVars fuel A id = some (stored (decode A id).freeVars) ∧
        canonicalizeArenaRoot fuel A id = total (Parity.canonicalize (decode A id)) := by
  constructor
  · obtain ⟨root, arena, hrun, hgood, hvalid, hdecode, -⟩ := (makes_insertRust t ht empty_good).builds empty_good
    exact ⟨root, arena, hrun, hgood.ordered, hvalid, hdecode⟩
  · intro id hid
    constructor
    · intro v replacement fuel hrep hfuel
      exact (makes_substVar hA hrep hid hfuel).builds hA
    · intro fuel hfuel
      exact ⟨(makes_cloneIntoArena hA hid hfuel).builds hB, collectVars_eq hA hid hfuel [],
        canonicalizeArenaRoot_eq hA hid hfuel⟩

/-- A record of two variables and a list of it. -/
def pairArena : TyArena :=
  { entries := [.var 0, .var 1, .record 0, .list 2], recordEntries := [⟨[("a", 0), ("b", 1)]⟩] }

theorem pairArena_good : pairArena.Good := by
  have hfits : ∀ entry ∈ pairArena.entries, entry.FitsU32 := by
    simp [pairArena, TyEntry.FitsU32]
  have hsorted : ∀ entry ∈ pairArena.recordEntries, SortedRows entry.fields :=
    List.forall_mem_singleton.2 (show List.Pairwise (· < ·) ["a", "b"] by decide)
  exact ⟨by decide, fun _ entry h => hsorted entry (List.mem_of_getElem? h),
    fun _ entry h => hfits entry (List.mem_of_getElem? h)⟩

theorem arena_refines_pair : (∃ root arena, tyCbArenaFromRust (.list .int) = some (root, arena) ∧ arena.Ordered ∧
      arena.Valid root ∧ decode arena root = .list .int) ∧
    Builds pairArena (substVar 8 3 1 0) (.list (.record [("a", .var 0), ("b", .var 0)])) ∧
    freeVars 4 pairArena 3 = some [0, 1] := by
  obtain ⟨htree, hall⟩ := arena_refines (t := .list .int) trivial pairArena_good empty_good
  obtain ⟨hsubst, hread⟩ := hall 3 (by decide)
  exact ⟨htree, hsubst 1 0 8 (by decide) (by decide), (hread 4 (by decide)).2.1⟩

/-- The same with the fields the other way. -/
def unsortedArena : TyArena :=
  { pairArena with recordEntries := [⟨[("b", 0), ("a", 1)]⟩] }

/-- Where a record is not sorted, the variables come in another order than in its type. -/
theorem unsorted_record_order : unsortedArena.Ordered ∧ unsortedArena.Valid 2 ∧
    freeVars 3 unsortedArena 2 = some [0, 1] ∧ (decode unsortedArena 2).freeVars = [1, 0] := by
  refine ⟨by decide, by decide, by decide, by decide⟩

end TypesCb

end Cobrust
