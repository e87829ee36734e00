import Cobrust.Codegen.Place
import Cobrust.Control.Outcome

/-!
# What assignments do

The lowering of an assignment, followed through `write_place` and `lower_place_load`, against what its
target denotes.
-/

namespace Cobrust.Codegen

open Control (except_bind_ok)
open Hir (Expr ResolvedName)
open Llvm (Val)
open Mir (Place Projection Operand LocalId BodyBuilder)

variable {m : Machine} {st : State} {place : Place} {loc : Loc} {c old v : Val} {steps : List Step}
  {frame : Frame}

/-! ## Values -/

theorem coerceValueTo_self (v : Val) : coerceValueTo v v.ty = v :=
  if_pos rfl

theorem coerceValueTo_toStruct (v : Val) (fields : List Val) :
    coerceValueTo v (Val.struct fields).ty = v := by
  unfold coerceValueTo
  split
  · rfl
  · cases v <;> rfl

theorem coerceValueTo_struct (fields : List Val) (ty : Llvm.Ty) :
    coerceValueTo (.struct fields) ty = .struct fields := by
  unfold coerceValueTo
  split
  · rfl
  · cases ty <;> rfl

/-- A value that is read as one of another type is an integer or a pointer. -/
theorem ty_of_coerceValueTo (h : coerceValueTo c v.ty = v) :
    c.ty = v.ty ∨ (∃ w, v.ty = .int w) ∨ v.ty = .ptr := by
  unfold coerceValueTo at h
  split at h
  · next heq => exact .inl heq
  · split at h
    · next w hty _ => exact .inr (.inl ⟨_, hty⟩)
    · next hty _ => exact .inr (.inr hty)
    · next w hty _ => exact .inr (.inl ⟨_, hty⟩)
    · exact .inl (by rw [h])

/-- A type of which there is one value. -/
def Single (ty : Llvm.Ty) : Prop :=
  ∀ v w : Val, v.ty = ty → w.ty = ty → v = w

theorem not_single_int (w : Llvm.Width) : ¬ Single (.int w) := by
  intro h
  have heq := h (.int w 0) (.int w 1) rfl rfl
  rw [Val.int.injEq] at heq
  cases w <;> exact absurd (eq_of_heq heq.2) (by decide)

theorem not_single_ptr : ¬ Single .ptr := by
  intro h
  have heq := h (.ptr 0) (.ptr 1) rfl rfl
  simp at heq

/-- One value, read from a value of another type, leaves room for another. -/
theorem single_coerceValueTo (hsingle : Single v.ty) (h : coerceValueTo c v.ty = v) : c.ty = v.ty := by
  rcases ty_of_coerceValueTo h with hty | ⟨w, hty⟩ | hty
  · exact hty
  · rw [hty] at hsingle
    exact absurd hsingle (not_single_int w)
  · rw [hty] at hsingle
    exact absurd hsingle not_single_ptr

/-- A value with a pointer in it is not the only one of its type. -/
theorem not_single_of_ptr {path : List Nat} {a : BitVec 64} (h : c.component path = some (.ptr a)) :
    ¬ Single c.ty := by
  intro hsingle
  have hty : (c.setComponent path (.ptr (a + 1))).ty = c.ty := Llvm.ty_setComponent h rfl
  have heq := hsingle _ _ hty rfl
  have hcomp := Llvm.component_setComponent (.ptr (a + 1)) h
  rw [heq, h] at hcomp
  simp at hcomp

theorem ty_store (hm : m.Lawful) (content val : Val) : (store m content val).ty = content.ty := by
  rw [store]
  split
  · next h => exact h
  · exact hm.overlay_ty content val

theorem writePlace_ok (h : st.frame.allocas place.localId = some c) :
    writePlace m st.frame place v = .ok { st.frame with
      allocas := Function.update st.frame.allocas place.localId
        (some (store m c (coerceValueTo v c.ty))) } := by
  rw [writePlace, Frame.localAlloca, h]
  rfl

theorem read_local (id : LocalId) (path : List Nat) :
    st.read ⟨.local' id, path⟩ = (st.frame.allocas id).bind fun v => v.component path := rfl

/-- A target stays in its root, as a component of a struct there, or leaves it through a pointer. -/
theorem resolve_root {root : Root} {path : List Nat} (h : st.resolve ⟨root, path⟩ steps = some loc) :
    (loc.root = root ∧ ∃ q, loc.path = path ++ q ∧ q.length = steps.length) ∨
      (∃ a s, loc.root = .slot a s) ∧
        ∃ q a, q.length < steps.length ∧ st.read ⟨root, path ++ q⟩ = some (.ptr a) := by
  induction steps generalizing root path with
  | nil =>
    rw [State.resolve, Option.some.injEq] at h
    subst h
    exact .inl ⟨rfl, [], (List.append_nil _).symm, rfl⟩
  | cons step steps ih =>
    have hpointer : ∀ (a : BitVec 64) (s : Slot), st.read ⟨root, path⟩ = some (.ptr a) →
        st.resolve ⟨.slot a s, []⟩ steps = some loc →
        (∃ a s, loc.root = .slot a s) ∧
          ∃ q a, q.length < (step :: steps).length ∧ st.read ⟨root, path ++ q⟩ = some (.ptr a) := by
      intro a s hread hrest
      refine ⟨?_, [], a, Nat.succ_pos _, by rw [List.append_nil]; exact hread⟩
      rcases ih hrest with ⟨hroot, -⟩ | ⟨hslot, -⟩
      · exact ⟨a, s, hroot⟩
      · exact hslot
    have hcomponent : ∀ k : Nat, st.resolve ⟨root, path ++ [k]⟩ steps = some loc →
        (loc.root = root ∧ ∃ q, loc.path = path ++ q ∧ q.length = (step :: steps).length) ∨
          (∃ a s, loc.root = .slot a s) ∧
            ∃ q a, q.length < (step :: steps).length ∧ st.read ⟨root, path ++ q⟩ = some (.ptr a) := by
      intro k hk
      rcases ih hk with ⟨hroot, q, hpath, hlen⟩ | ⟨hslot, q, a, hlen, hread⟩
      · refine .inl ⟨hroot, k :: q, ?_, congrArg Nat.succ hlen⟩
        rw [hpath, List.append_assoc, List.singleton_append]
      · refine .inr ⟨hslot, k :: q, a, Nat.succ_lt_succ hlen, ?_⟩
        rw [← hread, List.append_assoc, List.singleton_append]
    unfold State.resolve at h
    split at h
    · next a _ hread => exact .inr (hpointer a _ hread h)
    · next a _ hread =>
      obtain ⟨k, -, hk⟩ := Option.bind_eq_some_iff.1 h
      exact .inr (hpointer a _ hread hk)
    · obtain ⟨k, -, hk⟩ := Option.bind_eq_some_iff.1 h
      split at hk
      · exact hcomponent k hk
      · cases hk
    · obtain ⟨k, -, hk⟩ := Option.bind_eq_some_iff.1 h
      exact hcomponent k hk
    · cases h

/-- The projections that `lower_lvalue` makes of a step. -/
def Matches : Projection → Step → Prop
  | .field i, .attr _ => i = 0
  | .index _, .index _ => True
  | _, _ => False

/-- Lists, tuples and instances, but not the arrays of a fixed length. -/
def NoArray (declTy : Option Ty) : Prop :=
  ∀ elemTy len, declTy ≠ some (.array elemTy len)

theorem loadProjected_whole {declTy : Option Ty} {projs : List Projection}
    (hmatch : List.Forall₂ Matches projs steps) (hne : steps ≠ []) (harray : NoArray declTy)
    (hfield : ∀ name fields, steps = [.attr name] → c ≠ .struct fields) :
    loadProjected m declTy c projs = .ok c := by
  cases hmatch with
  | nil => exact absurd rfl hne
  | @cons proj step projs steps hhead htail =>
    cases htail with
    | cons => cases proj <;> rfl
    | nil =>
      cases proj with
      | field i =>
        cases step with
        | index => exact absurd hhead id
        | attr name =>
          cases c with
          | struct fields => exact absurd rfl (hfield name fields rfl)
          | _ => rfl
      | index idx =>
        rw [loadProjected]
        exact harray
      | deref => exact absurd hhead id
      | discriminant => exact absurd hhead id

theorem loadProjected_field {declTy : Option Ty} {projs : List Projection} {name : String} {f : Val}
    {fs : List Val} (hmatch : List.Forall₂ Matches projs [.attr name]) :
    loadProjected m declTy (.struct (f :: fs)) projs = .ok f := by
  cases hmatch with
  | @cons proj step projs steps hhead htail =>
    cases htail with
    | nil =>
      cases proj with
      | field i =>
        have hzero : i = 0 := hhead
        rw [hzero]
        rfl
      | _ => exact absurd hhead id

/-! ## The assignment -/

/-- The allocas after the store. -/
def stored (m : Machine) (st : State) (id : LocalId) (c v : Val) : Frame :=
  { st.frame with
    allocas := Function.update st.frame.allocas id (some (store m c (coerceValueTo v c.ty))) }

theorem correct_iff (halloc : st.frame.allocas place.localId = some c) :
    Correct m st place loc v ↔
      { st with frame := stored m st place.localId c v } = st.write loc v ∧
        ∃ r, loadProjected m (st.frame.declTy place.localId) (store m c (coerceValueTo v c.ty))
          place.projections = .ok r ∧ coerceValueTo r v.ty = v := by
  have hload : lowerPlaceLoad m (stored m st place.localId c v) place =
      loadProjected m (st.frame.declTy place.localId) (store m c (coerceValueTo v c.ty))
        place.projections := by
    rw [lowerPlaceLoad, Frame.localAlloca]
    simp only [stored, Function.update_self]
    rfl
  rw [Correct, writePlace_ok halloc]
  constructor
  · rintro ⟨frame, hframe, hstate, hread⟩
    cases hframe
    rw [← stored, hload] at hread
    exact ⟨hstate, hread⟩
  · rintro ⟨hstate, hread⟩
    rw [← hload] at hread
    exact ⟨_, rfl, hstate, hread⟩

variable (hm : m.Lawful) (halloc : st.frame.allocas place.localId = some c)
  (hmatch : List.Forall₂ Matches place.projections steps)
  (harray : NoArray (st.frame.declTy place.localId))

include halloc hmatch harray in
/-- Behind a pointer the code is wrong: it would have to leave the base local alone for every value. -/
theorem not_correct_slot {a : BitVec 64} {s : Slot} (hroot : loc.root = .slot a s)
    (hsteps : steps ≠ []) {q : List Nat} {b : BitVec 64} (hq : q.length < steps.length)
    (hptr : c.component q = some (.ptr b))
    (hall : ∀ v, v.ty = old.ty → Correct m st place loc v) : False := by
  have hkeep : ∀ v : Val, v.ty = old.ty → coerceValueTo c v.ty = v := by
    intro v hv
    obtain ⟨hstate, r, hr, hback⟩ := (correct_iff halloc).1 (hall v hv)
    have hframe : (st.write loc v).frame = st.frame := by
      rw [State.write, hroot]
      split <;> rfl
    have hsame : store m c (coerceValueTo v c.ty) = c := by
      have hallocas := congrArg (fun st' : State => st'.frame.allocas place.localId) hstate
      simp only [hframe, stored, Function.update_self, halloc, Option.some.injEq] at hallocas
      exact hallocas
    rw [hsame, loadProjected_whole hmatch hsteps harray] at hr
    · cases hr
      exact hback
    · rintro name fields rfl rfl
      have hnil : q = [] := List.eq_nil_of_length_eq_zero (Nat.lt_one_iff.1 hq)
      rw [hnil, Llvm.component_nil] at hptr
      cases hptr
  have hsingle : Single old.ty := by
    intro v w hv hw
    rw [← hkeep v hv, ← hkeep w hw, hv, hw]
  have hty : c.ty = old.ty := single_coerceValueTo hsingle (hkeep old rfl)
  rw [← hty] at hsingle
  exact not_single_of_ptr hptr hsingle

include hm halloc hmatch harray in
/-- A component that is not named by a single attribute is read back as the whole tuple. -/
theorem not_correct_component {fs : List Val} {path : List Nat} (hstruct : c = .struct fs)
    (hsteps : steps ≠ []) (hattr : ∀ name, steps ≠ [.attr name]) (hpath : path ≠ [])
    (hcomp : c.component path = some v) (loc : Loc) : ¬ Correct m st place loc v := by
  subst hstruct
  intro hcorrect
  obtain ⟨-, r, hr, hback⟩ := (correct_iff halloc).1 hcorrect
  rw [loadProjected_whole hmatch hsteps harray fun name _ h => absurd h (hattr name)] at hr
  cases hr
  have hty := ty_store hm (.struct fs) (coerceValueTo v (Val.struct fs).ty)
  generalize store m (.struct fs) (coerceValueTo v (Val.struct fs).ty) = content at hty hback
  cases content with
  | struct gs =>
    rw [coerceValueTo_struct] at hback
    rw [hback] at hty
    exact Llvm.ty_component_ne hpath hcomp hty
  | _ => cases hty

theorem write_local {id : LocalId} {path : List Nat} (halloc : st.frame.allocas id = some c) :
    st.write ⟨.local' id, path⟩ v =
      { st with frame := { st.frame with
        allocas := Function.update st.frame.allocas id (some (c.setComponent path v)) } } := by
  rw [State.write, State.rootVal, halloc]
  rfl

/-- A store to a struct puts the value over its first field, where it has the type of that field. -/
theorem store_first {f : Val} {fs : List Val} (hm : m.Lawful) (hty : v.ty = f.ty) :
    store m (.struct (f :: fs)) (coerceValueTo v (Val.struct (f :: fs)).ty) = .struct (v :: fs) := by
  have hcomp : (Val.struct (f :: fs)).component [0] = some f := rfl
  have hne := Llvm.ty_component_ne (List.cons_ne_nil 0 []) hcomp
  rw [coerceValueTo_toStruct, store, if_neg (fun heq => hne (hty.symm.trans heq))]
  exact hm.overlay_first f fs v hty

include hm halloc hmatch in
theorem correct_first {name : String} {f : Val} {fs : List Val} (hsteps : steps = [.attr name])
    (hstruct : c = .struct (f :: fs)) (hty : v.ty = f.ty) :
    Correct m st place ⟨.local' place.localId, [0]⟩ v := by
  subst hsteps hstruct
  rw [correct_iff halloc, write_local halloc, store_first hm hty]
  refine ⟨?_, v, loadProjected_field hmatch, coerceValueTo_self v⟩
  rw [stored, store_first hm hty]
  rfl

include hm halloc hmatch in
theorem correct_later_iff {name : String} {f : Val} {fs : List Val} {k : Nat}
    (hsteps : steps = [.attr name]) (hstruct : c = .struct (f :: fs)) (hk : k ≠ 0)
    (hcomp : c.component [k] = some old) :
    (∀ v, v.ty = old.ty → Correct m st place ⟨.local' place.localId, [k]⟩ v) ↔
      f.ty = old.ty ∧ Single old.ty := by
  subst hsteps hstruct
  constructor
  · intro hall
    have hkeep : ∀ v : Val, v.ty = old.ty → coerceValueTo f v.ty = v := by
      intro v hv
      obtain ⟨hstate, r, hr, hback⟩ := (correct_iff halloc).1 (hall v hv)
      obtain ⟨fs', hset⟩ := @Llvm.setComponent_head f fs _ hk v
      rw [write_local halloc, hset] at hstate
      have hallocas := congrArg (fun st' : State => st'.frame.allocas place.localId) hstate
      simp only [stored, Function.update_self, Option.some.injEq] at hallocas
      rw [hallocas, loadProjected_field hmatch] at hr
      cases hr
      exact hback
    have hsingle : Single old.ty := by
      intro v w hv hw
      rw [← hkeep v hv, ← hkeep w hw, hv, hw]
    exact ⟨single_coerceValueTo hsingle (hkeep old rfl), hsingle⟩
  · rintro ⟨hty, hsingle⟩ v hv
    obtain rfl : v = f := hsingle v f hv hty
    obtain rfl : v = old := hsingle v old hv rfl
    rw [correct_iff halloc, write_local halloc, store_first hm rfl, Llvm.setComponent_self hcomp]
    refine ⟨?_, v, loadProjected_field hmatch, coerceValueTo_self v⟩
    rw [stored, store_first hm rfl]

/-- The name at the root of a target, and its steps with values for the indices. -/
inductive Denotes : Expr → ResolvedName → List Step → Prop
  | name (rn : ResolvedName) (span : Span) : Denotes (.mk (.name rn) span) rn []
  | attr {base : Expr} {rn : ResolvedName} {steps : List Step} (name : String) (span : Span)
      (hbase : Denotes base rn steps) : Denotes (.mk (.attr base name) span) rn (steps ++ [.attr name])
  | index {base : Expr} {rn : ResolvedName} {steps : List Step} (index : Hir.IndexKind) (i : Int)
      (span : Span) (hbase : Denotes base rn steps) :
      Denotes (.mk (.index base index) span) rn (steps ++ [.index i])

theorem lowerLvalue_matches {ctx : Mir.LowerCtx} {e : Expr} {rn : ResolvedName} {b b' : BodyBuilder}
    (hdenotes : Denotes e rn steps) (h : Mir.lowerLvalue ctx e b = .ok (place, b')) :
    List.Forall₂ Matches place.projections steps ∧
      ∃ span b₁ b₂, Mir.lookupLocalForResolved ctx rn span b₁ = .ok (place.localId, b₂) := by
  induction hdenotes generalizing place b' with
  | name rn span =>
    rw [Mir.lowerLvalue] at h
    obtain ⟨⟨id, b₁⟩, hid, hrest⟩ := except_bind_ok.1 h
    cases hrest
    exact ⟨.nil, span, b, b', hid⟩
  | attr name span hbase ih =>
    rw [Mir.lowerLvalue] at h
    obtain ⟨⟨basePlace, b₁⟩, hplace, hrest⟩ := except_bind_ok.1 h
    cases hrest
    obtain ⟨hmatch, hroot⟩ := ih hplace
    exact ⟨List.rel_append hmatch (.cons rfl .nil), hroot⟩
  | index index i span hbase ih =>
    rw [Mir.lowerLvalue] at h
    obtain ⟨⟨basePlace, b₁⟩, hplace, hrest⟩ := except_bind_ok.1 h
    obtain ⟨⟨idxOp, b₂⟩, -, hrest⟩ := except_bind_ok.1 hrest
    cases hrest
    obtain ⟨hmatch, hroot⟩ := ih hplace
    exact ⟨List.rel_append hmatch (.cons trivial .nil), hroot⟩

/-- Whether `lower_assign` calls a helper: for dicts and `coil` buffers. -/
def usesHelper (ctx : Mir.LowerCtx) : Expr → Bool
  | .mk (.index base _) _ =>
    match ctx.synthExprTy base with
    | .adt id _ => id == coilBufferAdt
    | .dict _ _ => true
    | _ => false
  | _ => false

theorem lowerAssign_place {ctx : Mir.LowerCtx} {target value : Expr} {span : Span} {b b' : BodyBuilder}
    (hhelper : usesHelper ctx target = false)
    (h : Mir.lowerAssign ctx target value span b = .ok ((), b')) :
    ∃ b₀, Mir.lowerPlaceAssign ctx target value span b₀ = .ok ((), b') := by
  unfold Mir.lowerAssign at h
  obtain ⟨⟨id, b₀⟩, -, h⟩ := except_bind_ok.1 h
  refine ⟨b₀, ?_⟩
  cases target with
  | mk kind span' =>
    cases kind with
    | index base index =>
      have hhelper' : (match ctx.synthExprTy base with
        | .adt id _ => id == coilBufferAdt
        | .dict _ _ => true
        | _ => false) = false := hhelper
      cases hty : ctx.synthExprTy base with
      | adt id' args =>
        rw [hty] at hhelper'
        have hne : ¬ id' = coilBufferAdt := by simpa using hhelper'
        simp only [hty, if_neg hne] at h
        exact h
      | dict k v =>
        rw [hty] at hhelper'
        cases hhelper'
      | _ =>
        simp only [hty] at h
        exact h
    | _ => exact h

/-- The last statement of an assignment stores to the place of its target. -/
theorem lowerPlaceAssign_stmt {ctx : Mir.LowerCtx} {target value : Expr} {span : Span}
    {b b' : BodyBuilder} {rn : ResolvedName} (hdenotes : Denotes target rn steps)
    (h : Mir.lowerPlaceAssign ctx target value span b = .ok ((), b')) :
    ∃ (place : Place) (op : Operand) (b₁ : BodyBuilder) (id : Mir.BlockId),
      List.Forall₂ Matches place.projections steps ∧
      (∃ span b₂ b₃, Mir.lookupLocalForResolved ctx rn span b₂ = .ok (place.localId, b₃)) ∧
      b₁.curBlock = some id ∧ b' = b₁.pushStmt id ⟨.assign place (.use op), span⟩ := by
  unfold Mir.lowerPlaceAssign at h
  obtain ⟨⟨op, b₀⟩, -, h⟩ := except_bind_ok.1 h
  obtain ⟨⟨place, b₁⟩, hplace, h⟩ := except_bind_ok.1 h
  obtain ⟨hmatch, hroot⟩ := lowerLvalue_matches hdenotes hplace
  refine ⟨place, op, b₁, ?_⟩
  cases hcur : b₁.curBlock with
  | none =>
    simp only [Mir.emitAssign, Mir.emitStmt, hcur] at h
    cases h
  | some id =>
    simp only [Mir.emitAssign, Mir.emitStmt, hcur] at h
    cases h
    exact ⟨id, hmatch, hroot, rfl, rfl⟩

/-- `t.0` on a tuple. A later component does as well where it and the first have the same type, of one
value. -/
def NamesFirst (st : State) (id : LocalId) (steps : List Step) (old : Val) : Prop :=
  ∃ name k f fs, steps = [.attr name] ∧ name.toNat? = some k ∧
    st.frame.allocas id = some (.struct (f :: fs)) ∧ (k = 0 ∨ f.ty = old.ty ∧ Single old.ty)

theorem resolve_attr {name : String} {id : LocalId} {fs : List Val}
    (halloc : st.frame.allocas id = some (.struct fs))
    (h : st.resolve ⟨.local' id, []⟩ [.attr name] = some loc) :
    ∃ k, name.toNat? = some k ∧ k < fs.length ∧ loc = ⟨.local' id, [k]⟩ := by
  have hread : st.read ⟨.local' id, []⟩ = some (.struct fs) := by
    rw [read_local, halloc, Option.bind_some, Llvm.component_nil]
  unfold State.resolve at h
  rw [hread] at h
  obtain ⟨k, hk, h⟩ := Option.bind_eq_some_iff.1 h
  split at h
  · next hlt =>
    rw [State.resolve, Option.some.injEq] at h
    exact ⟨k, hk, hlt, h.symm⟩
  · cases h

theorem resolve_alloca {id : LocalId} (hsteps : steps ≠ [])
    (h : st.resolve ⟨.local' id, []⟩ steps = some loc) : (st.frame.allocas id).isSome := by
  cases hid : st.frame.allocas id with
  | some c => rfl
  | none =>
    have hread : st.read ⟨.local' id, []⟩ = none := by rw [read_local, hid, Option.bind_none]
    cases steps with
    | nil => exact absurd rfl hsteps
    | cons step steps =>
      unfold State.resolve at h
      rw [hread] at h
      cases h

theorem correct_iff_namesFirst (hm : m.Lawful) (hmatch : List.Forall₂ Matches place.projections steps)
    (hsteps : steps ≠ []) (harray : NoArray (st.frame.declTy place.localId))
    (hresolve : st.resolve ⟨.local' place.localId, []⟩ steps = some loc) (hread : st.read loc = some old) :
    (∀ v, v.ty = old.ty → Correct m st place loc v) ↔ NamesFirst st place.localId steps old := by
  obtain ⟨c, halloc⟩ := Option.isSome_iff_exists.1 (resolve_alloca hsteps hresolve)
  constructor
  · intro hall
    rcases resolve_root hresolve with ⟨hroot, path, hpath, hlen⟩ | ⟨⟨a, s, hroot⟩, q, b, hq, hptr⟩
    · obtain ⟨root, path'⟩ := loc
      obtain rfl : root = .local' place.localId := hroot
      obtain rfl : path' = path := hpath
      rw [read_local, halloc, Option.bind_some] at hread
      have hne : path' ≠ [] := fun h => hsteps (List.eq_nil_of_length_eq_zero (by rw [← hlen, h]; rfl))
      obtain ⟨k, rest, rfl⟩ := List.exists_cons_of_ne_nil hne
      obtain ⟨fs, g, rfl, hg, -⟩ := Llvm.component_cons.1 hread
      by_cases hattr : ∃ name, steps = [.attr name]
      · obtain ⟨name, rfl⟩ := hattr
        obtain ⟨k', hname, -, hloc⟩ := resolve_attr halloc hresolve
        cases hloc
        cases fs with
        | nil => cases hg
        | cons f fs =>
          refine ⟨name, k, f, fs, rfl, hname, halloc, ?_⟩
          by_cases hk : k = 0
          · exact .inl hk
          · exact .inr ((correct_later_iff hm halloc hmatch rfl rfl hk hread).1 hall)
      · refine absurd (hall old rfl) ?_
        exact not_correct_component hm halloc hmatch harray rfl hsteps (not_exists.1 hattr) hne hread _
    · rw [read_local, halloc, Option.bind_some, List.nil_append] at hptr
      exact (not_correct_slot halloc hmatch harray hroot hsteps hq hptr hall).elim
  · rintro ⟨name, k, f, fs, rfl, hname, halloc', hk⟩
    obtain rfl : c = .struct (f :: fs) := Option.some.inj (halloc.symm.trans halloc')
    obtain ⟨k', hname', -, rfl⟩ := resolve_attr halloc hresolve
    obtain rfl : k' = k := Option.some.inj (hname'.symm.trans hname)
    rw [read_local, halloc, Option.bind_some] at hread
    by_cases hzero : k' = 0
    · subst hzero
      obtain rfl : f = old := Option.some.inj hread
      exact fun v hv => correct_first hm halloc hmatch rfl rfl hv
    · exact (correct_later_iff hm halloc hmatch rfl rfl hzero hread).2 (hk.resolve_left hzero)

/-- For every assignment to a chain of indices and attributes that calls no helper: the code stores to the
place of the target, and that is right for every value only where the target is the first component of a
tuple, named by an attribute. -/
theorem projected_assignment {ctx : Mir.LowerCtx} {target value : Expr} {span : Span} {b b' : BodyBuilder}
    {rn : ResolvedName} (hm : m.Lawful) (hdenotes : Denotes target rn steps) (hsteps : steps ≠ [])
    (hhelper : usesHelper ctx target = false)
    (hlower : Mir.lowerAssign ctx target value span b = .ok ((), b')) :
    ∃ (place : Place) (op : Operand) (b₁ : BodyBuilder) (id : Mir.BlockId),
      (∃ span b₂ b₃, Mir.lookupLocalForResolved ctx rn span b₂ = .ok (place.localId, b₃)) ∧
      b₁.curBlock = some id ∧ b' = b₁.pushStmt id ⟨.assign place (.use op), span⟩ ∧
      ∀ st loc old, NoArray (st.frame.declTy place.localId) →
        st.resolve ⟨.local' place.localId, []⟩ steps = some loc → st.read loc = some old →
        ((∀ v, v.ty = old.ty → Correct m st place loc v) ↔ NamesFirst st place.localId steps old) := by
  obtain ⟨b₀, hplace⟩ := lowerAssign_place hhelper hlower
  obtain ⟨place, op, b₁, id, hmatch, hroot, hcur, hstmt⟩ := lowerPlaceAssign_stmt hdenotes hplace
  exact ⟨place, op, b₁, id, hroot, hcur, hstmt, fun st loc old harray hresolve hread =>
    correct_iff_namesFirst hm hmatch hsteps harray hresolve hread⟩

/-! ### A list -/

namespace ListTarget

/-- A memory of structs whose first field is replaced as a whole. -/
def machine : Machine where
  overlay old new :=
    match old with
    | .struct (f :: fs) => if new.ty = f.ty then .struct (new :: fs) else old
    | _ => old
  deref _ := 0
  arrayGet _ _ _ _ := none
  operand _ := .ok (.int .i64 0)
  extractOutOfRange := ""

theorem machine_lawful : machine.Lawful where
  overlay_ty old new := by
    unfold machine
    dsimp only
    split
    · next f fs =>
      split
      · next hty => rw [Llvm.ty_struct, Llvm.ty_struct, List.map_cons, List.map_cons, hty]
      · rfl
    · rfl
  overlay_first f fs new hty := if_pos hty

def xs : Expr :=
  .mk (.name ⟨"xs", 0, .letBinding⟩) default

def index : Expr :=
  .mk (.name ⟨"i", 1, .letBinding⟩) default

def value : Expr :=
  .mk (.name ⟨"v", 2, .letBinding⟩) default

def ctx : Mir.LowerCtx :=
  { Mir.LowerCtx.plain with defTy := fun id => some (if id = 0 then .list .int else .int) }

/-- The body in which `xs`, `i` and `v` have the locals 1, 2 and 3. -/
def builder : BodyBuilder :=
  { BodyBuilder.new 7 "f" default with defToLocal := [(0, 1), (1, 2), (2, 3)] }

/-- `xs[i]`. -/
def xsPlace : Place :=
  .mk 1 [.index (.copy (.ofLocal 2))]

/-- Every local holds the list `[10, 20]` at address 4096. -/
def state : State where
  frame := ⟨"f", fun _ => some (.ptr 4096), fun _ => some (.list .int)⟩
  heap a s :=
    if a = 4096 then
      match s with
      | .elem 0 => some (.int .i64 10)
      | .elem 1 => some (.int .i64 20)
      | _ => none
    else none
  length _ := 2

end ListTarget

open ListTarget in
/-- `xs[1] = v` is not right for every value. -/
theorem projected_assignment_list :
    ∃ place : Place, ¬ ∀ v : Val, v.ty = .int .i64 →
      Correct machine state place ⟨.slot 4096 (.elem 1), []⟩ v := by
  have hdenotes : Denotes (.mk (.index xs (.expr index)) default) ⟨"xs", 0, .letBinding⟩ [.index 1] :=
    .index (.expr index) 1 default (.name _ default)
  have hlower : Mir.lowerAssign ctx (.mk (.index xs (.expr index)) default) value default builder =
      .ok ((), builder.pushStmt 0 ⟨.assign xsPlace (.use (.copy (.ofLocal 3))), default⟩) := rfl
  obtain ⟨place, -, -, -, -, -, -, hiff⟩ :=
    projected_assignment machine_lawful hdenotes (List.cons_ne_nil _ _) rfl hlower
  refine ⟨place, fun hall => ?_⟩
  have harray : NoArray (state.frame.declTy place.localId) := fun _ _ h => by cases h
  obtain ⟨_, _, _, _, -, -, halloc, -⟩ := (hiff state ⟨.slot 4096 (.elem 1), []⟩ (.int .i64 20) harray rfl rfl).1 hall
  cases halloc

open ListTarget in
/-- `xs[1] = 7`: the pointer to the list is replaced. -/
theorem list_assignment_overwrites :
    Mir.lowerAssign ctx (.mk (.index xs (.expr index)) default) value default builder =
        .ok ((), builder.pushStmt 0 ⟨.assign xsPlace (.use (.copy (.ofLocal 3))), default⟩) ∧
      ¬ Correct machine state xsPlace ⟨.slot 4096 (.elem 1), []⟩ (.int .i64 7) := by
  refine ⟨rfl, ?_⟩
  rintro ⟨frame, hwrite, hstate, -⟩
  cases hwrite
  have hallocas := congrArg (fun st : State => st.frame.allocas 1) hstate
  have hptr : some (Val.ptr 7) = some (Val.ptr 4096) := hallocas
  simp at hptr

end Cobrust.Codegen
