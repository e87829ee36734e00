import Cobrust.Codegen.Cast
import Cobrust.Mir.Tree

/-!
# Types of untyped locals

`infer_local_types` of `cobrust-codegen/src/llvm_backend.rs`, with `llvm_scalar_ty`, `llvm_operand_ty` and
`llvm_rvalue_ty`. A local without a scalar type takes the type of the first assignment to it that resolves. A source
local that is not visited yet does not hold the assignment up: it counts as a pointer.

* `inferLocalTypes_eq_iff`: the inference finds a consistent typing exactly when no local is visited before the local
  that its first assignment reads, pointers apart.
-/

namespace Cobrust.Codegen

open Mir (Body BasicBlock Constant LocalId Operand Rvalue Statement)

/-- The type of a `Ty` that `lower_ty` maps to a value of its own, not to the opaque pointer. -/
def llvmScalarTy : Ty → Option Llvm.Ty
  | .bool => some (.int .i1)
  | .int => some (.int .i64)
  | .float => some .double
  | .imag => some .double
  | .intN 8 => some (.int .i8)
  | .intN 16 => some (.int .i16)
  | .intN 32 => some (.int .i32)
  | .intN _ => some (.int .i64)
  | .ref inner => llvmScalarTy inner
  | .tuple elems => some (lowerTy (.tuple elems))
  | _ => none

/-- What a place that is one field of a tuple holds. -/
def tupleFieldTy (body : Body) (p : Mir.Place) : Option Llvm.Ty :=
  match p.projections with
  | [.field i] =>
    match body.locals[p.localId]? with
    | some decl =>
      match decl.ty with
      | .tuple elems => elems[i]?.map lowerTy
      | _ => none
    | none => none
  | _ => none

def constantTy : Constant → Llvm.Ty
  | .bool _ => .int .i1
  | .none => .int .i1
  | .int _ => .int .i64
  | .float _ => .double
  | .imag _ => .double
  | .str _ => .ptr
  | .bytes _ => .ptr
  | .fnRef _ => .ptr

/-- What the declaration of a local alone gives. -/
def fallbackTy (body : Body) (l : LocalId) : Option Llvm.Ty :=
  body.locals[l]?.map fun decl => (llvmScalarTy decl.ty).getD .ptr

section Types

variable (body : Body) (inferred : LocalId → Option Llvm.Ty)

def placeTy (p : Mir.Place) : Option Llvm.Ty :=
  match tupleFieldTy body p with
  | some ty => some ty
  | none =>
    match inferred p.localId with
    | some ty => some ty
    | none => fallbackTy body p.localId

def llvmOperandTy : Operand → Option Llvm.Ty
  | .copy p => placeTy body inferred p
  | .move p => placeTy body inferred p
  | .constant c => some (constantTy c)

def llvmRvalueTy : Rvalue → Option Llvm.Ty
  | .use op => llvmOperandTy body inferred op
  | .binaryOp op a _ =>
    match op with
    | .eq | .notEq | .lt | .ltEq | .gt | .gtEq | .and | .or | .in | .notIn => some (.int .i1)
    | _ => llvmOperandTy body inferred a
  | .unaryOp _ a => llvmOperandTy body inferred a
  | .cast _ _ ty => llvmScalarTy ty
  | .aggregate _ _ => some .ptr
  | .ref _ _ => some .ptr
  | .discriminant _ => some (.int .i64)
  | .len _ => some (.int .i64)
  | .nullaryOp _ => some (.int .i64)

end Types

/-! ## The inference -/

/-- A `HashMap` from locals to types. -/
abbrev Inferred := List (LocalId × Llvm.Ty)

def Inferred.get (out : Inferred) (l : LocalId) : Option Llvm.Ty :=
  List.lookup l out

def Inferred.insert (out : Inferred) (l : LocalId) (ty : Llvm.Ty) : Inferred :=
  (l, ty) :: out.filter (·.1 ≠ l)

/-- The value assigned, when a statement assigns to the whole of a local. -/
def assignedTo (l : LocalId) (s : Statement) : Option Rvalue :=
  match s.kind with
  | .assign place rvalue => if place.localId = l ∧ place.projections.isEmpty then some rvalue else none
  | _ => none

/-- The values assigned to the whole of a local, in the order of the blocks. -/
def assigns (body : Body) (l : LocalId) : List Rvalue :=
  body.blocks.flatMap fun block => block.statements.filterMap (assignedTo l)

section Inference

variable (body : Body) (bodyReturnTypes : DefId → Option Llvm.Ty)

/-- The return type of the body that a block calls for a local. -/
def calledFor (l : LocalId) (block : BasicBlock) : Option Llvm.Ty :=
  match block.terminator with
  | .call (.constant (.fnRef id)) _ destination _ _ =>
    if destination.localId = l ∧ destination.projections.isEmpty then bodyReturnTypes id else none
  | _ => none

def callResultTy (l : LocalId) : Option Llvm.Ty :=
  body.blocks.findSome? (calledFor bodyReturnTypes l)

/-- The locals declared as `None`, or without a scalar type. -/
def candidates : List LocalId :=
  (body.locals.filter fun decl => decl.ty matches .none || (llvmScalarTy decl.ty).isNone).map (·.id)

/-- The pass over the destinations of calls. -/
def callPass : Inferred :=
  (candidates body).foldl (fun out l =>
    match callResultTy body bodyReturnTypes l with
    | some ty => out.insert l ty
    | none => out) []

/-- One turn of the scan. -/
def inferLocal (out : Inferred) (l : LocalId) : Inferred :=
  if (out.get l).isSome then out
  else
    match callResultTy body bodyReturnTypes l with
    | some ty => out.insert l ty
    | none =>
      match (assigns body l).findSome? (llvmRvalueTy body out.get) with
      | some ty => out.insert l ty
      | none => out

def inferPass (out : Inferred) : Inferred :=
  (candidates body).foldl (inferLocal body bodyReturnTypes) out

/-- Passes until one adds nothing, `n` at most. -/
def inferPasses : Nat → Inferred → Inferred
  | 0, out => out
  | n + 1, out =>
    let out' := inferPass body bodyReturnTypes out
    if out'.length = out.length then out' else inferPasses n out'

def inferLocalTypes : Inferred :=
  inferPasses body bodyReturnTypes ((candidates body).length + 1) (callPass body bodyReturnTypes)

end Inference

/-- The local whose own type gives the type of an operand. -/
def operandSource (body : Body) : Operand → Option LocalId
  | .copy p => if (tupleFieldTy body p).isSome then none else some p.localId
  | .move p => if (tupleFieldTy body p).isSome then none else some p.localId
  | .constant _ => none

/-- The local whose own type gives the type of a value. -/
def rvalueSource (body : Body) : Rvalue → Option LocalId
  | .use op => operandSource body op
  | .binaryOp op a _ =>
    match op with
    | .eq | .notEq | .lt | .ltEq | .gt | .gtEq | .and | .or | .in | .notIn => none
    | _ => operandSource body a
  | .unaryOp _ a => operandSource body a
  | _ => none

section Typings

variable (body : Body) (bodyReturnTypes : DefId → Option Llvm.Ty)

/-- The locals are ordered by id. -/
def Ordered : Prop :=
  ∀ (l : LocalId) (decl : Mir.LocalDecl), body.locals[l]? = some decl → decl.id = l

/-- A type for each candidate that fits all that is stored into it. -/
structure ConsistentTyping (typing : LocalId → Option Llvm.Ty) : Prop where
  domain : ∀ l, (typing l).isSome ↔ l ∈ candidates body
  assigns : ∀ l ∈ candidates body, ∀ rvalue ∈ assigns body l, llvmRvalueTy body typing rvalue = typing l
  calls : ∀ l ∈ candidates body, ∀ block ∈ body.blocks, ∀ ty, calledFor bodyReturnTypes l block = some ty →
    typing l = some ty

/-- A chain of assignments leads from the local to a value whose type no candidate gives. -/
inductive Grounded : LocalId → Prop
  | call {l : LocalId} {ty : Llvm.Ty} (h : callResultTy body bodyReturnTypes l = some ty) : Grounded l
  | root {l : LocalId} {rvalue : Rvalue} (h : rvalue ∈ assigns body l)
      (hroot : ∀ src, rvalueSource body rvalue = some src → src ∉ candidates body) : Grounded l
  | chain {l src : LocalId} {rvalue : Rvalue} (h : rvalue ∈ assigns body l)
      (hsrc : rvalueSource body rvalue = some src) (hground : Grounded src) : Grounded l

/-- Before the scan comes to a local, the local that its first assignment reads has its type, unless that is the
pointer. -/
def InTime (typing : LocalId → Option Llvm.Ty) : Prop :=
  ∀ l ∈ candidates body, callResultTy body bodyReturnTypes l = none →
    ∀ rvalue, (assigns body l).head? = some rvalue → ∀ src, rvalueSource body rvalue = some src →
      src ∈ candidates body → callResultTy body bodyReturnTypes src = none →
        src < l ∨ typing src = some .ptr

end Typings

namespace Inferred

variable {out : Inferred} {l k : LocalId} {ty : Llvm.Ty}

theorem get_insert_self (out : Inferred) (l : LocalId) (ty : Llvm.Ty) : (out.insert l ty).get l = some ty := by
  simp [get, insert]

theorem get_insert_of_ne (hne : k ≠ l) : (out.insert l ty).get k = out.get k := by
  have hbeq : (k == l) = false := beq_false_of_ne hne
  rw [get, insert, List.lookup_cons, hbeq]
  induction out with
  | nil => rfl
  | cons row out ih =>
    obtain ⟨j, t⟩ := row
    by_cases hj : j = l
    · subst hj
      simpa [get, List.lookup_cons, hbeq] using ih
    · by_cases hk : k = j
      · subst hk
        simp [get, hj]
      · have hkj : (k == j) = false := beq_false_of_ne hk
        simpa [get, hj, List.lookup_cons, hkj] using ih

end Inferred

/-! ## Types of values -/

section Values

variable {body : Body} {inferred inferred' : LocalId → Option Llvm.Ty} {rvalue : Rvalue} {src : LocalId}

/-- A local counts with its inferred type, or with what its declaration gives. -/
def localTy (body : Body) (inferred : LocalId → Option Llvm.Ty) (l : LocalId) : Option Llvm.Ty :=
  (inferred l).or (fallbackTy body l)

theorem placeTy_of_field {p : Mir.Place} {ty : Llvm.Ty} (h : tupleFieldTy body p = some ty) :
    placeTy body inferred p = some ty := by
  rw [placeTy, h]

theorem placeTy_of_local {p : Mir.Place} (h : tupleFieldTy body p = none) :
    placeTy body inferred p = localTy body inferred p.localId := by
  rw [placeTy, h, localTy]
  cases inferred p.localId <;> rfl

theorem llvmOperandTy_of_source {op : Operand} (h : operandSource body op = some src) :
    llvmOperandTy body inferred op = localTy body inferred src := by
  cases op with
  | constant c => cases h
  | copy p | move p =>
    simp only [operandSource] at h
    split at h
    · cases h
    · next hfield =>
      rw [Option.some.injEq] at h
      rw [llvmOperandTy, placeTy_of_local (by simpa using hfield), h]

theorem llvmOperandTy_of_none {op : Operand} (h : operandSource body op = none) :
    llvmOperandTy body inferred op = llvmOperandTy body inferred' op := by
  cases op with
  | constant c => rfl
  | copy p | move p =>
    simp only [operandSource] at h
    split at h
    · next hfield =>
      obtain ⟨ty, hty⟩ := Option.isSome_iff_exists.1 hfield
      rw [llvmOperandTy, llvmOperandTy, placeTy_of_field hty, placeTy_of_field hty]
    · cases h

theorem llvmRvalueTy_of_source (h : rvalueSource body rvalue = some src) :
    llvmRvalueTy body inferred rvalue = localTy body inferred src := by
  cases rvalue with
  | use op => exact llvmOperandTy_of_source h
  | unaryOp _ a => exact llvmOperandTy_of_source h
  | binaryOp op a b =>
    cases op <;> first | exact llvmOperandTy_of_source h | cases h
  | aggregate | cast | ref | discriminant | len | nullaryOp => cases h

theorem llvmRvalueTy_of_none (h : rvalueSource body rvalue = none) :
    llvmRvalueTy body inferred rvalue = llvmRvalueTy body inferred' rvalue := by
  cases rvalue with
  | use op => exact llvmOperandTy_of_none h
  | unaryOp _ a => exact llvmOperandTy_of_none h
  | binaryOp op a b =>
    cases op <;> first | exact llvmOperandTy_of_none h | rfl
  | aggregate | cast | ref | discriminant | len | nullaryOp => rfl

end Values

section Candidates

variable {body : Body} {l : LocalId}

theorem mem_candidates : l ∈ candidates body ↔
    ∃ decl ∈ body.locals, llvmScalarTy decl.ty = none ∧ decl.id = l := by
  rw [candidates, List.mem_map]
  constructor
  · rintro ⟨decl, hmem, hid⟩
    obtain ⟨hmem, hty⟩ := List.mem_filter.1 hmem
    refine ⟨decl, hmem, ?_, hid⟩
    cases hdecl : decl.ty <;> simp_all [llvmScalarTy]
  · rintro ⟨decl, hmem, hty, hid⟩
    exact ⟨decl, List.mem_filter.2 ⟨hmem, by simp [hty]⟩, hid⟩

/-- The declaration of a candidate gives the pointer. -/
theorem fallbackTy_of_mem (hord : Ordered body) (h : l ∈ candidates body) : fallbackTy body l = some .ptr := by
  obtain ⟨decl, hmem, hty, rfl⟩ := mem_candidates.1 h
  obtain ⟨i, hi⟩ := List.mem_iff_getElem?.1 hmem
  rw [fallbackTy, hord i decl hi, hi]
  simp [hty]

/-- The candidates are visited in the order of their numbers. -/
theorem candidates_pairwise (hord : Ordered body) : (candidates body).Pairwise (· < ·) := by
  have hids : body.locals.map (·.id) = List.range body.locals.length := by
    refine List.ext_getElem (by simp) fun i h₁ h₂ => ?_
    have hi : i < body.locals.length := by simpa using h₁
    simpa using hord i body.locals[i] (List.getElem?_eq_getElem hi)
  have hsub : (candidates body).Sublist (List.range body.locals.length) := by
    rw [← hids, candidates]
    exact List.filter_sublist.map _
  exact List.pairwise_lt_range.sublist hsub

end Candidates

/-! ## What a turn does -/

section Turns

variable {body : Body} {bodyReturnTypes : DefId → Option Llvm.Ty} {out : Inferred} {k l : LocalId} {t : Llvm.Ty}

theorem inferLocal_get_of_ne (hne : k ≠ l) : (inferLocal body bodyReturnTypes out l).get k = out.get k := by
  unfold inferLocal
  split
  · rfl
  · split
    · exact Inferred.get_insert_of_ne hne
    · split
      · exact Inferred.get_insert_of_ne hne
      · rfl

theorem inferLocal_get (h : out.get k = some t) : (inferLocal body bodyReturnTypes out l).get k = some t := by
  by_cases hne : k = l
  · subst hne
    rw [inferLocal, if_pos (by simp [h]), h]
  · rw [inferLocal_get_of_ne hne, h]

theorem inferLocals_get (ls : List LocalId) (h : out.get k = some t) :
    (ls.foldl (inferLocal body bodyReturnTypes) out).get k = some t := by
  induction ls generalizing out with
  | nil => exact h
  | cons l ls ih => exact ih (inferLocal_get h)

theorem inferLocals_get_of_notMem {ls : List LocalId} (h : k ∉ ls) :
    (ls.foldl (inferLocal body bodyReturnTypes) out).get k = out.get k := by
  induction ls generalizing out with
  | nil => rfl
  | cons l ls ih =>
    rw [List.foldl_cons, ih (List.not_mem_of_not_mem_cons h), inferLocal_get_of_ne (List.ne_of_not_mem_cons h)]

theorem inferPasses_get (n : Nat) (h : out.get k = some t) :
    (inferPasses body bodyReturnTypes n out).get k = some t := by
  induction n generalizing out with
  | zero => exact h
  | succ n ih =>
    have hpass : (inferPass body bodyReturnTypes out).get k = some t := inferLocals_get _ h
    rw [inferPasses]
    split
    · exact hpass
    · exact ih hpass

/-- A pass changes nothing where every candidate has its type. -/
theorem inferPass_of_forall (h : ∀ l ∈ candidates body, (out.get l).isSome) :
    inferPass body bodyReturnTypes out = out := by
  unfold inferPass
  generalize candidates body = ls at h
  induction ls with
  | nil => rfl
  | cons l ls ih =>
    rw [List.foldl_cons, inferLocal, if_pos (h l (by simp))]
    exact ih fun k hk => h k (by simp [hk])

theorem inferPasses_of_fixed (h : inferPass body bodyReturnTypes out = out) (n : Nat) :
    inferPasses body bodyReturnTypes n out = out := by
  cases n with
  | zero => rfl
  | succ n => rw [inferPasses, h, if_pos rfl]

theorem callPass_get : (callPass body bodyReturnTypes).get l =
    if l ∈ candidates body then callResultTy body bodyReturnTypes l else none := by
  suffices hfold : ∀ (ls : List LocalId) (out : Inferred), (ls.foldl (fun out l =>
      match callResultTy body bodyReturnTypes l with
      | some ty => out.insert l ty
      | none => out) out).get l =
        if l ∈ ls then (callResultTy body bodyReturnTypes l).or (out.get l) else out.get l by
    rw [callPass, hfold]
    simp [Inferred.get]
  intro ls
  induction ls with
  | nil => simp
  | cons k ls ih =>
    intro out
    rw [List.foldl_cons, ih]
    by_cases hk : l = k
    · subst hk
      cases hcall : callResultTy body bodyReturnTypes l with
      | none => simp
      | some ty => simp [Inferred.get_insert_self]
    · have hget : (match callResultTy body bodyReturnTypes k with
          | some ty => out.insert k ty
          | none => out).get l = out.get l := by
        split
        · exact Inferred.get_insert_of_ne hk
        · rfl
      rw [hget]
      simp [hk]

/-- A turn takes the type of the first assignment, where that resolves. -/
theorem inferLocal_get_self (hnone : out.get l = none) (hcall : callResultTy body bodyReturnTypes l = none)
    {rvalue : Rvalue} (hfirst : (assigns body l).head? = some rvalue)
    (hty : llvmRvalueTy body out.get rvalue = some t) : (inferLocal body bodyReturnTypes out l).get l = some t := by
  obtain ⟨rest, hrest⟩ := List.head?_eq_some_iff.1 hfirst
  rw [inferLocal, if_neg (by simp [hnone]), hcall, hrest, List.findSome?_cons, hty]
  exact Inferred.get_insert_self ..

end Turns

/-! ## The first pass -/

section FirstPass

variable {body : Body} {bodyReturnTypes : DefId → Option Llvm.Ty} {typing : LocalId → Option Llvm.Ty}
  {out : Inferred} {l : LocalId} {visited : List LocalId}

/-- The table agrees with the typing, and has rows for the destinations of calls and the locals visited so far. -/
structure Tracks (body : Body) (bodyReturnTypes : DefId → Option Llvm.Ty) (typing : LocalId → Option Llvm.Ty)
    (visited : List LocalId) (out : Inferred) : Prop where
  sound : ∀ k t, out.get k = some t → typing k = some t
  calls : ∀ k ∈ candidates body, (callResultTy body bodyReturnTypes k).isSome → (out.get k).isSome
  found : ∀ k ∈ visited, (out.get k).isSome

theorem Grounded.exists_assign (h : Grounded body bodyReturnTypes l)
    (hcall : callResultTy body bodyReturnTypes l = none) : ∃ rvalue, (assigns body l).head? = some rvalue := by
  have hne : assigns body l ≠ [] := by
    cases h with
    | call h =>
      rw [hcall] at h
      cases h
    | root h => exact List.ne_nil_of_mem h
    | chain h => exact List.ne_nil_of_mem h
  obtain ⟨rvalue, rest, hcons⟩ := List.exists_cons_of_ne_nil hne
  exact ⟨rvalue, by rw [hcons]; rfl⟩

theorem tracks_callPass (hcons : ConsistentTyping body bodyReturnTypes typing) :
    Tracks body bodyReturnTypes typing [] (callPass body bodyReturnTypes) := by
  refine ⟨fun k t hk => ?_, fun k hk hcall => ?_, by simp⟩
  · rw [callPass_get] at hk
    split at hk
    · next hmem =>
      obtain ⟨block, hblock, hty⟩ := List.exists_of_findSome?_eq_some hk
      exact hcons.calls k hmem block hblock t hty
    · cases hk
  · rw [callPass_get, if_pos hk]
    exact hcall

/-- At its turn, a candidate gets its type from its first assignment. -/
theorem Tracks.rvalueTy (h : Tracks body bodyReturnTypes typing visited out) (hord : Ordered body)
    (hcons : ConsistentTyping body bodyReturnTypes typing) (htime : InTime body bodyReturnTypes typing)
    (hl : l ∈ candidates body) (hcall : callResultTy body bodyReturnTypes l = none)
    (hvisited : ∀ k ∈ candidates body, k < l → k ∈ visited) {rvalue : Rvalue}
    (hfirst : (assigns body l).head? = some rvalue) : llvmRvalueTy body out.get rvalue = typing l := by
  rw [← hcons.assigns l hl rvalue (List.mem_of_head? hfirst)]
  cases hsrc : rvalueSource body rvalue with
  | none => exact llvmRvalueTy_of_none hsrc
  | some src =>
    rw [llvmRvalueTy_of_source hsrc, llvmRvalueTy_of_source hsrc, localTy, localTy]
    cases hout : out.get src with
    | some t => rw [h.sound src t hout, Option.some_or]
    | none =>
      by_cases hmem : src ∈ candidates body
      · have hnocall : callResultTy body bodyReturnTypes src = none := by
          by_contra hsome
          have := h.calls src hmem (Option.isSome_iff_ne_none.2 hsome)
          rw [hout] at this
          cases this
        rcases htime l hl hcall rvalue hfirst src hsrc hmem hnocall with hlt | hptr
        · have := h.found src (hvisited src hmem hlt)
          rw [hout] at this
          cases this
        · rw [hptr, fallbackTy_of_mem hord hmem, Option.none_or, Option.some_or]
      · have htyping : typing src = none := by
          rw [← Option.not_isSome_iff_eq_none, hcons.domain]
          exact hmem
        rw [htyping]

theorem Tracks.step (h : Tracks body bodyReturnTypes typing visited out) (hord : Ordered body)
    (hcons : ConsistentTyping body bodyReturnTypes typing) (htime : InTime body bodyReturnTypes typing)
    (hground : Grounded body bodyReturnTypes l) (hl : l ∈ candidates body)
    (hvisited : ∀ k ∈ candidates body, k < l → k ∈ visited) :
    Tracks body bodyReturnTypes typing (visited ++ [l]) (inferLocal body bodyReturnTypes out l) := by
  obtain ⟨t, ht⟩ := Option.isSome_iff_exists.1 ((hcons.domain l).2 hl)
  have hself : (inferLocal body bodyReturnTypes out l).get l = some t := by
    cases hout : out.get l with
    | some t' =>
      rw [inferLocal_get hout, ← ht, h.sound l t' hout]
    | none =>
      have hcall : callResultTy body bodyReturnTypes l = none := by
        by_contra hsome
        have := h.calls l hl (Option.isSome_iff_ne_none.2 hsome)
        rw [hout] at this
        cases this
      obtain ⟨rvalue, hfirst⟩ := hground.exists_assign hcall
      have hty := h.rvalueTy hord hcons htime hl hcall hvisited hfirst
      exact inferLocal_get_self hout hcall hfirst (hty.trans ht)
  have hkept : ∀ k, (out.get k).isSome → ((inferLocal body bodyReturnTypes out l).get k).isSome := by
    intro k hk
    obtain ⟨t', ht'⟩ := Option.isSome_iff_exists.1 hk
    rw [inferLocal_get ht']
    rfl
  refine ⟨fun k t' hk => ?_, fun k hk hcall => hkept k (h.calls k hk hcall), fun k hk => ?_⟩
  · by_cases hne : k = l
    · subst hne
      rw [← hk, hself, ht]
    · rw [inferLocal_get_of_ne hne] at hk
      exact h.sound k t' hk
  · rcases List.mem_append.1 hk with hk | hk
    · exact hkept k (h.found k hk)
    · rw [List.mem_singleton.1 hk, hself]
      rfl

theorem Tracks.scan {rest : List LocalId} (h : Tracks body bodyReturnTypes typing visited out) (hord : Ordered body)
    (hcons : ConsistentTyping body bodyReturnTypes typing) (htime : InTime body bodyReturnTypes typing)
    (hground : ∀ l ∈ candidates body, Grounded body bodyReturnTypes l) (hsplit : candidates body = visited ++ rest) :
    Tracks body bodyReturnTypes typing (candidates body) (rest.foldl (inferLocal body bodyReturnTypes) out) := by
  induction rest generalizing visited out with
  | nil => rwa [hsplit, List.append_nil]
  | cons l rest ih =>
    have hl : l ∈ candidates body := by simp [hsplit]
    have hpair := candidates_pairwise hord
    rw [hsplit] at hpair
    have hvisited : ∀ k ∈ candidates body, k < l → k ∈ visited := by
      intro k hk hlt
      rw [hsplit, List.mem_append, List.mem_cons] at hk
      rcases hk with hk | rfl | hk
      · exact hk
      · exact absurd hlt (lt_irrefl k)
      · have := List.rel_of_pairwise_cons (List.pairwise_append.1 hpair).2.1 hk
        exact absurd hlt (not_lt.2 this.le)
    exact ih (h.step hord hcons htime (hground l hl) hl hvisited) (by rw [hsplit, List.append_assoc]; rfl)

theorem Tracks.get_eq (h : Tracks body bodyReturnTypes typing (candidates body) out)
    (hcons : ConsistentTyping body bodyReturnTypes typing) (l : LocalId) : out.get l = typing l := by
  cases hout : out.get l with
  | some t => exact (h.sound l t hout).symm
  | none =>
    by_cases hl : l ∈ candidates body
    · have := h.found l hl
      rw [hout] at this
      cases this
    · symm
      rw [← Option.not_isSome_iff_eq_none, hcons.domain]
      exact hl

/-- The typing is found where all sources come in time. -/
theorem inferLocalTypes_of_inTime (hord : Ordered body) (hcons : ConsistentTyping body bodyReturnTypes typing)
    (hground : ∀ l ∈ candidates body, Grounded body bodyReturnTypes l)
    (htime : InTime body bodyReturnTypes typing) (l : LocalId) :
    (inferLocalTypes body bodyReturnTypes).get l = typing l := by
  have htracks : Tracks body bodyReturnTypes typing (candidates body)
      (inferPass body bodyReturnTypes (callPass body bodyReturnTypes)) :=
    (tracks_callPass hcons).scan hord hcons htime hground rfl
  have hfixed : inferPass body bodyReturnTypes (inferPass body bodyReturnTypes (callPass body bodyReturnTypes)) = _ :=
    inferPass_of_forall htracks.found
  rw [inferLocalTypes, inferPasses, inferPasses_of_fixed hfixed, ite_self]
  exact htracks.get_eq hcons l

/-- A source that is not visited before counts as a pointer. -/
theorem inferLocalTypes_get_ptr (hord : Ordered body) {src : LocalId} {rvalue : Rvalue} (hl : l ∈ candidates body)
    (hcall : callResultTy body bodyReturnTypes l = none) (hfirst : (assigns body l).head? = some rvalue)
    (hsrc : rvalueSource body rvalue = some src) (hmem : src ∈ candidates body)
    (hnocall : callResultTy body bodyReturnTypes src = none) (hlt : ¬src < l) :
    (inferLocalTypes body bodyReturnTypes).get l = some .ptr := by
  obtain ⟨visited, rest, hsplit⟩ := List.mem_iff_append.1 hl
  have hpair := candidates_pairwise hord
  rw [hsplit] at hpair
  have hbefore : ∀ k, ¬k < l → k ∉ visited := fun k hk hmem =>
    hk ((List.pairwise_append.1 hpair).2.2 k hmem l (by simp))
  have hunseen : ∀ k, ¬k < l → callResultTy body bodyReturnTypes k = none →
      (visited.foldl (inferLocal body bodyReturnTypes) (callPass body bodyReturnTypes)).get k = none := by
    intro k hk hcall
    rw [inferLocals_get_of_notMem (hbefore k hk), callPass_get, hcall, ite_self]
  have hty : llvmRvalueTy body
      (visited.foldl (inferLocal body bodyReturnTypes) (callPass body bodyReturnTypes)).get rvalue = some .ptr := by
    rw [llvmRvalueTy_of_source hsrc, localTy, hunseen src hlt hnocall, Option.none_or, fallbackTy_of_mem hord hmem]
  have hturn := inferLocal_get_self (hunseen l (lt_irrefl l) hcall) hcall hfirst hty
  have hpass : (inferPass body bodyReturnTypes (callPass body bodyReturnTypes)).get l = some .ptr := by
    rw [inferPass, hsplit, List.foldl_append, List.foldl_cons]
    exact inferLocals_get rest hturn
  rw [inferLocalTypes, inferPasses]
  split
  · exact hpass
  · exact inferPasses_get _ hpass

end FirstPass

section Main

variable {body : Body} {bodyReturnTypes : DefId → Option Llvm.Ty} {typing : LocalId → Option Llvm.Ty}

/-- The inference finds a consistent typing exactly when every source comes in time. -/
theorem inferLocalTypes_eq_iff (hord : Ordered body) (hcons : ConsistentTyping body bodyReturnTypes typing)
    (hground : ∀ l ∈ candidates body, Grounded body bodyReturnTypes l) :
    (∀ l, (inferLocalTypes body bodyReturnTypes).get l = typing l) ↔ InTime body bodyReturnTypes typing := by
  constructor
  · intro heq l hl hcall rvalue hfirst src hsrc hmem hnocall
    by_cases hlt : src < l
    · exact .inl hlt
    · right
      have hptr := inferLocalTypes_get_ptr hord hl hcall hfirst hsrc hmem hnocall hlt
      have hty := hcons.assigns l hl rvalue (List.mem_of_head? hfirst)
      rw [llvmRvalueTy_of_source hsrc, localTy, ← heq l, hptr] at hty
      obtain ⟨t, ht⟩ := Option.isSome_iff_exists.1 ((hcons.domain src).2 hmem)
      rwa [ht, Option.some_or, ← ht] at hty
  · exact fun htime l => inferLocalTypes_of_inTime hord hcons hground htime l

end Main

/-! ## A temporary that is read before it is visited -/

def untyped (id : LocalId) (name : String) : Mir.LocalDecl :=
  { id := id, name := name, ty := .none, mutable := true, span := .synthetic, validatedBodyOf := none }

def assignStmt (l : LocalId) (rvalue : Rvalue) : Statement :=
  { kind := .assign (.ofLocal l) rvalue, span := .synthetic }

/-- `src = 5; dest = src`, both without a type. -/
def spilled (dest src : LocalId) : Body :=
  { defId := 0, name := "f", locals := [untyped 0 "_return", untyped 1 "_tmp"],
    blocks := [{ id := 0, statements := [assignStmt src (.use (.constant (.int 5))),
      assignStmt dest (.use (.copy (.ofLocal src)))], terminator := .ret, span := .synthetic }],
    returnLocal := 0, paramCount := 0, span := .synthetic }

def words (l : LocalId) : Option Llvm.Ty :=
  if l ∈ [0, 1] then some (.int .i64) else none

theorem spilled_ordered (dest src : LocalId) : Ordered (spilled dest src) := by
  intro l decl h
  match l with
  | 0 => cases h; rfl
  | 1 => cases h; rfl
  | l + 2 => cases h

theorem spilled_calledFor {dest src l : LocalId} {rt : DefId → Option Llvm.Ty} {block : BasicBlock}
    (h : block ∈ (spilled dest src).blocks) : calledFor rt l block = none := by
  cases List.mem_singleton.1 h
  rfl

theorem spilled_consistent {dest src : LocalId} (h : (dest, src) ∈ [(0, 1), (1, 0)]) (rt : DefId → Option Llvm.Ty) :
    ConsistentTyping (spilled dest src) rt words := by
  refine ⟨fun l => ?_, fun l hl => ?_, fun l hl block hblock ty hty => ?_⟩
  · have hcand : candidates (spilled dest src) = [0, 1] := rfl
    rw [hcand, words]
    split <;> simp_all
  · simp only [List.mem_cons, Prod.mk.injEq, List.not_mem_nil, or_false] at h
    rcases h with ⟨rfl, rfl⟩ | ⟨rfl, rfl⟩ <;> revert l hl <;> decide
  · rw [spilled_calledFor hblock] at hty
    cases hty

theorem spilled_grounded {dest src : LocalId} (h : (dest, src) ∈ [(0, 1), (1, 0)]) (rt : DefId → Option Llvm.Ty) :
    ∀ l ∈ candidates (spilled dest src), Grounded (spilled dest src) rt l := by
  have hfive : Rvalue.use (.constant (.int 5)) ∈ assigns (spilled dest src) src := by
    simp [assigns, spilled, assignedTo, assignStmt]
  have hcopy : Rvalue.use (.copy (.ofLocal src)) ∈ assigns (spilled dest src) dest := by
    simp [assigns, spilled, assignedTo, assignStmt]
  have hsrc : Grounded (spilled dest src) rt src :=
    .root hfive fun _ h => by cases h
  have hdest : Grounded (spilled dest src) rt dest :=
    .chain hcopy rfl hsrc
  have hcand : candidates (spilled dest src) = [0, 1] := rfl
  simp only [List.mem_cons, Prod.mk.injEq, List.not_mem_nil, or_false] at h
  simp only [hcand, List.mem_cons, List.not_mem_nil, or_false]
  rcases h with ⟨rfl, rfl⟩ | ⟨rfl, rfl⟩
  · rintro l (rfl | rfl)
    · exact hdest
    · exact hsrc
  · rintro l (rfl | rfl)
    · exact hsrc
    · exact hdest

theorem spilled_eq_iff : (∀ l, (inferLocalTypes (spilled 1 0) fun _ => none).get l = words l) ↔
    InTime (spilled 1 0) (fun _ => none) words :=
  inferLocalTypes_eq_iff (spilled_ordered 1 0) (spilled_consistent (by decide) _) (spilled_grounded (by decide) _)

/-- The first local is taken for a pointer, though both hold words. -/
theorem spilled_pointer : ¬∀ (body : Body) (bodyReturnTypes : DefId → Option Llvm.Ty)
    (typing : LocalId → Option Llvm.Ty), Ordered body → ConsistentTyping body bodyReturnTypes typing →
      (∀ l ∈ candidates body, Grounded body bodyReturnTypes l) →
        ∀ l, (inferLocalTypes body bodyReturnTypes).get l = typing l := by
  intro h
  have hfound := h (spilled 0 1) (fun _ => none) words (spilled_ordered 0 1) (spilled_consistent (by decide) _)
    (spilled_grounded (by decide) _) 0
  exact absurd hfound (by decide)

end Cobrust.Codegen
