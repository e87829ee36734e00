import Mathlib.Data.List.Basic
import Mathlib.Logic.Relation

/-!
# Values and control flow of LLVM

First-class values with their types: integers, doubles, pointers, structs and arrays. A component of a
struct is named by a path of field numbers; its type is smaller than that of the struct.
-/

namespace Cobrust.Llvm

inductive Width where
  | i1 | i8 | i16 | i32 | i64
  deriving DecidableEq, Repr

def Width.bits : Width → Nat
  | i1 => 1
  | i8 => 8
  | i16 => 16
  | i32 => 32
  | i64 => 64

theorem Width.bits_le (w : Width) : w.bits ≤ 64 := by
  cases w <;> simp [bits]

inductive Ty where
  | int (w : Width)
  | double
  | ptr
  | struct (fields : List Ty)
  | array (elem : Ty) (len : Nat)

/-- A double is kept as its bits, a pointer as its address. -/
inductive Val where
  | int (w : Width) (n : BitVec w.bits)
  | double (bits : BitVec 64)
  | ptr (address : BitVec 64)
  | struct (fields : List Val)
  | array (elem : Ty) (elems : List Val)

/-! ## Types -/

mutual

def Ty.same : Ty → Ty → Bool
  | .int w, .int w' => w == w'
  | .double, .double => true
  | .ptr, .ptr => true
  | .struct fs, .struct fs' => sameTys fs fs'
  | .array t n, .array t' n' => t.same t' && n == n'
  | _, _ => false

def sameTys : List Ty → List Ty → Bool
  | [], [] => true
  | t :: ts, t' :: ts' => t.same t' && sameTys ts ts'
  | _, _ => false

end

mutual

theorem Ty.same_iff (t t' : Ty) : t.same t' = true ↔ t = t' := by
  cases t with
  | struct fs => cases t' <;> simp [Ty.same, sameTys_iff fs]
  | array t n => cases t' <;> simp [Ty.same, Ty.same_iff t]
  | _ => cases t' <;> simp [Ty.same]

theorem sameTys_iff (ts ts' : List Ty) : sameTys ts ts' = true ↔ ts = ts' := by
  cases ts with
  | nil => cases ts' <;> simp [sameTys]
  | cons t ts => cases ts' <;> simp [sameTys, Ty.same_iff t, sameTys_iff ts]

end

instance : DecidableEq Ty :=
  fun t t' => decidable_of_iff _ (Ty.same_iff t t')

mutual

def Val.ty : Val → Ty
  | .int w _ => .int w
  | .double _ => .double
  | .ptr _ => .ptr
  | .struct fs => .struct (tys fs)
  | .array elem es => .array elem es.length

def tys : List Val → List Ty
  | [] => []
  | v :: vs => v.ty :: tys vs

end

theorem tys_eq_map (vs : List Val) : tys vs = vs.map Val.ty := by
  induction vs with
  | nil => rfl
  | cons v vs ih => rw [tys, ih, List.map_cons]

theorem ty_struct (fs : List Val) : (Val.struct fs).ty = .struct (fs.map Val.ty) := by
  rw [Val.ty, tys_eq_map]

/-! ## Components -/

/-- The component of a value at a path of field numbers. -/
def Val.component : Val → List Nat → Option Val
  | v, [] => some v
  | .struct fs, k :: path =>
    match fs[k]? with
    | some f => f.component path
    | none => none
  | _, _ :: _ => none

def Val.setComponent : Val → List Nat → Val → Val
  | _, [], new => new
  | .struct fs, k :: path, new =>
    match fs[k]? with
    | some f => .struct (fs.set k (f.setComponent path new))
    | none => .struct fs
  | v, _ :: _, _ => v

@[simp] theorem component_nil (v : Val) : v.component [] = some v := by
  cases v <;> rfl

@[simp] theorem setComponent_nil (v new : Val) : v.setComponent [] new = new := by
  cases v <;> rfl

/-- A path that starts with `k` goes into field `k` of a struct. -/
theorem component_cons {v f : Val} {k : Nat} {path : List Nat} :
    v.component (k :: path) = some f ↔
      ∃ fs g, v = .struct fs ∧ fs[k]? = some g ∧ g.component path = some f := by
  constructor
  · intro h
    cases v with
    | struct fs =>
      rw [Val.component] at h
      cases hk : fs[k]? with
      | none => simp [hk] at h
      | some g =>
        rw [hk] at h
        exact ⟨fs, g, rfl, hk, h⟩
    | _ => cases h
  · rintro ⟨fs, g, rfl, hk, h⟩
    rw [Val.component, hk]
    exact h

theorem component_setComponent {v f : Val} {path : List Nat} (new : Val)
    (h : v.component path = some f) : (v.setComponent path new).component path = some new := by
  induction path generalizing v with
  | nil => rw [setComponent_nil, component_nil]
  | cons k path ih =>
    obtain ⟨fs, g, rfl, hk, hg⟩ := component_cons.1 h
    have hlt : k < fs.length := (List.getElem?_eq_some_iff.1 hk).1
    rw [Val.setComponent, hk]
    exact component_cons.2 ⟨_, _, rfl, List.getElem?_set_self hlt, ih hg⟩

/-- A component keeps its place when it is set to itself. -/
theorem setComponent_self {v f : Val} {path : List Nat} (h : v.component path = some f) :
    v.setComponent path f = v := by
  induction path generalizing v with
  | nil =>
    rw [component_nil, Option.some.injEq] at h
    rw [setComponent_nil, h]
  | cons k path ih =>
    obtain ⟨fs, g, rfl, hk, hg⟩ := component_cons.1 h
    obtain ⟨hlt, rfl⟩ := List.getElem?_eq_some_iff.1 hk
    rw [Val.setComponent, hk]
    show Val.struct (fs.set k (fs[k].setComponent path f)) = .struct fs
    rw [ih hg, List.set_getElem_self]

theorem ty_setComponent {v f new : Val} {path : List Nat} (h : v.component path = some f)
    (hty : new.ty = f.ty) : (v.setComponent path new).ty = v.ty := by
  induction path generalizing v with
  | nil =>
    rw [component_nil, Option.some.injEq] at h
    rw [setComponent_nil, hty, h]
  | cons k path ih =>
    obtain ⟨fs, g, rfl, hk, hg⟩ := component_cons.1 h
    obtain ⟨hlt, rfl⟩ := List.getElem?_eq_some_iff.1 hk
    rw [Val.setComponent, hk]
    show (Val.struct (fs.set k (fs[k].setComponent path new))).ty = (Val.struct fs).ty
    have hmap : k < (fs.map Val.ty).length := by
      rw [List.length_map]
      exact hlt
    have hself := List.set_getElem_self hmap
    rw [List.getElem_map] at hself
    rw [ty_struct, ty_struct, List.map_set, ih hg, hself]

/-- The first field is not in the way of a later one. -/
theorem setComponent_head {f : Val} {fs : List Val} {k : Nat} (hk : k ≠ 0) (new : Val) :
    ∃ fs', (Val.struct (f :: fs)).setComponent [k] new = .struct (f :: fs') := by
  obtain ⟨k, rfl⟩ := Nat.exists_eq_succ_of_ne_zero hk
  rw [Val.setComponent]
  split
  · exact ⟨_, rfl⟩
  · exact ⟨fs, rfl⟩

theorem sizeOf_field {fs : List Val} {g : Val} {k : Nat} (hk : fs[k]? = some g) :
    sizeOf g.ty < sizeOf (Val.struct fs).ty := by
  have hmem : g.ty ∈ fs.map Val.ty := List.mem_map_of_mem (List.mem_of_getElem? hk)
  have hlt := List.sizeOf_lt_of_mem hmem
  rw [ty_struct, Ty.struct.sizeOf_spec]
  omega

theorem sizeOf_component {v f : Val} {k : Nat} {path : List Nat}
    (h : v.component (k :: path) = some f) : sizeOf f.ty < sizeOf v.ty := by
  induction path generalizing v k with
  | nil =>
    obtain ⟨fs, g, rfl, hk, hg⟩ := component_cons.1 h
    rw [component_nil, Option.some.injEq] at hg
    rw [← hg]
    exact sizeOf_field hk
  | cons j path ih =>
    obtain ⟨fs, g, rfl, hk, hg⟩ := component_cons.1 h
    exact Nat.lt_trans (ih hg) (sizeOf_field hk)

theorem ty_component_ne {v f : Val} {path : List Nat} (hpath : path ≠ [])
    (h : v.component path = some f) : f.ty ≠ v.ty := by
  obtain ⟨k, path, rfl⟩ := List.exists_cons_of_ne_nil hpath
  intro heq
  have hlt := sizeOf_component h
  rw [heq] at hlt
  exact Nat.lt_irrefl _ hlt

end Cobrust.Llvm

/-!
## Control flow

A function is a set of labelled blocks; a block runs its instructions and leaves through its terminator.
An instruction that does not come back (a call that exits or diverges) ends the run there. Reaching an
`unreachable` terminator is undefined.
-/

namespace Cobrust.Llvm

inductive Term (Label Cond : Type) where
  | br (target : Label)
  | condBr (cond : Cond) (thenTarget elseTarget : Label)
  | switch (cond : Cond) (cases : List (Int × Label)) (default' : Label)
  | ret
  | unreachable

structure Block (Label Cond Inst : Type) where
  insts : List Inst
  term : Term Label Cond

/-- A function: its blocks. -/
abbrev Fn (Label Cond Inst : Type) :=
  Label → Option (Block Label Cond Inst)

/-- What instructions and conditions do; `none` where an instruction does not come back. -/
structure Meaning (Cond Inst σ : Type) where
  exec : Inst → σ → Option σ
  value : Cond → σ → Int

variable {Label Cond Inst σ : Type}

def Meaning.run (m : Meaning Cond Inst σ) : List Inst → σ → Option σ
  | [], s => some s
  | i :: rest, s => (m.exec i s).bind (m.run rest)

/-- Where a terminator goes. -/
def Term.next (m : Meaning Cond Inst σ) (s : σ) : Term Label Cond → Option Label
  | .br target => some target
  | .condBr cond thenTarget elseTarget => some (if m.value cond s ≠ 0 then thenTarget else elseTarget)
  | .switch cond cases default' => some ((cases.lookup (m.value cond s)).getD default')
  | .ret | .unreachable => none

variable (m : Meaning Cond Inst σ) (fn : Fn Label Cond Inst)

/-- Control has passed the instructions of a block. -/
def AtTerm (c : Label × σ) (term : Term Label Cond) (s : σ) : Prop :=
  ∃ block, fn c.1 = some block ∧ m.run block.insts c.2 = some s ∧ block.term = term

def Step (c c' : Label × σ) : Prop :=
  ∃ term, AtTerm m fn c term c'.2 ∧ term.next m c'.2 = some c'.1

/-- From the start of one block to the start of another. -/
abbrev Reaches : Label × σ → Label × σ → Prop :=
  Relation.ReflTransGen (Step m fn)

/-- The block is left through `unreachable`. -/
def Undefined (c : Label × σ) : Prop :=
  ∃ s, AtTerm m fn c .unreachable s

variable {m fn}

theorem run_append {is js : List Inst} {s : σ} :
    m.run (is ++ js) s = (m.run is s).bind (m.run js) := by
  induction is generalizing s with
  | nil => rfl
  | cons i is ih =>
    rw [List.cons_append, Meaning.run, Meaning.run, Option.bind_assoc]
    exact Option.bind_congr fun s' _ => ih

end Cobrust.Llvm
