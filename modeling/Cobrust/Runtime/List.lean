import Cobrust.Control.Outcome
import Cobrust.Store.Table
import Mathlib.Algebra.Group.Int.Defs
import Mathlib.Data.List.Basic

/-!
# Lists of the runtime

The memory of buffers, and the C interface of lists in `cobrust-stdlib/src/collections.rs`: `__cobrust_list_new` and the
operations on what it returns. The integers of a layout are integers here; that none of them leaves `i64` is part of
`Memory.Inv`. A null handle is `none`.
-/

/-!
## Memory of buffers

Buffers of words under addresses, and how they are allocated, read and written. What the language leaves
undefined stops a program with `undefined`.
-/

namespace Cobrust.Runtime

open Cobrust.Store (Table)

abbrev Word := BitVec 64

abbrev Address := Nat

/-- Why a program does not go on. -/
inductive Stop where
  /-- The program ends with a message. -/
  | trap (message : String)
  /-- The size is more than a buffer may have. -/
  | layout
  /-- There is no memory left. -/
  | allocError
  /-- The language says nothing about what happens. -/
  | undefined
  deriving DecidableEq, Repr

/-- The stops for want of memory. -/
def Stop.OutOfMemory : Stop → Prop
  | .layout => True
  | .allocError => True
  | _ => False

abbrev Buffers := Table Address (List Word)

/-- How addresses are chosen: none that is in use. -/
structure Allocator (ν : Type) where
  place : Table Address ν → Nat → Option Address
  fresh : ∀ t n p, place t n = some p → t p = none

/-- The most words that a buffer can have, for sizes in bytes below 2^63. -/
def maxWords : Int :=
  (2 ^ 63 - 1) / 8

/-- `alloc_zeroed`, for a buffer of words. -/
def allocZeroed (a : Allocator (List Word)) (b : Buffers) (n : Int) : Except Stop (Buffers × Address) :=
  if n > maxWords then .error .layout
  else
    match a.place b n.toNat with
    | none => .error .allocError
    | some p => .ok (b.insert p (List.replicate n.toNat 0), p)

def dealloc (b : Buffers) (p : Address) : Except Stop Buffers :=
  match b p with
  | none => .error .undefined
  | some _ => .ok (Function.update b p none)

/-- `*items.add(i)` -/
def load (b : Buffers) (items : Option Address) (i : Int) : Except Stop Word :=
  match (items.bind b).bind fun words => words[i.toNat]? with
  | none => .error .undefined
  | some w => .ok w

/-- `*items.add(i) = w` -/
def store (b : Buffers) (items : Option Address) (i : Int) (w : Word) : Except Stop Buffers :=
  match items with
  | none => .error .undefined
  | some p =>
    match b p with
    | none => .error .undefined
    | some words => if i.toNat < words.length then .ok (b.insert p (words.set i.toNat w)) else .error .undefined

/-- `copy_nonoverlapping(src.add(offset), dst, count)` -/
def copyNonoverlapping (b : Buffers) (src : Option Address) (offset : Int) (dst : Option Address) (count : Int) :
    Except Stop Buffers :=
  match src, dst with
  | some p, some q =>
    match b p, b q with
    | some words, some target =>
      if p ≠ q ∧ offset.toNat + count.toNat ≤ words.length ∧ count.toNat ≤ target.length then
        .ok (b.insert q ((words.drop offset.toNat).take count.toNat ++ target.drop count.toNat))
      else .error .undefined
    | _, _ => .error .undefined
  | _, _ => .error .undefined

variable {a : Allocator (List Word)} {b b' : Buffers} {p q : Address} {i n : Int} {w : Word} {words : List Word}

theorem store_ok (hp : b p = some words) (hi : i.toNat < words.length) :
    store b (some p) i w = .ok (b.insert p (words.set i.toNat w)) := by
  simp [store, hp, hi]

end Cobrust.Runtime

/-! ## Lists -/

namespace Cobrust.Runtime

open Cobrust.Store (Table)

structure ListI64Layout where
  items : Option Address
  len : Int
  cap : Int
  deriving DecidableEq, Repr

/-- The layouts of the lists, by their handles, and the buffers. -/
structure Memory where
  lists : Table Address ListI64Layout
  buffers : Buffers

/-- How the handles and the buffers get their addresses. -/
structure Allocators where
  lists : Allocator ListI64Layout
  buffers : Allocator (List Word)

abbrev Handle := Option Address

variable (a : Allocators) (m : Memory)

/-- `&*list.cast::<ListI64Layout>()` -/
def Memory.layout (list : Handle) : Except Stop ListI64Layout :=
  match list.bind m.lists with
  | none => .error .undefined
  | some layout => .ok layout

/-- `Box::into_raw(Box::new(layout))` -/
def Memory.box (layout : ListI64Layout) : Except Stop (Memory × Handle) :=
  match a.lists.place m.lists 1 with
  | none => .error .allocError
  | some l => .ok ({ m with lists := m.lists.insert l layout }, some l)

def Memory.setLayout (list : Handle) (layout : ListI64Layout) : Memory :=
  match list with
  | none => m
  | some l => { m with lists := m.lists.insert l layout }

def listNew (len : Int) : Except Stop (Memory × Handle) := do
  let cap := max len 0
  if cap = 0 then m.box a { items := none, len := cap, cap }
  else
    let (buffers, p) ← allocZeroed a.buffers m.buffers cap
    { m with buffers := buffers }.box a { items := some p, len := cap, cap }

def listSet (list : Handle) (i : Int) (v : Word) : Except Stop Memory :=
  if list.isNone then .ok m
  else do
    let layout ← m.layout list
    if i < 0 ∨ i ≥ layout.len then return m
    else
      let buffers ← store m.buffers layout.items i v
      return { m with buffers }

/-- The length, or that of the empty list for null. -/
def listLen (list : Handle) : Except Stop Int :=
  if list.isNone then .ok 0
  else do
    let layout ← m.layout list
    return layout.len

def listGet (list : Handle) (i : Int) : Except Stop Word := do
  let len ← listLen m list
  let idx := if i < 0 then len + i else i
  if idx < 0 ∨ idx ≥ len then
    .error (.trap ("list index out of range: i=" ++ toString i ++ " len=" ++ toString len))
  else
    let layout ← m.layout list
    load m.buffers layout.items idx

/-- `Ord::clamp` -/
def clamp (i lo hi : Int) : Int :=
  if i < lo then lo else if i > hi then hi else i

def listSlice (list : Handle) (lo hi : Int) : Except Stop (Memory × Handle) := do
  let len ← listLen m list
  let lo_c := clamp lo 0 len
  let hi_c := clamp hi 0 len
  let out_len := max (hi_c - lo_c) 0
  let (m, out) ← listNew a m out_len
  if out_len > 0 then
    let src ← m.layout list
    let dst ← m.layout out
    let buffers ← copyNonoverlapping m.buffers src.items lo_c dst.items out_len
    return ({ m with buffers }, out)
  else return (m, out)

/-- The branch of `__cobrust_list_append` for a list without room. -/
def grow (layout : ListI64Layout) : Except Stop (Memory × ListI64Layout) := do
  let newCap := if layout.cap = 0 then 4 else layout.cap * 2
  let (buffers, newItems) ← allocZeroed a.buffers m.buffers newCap
  let buffers ←
    match layout.items with
    | some p =>
      if layout.cap > 0 then do
        let buffers ← copyNonoverlapping buffers (some p) 0 (some newItems) layout.len
        dealloc buffers p
      else .ok buffers
    | none => .ok buffers
  return ({ m with buffers }, { layout with items := some newItems, cap := newCap })

def listAppend (list : Handle) (v : Word) : Except Stop Memory :=
  if list.isNone then .ok m
  else do
    let layout ← m.layout list
    let (m, layout) ← if layout.len ≥ layout.cap then grow a m layout else .ok (m, layout)
    let buffers ← store m.buffers layout.items layout.len v
    return { m with buffers }.setLayout list { layout with len := layout.len + 1 }

def listPop (list : Handle) : Except Stop (Memory × Word) :=
  if list.isNone then .error (.trap "pop from empty list")
  else do
    let layout ← m.layout list
    if layout.len ≤ 0 then .error (.trap "pop from empty list")
    else
      let v ← load m.buffers layout.items (layout.len - 1)
      return (m.setLayout list { layout with len := layout.len - 1 }, v)

inductive Op where
  | new (len : Int)
  | set (list : Address) (i : Int) (v : Word)
  | get (list : Address) (i : Int)
  | len (list : Address)
  | slice (list : Address) (lo hi : Int)
  | append (list : Address) (v : Word)
  | pop (list : Address)
  deriving DecidableEq, Repr

/-- What an operation returns. -/
inductive Result where
  | unit
  | word (w : Word)
  | int (n : Int)
  | list (l : Handle)
  deriving DecidableEq, Repr

def step : Op → Except Stop (Memory × Result)
  | .new len => (listNew a m len).map fun (m, l) => (m, .list l)
  | .set l i v => (listSet m (some l) i v).map fun m => (m, .unit)
  | .get l i => (listGet m (some l) i).map fun w => (m, .word w)
  | .len l => (listLen m (some l)).map fun n => (m, .int n)
  | .slice l lo hi => (listSlice a m (some l) lo hi).map fun (m, l) => (m, .list l)
  | .append l v => (listAppend a m (some l) v).map fun m => (m, .unit)
  | .pop l => (listPop m (some l)).map fun (m, w) => (m, .word w)

/-- The list that an operation is about. -/
def Op.list? : Op → Option Address
  | .new _ => none
  | .set l _ _ => some l
  | .get l _ => some l
  | .len l => some l
  | .slice l _ _ => some l
  | .append l _ => some l
  | .pop l => some l

/-- The operation is about a list that there is. -/
def Op.Valid (m : Memory) (op : Op) : Prop :=
  ∀ l ∈ op.list?, (m.lists l).isSome

def Memory.empty : Memory :=
  ⟨Table.empty, Table.empty⟩

/-- The operations so far, each about a list that there is, with what they returned; the last one first. -/
inductive Run : List (Op × Result) → Memory → Prop
  | empty : Run [] Memory.empty
  | step {history : List (Op × Result)} {m m' : Memory} {op : Op} {r : Result} (h : Run history m) (hop : op.Valid m)
      (hstep : Runtime.step a m op = .ok (m', r)) : Run ((op, r) :: history) m'

end Cobrust.Runtime
