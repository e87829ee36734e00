import Cobrust.Hir.Tree
import Cobrust.Store.Table
import Cobrust.Types.Ty

/-!
# The incremental type-check context

`TypeCheckCtx` of `cobrust-types/src/check.rs`, with `merge_module`, `invalidate`, `invalidate_def` and
`type_refs_any`. Hash maps are tables. The alias map and the substitution are left out: none of the three
operations reads or writes them.
-/

namespace Cobrust

open Store (Table)
open Hir (Item)

/-- A file, as `FileId.0`. -/
abbrev FileKey := Nat

structure TypedModule where
  defTypes : Table DefId Ty
  hir : Hir.Module

structure TypeCheckCtx where
  bindings : Table String Ty
  defTypes : Table DefId Ty
  /-- The definitions of the items of each file. -/
  fileDefs : Table FileKey (List DefId)
  /-- The definition behind each row of `bindings`. -/
  bindingDefs : Table String DefId
  version : UInt64

namespace TypeCheckCtx

def new : TypeCheckCtx where
  bindings := Table.empty
  defTypes := Table.empty
  fileDefs := Table.empty
  bindingDefs := Table.empty
  version := 0

end TypeCheckCtx

mutual

/-- `type_refs_any`: whether a type mentions a class or an alias whose number is in `removed`. -/
def typeRefsAny (removed : Nat → Bool) : Ty → Bool
  | .adt id args => removed id || anyRefs removed args
  | .alias id args => removed id || anyRefs removed args
  | .tuple items => anyRefs removed items
  | .list t => typeRefsAny removed t
  | .set t => typeRefsAny removed t
  | .ref t => typeRefsAny removed t
  | .array t _ => typeRefsAny removed t
  | .dict k v => typeRefsAny removed k || typeRefsAny removed v
  | .record fields => anyFieldRefs removed fields
  | .fn positional named varPositional varKeyword returnTy =>
    anyRefs removed positional || anyFieldRefs removed named || optionRefs removed varPositional ||
      optionRefs removed varKeyword || typeRefsAny removed returnTy
  | _ => false

def anyRefs (removed : Nat → Bool) : List Ty → Bool
  | [] => false
  | t :: ts => typeRefsAny removed t || anyRefs removed ts

def anyFieldRefs (removed : Nat → Bool) : List (String × Ty) → Bool
  | [] => false
  | (_, t) :: rest => typeRefsAny removed t || anyFieldRefs removed rest

def optionRefs (removed : Nat → Bool) : Option Ty → Bool
  | none => false
  | some t => typeRefsAny removed t

end

/-- The rows that the items of a module write. -/
structure ItemRows where
  bindings : Table String Ty
  bindingDefs : Table String DefId
  owned : List DefId

namespace ItemRows

/-- The row of a named item, where its definition has a type. -/
def bind (defTypes : Table DefId Ty) (name : String) (id : DefId) (rows : ItemRows) : ItemRows :=
  match defTypes id with
  | some ty =>
    { rows with bindings := rows.bindings.insert name ty, bindingDefs := rows.bindingDefs.insert name id }
  | none => rows

def own (id : DefId) (rows : ItemRows) : ItemRows :=
  { rows with owned := rows.owned ++ [id] }

/-- One turn of the loop over the items. -/
def mergeItem (defTypes : Table DefId Ty) (rows : ItemRows) : Item → ItemRows
  | .mk (.fn (.mk id name _ _ _)) _ => (rows.bind defTypes name id).own id
  | .mk (.let b) _ =>
    match b.pattern with
    | .mk (.binding name id) _ => (rows.bind defTypes name id).own id
    | _ => rows
  | .mk (.class id name _ _) _ => (rows.bind defTypes name id).own id
  | .mk (.typeAlias id _ _ _) _ => rows.own id
  | .mk (.import id _ _ _) _ => rows.own id
  | .mk (.decorated _ _) _ => rows
  | .mk (.exprStmt _) _ => rows

end ItemRows

namespace TypeCheckCtx

def mergeModule (ctx : TypeCheckCtx) (typed : TypedModule) (file : FileKey) : TypeCheckCtx :=
  let rows := typed.hir.items.foldl (ItemRows.mergeItem typed.defTypes) ⟨ctx.bindings, ctx.bindingDefs, []⟩
  { bindings := rows.bindings
    bindingDefs := rows.bindingDefs
    defTypes := Table.shadow typed.defTypes ctx.defTypes
    fileDefs := ctx.fileDefs.insert file rows.owned
    version := ctx.version + 1 }

/-- Both forms keep a binding whose name has no removed owner and whose type mentions no removed number. -/
def keepBinding (ctx : TypeCheckCtx) (removed : DefId → Bool) (name : String) (ty : Ty) : Bool :=
  !(ctx.bindingDefs name).any removed && !typeRefsAny removed ty

/-- `invalidate`; `invalidate_with` is only called without an extra definition. -/
def invalidate (ctx : TypeCheckCtx) (file : FileKey) : TypeCheckCtx :=
  let removedDefs := (ctx.fileDefs file).getD []
  let removed (id : DefId) : Bool := removedDefs.contains id
  let kept :=
    if removedDefs.isEmpty then ctx
    else { ctx with
      defTypes := ctx.defTypes.retain fun id _ => !removed id
      bindingDefs := ctx.bindingDefs.retain fun _ id => !removed id
      bindings := ctx.bindings.retain (ctx.keepBinding removed) }
  { kept with
    fileDefs := Function.update kept.fileDefs file none
    version := kept.version + 1 }

def invalidateDef (ctx : TypeCheckCtx) (id : DefId) : TypeCheckCtx :=
  let removed (d : DefId) : Bool := d == id
  { defTypes := Function.update ctx.defTypes id none
    bindingDefs := ctx.bindingDefs.retain fun _ d => d != id
    bindings := ctx.bindings.retain (ctx.keepBinding removed)
    fileDefs := fun file => (ctx.fileDefs file).map fun defs => defs.filter fun d => d != id
    version := ctx.version + 1 }

end TypeCheckCtx

end Cobrust
