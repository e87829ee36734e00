import Cobrust.Types.ClassTable
import Cobrust.Hir.Tree
import Cobrust.Graph.Discover

/-!
# The schema descriptor of a validated body

`validated_body_schema_for_handler` of `cobrust-mir/src/lower.rs`: one block for each class that the body
class refers to, in the order of a breadth-first search. `ClassTable.lines` is the list of lines of the
descriptor, each with the shape that it stands for.
-/

namespace Cobrust

namespace ClassTable

section Encoder

variable {F : Type} [F64 F]

/-- `obj_element_payload`: the payload of a validated class, and the class to be visited. -/
def objElementPayload (g : ClassTable F) (adt : AdtId) : Option (Text × List AdtId) := do
  let name ← g.adtNames adt
  if (g.fieldsOf adt).isSome then some ("obj:".toList ++ name, [adt]) else none

/-- `element_payload`: the payload of the elements of a list. -/
def elementPayload (g : ClassTable F) : Ty → Option (Text × List AdtId)
  | .str => some ("str".toList, [])
  | .int => some ("i64".toList, [])
  | .float => some ("f64".toList, [])
  | .bool => some ("bool".toList, [])
  | .adt id _ => g.objElementPayload id
  | _ => none

def baseKind : Ty → Text
  | .str => "str".toList
  | .int => "i64".toList
  | .float => "f64".toList
  | .bool => "bool".toList
  | _ => "any".toList

/-- The payload of a field that is neither a validated class nor a list. -/
def scalarPayload (g : ClassTable F) (adt : AdtId) (field : Text) (ty : Ty) : Text :=
  match g.adtRefinements adt field with
  | none => baseKind ty
  | some r => r.descriptorPayload (baseKind ty)

/-- The payload of a field, and the classes to be visited. -/
def fieldPayload (g : ClassTable F) (adt : AdtId) (field : Text) (ty : Ty) : Text × List AdtId :=
  match ty with
  | .adt nested _ => (g.objElementPayload nested).getD (g.scalarPayload adt field ty, [])
  | .list elem =>
    match g.elementPayload elem with
    | some (payload, nested) => ("list:".toList ++ payload, nested)
    | none => (g.scalarPayload adt field ty, [])
  | _ => (g.scalarPayload adt field ty, [])

/-- `emit_class_block`: the block of a class, and the classes to be visited. -/
def emitClassBlock (g : ClassTable F) (adt : AdtId) : Text × List AdtId :=
  match g.fieldsOf adt with
  | none => ([], [])
  | some fields =>
    let header := ((g.adtNames adt).map fun name => "# ".toList ++ name).toList
    let payloads := fields.map fun field => (field.1, g.fieldPayload adt field.1 field.2)
    (['\n'].intercalate (header ++ payloads.map fun p => p.1 ++ '\t' :: p.2.1),
      payloads.flatMap fun p => p.2.2)

/-- The search over the classes from the body class on. -/
def schemaOf (g : ClassTable F) (body : AdtId) : Text :=
  ['\n'].intercalate (Discover.walk g.emitClassBlock g.adtFields.length [body] [body])

/-- The class of the body parameter of a handler. -/
def bodyClass (g : ClassTable F) (lookupTy : DefId → Ty) (posArgs : List Hir.Expr) : Option AdtId :=
  match (posArgs[2]? : Option Hir.Expr) with
  | some (.mk (.name rn) _) =>
    match lookupTy rn.defId with
    | .fn positional _ _ _ _ =>
      match (positional[1]? : Option Ty) with
      | some (.adt body _) => if (g.fieldsOf body).isSome then some body else none
      | _ => none
    | _ => none
  | _ => none

def validatedBodySchemaForHandler (g : ClassTable F) (lookupTy : DefId → Ty)
    (posArgs : List Hir.Expr) : Text :=
  ((g.bodyClass lookupTy posArgs).map g.schemaOf).getD []

end Encoder

/-! ## The lines of a descriptor -/

/-- A line of a descriptor. -/
inductive Line (F : Type) where
  | header (name : Text)
  | field (name : Text) (shape : Shape F)

section Lines

variable {F : Type} [F64 F] (g : ClassTable F)

def elemPayload : Elem → Text
  | .str => "str".toList
  | .i64 => "i64".toList
  | .f64 => "f64".toList
  | .bool => "bool".toList
  | .cls id => "obj:".toList ++ g.nameOf id

def shapePayload : Shape F → Text
  | .str length => "str".toList ++ length.elim [] fun b => intSuffix b.lo b.hi
  | .pattern regex => "pat:".toList ++ regex
  | .i64 range => "i64".toList ++ range.elim [] fun b => intSuffix b.lo b.hi
  | .f64 range => "f64".toList ++ range.elim [] fun b => floatSuffix b.lo b.hi
  | .bool => "bool".toList
  | .cls id => "obj:".toList ++ g.nameOf id
  | .list elem => "list:".toList ++ g.elemPayload elem
  | .any => "any".toList

def renderLine : Line F → Text
  | .header name => "# ".toList ++ name
  | .field name shape => name ++ '\t' :: g.shapePayload shape

omit [F64 F] in
/-- The lines of the block of a class. -/
def blockLines (id : AdtId) : List (Line F) :=
  .header (g.nameOf id) :: (g.shapes id).map fun field => .field field.1 field.2

omit [F64 F] in
/-- The classes that the body class refers to, in the order of their discovery. -/
def order (root : AdtId) : List AdtId :=
  Discover.order g.refs g.adtFields.length root

omit [F64 F] in
def lines (root : AdtId) : List (Line F) :=
  (g.order root).flatMap g.blockLines

variable {g}

omit [F64 F] in
theorem order_spec {root : AdtId} (hroot : g.IsClass root) :
    (g.order root).head? = some root ∧ (g.order root).Nodup ∧
      ∀ id, id ∈ g.order root ↔ g.Reachable root id :=
  Discover.order_spec (fun _ _ _ h => mem_keys_of_isClass (isClass_of_mem_refs h))
    (mem_keys_of_isClass hroot) (Nat.le_of_eq (List.length_map _))

omit [F64 F] in
theorem isClass_of_mem_order {root id : AdtId} (hroot : g.IsClass root) (h : id ∈ g.order root) :
    g.IsClass id :=
  (((order_spec hroot).2.2 id).1 h).isClass hroot

omit [F64 F] in
theorem objElementPayload_eq (id : AdtId) : g.objElementPayload id =
    if g.IsClass id then some ("obj:".toList ++ g.nameOf id, [id]) else none := by
  unfold objElementPayload nameOf
  cases hn : g.adtNames id with
  | none =>
    rw [if_neg fun h => by simpa [hn] using h.2]
    rfl
  | some name =>
    by_cases hf : (g.fieldsOf id).isSome
    · rw [if_pos ⟨hf, Option.isSome_iff_exists.2 ⟨name, hn⟩⟩]
      simp [hf]
    · rw [if_neg fun h => hf h.1]
      simp [hf]

omit [F64 F] in
theorem elementPayload_eq (ty : Ty) : g.elementPayload ty =
    (g.elemOf ty).map fun e => (g.elemPayload e, (Shape.list (F := F) e).classes) := by
  cases ty with
  | adt id args =>
    rw [elementPayload, elemOf, objElementPayload_eq]
    split <;> rfl
  | _ => rfl

theorem scalarPayload_of_not_attachable {id : AdtId} {field : Text} {ty : Ty}
    (ha : ∀ r, g.adtRefinements id field = some r → r.Attachable ty)
    (hty : ∀ r : Refinement F, ¬ r.Attachable ty) : g.scalarPayload id field ty = baseKind ty := by
  unfold scalarPayload
  cases hr : g.adtRefinements id field with
  | none => rfl
  | some r => exact absurd (ha r hr) (hty r)

/-- The encoder emits the payload of the shape, and visits its classes. -/
theorem fieldPayload_eq {id : AdtId} {field : Text} {ty : Ty}
    (ha : ∀ r, g.adtRefinements id field = some r → r.Attachable ty) :
    g.fieldPayload id field ty =
      (g.shapePayload (g.shapeOf id field ty), (g.shapeOf id field ty).classes) := by
  have hnone (h : ∀ r : Refinement F, ¬ r.Attachable ty) := scalarPayload_of_not_attachable ha h
  cases ty with
  | str =>
    change (g.scalarPayload id field .str, _) = _
    rw [scalarPayload, shapeOf]
    cases hr : g.adtRefinements id field with
    | none => rfl
    | some r =>
      cases r with
      | strLen lo hi => rfl
      | pattern regex => rfl
      | intRange lo hi => cases ha _ hr
      | floatRange lo hi => cases (ha _ hr).1
  | int =>
    change (g.scalarPayload id field .int, _) = _
    rw [scalarPayload, shapeOf]
    cases hr : g.adtRefinements id field with
    | none => rfl
    | some r =>
      cases r with
      | intRange lo hi => rfl
      | floatRange lo hi => cases (ha _ hr).1
      | _ => cases ha _ hr
  | float =>
    change (g.scalarPayload id field .float, _) = _
    rw [scalarPayload, shapeOf]
    cases hr : g.adtRefinements id field with
    | none => rfl
    | some r =>
      cases r with
      | floatRange lo hi => rfl
      | _ => cases ha _ hr
  | adt n args =>
    rw [fieldPayload, shapeOf, objElementPayload_eq, hnone (by rintro (_ | _) <;> simp [Refinement.Attachable])]
    split <;> rfl
  | list elem =>
    rw [fieldPayload, shapeOf, elementPayload_eq, hnone (by rintro (_ | _) <;> simp [Refinement.Attachable])]
    cases g.elemOf elem <;> rfl
  | _ => exact congrArg (·, []) (hnone (by rintro (_ | _) <;> simp [Refinement.Attachable]))

theorem emitClassBlock_eq (hg : g.WellFormed) {id : AdtId} (hid : g.IsClass id) :
    g.emitClassBlock id =
      (['\n'].intercalate ((g.blockLines id).map g.renderLine), g.refs id) := by
  obtain ⟨fields, hf⟩ := Option.isSome_iff_exists.1 hid.1
  obtain ⟨name, hn⟩ := Option.isSome_iff_exists.1 hid.2
  have hfield : ∀ field ∈ fields, g.fieldPayload id field.1 field.2 =
      (g.shapePayload (g.shapeOf id field.1 field.2), (g.shapeOf id field.1 field.2).classes) :=
    fun field hm => fieldPayload_eq (hg.attachable id fields hf field hm)
  have hpayloads : (fields.map fun field => (field.1, g.fieldPayload id field.1 field.2)) =
      fields.map fun field => (field.1, g.shapePayload (g.shapeOf id field.1 field.2),
        (g.shapeOf id field.1 field.2).classes) :=
    List.map_congr_left fun field hm => by rw [hfield field hm]
  simp only [emitClassBlock, hf, hn, hpayloads, blockLines, shapes, refs, nameOf, renderLine,
    Option.map_some, Option.toList_some, Option.getD_some, List.map_cons, List.map_map,
    List.singleton_append, List.flatMap_map]
  rfl

theorem snd_emitClassBlock (hg : g.WellFormed) (id : AdtId) : (g.emitClassBlock id).2 = g.refs id := by
  cases hf : g.fieldsOf id with
  | none => simp [emitClassBlock, refs, shapes, hf]
  | some fields =>
    have hf' : (g.fieldsOf id).isSome := by simp [hf]
    rw [emitClassBlock_eq hg ⟨hf', hg.named id hf'⟩]

/-- The descriptor of a body class is the text of its lines. -/
theorem schemaOf_eq (hg : g.WellFormed) {root : AdtId} (hroot : g.IsClass root) :
    g.schemaOf root = ['\n'].intercalate ((g.lines root).map g.renderLine) := by
  have hvisit : (fun id => (id, (g.emitClassBlock id).2)) = fun id => (id, g.refs id) :=
    funext fun id => by rw [snd_emitClassBlock hg]
  have hblocks : ((g.order root).map fun id => (g.emitClassBlock id).1) =
      (g.order root).map fun id => ['\n'].intercalate ((g.blockLines id).map g.renderLine) :=
    List.map_congr_left fun id hid => by rw [emitClassBlock_eq hg (isClass_of_mem_order hroot hid)]
  rw [schemaOf, Discover.walk_eq_map, hvisit]
  change ['\n'].intercalate ((g.order root).map fun id => (g.emitClassBlock id).1) = _
  rw [hblocks, Text.intercalate_flatMap (fun id _ => by simp [blockLines]), lines, List.map_flatMap]

end Lines

end ClassTable

end Cobrust
