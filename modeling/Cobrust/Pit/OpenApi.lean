import Cobrust.Pit.Descriptor

/-!
# The OpenAPI document

`cobrust-pit/src/openapi.rs`: the document that is derived from the registered validated routes. It is one
JSON value, built through maps of keys.
-/

namespace Cobrust.Pit

variable {F : Type}

/-- `serde_json::Number` of an `i64`. -/
def Number.ofInt64 (n : Int64) : Number F :=
  if n < 0 then .negInt n else .posInt n.toUInt64

/-- `Number::from_f64`. -/
def Number.ofF64 [F64 F] (x : F) : Option (Number F) :=
  if F64.isFinite x then some (.float x) else none

/-- `Map::insert`; a key stands once in a map. -/
def insertKey {α : Type} (fields : List (Text × α)) (key : Text) (v : α) : List (Text × α) :=
  (key, v) :: fields.filter fun field => field.1 ≠ key

theorem lookup_insertKey {α : Type} (fields : List (Text × α)) (key name : Text) (v : α) :
    (insertKey fields key v).lookup name = if name = key then some v else fields.lookup name := by
  rw [insertKey, List.lookup_cons]
  by_cases h : name = key
  · simp [h]
  · rw [if_neg h, beq_eq_false_iff_ne.2 h]
    change (fields.filter fun field => field.1 ≠ key).lookup name = fields.lookup name
    induction fields with
    | nil => rfl
    | cons field rest ih =>
      by_cases hf : field.1 = key
      · rw [List.filter_cons_of_neg (by simpa using hf), ih, List.lookup_cons, hf,
          beq_eq_false_iff_ne.2 h]
      · rw [List.filter_cons_of_pos (by simpa using hf), List.lookup_cons, List.lookup_cons, ih]

theorem mem_insertKey {α : Type} {fields : List (Text × α)} {key : Text} {v : α} {field : Text × α}
    (h : field ∈ insertKey fields key v) : field = (key, v) ∨ field ∈ fields := by
  rcases List.mem_cons.1 h with h | h
  · exact .inl h
  · exact .inr (List.mem_filter.1 h).1

section Schema

variable [F64 F]

def FieldKind.openapiType : FieldKind F → Option String
  | .str | .pat => some "string"
  | .i64 => some "integer"
  | .f64 => some "number"
  | .bool => some "boolean"
  | .obj _ | .list _ | .any => none

def componentRef (name : Text) : Text :=
  "#/components/schemas/".toList ++ name

omit [F64 F] in
/-- A keyword that stands only when it has a value. -/
def keyword (key : String) (v : Option (Json F)) : List (Text × Json F) :=
  (v.map fun v => (key.toList, v)).toList

omit [F64 F] in
def intKeyword (key : String) (n : Option Int64) : List (Text × Json F) :=
  keyword key (n.map fun n => .number (Number.ofInt64 n))

def floatKeyword (key : String) (x : Option F) : List (Text × Json F) :=
  keyword key ((x.bind Number.ofF64).map Json.number)

def fieldSchema : FieldSpec F → Json F
  | ⟨_, kind, lo, hi, loF, hiF, pattern⟩ =>
    match kind with
    | .obj className => .object [("$ref".toList, .string (componentRef className))]
    | .list elem => .object [("type".toList, .string "array".toList), ("items".toList, fieldSchema elem)]
    | kind =>
      let ty := keyword "type" (kind.openapiType.map fun ty => .string ty.toList)
      match kind with
      | .str => .object (ty ++ intKeyword "minLength" lo ++ intKeyword "maxLength" hi)
      | .pat => .object (ty ++ keyword "pattern" (pattern.map Json.string))
      | .f64 => .object (ty ++ floatKeyword "minimum" loF ++ floatKeyword "maximum" hiF)
      | _ => .object (ty ++ intKeyword "minimum" lo ++ intKeyword "maximum" hi)

def objectSchemaFromSpecs (specs : List (FieldSpec F)) : Json F :=
  let properties := specs.foldl (fun fields spec => insertKey fields spec.name (fieldSchema spec)) []
  .object [("type".toList, .string "object".toList), ("properties".toList, .object properties)]

end Schema

structure ValidatedRouteMeta where
  method : Text
  path : Text
  schema : Text

/-- The name of the body component; a descriptor without a header has the fallback. -/
def schemaName (info : ValidatedRouteMeta) : Text :=
  (bodyName info.schema).getD "RequestBody".toList

def operation (name : Text) : Json F :=
  let schema : Json F := .object [("$ref".toList, .string (componentRef name))]
  let response (description : String) : Json F :=
    .object [("description".toList, .string description.toList)]
  .object [
    ("requestBody".toList, .object [
      ("required".toList, .bool true),
      ("content".toList, .object [
        ("application/json".toList, .object [("schema".toList, schema)])])]),
    ("responses".toList, .object [
      ("200".toList, response "validated"),
      ("422".toList, response "request body failed validation")])]

section Document

variable [F64 F]

/-- The components of the blocks of one route. -/
def insertBlocks (name : Text) (schemas : List (Text × Json F))
    (blocks : List (Text × List (FieldSpec F))) : List (Text × Json F) :=
  blocks.foldl (fun schemas block =>
    insertKey schemas (if block.1 = [] then name else block.1) (objectSchemaFromSpecs block.2)) schemas

omit [F64 F] in
/-- The operation joins those of its path. -/
def insertOperation (paths : List (Text × Json F)) (path method : Text) (op : Json F) :
    List (Text × Json F) :=
  match paths.lookup path with
  | some (.object item) => insertKey paths path (.object (insertKey item method op))
  | some _ => paths
  | none => insertKey paths path (.object [(method, op)])

/-- One turn of the loop over the routes: the paths and the components. -/
def addRoute (acc : List (Text × Json F) × List (Text × Json F)) (info : ValidatedRouteMeta) :
    List (Text × Json F) × List (Text × Json F) :=
  let name := schemaName info
  (insertOperation acc.1 info.path (info.method.map Char.toLower) (operation name),
    insertBlocks name acc.2 (parseSchemaBlocks info.schema).blocks)

def buildOpenapiDoc (routes : List ValidatedRouteMeta) : Json F :=
  let acc : List (Text × Json F) × List (Text × Json F) := routes.foldl addRoute ([], [])
  .object [
    ("openapi".toList, .string "3.1.0".toList),
    ("info".toList, .object [
      ("title".toList, .string "Cobrust pit API".toList),
      ("version".toList, .string "0.1.0".toList)]),
    ("paths".toList, .object acc.1),
    ("components".toList, .object [("schemas".toList, .object acc.2)])]

end Document

end Cobrust.Pit
