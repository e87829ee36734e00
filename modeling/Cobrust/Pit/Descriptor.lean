import Cobrust.Types.Ty

/-!
# The schema descriptor in the web runtime

The descriptor half of `cobrust-pit/src/validation.rs`: field specifications, and `parse_schema_blocks` with the line
parser under it; and `serde_json::Value` as far as the web runtime reads it. An integer literal is an unsigned or a
negative 64-bit number, every other number a float.
-/

/-! ## JSON values -/

namespace Cobrust.Pit

inductive Number (F : Type) where
  | posInt (n : UInt64)
  | negInt (n : Int64)
  | float (x : F)

inductive Json (F : Type) where
  | null
  | bool (b : Bool)
  | number (n : Number F)
  | string (s : Text)
  | array (items : List (Json F))
  | object (fields : List (Text × Json F))

namespace Json

variable {F : Type}

def asStr : Json F → Option Text
  | .string s => some s
  | _ => none

def asBool : Json F → Option Bool
  | .bool b => some b
  | _ => none

/-- The value of an integer that fits into 64 bits with a sign. -/
def asI64 : Json F → Option Int64
  | .number (.posInt n) => if n.toNat < 2 ^ 63 then some (Int64.ofInt n.toNat) else none
  | .number (.negInt n) => some n
  | _ => none

/-- Every number as a float. -/
def asF64 [F64 F] : Json F → Option F
  | .number (.posInt n) => some (F64.ofInt n.toNat)
  | .number (.negInt n) => some (F64.ofInt n.toInt)
  | .number (.float x) => some x
  | _ => none

def asArray : Json F → Option (List (Json F))
  | .array items => some items
  | _ => none

def isObject : Json F → Bool
  | .object _ => true
  | _ => false

/-- The value of a key. -/
def get (name : Text) : Json F → Option (Json F)
  | .object fields => fields.lookup name
  | _ => none

/-- The value at the end of a chain of keys. -/
def «at» : List Text → Json F → Option (Json F)
  | [], v => some v
  | name :: rest, v => (v.get name).bind (Json.at rest)

end Json

end Cobrust.Pit

/-! ## Descriptors -/

namespace Cobrust.Pit

/-- One parsed field; `K` is the type of its kind. -/
structure FieldSpecOf (F K : Type) where
  name : Text
  kind : K
  lo : Option Int64
  hi : Option Int64
  loF : Option F
  hiF : Option F
  pattern : Option Text

inductive FieldKind (F : Type) where
  | str
  | i64
  | f64
  | bool
  | pat
  | obj (className : Text)
  | list (elem : FieldSpecOf F (FieldKind F))
  | any

abbrev FieldSpec (F : Type) := FieldSpecOf F (FieldKind F)

namespace FieldKind

variable {F : Type}

def parse (token : Text) : FieldKind F :=
  if token = "str".toList then .str
  else if token = "i64".toList then .i64
  else if token = "f64".toList then .f64
  else if token = "bool".toList then .bool
  else if token = "pat".toList then .pat
  else .any

def typeName : FieldKind F → String
  | .str | .pat => "string"
  | .i64 => "integer"
  | .f64 => "number"
  | .bool => "boolean"
  | .obj _ => "object"
  | .list _ => "array"
  | .any => "any"

end FieldKind

/-- The specification of a field of some kind, without bounds. -/
def FieldSpecOf.plain {F K : Type} (name : Text) (kind : K) : FieldSpecOf F K :=
  ⟨name, kind, none, none, none, none, none⟩

section

variable {F : Type} [F64 F]

/-- The bounds of a `:lo:hi` suffix, with the first `:` already gone; a bound that does not parse is
absent. -/
def parseSuffix {α : Type} (parse : Text → Option α) (suffix : Option Text) : Option α × Option α :=
  match suffix with
  | none => (none, none)
  | some suffix =>
    let parts := suffix.splitOn ':'
    ((parts[0]? : Option Text).bind parse, (parts[1]? : Option Text).bind parse)

def parseNumericSuffix (suffix : Option Text) : Option Int64 × Option Int64 :=
  parseSuffix Text.parseInt64 suffix

def parseFloatSuffix (suffix : Option Text) : Option F × Option F :=
  parseSuffix F64.parse suffix

/-- The kind token of a payload, and what stands behind its first `:`. -/
def splitPayload (rest : Text) : Text × Option Text :=
  match Text.splitOnce ':' rest with
  | some (kindToken, suffix) => (kindToken, some suffix)
  | none => (rest, none)

theorem length_splitPayload {rest : Text} (h : (splitPayload rest).1 = "list".toList) :
    ((splitPayload rest).2.getD []).length < rest.length := by
  unfold splitPayload at h ⊢
  cases hs : Text.splitOnce ':' rest with
  | none =>
    rw [hs] at h
    obtain rfl : rest = "list".toList := h
    decide
  | some parts =>
    obtain ⟨kindToken, suffix⟩ := parts
    rw [Text.eq_append_of_splitOnce hs, Option.getD_some, List.length_append, List.length_cons]
    omega

/-- `parse_field_payload`. -/
def parseFieldPayload (name rest : Text) : FieldSpec F :=
  let kindToken := (splitPayload rest).1
  let suffix := (splitPayload rest).2
  if _ : kindToken = "list".toList then
    .plain name (.list (parseFieldPayload name (suffix.getD [])))
  else if kindToken = "obj".toList then .plain name (.obj (suffix.getD []))
  else
    match FieldKind.parse (F := F) kindToken with
    | .pat => ⟨name, .pat, none, none, none, none, suffix.filter fun s => !s.isEmpty⟩
    | .f64 =>
      let bounds : Option F × Option F := parseFloatSuffix suffix
      ⟨name, .f64, none, none, bounds.1, bounds.2, none⟩
    | kind =>
      let bounds := parseNumericSuffix suffix
      ⟨name, kind, bounds.1, bounds.2, none, none, none⟩
termination_by rest.length
decreasing_by exact length_splitPayload ‹_›

def parseFieldLine (line : Text) : Option (FieldSpec F) :=
  (Text.splitOnce '\t' line).map fun parts => parseFieldPayload parts.1 parts.2

/-- `SchemaBlocks`: the classes of a descriptor, the body class first. -/
structure SchemaBlocks (F : Type) where
  blocks : List (Text × List (FieldSpec F))

namespace SchemaBlocks

omit [F64 F] in
def root (s : SchemaBlocks F) : List (FieldSpec F) :=
  (s.blocks.head?.map Prod.snd).getD []

omit [F64 F] in
def block (s : SchemaBlocks F) (name : Text) : Option (List (FieldSpec F)) :=
  s.blocks.lookup name

end SchemaBlocks

omit [F64 F] in
/-- Add a field to the last block; without a block there is one without a name. -/
def attach (blocks : List (Text × List (FieldSpec F))) (spec : FieldSpec F) :
    List (Text × List (FieldSpec F)) :=
  match blocks.getLast? with
  | some (name, specs) => blocks.dropLast ++ [(name, specs ++ [spec])]
  | none => [([], [spec])]

def pushField (blocks : List (Text × List (FieldSpec F))) (line : Text) :
    List (Text × List (FieldSpec F)) :=
  match parseFieldLine line with
  | some spec => attach blocks spec
  | none => blocks

/-- The class that a header line names. -/
def headerName (line : Text) : Option Text :=
  ((line.dropPrefix? "# ".toList).map Text.trim).filter fun name => !name.isEmpty

/-- One turn of the loop over the lines. -/
def pushLine (blocks : List (Text × List (FieldSpec F))) (line : Text) :
    List (Text × List (FieldSpec F)) :=
  if line = [] then blocks
  else
    match headerName line with
    | some name => blocks ++ [(name, [])]
    | none => pushField blocks line

def parseSchemaBlocks (schema : Text) : SchemaBlocks F :=
  ⟨(Text.lines schema).foldl pushLine []⟩

omit [F64 F] in
/-- `body_name`: the class of the first header. -/
def bodyName (schema : Text) : Option Text :=
  (Text.lines schema).findSome? headerName

end

end Cobrust.Pit
