import Cobrust.Pit.Descriptor

/-!
# Validation of a request body

`validate_against_schema` of `cobrust-pit/src/validation.rs`, with its recursion over blocks, fields and
list elements and its cap on the nesting of classes. Whether a regular expression compiles and matches
somewhere in a text is a parameter.
-/

namespace Cobrust.Pit

inductive ValidationError (F : Type) where
  | notAnObject
  | missingField (field : Text)
  | wrongType (field : Text) (expected : String)
  | outOfRange (field : Text) (value : Int64) (lo hi : Option Int64)
  | floatOutOfRange (field : Text) (value : F) (lo hi : Option F)
  | lengthOutOfRange (field : Text) (len : Nat) (lo hi : Option Int64)
  | patternMismatch (field pattern : Text)
  | unknownField (field : Text)
  | nestingTooDeep (field : Text)

def maxNestingDepth : Nat := 64

section

variable {F : Type} [F64 F]

omit [F64 F] in
def wrongType (spec : FieldSpec F) : ValidationError F :=
  .wrongType spec.name spec.kind.typeName

omit [F64 F] in
def outOfRange (spec : FieldSpec F) (value : Int64) : ValidationError F :=
  .outOfRange spec.name value spec.lo spec.hi

omit [F64 F] in
def floatOutOfRange (spec : FieldSpec F) (value : F) : ValidationError F :=
  .floatOutOfRange spec.name value spec.loF spec.hiF

omit [F64 F] in
/-- The length is the number of characters; a text in memory has fewer than `2 ^ 63`. -/
def checkStrLen (spec : FieldSpec F) (s : Text) : Except (ValidationError F) Unit :=
  if (spec.lo.any fun lo => (s.length : Int) < lo.toInt) ||
      (spec.hi.any fun hi => hi.toInt < (s.length : Int)) then
    .error (.lengthOutOfRange spec.name s.length spec.lo spec.hi)
  else .ok ()

omit [F64 F] in
def checkPattern (isMatch : Text → Text → Bool) (spec : FieldSpec F) (s : Text) :
    Except (ValidationError F) Unit :=
  match spec.pattern with
  | none => .ok ()
  | some pattern => if isMatch pattern s then .ok () else .error (.patternMismatch spec.name pattern)

omit [F64 F] in
/-- The name of a list element in an error. -/
def indexedName (name : Text) (i : Nat) : Text :=
  name ++ '[' :: Text.displayInt i ++ [']']

omit [F64 F] in
theorem sizeOf_kind_lt (elem : FieldSpec F) : sizeOf elem.kind + 1 < sizeOf (FieldKind.list elem) := by
  cases elem
  simp
  omega

omit [F64 F] in
theorem sizeOf_kind_lt_cons (spec : FieldSpec F) (rest : List (FieldSpec F)) :
    sizeOf spec.kind < sizeOf (spec :: rest) := by
  cases spec
  simp
  omega

variable (isMatch : Text → Text → Bool) (blocks : SchemaBlocks F)

mutual

/-- `validate_block`. -/
def validateBlock (specs : List (FieldSpec F)) (body : Json F) (depth : Nat) :
    Except (ValidationError F) Unit :=
  match body with
  | .object fields =>
    match fields.find? fun field => !specs.any fun spec => spec.name = field.1 with
    | some field => .error (.unknownField field.1)
    | none => checkFields specs fields depth
  | _ => .error .notAnObject
termination_by (maxNestingDepth + 1 - depth, sizeOf specs + 1, 0)

/-- The loop over the declared fields. -/
def checkFields (specs : List (FieldSpec F)) (fields : List (Text × Json F)) (depth : Nat) :
    Except (ValidationError F) Unit :=
  match specs with
  | [] => .ok ()
  | spec :: rest =>
    match fields.lookup spec.name with
    | none => .error (.missingField spec.name)
    | some value => do
      checkField spec value depth
      checkFields rest fields depth
termination_by (maxNestingDepth + 1 - depth, sizeOf specs, 0)
decreasing_by
  · apply Prod.Lex.right
    apply Prod.Lex.left
    exact sizeOf_kind_lt_cons spec rest
  · apply Prod.Lex.right
    apply Prod.Lex.left
    simp only [List.cons.sizeOf_spec]
    omega

/-- `check_field`. -/
def checkField (spec : FieldSpec F) (value : Json F) (depth : Nat) : Except (ValidationError F) Unit :=
  match spec with
  | ⟨name, kind, lo, hi, loF, hiF, _⟩ =>
    match kind with
    | .str =>
      match value.asStr with
      | none => .error (wrongType spec)
      | some s => checkStrLen spec s
    | .pat =>
      match value.asStr with
      | none => .error (wrongType spec)
      | some s => checkPattern isMatch spec s
    | .bool => if value.asBool.isSome then .ok () else .error (wrongType spec)
    | .f64 =>
      match value.asF64 with
      | none => .error (wrongType spec)
      | some n =>
        if (loF.any fun lo => F64.lt n lo) || (hiF.any fun hi => F64.lt hi n) then
          .error (floatOutOfRange spec n)
        else .ok ()
    | .i64 =>
      match value.asI64 with
      | none => .error (wrongType spec)
      | some n =>
        if (lo.any fun lo => n < lo) || (hi.any fun hi => hi < n) then .error (outOfRange spec n)
        else .ok ()
    | .obj className =>
      if depth + 1 > maxNestingDepth then .error (.nestingTooDeep name)
      else if !value.isObject then .error (wrongType spec)
      else
        match blocks.block className with
        | none => .error (wrongType spec)
        | some nested => validateBlock nested value (depth + 1)
    | .list elem =>
      match value with
      | .array items => checkItems name elem 0 items depth
      | _ => .error (wrongType spec)
    | .any => .ok ()
termination_by (maxNestingDepth + 1 - depth, sizeOf spec.kind, 0)
decreasing_by
  · simp only [maxNestingDepth] at *
    apply Prod.Lex.left
    omega
  · apply Prod.Lex.right
    apply Prod.Lex.left
    exact sizeOf_kind_lt elem

/-- The loop over the elements of a list. -/
def checkItems (name : Text) (elem : FieldSpec F) (i : Nat) (items : List (Json F)) (depth : Nat) :
    Except (ValidationError F) Unit :=
  match items with
  | [] => .ok ()
  | item :: rest => do
    checkField { elem with name := indexedName name i } item depth
    checkItems name elem (i + 1) rest depth
termination_by (maxNestingDepth + 1 - depth, sizeOf elem.kind + 1, items.length)

end

/-- `validate_against_schema`. -/
def validateAgainstSchema (schema : Text) (body : Json F) : Except (ValidationError F) Unit :=
  let blocks := parseSchemaBlocks schema
  validateBlock isMatch blocks blocks.root body 0

end

end Cobrust.Pit
