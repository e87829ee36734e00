import Cobrust.Control.Outcome
import Cobrust.Pit.Accessor
import Cobrust.Pit.RoundTrip
import Cobrust.Pit.Validation

/-!
# Validation is conformance

`Conforms` is what a graph of validated classes says of a JSON value. Validation accepts a value exactly
when it conforms and its classes are not nested too deep (`validateBlock_iff`), and every chain of field
reads from an accepted value gives what stands in the value (`readField_holds`).
-/

namespace Cobrust

open Control (except_bind_ok)
open Pit (FieldSpec Json SchemaBlocks BodyValue checkField checkFields checkItems validateBlock
  maxNestingDepth)

variable {F : Type} [F64 F]

/-- The bounds of an integer, or of a number of characters. -/
def Bounds.AdmitsInt (b : Bounds Int64) (n : Int) : Prop :=
  (∀ lo, b.lo = some lo → lo.toInt ≤ n) ∧ ∀ hi, b.hi = some hi → n ≤ hi.toInt

def Bounds.AdmitsFloat (b : Bounds F) (x : F) : Prop :=
  (∀ lo, b.lo = some lo → F64.lt x lo = false) ∧ ∀ hi, b.hi = some hi → F64.lt hi x = false

/-- `v` is a value of the shape: it has the base type, lies within the bounds, matches the pattern, and so
do the fields of an object and the elements of a list. The keys of an object are exactly the fields of its
class. -/
inductive Conforms (g : ClassTable F) (isMatch : Text → Text → Bool) : Shape F → Json F → Prop
  | str {length s} : (∀ b, length = some b → b.AdmitsInt s.length) →
      Conforms g isMatch (.str length) (.string s)
  | pattern {regex s} : isMatch regex s → Conforms g isMatch (.pattern regex) (.string s)
  | i64 {range v n} : v.asI64 = some n → (∀ b, range = some b → b.AdmitsInt n.toInt) →
      Conforms g isMatch (.i64 range) v
  | f64 {range v x} : v.asF64 = some x → (∀ b, range = some b → b.AdmitsFloat x) →
      Conforms g isMatch (.f64 range) v
  | bool {b} : Conforms g isMatch .bool (.bool b)
  | any {v} : Conforms g isMatch .any v
  | list {elem items} : (∀ item ∈ items, Conforms g isMatch elem.shape item) →
      Conforms g isMatch (.list elem) (.array items)
  | cls {id fields} : (∀ name, name ∈ fields.map Prod.fst ↔ name ∈ (g.shapes id).map Prod.fst) →
      (∀ field ∈ g.shapes id, ∀ v, fields.lookup field.1 = some v → Conforms g isMatch field.2 v) →
      Conforms g isMatch (.cls id) (.object fields)

/-- A value of a class stands `n` classes below `v`. -/
inductive Nests (g : ClassTable F) : Shape F → Json F → Nat → Prop
  | here {id v} : Nests g (.cls id) v 0
  | field {id fields field v n} : field ∈ g.shapes id → fields.lookup field.1 = some v →
      Nests g field.2 v n → Nests g (.cls id) (.object fields) (n + 1)
  | item {elem items item n} : item ∈ items → Nests g elem.shape item n →
      Nests g (.list elem) (.array items) n

section Checks

variable {g : ClassTable F} {isMatch : Text → Text → Bool} {blocks : SchemaBlocks F}

omit [F64 F] in
theorem any_lt_iff (b : Option (Bounds Int64)) (n : Int) :
    ((b.bind Bounds.lo).any fun lo => n < lo.toInt) = false ∧
      ((b.bind Bounds.hi).any fun hi => hi.toInt < n) = false ↔
    ∀ c, b = some c → c.AdmitsInt n := by
  cases b with
  | none => simp
  | some b =>
    obtain ⟨lo, hi⟩ := b
    cases lo <;> cases hi <;> simp [Bounds.AdmitsInt]

theorem any_lt_iff_float (b : Option (Bounds F)) (x : F) :
    ((b.bind Bounds.lo).any fun lo => F64.lt x lo) = false ∧
      ((b.bind Bounds.hi).any fun hi => F64.lt hi x) = false ↔
    ∀ c, b = some c → c.AdmitsFloat x := by
  cases b with
  | none => simp
  | some b =>
    obtain ⟨lo, hi⟩ := b
    cases lo <;> cases hi <;> simp [Bounds.AdmitsFloat]

theorem checkFields_ok {specs : List (FieldSpec F)} {fields : List (Text × Json F)} {depth : Nat} :
    checkFields isMatch blocks specs fields depth = .ok () ↔
      ∀ spec ∈ specs, ∃ v, fields.lookup spec.name = some v ∧
        checkField isMatch blocks spec v depth = .ok () := by
  induction specs with
  | nil => simp [checkFields]
  | cons spec rest ih =>
    rw [checkFields, List.forall_mem_cons, ← ih]
    cases hl : fields.lookup spec.name with
    | none => simp
    | some v =>
      simp only [except_bind_ok]
      constructor
      · rintro ⟨u, hv, hrest⟩
        exact ⟨⟨v, rfl, hv⟩, hrest⟩
      · rintro ⟨⟨w, hw, hv⟩, hrest⟩
        cases hw
        exact ⟨(), hv, hrest⟩

theorem mem_keys_iff {α : Type} {fields : List (Text × α)} {name : Text} :
    name ∈ fields.map Prod.fst ↔ ∃ v, fields.lookup name = some v := by
  rw [← Option.isSome_iff_exists, List.lookup_isSome_iff, List.mem_map]
  exact exists_congr fun p => and_congr_right fun _ => eq_comm.trans beq_iff_eq.symm

theorem validateBlock_ok {specs : List (FieldSpec F)} {body : Json F} {depth : Nat} :
    validateBlock isMatch blocks specs body depth = .ok () ↔
      ∃ fields, body = .object fields ∧
        (∀ name, name ∈ fields.map Prod.fst ↔ name ∈ specs.map Pit.FieldSpecOf.name) ∧
        ∀ spec ∈ specs, ∀ v, fields.lookup spec.name = some v →
          checkField isMatch blocks spec v depth = .ok () := by
  cases body with
  | object fields =>
    rw [validateBlock]
    have hkeys : (fields.find? fun field => !specs.any fun spec => spec.name = field.1) = none ↔
        ∀ name ∈ fields.map Prod.fst, name ∈ specs.map Pit.FieldSpecOf.name := by
      simp [List.find?_eq_none]
    cases hf : fields.find? fun field => !specs.any fun spec => spec.name = field.1 with
    | some field =>
      refine iff_of_false (fun h => by cases h) ?_
      rintro ⟨_, he, hall, -⟩
      cases he
      rw [hkeys.2 fun name => (hall name).1] at hf
      cases hf
    | none =>
      rw [checkFields_ok]
      constructor
      · intro h
        refine ⟨fields, rfl, fun name => ⟨hkeys.1 hf name, fun hn => ?_⟩, fun spec hs v hv => ?_⟩
        · obtain ⟨spec, hs, rfl⟩ := List.mem_map.1 hn
          obtain ⟨v, hv, -⟩ := h spec hs
          exact mem_keys_iff.2 ⟨v, hv⟩
        · obtain ⟨w, hw, hok⟩ := h spec hs
          cases hv.symm.trans hw
          exact hok
      · rintro ⟨_, he, hall, hok⟩ spec hs
        cases he
        obtain ⟨v, hv⟩ := mem_keys_iff.1 ((hall _).2 (List.mem_map_of_mem hs))
        exact ⟨v, hv, hok spec hs v hv⟩
  | _ =>
    rw [validateBlock]
    · simp
    · simp

/-! ## Fields and their shapes -/

/-- The blocks of the graph, by name. -/
def HasBlocks (g : ClassTable F) (blocks : SchemaBlocks F) (id : AdtId) : Prop :=
  blocks.block (g.nameOf id) = some (g.specBlock id).2

/-- A check of one field at `depth` accepts the values that conform and nest no deeper than the cap
allows. -/
def ChecksField (g : ClassTable F) (isMatch : Text → Text → Bool) (blocks : SchemaBlocks F) (depth : Nat)
    (shape : Shape F) : Prop :=
  ∀ name v, checkField isMatch blocks (g.specOf name shape) v depth = .ok () ↔
    Conforms g isMatch shape v ∧ ∀ n, Nests g shape v n → depth + 1 + n ≤ maxNestingDepth

omit [F64 F] in
theorem not_nests {shape : Shape F} (h : shape.classes = []) {v : Json F} {n : Nat} : ¬ Nests g shape v n := by
  intro hn
  cases hn with
  | here => cases h
  | field => cases h
  | @item elem _ _ _ _ hn =>
    cases elem with
    | cls id => cases h
    | _ => cases hn

omit [F64 F] in
theorem checkStrLen_ok {spec : FieldSpec F} {length : Option (Bounds Int64)} {s : Text}
    (hlo : spec.lo = length.bind Bounds.lo) (hhi : spec.hi = length.bind Bounds.hi) :
    Pit.checkStrLen spec s = .ok () ↔ ∀ b, length = some b → b.AdmitsInt s.length := by
  rw [← any_lt_iff, Pit.checkStrLen, hlo, hhi]
  split
  · rename_i h
    refine iff_of_false (fun h => by cases h) fun ⟨h₁, h₂⟩ => ?_
    simp [h₁, h₂] at h
  · rename_i h
    simpa using h

theorem checkField_str {name : Text} {length : Option (Bounds Int64)} {v : Json F} {depth : Nat} :
    checkField isMatch blocks (g.specOf name (.str length)) v depth = .ok () ↔
      Conforms g isMatch (.str length) v := by
  rw [ClassTable.specOf, checkField]
  cases v with
  | string s =>
    change Pit.checkStrLen _ s = .ok () ↔ _
    rw [checkStrLen_ok rfl rfl]
    constructor
    · exact .str
    · intro h
      cases h with
      | str h => exact h
  | _ => exact iff_of_false (fun h => by cases h) fun h => by cases h

theorem checkField_pattern {name regex : Text} {v : Json F} {depth : Nat} :
    checkField isMatch blocks (g.specOf name (.pattern regex)) v depth = .ok () ↔
      Conforms g isMatch (.pattern regex) v := by
  rw [ClassTable.specOf, checkField]
  cases v with
  | string s =>
    change (if isMatch regex s then Except.ok () else _) = .ok () ↔ _
    split
    · rename_i h
      exact iff_of_true rfl (.pattern h)
    · rename_i h
      refine iff_of_false (fun h => by cases h) fun hc => ?_
      cases hc with
      | pattern hm => exact h hm
  | _ => exact iff_of_false (fun h => by cases h) fun h => by cases h

theorem checkField_i64 {name : Text} {range : Option (Bounds Int64)} {v : Json F} {depth : Nat} :
    checkField isMatch blocks (g.specOf name (.i64 range)) v depth = .ok () ↔
      Conforms g isMatch (.i64 range) v := by
  rw [ClassTable.specOf, checkField]
  cases hv : v.asI64 with
  | none =>
    refine iff_of_false (fun h => by cases h) fun h => ?_
    cases h with
    | i64 h => cases hv.symm.trans h
  | some n =>
    have hconf : Conforms g isMatch (.i64 range) v ↔ ∀ b, range = some b → b.AdmitsInt n.toInt := by
      refine ⟨fun h => ?_, .i64 hv⟩
      cases h with
      | i64 h hb =>
        cases hv.symm.trans h
        exact hb
    have hbounds := any_lt_iff range n.toInt
    simp only [← Int64.lt_iff_toInt_lt] at hbounds
    rw [hconf, ← hbounds, ← Bool.or_eq_false_iff]
    dsimp only
    split
    · rename_i h
      exact iff_of_false (fun h => by cases h) fun hf => Bool.false_ne_true (hf.symm.trans h)
    · rename_i h
      exact iff_of_true rfl (Bool.eq_false_iff.2 h)

theorem checkField_f64 {name : Text} {range : Option (Bounds F)} {v : Json F} {depth : Nat} :
    checkField isMatch blocks (g.specOf name (.f64 range)) v depth = .ok () ↔
      Conforms g isMatch (.f64 range) v := by
  rw [ClassTable.specOf, checkField]
  cases hv : v.asF64 with
  | none =>
    refine iff_of_false (fun h => by cases h) fun h => ?_
    cases h with
    | f64 h => cases hv.symm.trans h
  | some x =>
    have hconf : Conforms g isMatch (.f64 range) v ↔ ∀ b, range = some b → b.AdmitsFloat x := by
      refine ⟨fun h => ?_, .f64 hv⟩
      cases h with
      | f64 h hb =>
        cases hv.symm.trans h
        exact hb
    rw [hconf, ← any_lt_iff_float, ← Bool.or_eq_false_iff]
    dsimp only
    split
    · rename_i h
      exact iff_of_false (fun h => by cases h) fun hf => Bool.false_ne_true (hf.symm.trans h)
    · rename_i h
      exact iff_of_true rfl (Bool.eq_false_iff.2 h)

theorem checkField_bool {name : Text} {v : Json F} {depth : Nat} :
    checkField isMatch blocks (g.specOf name .bool) v depth = .ok () ↔
      Conforms g isMatch .bool v := by
  rw [ClassTable.specOf, Pit.FieldSpecOf.plain, checkField]
  cases v with
  | bool b => exact iff_of_true rfl .bool
  | _ => exact iff_of_false (fun h => by cases h) fun h => by cases h

theorem checkField_any {name : Text} {v : Json F} {depth : Nat} :
    checkField isMatch blocks (g.specOf name .any) v depth = .ok () ↔ Conforms g isMatch .any v := by
  rw [ClassTable.specOf, Pit.FieldSpecOf.plain, checkField]
  exact iff_of_true rfl .any

theorem checksField_scalar {shape : Shape F} {depth : Nat} (h : shape.classes = [])
    (hlist : ∀ elem, shape ≠ .list elem) : ChecksField g isMatch blocks depth shape := by
  intro name v
  have hnests : ∀ n, Nests g shape v n → depth + 1 + n ≤ maxNestingDepth := fun _ hn => absurd hn (not_nests h)
  rw [and_iff_left hnests]
  cases shape with
  | str length => exact checkField_str
  | pattern regex => exact checkField_pattern
  | i64 range => exact checkField_i64
  | f64 range => exact checkField_f64
  | bool => exact checkField_bool
  | any => exact checkField_any
  | cls id => cases h
  | list elem => exact absurd rfl (hlist elem)

theorem checkItems_ok {name : Text} {elem : Elem} {i depth : Nat} {items : List (Json F)}
    (h : ChecksField g isMatch blocks depth elem.shape) :
    checkItems isMatch blocks name (g.elemSpec name elem) i items depth = .ok () ↔
      ∀ item ∈ items, Conforms g isMatch elem.shape item ∧
        ∀ n, Nests g elem.shape item n → depth + 1 + n ≤ maxNestingDepth := by
  induction items generalizing i with
  | nil => simp [checkItems]
  | cons item rest ih =>
    have hname : { g.elemSpec name elem with name := Pit.indexedName name i } =
        g.specOf (Pit.indexedName name i) (F := F) elem.shape := by
      cases elem <;> rfl
    rw [checkItems, List.forall_mem_cons, ← ih, except_bind_ok, hname, ← h]
    constructor
    · rintro ⟨_, hitem, hrest⟩
      exact ⟨hitem, hrest⟩
    · rintro ⟨hitem, hrest⟩
      exact ⟨(), hitem, hrest⟩

theorem checksField_list {elem : Elem} {depth : Nat} (h : ChecksField g isMatch blocks depth elem.shape) :
    ChecksField g isMatch blocks depth (.list elem) := by
  intro name v
  rw [ClassTable.specOf, Pit.FieldSpecOf.plain]
  cases v with
  | array items =>
    rw [checkField, checkItems_ok h]
    constructor
    · refine fun hall => ⟨.list fun item hi => (hall item hi).1, fun n hn => ?_⟩
      cases hn with
      | item hi hn => exact (hall _ hi).2 n hn
    · rintro ⟨hc, hn⟩ item hi
      cases hc with
      | list hc => exact ⟨hc item hi, fun n h => hn n (.item hi h)⟩
  | _ =>
    refine iff_of_false (fun h => ?_) (fun h => ?_)
    · rw [checkField] at h
      · cases h
      · intro items he
        cases he
    · obtain ⟨hc, -⟩ := h
      cases hc

/-- A block accepts the objects of its class, where the checks of its fields do. -/
theorem validateBlock_specBlock {id : AdtId} {v : Json F} {depth : Nat} (hd : depth ≤ maxNestingDepth)
    (h : ∀ field ∈ g.shapes id, ChecksField g isMatch blocks depth field.2) :
    validateBlock isMatch blocks (g.specBlock id).2 v depth = .ok () ↔
      Conforms g isMatch (.cls id) v ∧ ∀ n, Nests g (.cls id) v n → depth + n ≤ maxNestingDepth := by
  have hnames : (g.specBlock id).2.map Pit.FieldSpecOf.name = (g.shapes id).map Prod.fst := by
    rw [ClassTable.specBlock, List.map_map]
    refine List.map_congr_left fun field _ => ?_
    obtain ⟨name, shape⟩ := field
    cases shape <;> rfl
  rw [validateBlock_ok, hnames]
  constructor
  · rintro ⟨fields, rfl, hkeys, hall⟩
    have hfield : ∀ field ∈ g.shapes id, ∀ v, fields.lookup field.1 = some v →
        Conforms g isMatch field.2 v ∧ ∀ n, Nests g field.2 v n → depth + 1 + n ≤ maxNestingDepth := by
      intro field hf v hv
      refine (h field hf field.1 v).1 (hall _ (List.mem_map_of_mem hf) v ?_)
      obtain ⟨name, shape⟩ := field
      cases shape <;> exact hv
    refine ⟨.cls hkeys fun field hf v hv => (hfield field hf v hv).1, fun n hn => ?_⟩
    cases hn with
    | here => exact hd
    | @field _ _ field v n hf hv hn =>
      have := (hfield field hf v hv).2 n hn
      omega
  · rintro ⟨hc, hn⟩
    cases hc with
    | @cls _ fields hkeys hfields =>
      refine ⟨fields, rfl, hkeys, fun spec hs v hv => ?_⟩
      obtain ⟨field, hf, rfl⟩ := List.mem_map.1 hs
      have hv' : fields.lookup field.1 = some v := by
        obtain ⟨name, shape⟩ := field
        cases shape <;> exact hv
      refine (h field hf field.1 v).2 ⟨hfields field hf v hv', fun n hnest => ?_⟩
      have := hn (n + 1) (.field hf hv' hnest)
      omega

theorem checksField_cls {id : AdtId} {depth : Nat} (hb : HasBlocks g blocks id)
    (h : depth + 1 ≤ maxNestingDepth → ∀ v, validateBlock isMatch blocks (g.specBlock id).2 v (depth + 1) =
      .ok () ↔ Conforms g isMatch (.cls id) v ∧
        ∀ n, Nests g (.cls id) v n → depth + 1 + n ≤ maxNestingDepth) :
    ChecksField g isMatch blocks depth (.cls id) := by
  intro name v
  rw [ClassTable.specOf, Pit.FieldSpecOf.plain, checkField]
  split
  · rename_i hd
    refine iff_of_false (fun h => by cases h) fun hc => ?_
    have := hc.2 0 .here
    omega
  · rename_i hd
    split
    · rename_i ho
      refine iff_of_false (fun h => by cases h) fun hc => ?_
      cases hc.1
      cases ho
    · rw [hb]
      exact h (by omega) v

/-- The check of a field of a class, from the checks of the classes that the class refers to. -/
theorem checksField {root id : AdtId} (hb : ∀ id, g.Reachable root id → HasBlocks g blocks id)
    (hid : g.Reachable root id) {field : Text × Shape F} (hf : field ∈ g.shapes id) {depth : Nat}
    (h : depth + 1 ≤ maxNestingDepth → ∀ n, g.Reachable root n → ∀ v,
      validateBlock isMatch blocks (g.specBlock n).2 v (depth + 1) = .ok () ↔
        Conforms g isMatch (.cls n) v ∧ ∀ k, Nests g (.cls n) v k → depth + 1 + k ≤ maxNestingDepth) :
    ChecksField g isMatch blocks depth field.2 := by
  have hcls (n : AdtId) (hn : n ∈ field.2.classes) : ChecksField g isMatch blocks depth (.cls n) := by
    have hreach : g.Reachable root n := hid.tail (ClassTable.mem_refs.2 ⟨field, hf, hn⟩)
    exact checksField_cls (hb n hreach) fun hd => h hd n hreach
  obtain ⟨name, shape⟩ := field
  cases shape with
  | cls n => exact hcls n (List.mem_singleton_self n)
  | list elem =>
    apply checksField_list
    cases elem with
    | cls n => exact hcls n (List.mem_singleton_self n)
    | _ => exact checksField_scalar rfl (by rintro ⟨⟩ <;> simp [Elem.shape])
  | _ => exact checksField_scalar rfl (by simp)

/-- Every class that the body class refers to is validated by conformance, down to the cap. -/
theorem validateBlock_iff {root : AdtId} (hb : ∀ id, g.Reachable root id → HasBlocks g blocks id)
    {depth : Nat} (hd : depth ≤ maxNestingDepth) {id : AdtId} (hid : g.Reachable root id) (v : Json F) :
    validateBlock isMatch blocks (g.specBlock id).2 v depth = .ok () ↔
      Conforms g isMatch (.cls id) v ∧ ∀ n, Nests g (.cls id) v n → depth + n ≤ maxNestingDepth := by
  induction hk : maxNestingDepth - depth generalizing depth id v with
  | zero =>
    refine validateBlock_specBlock hd fun field hf => checksField hb hid hf fun hd' => ?_
    omega
  | succ k ih =>
    refine validateBlock_specBlock hd fun field hf => checksField hb hid hf fun hd' n hn v => ?_
    exact ih hd' hn v (by omega)

end Checks

/-! ## Reads from an accepted value -/

/-- A read value is what stands in the JSON value. -/
inductive Holds : Json F → BodyValue F → Prop
  | i64 {v n} : v.asI64 = some n → Holds v (.i64 n)
  | str {s} : Holds (.string s) (.str s)
  | f64 {v x} : v.asF64 = some x → Holds v (.f64 x)
  | bool {b} : Holds (.bool b) (.bool b)
  | nested {fields} : Holds (.object fields) (.nested (some (.object fields)))
  | listStr {items l} : items.map Json.asStr = l.map some → Holds (.array items) (.listStr l)
  | listI64 {items l} : items.map Json.asI64 = l.map some → Holds (.array items) (.listI64 l)
  | listF64 {items l} : items.map Json.asF64 = l.map some → Holds (.array items) (.listF64 l)
  | listBool {items l} : items.map Json.asBool = l.map some → Holds (.array items) (.listBool l)

section Reads

variable {g : ClassTable F} {isMatch : Text → Text → Bool}

/-- A declared field stands in a conforming object, with a conforming value. -/
theorem Conforms.field {adt : AdtId} {body : Json F} (h : Conforms g isMatch (.cls adt) body)
    {name : Text} {ty : Ty} (hty : Pit.fieldTy g adt name = some ty) :
    ∃ v, body.get name = some v ∧ Conforms g isMatch (g.shapeOf adt name ty) v := by
  obtain ⟨decls, hd, hl⟩ := Option.bind_eq_some_iff.1 hty
  have hmem : (name, g.shapeOf adt name ty) ∈ g.shapes adt := by
    rw [ClassTable.shapes, hd]
    obtain ⟨before, after, he, -⟩ := List.lookup_eq_some_iff.1 hl
    exact List.mem_map.2 ⟨(name, ty), by simp [he], rfl⟩
  cases h with
  | @cls _ fields hkeys hfields =>
    have hname := (hkeys name).2 (List.mem_map.2 ⟨_, hmem, rfl⟩)
    obtain ⟨v, hv⟩ := mem_keys_iff.1 hname
    exact ⟨v, hv, hfields _ hmem v hv⟩

omit [F64 F] in
/-- Reading every element of a list, where the read is defined on each. -/
theorem map_getD_eq {α : Type} {read : Json F → Option α} {items : List (Json F)} {d : α}
    (h : ∀ item ∈ items, ∃ x, read item = some x) :
    items.map read = (items.map fun item => (read item).getD d).map some := by
  rw [List.map_map]
  refine List.map_congr_left fun item hi => ?_
  obtain ⟨x, hx⟩ := h item hi
  simp [hx]

omit [F64 F] in
theorem mem_of_fieldTy {adt : AdtId} {name : Text} {ty : Ty} (hty : Pit.fieldTy g adt name = some ty) :
    ∃ fields, g.fieldsOf adt = some fields ∧ (name, ty) ∈ fields := by
  obtain ⟨fields, hd, hl⟩ := Option.bind_eq_some_iff.1 hty
  obtain ⟨before, after, rfl, -⟩ := List.lookup_eq_some_iff.1 hl
  exact ⟨_, hd, by simp⟩

/-- A field that is read as an object has the shape of a class. -/
theorem shapeOf_nested (hg : g.WellFormed) {adt n : AdtId} {name : Text} {args : List Ty}
    (hty : Pit.fieldTy g adt name = some (.adt n args)) (hn : isEcosystemHandle n = false) :
    g.shapeOf adt name (.adt n args) = .cls n := by
  obtain ⟨fields, hf, hmem⟩ := mem_of_fieldTy hty
  rcases hg.adt adt fields hf _ hmem n args rfl with hc | hc
  · exact if_pos hc
  · rw [hn] at hc
    cases hc

theorem Conforms.elem {elem : Elem} {v : Json F} (h : Conforms g isMatch elem.shape v) :
    match elem with
    | .str => ∃ s, v.asStr = some s
    | .i64 => ∃ n, v.asI64 = some n
    | .f64 => ∃ x, v.asF64 = some x
    | .bool => ∃ b, v.asBool = some b
    | .cls _ => v.isObject := by
  cases elem with
  | str =>
    cases h with
    | @str _ s => exact ⟨s, rfl⟩
  | i64 =>
    cases h with
    | i64 hn => exact ⟨_, hn⟩
  | f64 =>
    cases h with
    | f64 hx => exact ⟨_, hx⟩
  | bool =>
    cases h with
    | @bool b => exact ⟨b, rfl⟩
  | cls id =>
    cases h
    rfl

theorem Conforms.int {adt : AdtId} {name : Text} {v : Json F}
    (h : Conforms g isMatch (g.shapeOf adt name .int) v) : ∃ n, v.asI64 = some n := by
  have hs : ∃ range, g.shapeOf adt name .int = .i64 range := by
    simp only [ClassTable.shapeOf]
    split <;> exact ⟨_, rfl⟩
  obtain ⟨range, hs⟩ := hs
  rw [hs] at h
  cases h with
  | i64 hn => exact ⟨_, hn⟩

theorem Conforms.float {adt : AdtId} {name : Text} {v : Json F}
    (h : Conforms g isMatch (g.shapeOf adt name .float) v) : ∃ x, v.asF64 = some x := by
  have hs : ∃ range, g.shapeOf adt name .float = .f64 range := by
    simp only [ClassTable.shapeOf]
    split <;> exact ⟨_, rfl⟩
  obtain ⟨range, hs⟩ := hs
  rw [hs] at h
  cases h with
  | f64 hx => exact ⟨_, hx⟩

theorem Conforms.string {adt : AdtId} {name : Text} {v : Json F}
    (h : Conforms g isMatch (g.shapeOf adt name .str) v) : ∃ s, v = .string s := by
  simp only [ClassTable.shapeOf] at h
  split at h <;> cases h <;> exact ⟨_, rfl⟩

theorem Conforms.scalars (elem : Elem) {α : Type} {read : Json F → Option α} (d : α) {v : Json F}
    (h : Conforms g isMatch (.list elem) v)
    (hread : ∀ item, Conforms g isMatch elem.shape item → ∃ x, read item = some x) :
    ∃ items, v = .array items ∧
      items.map read = (items.map fun item => (read item).getD d).map some := by
  cases h with
  | @list _ items hall => exact ⟨items, rfl, map_getD_eq fun item hi => hread item (hall item hi)⟩

omit [F64 F] in
theorem bodyFieldArray_eq {body : Json F} {name : Text} {items : List (Json F)}
    (h : body.get name = some (.array items)) : Pit.bodyFieldArray (some body) name = items := by
  rw [Pit.bodyFieldArray, Option.bind_some, h]
  rfl

theorem accessor_holds (hg : g.WellFormed) {adt : AdtId} {body : Json F}
    (h : Conforms g isMatch (.cls adt) body) {name : Text} {ty : Ty}
    (hty : Pit.fieldTy g adt name = some ty) {accessor : Option (Json F) → Text → BodyValue F}
    (ha : Pit.lookupValidatedBodyAccessor ty = some accessor) :
    ∃ v, body.get name = some v ∧ Holds v (accessor (some body) name) := by
  obtain ⟨v, hv, hc⟩ := h.field hty
  refine ⟨v, hv, ?_⟩
  unfold Pit.lookupValidatedBodyAccessor at ha
  split at ha
  case h_1 =>
    obtain ⟨n, hn⟩ := hc.int
    cases ha
    have hread : Pit.bodyGetI64 (some body) name = n := by
      simp only [Pit.bodyGetI64, Option.bind_some, hv, hn, Option.getD_some]
    change Holds _ (.i64 (Pit.bodyGetI64 (some body) name))
    rw [hread]
    exact .i64 hn
  case h_2 =>
    obtain ⟨s, rfl⟩ := hc.string
    cases ha
    have hread : Pit.bodyGetStr (some body) name = s := by
      simp only [Pit.bodyGetStr, Option.bind_some, hv, Json.asStr, Option.getD_some]
    change Holds _ (.str (Pit.bodyGetStr (some body) name))
    rw [hread]
    exact .str
  case h_3 =>
    obtain ⟨x, hx⟩ := hc.float
    cases ha
    have hread : Pit.bodyGetF64 (some body) name = x := by
      simp only [Pit.bodyGetF64, Option.bind_some, hv, hx, Option.getD_some]
    change Holds _ (.f64 (Pit.bodyGetF64 (some body) name))
    rw [hread]
    exact .f64 hx
  case h_4 =>
    cases hc with
    | @bool b =>
      cases ha
      have hread : Pit.bodyGetBool (some body) name = b := by
        simp only [Pit.bodyGetBool, Option.bind_some, hv, Json.asBool, Option.getD_some]
      change Holds _ (.bool (Pit.bodyGetBool (some body) name))
      rw [hread]
      exact .bool
  case h_5 id args =>
    split at ha
    · cases ha
    · rename_i hn
      rw [shapeOf_nested hg hty (Bool.eq_false_iff.2 hn)] at hc
      cases ha
      cases hc with
      | @cls _ fields =>
        have hread : Pit.bodyGetNested (some body) name = some (.object fields) := by
          rw [Pit.bodyGetNested, Option.bind_some, hv]
          rfl
        change Holds _ (.nested (Pit.bodyGetNested (some body) name))
        rw [hread]
        exact .nested
  case h_6 =>
    obtain ⟨items, rfl, hm⟩ := Conforms.scalars .str [] hc fun _ => Conforms.elem
    cases ha
    exact .listStr (by rw [Pit.bodyGetListStr, bodyFieldArray_eq hv, hm])
  case h_7 =>
    obtain ⟨items, rfl, hm⟩ := Conforms.scalars .i64 0 hc fun _ => Conforms.elem
    cases ha
    exact .listI64 (by rw [Pit.bodyGetListI64, bodyFieldArray_eq hv, hm])
  case h_8 =>
    obtain ⟨items, rfl, hm⟩ :=
      Conforms.scalars .f64 (F64.ofInt 0) hc fun _ => Conforms.elem
    cases ha
    exact .listF64 (by rw [Pit.bodyGetListF64, bodyFieldArray_eq hv, hm])
  case h_9 =>
    obtain ⟨items, rfl, hm⟩ := Conforms.scalars .bool false hc fun _ => Conforms.elem
    cases ha
    exact .listBool (by rw [Pit.bodyGetListBool, bodyFieldArray_eq hv, hm])
  case h_10 => cases ha

/-- The object at the end of a chain of nested fields conforms to its class. -/
theorem resolveBase_conforms (hg : g.WellFormed) {path : List Text} {adt adt' : AdtId} {body : Json F}
    {base : Option (Json F)} (h : Conforms g isMatch (.cls adt) body)
    (hr : Pit.resolveBase g (some body, adt) path = some (base, adt')) :
    ∃ v, base = some v ∧ body.at path = some v ∧ Conforms g isMatch (.cls adt') v := by
  induction path generalizing adt body with
  | nil =>
    cases hr
    exact ⟨body, rfl, rfl, h⟩
  | cons name rest ih =>
    rw [Pit.resolveBase] at hr
    split at hr
    · rename_i nested args hty
      split at hr
      · rename_i accessor ha
        have hh : isEcosystemHandle nested = false := by
          rw [Pit.lookupValidatedBodyAccessor] at ha
          split at ha
          · cases ha
          · rename_i hh
            exact Bool.eq_false_iff.2 hh
        obtain ⟨v, hv, hc⟩ := h.field hty
        rw [shapeOf_nested hg hty hh] at hc
        have hbase : Pit.bodyGetNested (some body) name = some v := by
          rw [Pit.bodyGetNested, Option.bind_some, hv]
          cases hc
          rfl
        rw [hbase] at hr
        obtain ⟨w, hw, hat, hcw⟩ := ih hc hr
        refine ⟨w, hw, ?_, hcw⟩
        rw [Json.at, hv]
        exact hat
      · cases hr
    · cases hr

omit [F64 F] in
theorem at_append {v w : Json F} {path : List Text} {name : Text} (h : v.at path = some w) :
    v.at (path ++ [name]) = w.get name := by
  induction path generalizing v with
  | nil =>
    cases h
    rw [List.nil_append, Json.at]
    cases Json.get name w <;> rfl
  | cons first rest ih =>
    rw [Json.at] at h
    obtain ⟨u, hu, hrest⟩ := Option.bind_eq_some_iff.1 h
    rw [List.cons_append, Json.at, hu, Option.bind_some, ih hrest]

/-- A chain of reads gives what stands at the end of the chain. -/
theorem readField_holds (hg : g.WellFormed) {root : AdtId} {body : Json F}
    (h : Conforms g isMatch (.cls root) body) {path : List Text} {name : Text} {value : BodyValue F}
    (hr : Pit.readField g root body path name = some value) :
    ∃ v, body.at (path ++ [name]) = some v ∧ Holds v value := by
  obtain ⟨⟨base, adt⟩, hbase, hr⟩ := Option.bind_eq_some_iff.1 hr
  obtain ⟨ty, hty, hr⟩ := Option.bind_eq_some_iff.1 hr
  obtain ⟨accessor, ha, hr⟩ := Option.bind_eq_some_iff.1 hr
  cases hr
  obtain ⟨w, rfl, hat, hw⟩ := resolveBase_conforms hg h hbase
  rw [at_append hat]
  exact accessor_holds hg hw hty ha

end Reads

section Request

variable {g : ClassTable F} {root : AdtId}

/-- The blocks of a descriptor that was read back are found by name. -/
theorem hasBlocks_of_roundTrips (hg : g.WellFormed) (hroot : g.IsClass root) {s : SchemaBlocks F}
    (h : g.RoundTrips root s) :
    s.root = (g.specBlock root).2 ∧ ∀ id, g.Reachable root id → HasBlocks g s id := by
  obtain ⟨ids, hhead, hnodup, hids, hblocks⟩ := h
  refine ⟨?_, fun id hid => ?_⟩
  · rw [SchemaBlocks.root, hblocks, List.head?_map, hhead]
    rfl
  · obtain ⟨before, after, hsplit⟩ := List.append_of_mem ((hids id).2 hid)
    have hfirst : ∀ block ∈ before.map g.specBlock, g.nameOf id != block.1 := by
      intro block hm
      obtain ⟨id', hb, rfl⟩ := List.mem_map.1 hm
      have hid' : g.Reachable root id' := (hids id').1 (by simp [hsplit, hb])
      refine bne_iff_ne.2 fun he => ?_
      obtain rfl := hg.distinct id id' (hid.isClass hroot) (hid'.isClass hroot) he
      rw [hsplit] at hnodup
      exact (List.nodup_append.1 hnodup).2.2 id hb id (List.mem_cons_self ..) rfl
    refine List.lookup_eq_some_iff.2 ⟨before.map g.specBlock, after.map g.specBlock, ?_, hfirst⟩
    rw [hblocks, hsplit, List.map_append, List.map_cons]
    rfl

theorem validateAgainstSchema_iff (hg : g.WellFormed) (hroot : g.IsClass root) {schema : Text}
    (h : g.RoundTrips root (Pit.parseSchemaBlocks schema)) (isMatch : Text → Text → Bool) (body : Json F) :
    Pit.validateAgainstSchema isMatch schema body = .ok () ↔
      Conforms g isMatch (.cls root) body ∧ ∀ n, Nests g (.cls root) body n → n ≤ maxNestingDepth := by
  obtain ⟨hspecs, hb⟩ := hasBlocks_of_roundTrips hg hroot h
  have hiff := @validateBlock_iff _ _ _ isMatch _ _ hb _ (Nat.zero_le _) _ .refl body
  simp only [Nat.zero_add] at hiff
  rw [← hspecs] at hiff
  exact hiff

theorem validation_conformance [LawfulF64 F] (hg : g.WellFormed) {lookupTy : DefId → Ty}
    {posArgs : List Hir.Expr} (hbody : g.bodyClass lookupTy posArgs = some root)
    (hs : g.PatternsSurvive root) (isMatch : Text → Text → Bool) (body : Json F) :
    let accepted := Pit.validateAgainstSchema isMatch (g.validatedBodySchemaForHandler lookupTy posArgs)
      body = .ok ()
    (accepted ↔ Conforms g isMatch (.cls root) body ∧
      ∀ n, Nests g (.cls root) body n → n ≤ maxNestingDepth) ∧
    (accepted → ∀ path name value, Pit.readField g root body path name = some value →
      ∃ v, body.at (path ++ [name]) = some v ∧ Holds v value) := by
  have hroot := ClassTable.isClass_of_bodyClass hg hbody
  have htrip := (ClassTable.descriptor_round_trip_iff hg hbody).2 hs
  have hiff := validateAgainstSchema_iff hg hroot htrip isMatch body
  exact ⟨hiff, fun ha _ _ _ => readField_holds hg (hiff.1 ha).1⟩

end Request

/-! ## A chain of classes -/

/-- Classes `0` to `n`, each but the last with the next one as its field. -/
def chainTable (n : Nat) : ClassTable ClassTable.Whole where
  adtFields := (List.range (n + 1)).map fun i =>
    (i, if i < n then [("next".toList, .adt (i + 1) [])] else [])
  adtNames id := if id < n + 1 then some (List.replicate (id + 1) 'C') else none
  adtRefinements _ _ := none

/-- An object that holds `n` objects, one in the other. -/
def chainBody : Nat → Json ClassTable.Whole
  | 0 => .object []
  | n + 1 => .object [("next".toList, chainBody n)]

theorem lookup_map_range {α : Type} (f : Nat → α) (n id : Nat) :
    ((List.range n).map fun i => (i, f i)).lookup id = if id < n then some (f id) else none := by
  induction n with
  | zero => rfl
  | succ n ih =>
    rw [List.range_succ, List.map_append, List.lookup_append, ih]
    split
    · rename_i h
      rw [if_pos (by omega)]
      rfl
    · rename_i h
      by_cases hid : id = n
      · simp [hid]
      · rw [if_neg (by omega)]
        simp [hid]

theorem fieldsOf_chainTable {n id : AdtId} {fields : List (Text × Ty)}
    (h : (chainTable n).fieldsOf id = some fields) :
    id < n + 1 ∧ fields = if id < n then [("next".toList, .adt (id + 1) [])] else [] := by
  rw [ClassTable.fieldsOf, chainTable, lookup_map_range] at h
  split at h
  · rename_i hid
    exact ⟨hid, (Option.some.inj h).symm⟩
  · cases h

theorem isClass_chainTable {n id : AdtId} : (chainTable n).IsClass id ↔ id < n + 1 := by
  refine ⟨fun h => ?_, fun h => ⟨?_, ?_⟩⟩
  · obtain ⟨fields, hf⟩ := Option.isSome_iff_exists.1 h.1
    exact (fieldsOf_chainTable hf).1
  · rw [ClassTable.fieldsOf, chainTable, lookup_map_range, if_pos h]
    rfl
  · change (if id < n + 1 then some (List.replicate (id + 1) 'C') else none).isSome
    rw [if_pos h]
    rfl

theorem shapes_chainTable {n id : AdtId} (h : id < n + 1) :
    (chainTable n).shapes id = if id < n then [("next".toList, .cls (id + 1))] else [] := by
  rw [ClassTable.shapes, ClassTable.fieldsOf, chainTable, lookup_map_range, if_pos h]
  split
  · rename_i hid
    have hc : (chainTable n).IsClass (id + 1) := isClass_chainTable.2 (Nat.add_lt_add_right hid 1)
    rw [Option.getD_some, List.map_cons, List.map_nil]
    exact congrArg (fun shape => [("next".toList, shape)]) (if_pos hc)
  · rfl

theorem nameOf_chainTable {n id : AdtId} (h : id < n + 1) :
    (chainTable n).nameOf id = List.replicate (id + 1) 'C' := by
  change (if id < n + 1 then some (List.replicate (id + 1) 'C') else none).getD [] = _
  rw [if_pos h]
  rfl

theorem refs_chainTable {n id next : AdtId} (h : next ∈ (chainTable n).refs id) : id < next := by
  obtain ⟨field, hf, hc⟩ := ClassTable.mem_refs.1 h
  by_cases hid : id < n + 1
  · rw [shapes_chainTable hid] at hf
    split at hf
    · obtain rfl := List.mem_singleton.1 hf
      obtain rfl := List.mem_singleton.1 hc
      exact Nat.lt_succ_self id
    · cases hf
  · rw [ClassTable.shapes, ClassTable.fieldsOf, chainTable, lookup_map_range, if_neg hid] at hf
    cases hf

theorem wellFormed_chainTable (n : Nat) : (chainTable n).WellFormed where
  named id h := by
    obtain ⟨fields, hf⟩ := Option.isSome_iff_exists.1 h
    exact (isClass_chainTable.2 (fieldsOf_chainTable hf).1).2
  name id h := by
    rw [nameOf_chainTable (isClass_chainTable.1 h)]
    refine ⟨by simp, fun c hc => ?_⟩
    obtain rfl := List.eq_of_mem_replicate hc
    exact ⟨rfl, by decide⟩
  distinct id id' h h' he := by
    rw [nameOf_chainTable (isClass_chainTable.1 h), nameOf_chainTable (isClass_chainTable.1 h')] at he
    have hlen := congrArg List.length he
    rw [List.length_replicate, List.length_replicate] at hlen
    exact Nat.succ.inj hlen
  field id fields h := by
    obtain ⟨-, rfl⟩ := fieldsOf_chainTable h
    split
    · exact ⟨List.nodup_singleton _, by simp [IsIdentifier, Text.isWhitespace]⟩
    · exact ⟨List.nodup_nil, by simp⟩
  attachable id fields h field hf r hr := by cases hr
  adt id fields h field hf k args ha := by
    obtain ⟨-, rfl⟩ := fieldsOf_chainTable h
    split at hf
    · rename_i hid
      obtain rfl := List.mem_singleton.1 hf
      cases ha
      exact .inl (isClass_chainTable.2 (Nat.add_lt_add_right hid 1))
    · cases hf

theorem patternsSurvive_chainTable (n : Nat) (root : AdtId) : (chainTable n).PatternsSurvive root := by
  have hnone : ∀ l ∈ (chainTable n).lines root, l.regex = none := by
    intro l hl
    obtain ⟨id, -, hl⟩ := List.mem_flatMap.1 hl
    rcases List.mem_cons.1 hl with rfl | hl
    · rfl
    · obtain ⟨field, hf, rfl⟩ := List.mem_map.1 hl
      obtain ⟨⟨name, ty⟩, hd, rfl⟩ := List.mem_map.1 hf
      cases hfs : (chainTable n).fieldsOf id with
      | none =>
        rw [hfs] at hd
        cases hd
      | some fields =>
        rw [hfs, Option.getD_some] at hd
        obtain ⟨-, rfl⟩ := fieldsOf_chainTable hfs
        split at hd
        · obtain ⟨rfl, rfl⟩ := Prod.mk.inj (List.mem_singleton.1 hd)
          simp only [ClassTable.shapeOf]
          split <;> rfl
        · cases hd
  refine ⟨fun l hl regex hr => ?_, fun l hl regex hr => ?_⟩
  · cases (hnone l hl).symm.trans hr
  · cases (hnone l (List.dropLast_subset _ hl)).symm.trans hr

theorem conforms_chainBody (isMatch : Text → Text → Bool) {n k : Nat} {id : AdtId} (h : id + k = n) :
    Conforms (chainTable n) isMatch (.cls id) (chainBody k) ∧
      Nests (chainTable n) (.cls id) (chainBody k) k := by
  induction k generalizing id with
  | zero =>
    obtain rfl : id = n := h
    have hs := shapes_chainTable (Nat.lt_succ_self id)
    rw [if_neg (Nat.lt_irrefl id)] at hs
    exact ⟨.cls (by simp [hs]) (by simp [hs]), .here⟩
  | succ k ih =>
    have hid : id < n := h ▸ Nat.lt_add_of_pos_right (Nat.succ_pos k)
    have hs := shapes_chainTable (Nat.lt_succ_of_lt hid)
    rw [if_pos hid] at hs
    obtain ⟨hc, hn⟩ := @ih (id + 1) (by rw [← h, Nat.add_assoc, Nat.add_comm 1])
    refine ⟨.cls (by simp [hs]) ?_, .field (hs ▸ List.mem_singleton_self _) rfl hn⟩
    intro field hf v hv
    rw [hs] at hf
    obtain rfl := List.mem_singleton.1 hf
    cases hv
    exact hc

theorem nests_chainBody {g : ClassTable ClassTable.Whole} {shape : Shape ClassTable.Whole} {k n : Nat}
    (h : Nests g shape (chainBody k) n) : n ≤ k := by
  induction k generalizing shape n with
  | zero =>
    generalize hb : chainBody 0 = body at h
    cases h with
    | here => exact Nat.le_refl 0
    | field _ hl => cases hb; cases hl
    | item => cases hb
  | succ k ih =>
    generalize hb : chainBody (k + 1) = body at h
    cases h with
    | here => exact Nat.zero_le _
    | @field _ _ field _ _ _ hl hn =>
      cases hb
      rw [List.lookup_cons] at hl
      split at hl
      · cases hl
        exact Nat.succ_le_succ (ih hn)
      · cases hl
    | item => cases hb

/-- An object in an object, two classes deep. -/
theorem chainBody_accepted :
    Pit.validateAgainstSchema (fun _ _ => false) ((chainTable 2).validatedBodySchemaForHandler
      ClassTable.nodeHandlerTy ClassTable.nodeArgs) (chainBody 2) = .ok () ∧
    Pit.readField (chainTable 2) 0 (chainBody 2) ["next".toList] "next".toList =
      some (.nested (some (chainBody 0))) := by
  have hbody : (chainTable 2).bodyClass ClassTable.nodeHandlerTy ClassTable.nodeArgs = some 0 := rfl
  obtain ⟨hiff, -⟩ := validation_conformance (wellFormed_chainTable 2) hbody
    (patternsSurvive_chainTable 2 0) (fun _ _ => false) (chainBody 2)
  have hc := (@conforms_chainBody (fun _ _ => false) 2 2 0 rfl).1
  exact ⟨hiff.2 ⟨hc, fun n hn => (nests_chainBody hn).trans (by decide)⟩, rfl⟩

/-- A body whose classes are 65 deep conforms and is rejected. -/
theorem deep_body_rejected :
    (chainTable 65).WellFormed ∧ (∀ id next, next ∈ (chainTable 65).refs id → id < next) ∧
    (chainTable 65).bodyClass ClassTable.nodeHandlerTy ClassTable.nodeArgs = some 0 ∧
    Conforms (chainTable 65) (fun _ _ => false) (.cls 0) (chainBody 65) ∧
    Pit.validateAgainstSchema (fun _ _ => false) ((chainTable 65).validatedBodySchemaForHandler
      ClassTable.nodeHandlerTy ClassTable.nodeArgs) (chainBody 65) ≠ .ok () := by
  have hbody : (chainTable 65).bodyClass ClassTable.nodeHandlerTy ClassTable.nodeArgs = some 0 := rfl
  obtain ⟨hc, hn⟩ := conforms_chainBody (fun _ _ => false) (Nat.zero_add 65)
  refine ⟨wellFormed_chainTable 65, fun _ _ => refs_chainTable, hbody, hc, fun h => ?_⟩
  have hg := wellFormed_chainTable 65
  have hs := (ClassTable.descriptor_round_trip_iff hg hbody).2 (patternsSurvive_chainTable 65 0)
  have hroot := ClassTable.isClass_of_bodyClass hg hbody
  obtain ⟨-, hdepth⟩ := (validateAgainstSchema_iff hg hroot hs _ (chainBody 65)).1 h
  exact absurd (hdepth 65 hn) (by decide)

end Cobrust
