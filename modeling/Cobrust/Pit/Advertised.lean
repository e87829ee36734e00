import Cobrust.Pit.App
import Cobrust.Pit.Conformance

/-!
# What the document advertises

`Admits` reads a schema of the OpenAPI document as JSON Schema does. The component of a body says
neither which keys are required nor that no other keys are allowed, so it admits bodies that validation
rejects, whatever was registered (`advertised_iff`).
-/

namespace Cobrust.Pit

variable {F : Type}

/-- What JSON Schema leaves to the numbers and to the regular expressions. -/
structure Reading (F : Type) where
  le : Number F → Number F → Prop
  integral : F → Prop
  isMatch : Text → Text → Bool

/-- The `type` keyword. -/
def Reading.HasType (rd : Reading F) (ty : Text) : Json F → Prop
  | .null => ty = "null".toList
  | .bool _ => ty = "boolean".toList
  | .number (.float x) => ty = "number".toList ∨ ty = "integer".toList ∧ rd.integral x
  | .number _ => ty = "number".toList ∨ ty = "integer".toList
  | .string _ => ty = "string".toList
  | .array _ => ty = "array".toList
  | .object _ => ty = "object".toList

/-- The component that a `$ref` points to. -/
def component (doc : Json F) (ref : Text) : Option (Json F) :=
  (ref.dropPrefix? (componentRef [])).bind fun name =>
    doc.at ["components".toList, "schemas".toList, name]

/-- `schema` admits `v`: every keyword that stands in the schema does, and a keyword says nothing of
values that it does not apply to. -/
inductive Admits (rd : Reading F) (doc : Json F) : Json F → Json F → Prop
  | mk {keywords v} :
    (∀ ref, keywords.lookup "$ref".toList = some (.string ref) → (component doc ref).isSome) →
    (∀ ref target, keywords.lookup "$ref".toList = some (.string ref) →
      component doc ref = some target → Admits rd doc target v) →
    (∀ ty, keywords.lookup "type".toList = some (.string ty) → rd.HasType ty v) →
    (∀ properties fields name schema w, keywords.lookup "properties".toList = some (.object properties) →
      v = .object fields → properties.lookup name = some schema → fields.lookup name = some w →
      Admits rd doc schema w) →
    (∀ required fields name, keywords.lookup "required".toList = some (.array required) →
      v = .object fields → .string name ∈ required → (fields.lookup name).isSome) →
    (∀ schema items item, keywords.lookup "items".toList = some schema → v = .array items →
      item ∈ items → Admits rd doc schema item) →
    (∀ lo n, keywords.lookup "minimum".toList = some (.number lo) → v = .number n → rd.le lo n) →
    (∀ hi n, keywords.lookup "maximum".toList = some (.number hi) → v = .number n → rd.le n hi) →
    (∀ (lo : Int64) s, keywords.lookup "minLength".toList = some (.number (Number.ofInt64 lo)) →
      v = .string s → lo.toInt ≤ s.length) →
    (∀ (hi : Int64) s, keywords.lookup "maxLength".toList = some (.number (Number.ofInt64 hi)) →
      v = .string s → (s.length : Int) ≤ hi.toInt) →
    (∀ regex s, keywords.lookup "pattern".toList = some (.string regex) → v = .string s →
      rd.isMatch regex s) →
    Admits rd doc (.object keywords) v

section

variable [F64 F]

/-- The body schema that an operation of the document refers to. -/
def bodyComponent (doc op : Json F) : Option (Json F) :=
  match op.at ["requestBody".toList, "content".toList, "application/json".toList, "schema".toList,
      "$ref".toList] with
  | some (.string ref) => component doc ref
  | _ => none

/-- Every operation of the document that the app serves at `docPath` is enforced: its path is a route,
its body schema stands in the document, and whatever request the route matches is dispatched to a
validated route that accepts exactly the bodies which the body schema admits. -/
def App.Enforces (app : App F) (rd : Reading F) (docPath : Text) : Prop :=
  ∀ doc params, app.dispatch "GET".toList docPath = some (.openapi doc, params) →
  ∀ method path op, doc.at ["paths".toList, path, method] = some op →
    ∃ pattern schema, RoutePattern.compile path = .ok pattern ∧ bodyComponent doc op = some schema ∧
      ∀ request, (pattern.matchPath request).isSome →
        ∃ descriptor params,
          app.dispatch (method.map Char.toUpper) request = some (.validated descriptor, params) ∧
          ∀ body, Admits rd doc schema body ↔
            validateAgainstSchema rd.isMatch descriptor body = .ok ()

/-- The properties of a component are the fields of its class. -/
theorem mem_of_lookup_properties {specs : List (FieldSpec F)} {fields : List (Text × Json F)} {name : Text}
    {schema : Json F} (h : (specs.foldl (fun fields spec => insertKey fields spec.name (fieldSchema spec))
      fields).lookup name = some schema) :
    name ∈ specs.map FieldSpecOf.name ∨ fields.lookup name = some schema := by
  induction specs generalizing fields with
  | nil => exact .inr h
  | cons spec rest ih =>
    rcases ih h with hrest | hf
    · exact .inl (List.mem_cons_of_mem _ hrest)
    · rw [lookup_insertKey] at hf
      split at hf
      · rename_i he
        exact .inl (he ▸ List.mem_cons_self ..)
      · exact .inr hf

/-- The component of a class admits an object with one key that is not a field. -/
theorem admits_fresh (rd : Reading F) (doc : Json F) {specs : List (FieldSpec F)} {name : Text}
    (h : name ∉ specs.map FieldSpecOf.name) :
    Admits rd doc (objectSchemaFromSpecs specs) (.object [(name, .null)]) := by
  have htype : Reading.HasType rd "object".toList (.object [(name, .null)]) := rfl
  -- Only `type` and `properties` stand in the schema.
  refine .mk (fun _ hl => ?_) (fun _ _ hl => ?_) (fun _ hl => ?_) (fun _ _ key _ _ hl hv hp hf => ?_)
    (fun _ _ _ hl => ?_) (fun _ _ _ hl => ?_) (fun _ _ hl => ?_) (fun _ _ hl => ?_) (fun _ _ hl => ?_)
    (fun _ _ hl => ?_) fun _ _ hl => ?_
  case refine_3 =>
    cases hl
    exact htype
  case refine_4 =>
    cases hl
    cases hv
    have hkey : key = name := by
      by_contra hne
      simp [List.lookup_cons, beq_eq_false_iff_ne.2 hne] at hf
    rcases mem_of_lookup_properties hp with hm | hm
    · exact absurd (hkey ▸ hm) h
    · cases hm
  all_goals cases hl

/-- The components of a route are those of the classes of its descriptor. -/
theorem mem_insertBlocks {name : Text} {schemas : List (Text × Json F)}
    {blocks : List (Text × List (FieldSpec F))} {field : Text × Json F}
    (h : field ∈ insertBlocks name schemas blocks) :
    field ∈ schemas ∨ ∃ specs, field.2 = objectSchemaFromSpecs specs := by
  induction blocks generalizing schemas with
  | nil => exact .inl h
  | cons block rest ih =>
    rcases ih h with hf | hs
    · rcases mem_insertKey hf with rfl | hf
      · exact .inr ⟨block.2, rfl⟩
      · exact .inl hf
    · exact .inr hs

theorem mem_components {routes : List ValidatedRouteMeta}
    {acc : List (Text × Json F) × List (Text × Json F)} {field : Text × Json F}
    (h : field ∈ (routes.foldl addRoute acc).2) :
    field ∈ acc.2 ∨ ∃ specs, field.2 = objectSchemaFromSpecs specs := by
  induction routes generalizing acc with
  | nil => exact .inl h
  | cons info rest ih =>
    rcases ih h with hf | hs
    · exact mem_insertBlocks hf
    · exact .inr hs

theorem component_eq {routes : List ValidatedRouteMeta} {ref : Text} {schema : Json F}
    (h : component (buildOpenapiDoc routes) ref = some schema) :
    ∃ specs, schema = objectSchemaFromSpecs specs := by
  obtain ⟨name, -, hat⟩ := Option.bind_eq_some_iff.1 h
  have hl : (routes.foldl addRoute ([], [])).2.lookup name = some schema :=
    (Option.bind_fun_some _).symm.trans hat
  obtain ⟨before, after, he, -⟩ := List.lookup_eq_some_iff.1 hl
  have hmem : (name, schema) ∈ (routes.foldl addRoute ([], [])).2 := by simp [he]
  rcases mem_components hmem with hm | hs
  · cases hm
  · exact hs

omit [F64 F] in
theorem isObject_insertOperation {paths : List (Text × Json F)} {path method : Text} {op : Json F}
    (h : ∀ field ∈ paths, field.2.isObject) :
    ∀ field ∈ insertOperation paths path method op, field.2.isObject := by
  intro field hf
  unfold insertOperation at hf
  split at hf
  · rcases mem_insertKey hf with rfl | hf
    · rfl
    · exact h field hf
  · exact h field hf
  · rcases mem_insertKey hf with rfl | hf
    · rfl
    · exact h field hf

theorem isObject_paths (routes : List ValidatedRouteMeta)
    (acc : List (Text × Json F) × List (Text × Json F)) (h : ∀ field ∈ acc.1, field.2.isObject) :
    ∀ field ∈ (routes.foldl addRoute acc).1, field.2.isObject := by
  induction routes generalizing acc with
  | nil => exact h
  | cons info rest ih => exact ih _ (isObject_insertOperation h)

omit [F64 F] in
theorem exists_operation {paths : List (Text × Json F)} (path method : Text) (op : Json F)
    (h : ∀ field ∈ paths, field.2.isObject) :
    ∃ item, (insertOperation paths path method op).lookup path = some (.object item) ∧
      item.lookup method = some op := by
  unfold insertOperation
  split
  · rename_i item _
    refine ⟨insertKey item method op, ?_, ?_⟩
    · rw [lookup_insertKey, if_pos rfl]
    · rw [lookup_insertKey, if_pos rfl]
  · rename_i other hother hl
    obtain ⟨before, after, rfl, -⟩ := List.lookup_eq_some_iff.1 hl
    have hobj := h (path, other) (by simp)
    cases other with
    | object item => exact absurd rfl (hother item)
    | _ => cases hobj
  · refine ⟨[(method, op)], ?_, ?_⟩
    · rw [lookup_insertKey, if_pos rfl]
    · simp

/-- The operation of the last route stands in the document. -/
theorem operation_of_last (routes : List ValidatedRouteMeta) (info : ValidatedRouteMeta) :
    (buildOpenapiDoc (routes ++ [info]) : Json F).at
      ["paths".toList, info.path, info.method.map Char.toLower] =
      some (operation (schemaName info)) := by
  obtain ⟨item, hitem, hop⟩ := exists_operation info.path (info.method.map Char.toLower)
    (operation (schemaName info)) (isObject_paths (F := F) routes ([], []) (by simp))
  have hpaths : ((routes ++ [info]).foldl addRoute ([], [])).1.lookup info.path =
      some (.object item : Json F) := by
    rw [List.foldl_append]
    exact hitem
  change (((routes ++ [info]).foldl addRoute ([], [])).1.lookup info.path).bind _ = _
  rw [hpaths]
  change (item.lookup _).bind _ = _
  rw [hop]
  rfl

theorem exists_not_mem (names : List Text) : ∃ name, name ∉ names := by
  refine ⟨List.replicate (names.flatten.length + 1) 'a', fun hm => ?_⟩
  have hle := (List.sublist_flatten_of_mem hm).length_le
  rw [List.length_replicate] at hle
  omega

/-- An object with a key that no class knows is admitted, and rejected. -/
theorem not_enforced (rd : Reading F) (doc : Json F) (specs : List (FieldSpec F)) (descriptor : Text) :
    ∃ body, Admits rd doc (objectSchemaFromSpecs specs) body ∧
      validateAgainstSchema rd.isMatch descriptor body ≠ .ok () := by
  let blocks : SchemaBlocks F := parseSchemaBlocks descriptor
  obtain ⟨name, hname⟩ :=
    exists_not_mem (specs.map FieldSpecOf.name ++ blocks.root.map FieldSpecOf.name)
  rw [List.mem_append, not_or] at hname
  refine ⟨.object [(name, .null)], admits_fresh rd doc hname.1, fun hok => ?_⟩
  obtain ⟨fields, he, hkeys, -⟩ := validateBlock_ok.1 hok
  cases he
  exact hname.2 ((hkeys name).1 (List.mem_singleton_self name))

/-- An app that registered something and serves the document does not enforce it. -/
theorem not_enforces (rd : Reading F) {registrations : List App.Registration} {docPath : Text}
    {pattern : RoutePattern} (hne : registrations ≠ []) (hc : RoutePattern.compile docPath = .ok pattern)
    (hfree : (App.register (F := F) registrations).dispatch "GET".toList docPath = none) :
    ¬ ((App.register registrations).serve docPath : App F).Enforces rd docPath := by
  intro henf
  obtain ⟨params, hserved⟩ := App.dispatch_route "GET".toList
    (.openapi (buildOpenapiDoc (App.register (F := F) registrations).validatedRoutes)) hc hfree
  obtain ⟨before, last, rfl⟩ := List.eq_nil_or_concat' registrations |>.resolve_left hne
  let info (r : App.Registration) : ValidatedRouteMeta := ⟨r.method.map Char.toUpper, r.path, r.schema⟩
  have hop := operation_of_last (F := F) (before.map info) (info last)
  have hmetas : (App.register (F := F) (before ++ [last])).validatedRoutes =
      before.map info ++ [info last] := by
    rw [App.validatedRoutes_register, List.map_append, List.map_singleton]
  rw [← hmetas] at hop
  obtain ⟨route, schema, hroute, hschema, hrun⟩ := henf _ params hserved _ _ _ hop
  obtain ⟨descriptor, -, -, hiff⟩ := hrun _ route.matchPath_raw
  obtain ⟨specs, rfl⟩ := component_eq hschema
  obtain ⟨body, hadmits, hrejected⟩ := not_enforced rd _ specs descriptor
  exact hrejected ((hiff body).1 hadmits)

/-- The document is enforced exactly where it advertises nothing: no validated route was registered, or
the document is not served, for its path is no route or a route takes it away. -/
theorem advertised_iff (rd : Reading F) (registrations : List App.Registration) (docPath : Text) :
    ((App.register registrations).serve docPath).Enforces rd docPath ↔
      registrations = [] ∨ (∀ pattern, RoutePattern.compile docPath ≠ .ok pattern) ∨
        (App.register (F := F) registrations).dispatch "GET".toList docPath ≠ none := by
  constructor
  · intro henf
    by_contra hcond
    simp only [not_or, not_forall, not_not] at hcond
    obtain ⟨hne, ⟨pattern, hc⟩, hfree⟩ := hcond
    exact not_enforces rd hne hc hfree henf
  · intro hcond doc params hserved method path op hop
    exfalso
    obtain ⟨r, hr, hhandler⟩ := App.mem_of_dispatch hserved
    have hold (hr : r ∈ (App.register (F := F) registrations).routes) : False := by
      obtain ⟨schema, hs⟩ := App.validated_of_register registrations r hr
      cases hs.symm.trans hhandler
    rcases App.routes_orSelf (App.register (F := F) registrations) "GET".toList docPath
      (.openapi (buildOpenapiDoc (App.register (F := F) registrations).validatedRoutes))
      with he | ⟨pattern, hc, he⟩
    · exact hold (he ▸ hr)
    · rcases List.mem_append.1 (he ▸ hr) with hr | hr
      · exact hold hr
      · obtain rfl := List.mem_singleton.1 hr
        cases hhandler
        rcases hcond with rfl | hbad | htaken
        · cases hop
        · exact hbad pattern hc
        · obtain ⟨⟨handler, params'⟩, hfirst⟩ := Option.ne_none_iff_exists'.1 htaken
          cases (App.dispatch_orSelf hfirst).symm.trans hserved
          obtain ⟨r', hr', hh'⟩ := App.mem_of_dispatch hfirst
          obtain ⟨schema, hs⟩ := App.validated_of_register registrations r' hr'
          cases hs.symm.trans hh'

end

/-- The reading of JSON Schema over whole numbers. -/
def wholeReading : Reading ClassTable.Whole where
  le a b := value a ≤ value b
  integral _ := True
  isMatch _ _ := false
where
  value : Number ClassTable.Whole → Int
    | .posInt n => n.toNat
    | .negInt n => n.toInt
    | .float x => x

/-- One validated route, and the document behind it. -/
theorem scores_not_enforced :
    ¬ ((App.register [⟨"POST".toList, "/scores".toList,
      "# CreateScore\nname\tstr\nrank\ti64:0:100".toList⟩]).serve "/openapi.json".toList).Enforces
        wholeReading "/openapi.json".toList := by
  have hc : RoutePattern.compile "/openapi.json".toList =
      .ok ⟨[.literal "openapi.json".toList], "/openapi.json".toList, rfl⟩ := rfl
  exact not_enforces wholeReading (List.cons_ne_nil _ _) hc rfl

end Cobrust.Pit
