import Cobrust.Control.Outcome
import Cobrust.Pit.OpenApi
import Cobrust.Pit.Validation
import Cobrust.Text.Split

/-!
# Routes and the application

The route patterns of `cobrust-pit/src/routing.rs`, the route table of `cobrust-pit/src/app.rs`, and the registrations as
the compiled program makes them (`cobrust-pit/src/cabi.rs`).
-/

/-!
## Route patterns

A pattern is a list of literal and capture segments, matched segment by segment.
-/

namespace Cobrust.Pit

inductive Segment where
  | literal (s : Text)
  | param (name : Text)

/-- The errors of a registration, with the text of the route in place of its quoted form. -/
inductive PitError where
  | invalidRoute (message : String) (raw : Text)
  | duplicateRoute (message : String) (method path : Text)

def compileSegment (raw seg : Text) : Except PitError Segment :=
  match seg with
  | '<' :: inner =>
    if inner.getLast? ≠ some '>' then .error (.invalidRoute "unterminated '<...>' in route" raw)
    else
      let name := inner.dropLast
      if name = [] ∨ '<' ∈ name ∨ '>' ∈ name then
        .error (.invalidRoute "malformed capture segment in route" raw)
      else .ok (.param name)
  | seg =>
    if '<' ∈ seg ∨ '>' ∈ seg then
      .error (.invalidRoute "stray '<' or '>' in literal segment of route" raw)
    else .ok (.literal seg)

/-- The segments of a path, without what stands before the first slash. -/
def pathParts (path : Text) : List Text :=
  (path.splitOn '/').drop 1

/-- A pattern is compiled from its text. -/
structure RoutePattern where
  segments : List Segment
  raw : Text
  compiled : (pathParts raw).mapM (compileSegment raw) = .ok segments

def RoutePattern.compile (raw : Text) : Except PitError RoutePattern :=
  if raw.head? ≠ some '/' then
    .error (.invalidRoute "route must be a non-empty path starting with '/'" raw)
  else
    match h : (pathParts raw).mapM (compileSegment raw) with
    | .error e => .error e
    | .ok segments => .ok ⟨segments, raw, h⟩

/-- One turn of the loop over segments and parts. A capture takes no empty part; the last capture of a
name stands first. -/
def matchSegments : List Segment → List Text → List (Text × Text) → Option (List (Text × Text))
  | .literal lit :: segments, part :: parts, params =>
    if lit = part then matchSegments segments parts params else none
  | .param name :: segments, part :: parts, params =>
    if part = [] then none else matchSegments segments parts ((name, part) :: params)
  | _, _, params => some params

def RoutePattern.matchPath (r : RoutePattern) (path : Text) : Option (List (Text × Text)) :=
  if (pathParts path).length = r.segments.length then matchSegments r.segments (pathParts path) []
  else none

/-! ## A pattern matches its own text -/

/-- What a segment stands for in the text of its pattern. -/
theorem compileSegment_ok {raw seg : Text} {s : Segment} (h : compileSegment raw seg = .ok s) :
    s = .literal seg ∨ ∃ name, s = .param name ∧ seg ≠ [] := by
  unfold compileSegment at h
  split at h
  · split at h
    · cases h
    · dsimp only at h
      split at h
      · cases h
      · cases h
        exact .inr ⟨_, rfl, List.cons_ne_nil _ _⟩
  · split at h
    · cases h
    · cases h
      exact .inl rfl

theorem matchSegments_self {raw : Text} {parts : List Text} {segments : List Segment}
    (h : parts.mapM (compileSegment raw) = .ok segments) (params : List (Text × Text)) :
    parts.length = segments.length ∧ (matchSegments segments parts params).isSome := by
  induction parts generalizing segments params with
  | nil =>
    cases h
    exact ⟨rfl, rfl⟩
  | cons part rest ih =>
    obtain ⟨s, ss, hs, hss, rfl⟩ := List.forall₂_cons_left_iff.1 (Control.except_mapM_iff.1 h)
    rcases compileSegment_ok hs with rfl | ⟨name, rfl, hne⟩
    · obtain ⟨hlen, hmatch⟩ := ih (Control.except_mapM_iff.2 hss) params
      rw [matchSegments, if_pos rfl]
      exact ⟨congrArg (· + 1) hlen, hmatch⟩
    · obtain ⟨hlen, hmatch⟩ := ih (Control.except_mapM_iff.2 hss) ((name, part) :: params)
      rw [matchSegments, if_neg hne]
      exact ⟨congrArg (· + 1) hlen, hmatch⟩

/-- A request for the text of a route is a request for the route. -/
theorem RoutePattern.matchPath_raw (r : RoutePattern) : (r.matchPath r.raw).isSome := by
  obtain ⟨hlen, hmatch⟩ := matchSegments_self r.compiled []
  rw [RoutePattern.matchPath, if_pos hlen]
  exact hmatch

theorem RoutePattern.raw_of_compile {raw : Text} {r : RoutePattern}
    (h : RoutePattern.compile raw = .ok r) : r.raw = raw := by
  unfold RoutePattern.compile at h
  split at h
  · cases h
  · split at h
    · cases h
    · cases h
      rfl

end Cobrust.Pit

/-!
## The application

The registrations drop the error of a route that is not accepted. A handler is what it does with a body: a validated
route checks it against its schema, the route of `serve_openapi` answers with a document.
-/

namespace Cobrust.Pit

inductive Handler (F : Type) where
  | validated (schema : Text)
  | openapi (doc : Json F)

structure Route (F : Type) where
  method : Text
  pattern : RoutePattern
  handler : Handler F

structure App (F : Type) where
  routes : List (Route F)
  validatedRoutes : List ValidatedRouteMeta

namespace App

variable {F : Type}

def empty : App F := ⟨[], []⟩

def route (app : App F) (method path : Text) (handler : Handler F) : Except PitError (App F) := do
  let methodUc := method.map Char.toUpper
  let pattern ← RoutePattern.compile path
  if app.routes.any fun r => r.method = methodUc ∧ r.pattern.raw = pattern.raw then
    .error (.duplicateRoute "route already registered" methodUc path)
  else .ok { app with routes := app.routes ++ [⟨methodUc, pattern, handler⟩] }

def registerValidatedMeta (app : App F) (method path schema : Text) : App F :=
  { app with validatedRoutes := app.validatedRoutes ++ [⟨method.map Char.toUpper, path, schema⟩] }

def serveOpenapi [F64 F] (app : App F) (docPath : Text) : Except PitError (App F) :=
  app.route "GET".toList docPath (.openapi (buildOpenapiDoc app.validatedRoutes))

/-- The first route of the table that matches. -/
def dispatch (app : App F) (method path : Text) : Option (Handler F × List (Text × Text)) :=
  app.routes.findSome? fun r =>
    if r.method = method then (r.pattern.matchPath path).map fun params => (r.handler, params) else none

/-- What a program does with the result: a route that is not accepted changes nothing. -/
def orSelf (app : App F) (result : Except PitError (App F)) : App F :=
  result.toOption.getD app

/-- `__cobrust_pit_app_route_validated`. -/
def routeValidated (app : App F) (method path schema : Text) : App F :=
  let app := app.registerValidatedMeta method path schema
  app.orSelf (app.route method path (.validated schema))

/-- `__cobrust_pit_app_serve_openapi`. -/
def serve [F64 F] (app : App F) (docPath : Text) : App F :=
  app.orSelf (app.serveOpenapi docPath)

/-- The registration of a validated route. -/
structure Registration where
  method : Text
  path : Text
  schema : Text

/-- The app after some registrations. -/
def register (registrations : List Registration) : App F :=
  registrations.foldl (fun app r => app.routeValidated r.method r.path r.schema) empty

/-! ## The table -/

section Table

theorem route_ok {app app' : App F} {method path : Text} {handler : Handler F}
    (h : app.route method path handler = .ok app') :
    ∃ pattern, RoutePattern.compile path = .ok pattern ∧
      app' = { app with routes := app.routes ++ [⟨method.map Char.toUpper, pattern, handler⟩] } := by
  unfold route at h
  cases hc : RoutePattern.compile path with
  | error e =>
    rw [hc] at h
    cases h
  | ok pattern =>
    rw [hc] at h
    change (if _ then _ else _) = _ at h
    split at h
    · cases h
    · cases h
      exact ⟨pattern, rfl, rfl⟩

theorem validatedRoutes_orSelf {app : App F} {method path : Text} {handler : Handler F} :
    (app.orSelf (app.route method path handler)).validatedRoutes = app.validatedRoutes := by
  cases hr : app.route method path handler with
  | error e => rfl
  | ok app' =>
    obtain ⟨_, -, rfl⟩ := route_ok hr
    rfl

/-- Every registration is recorded, whether its route is accepted or not. -/
theorem validatedRoutes_register (registrations : List Registration) :
    (register registrations : App F).validatedRoutes =
      registrations.map fun r => ⟨r.method.map Char.toUpper, r.path, r.schema⟩ := by
  have hrun (app : App F) :
      (registrations.foldl (fun app r => app.routeValidated r.method r.path r.schema) app).validatedRoutes =
        app.validatedRoutes ++ registrations.map fun r => ⟨r.method.map Char.toUpper, r.path, r.schema⟩ := by
    induction registrations generalizing app with
    | nil => simp
    | cons r rest ih =>
      rw [List.foldl_cons, ih, routeValidated, validatedRoutes_orSelf, registerValidatedMeta]
      simp
  exact hrun empty

/-- A route that no route before it takes away is accepted, and dispatched to. -/
theorem dispatch_route {app : App F} (method : Text) {path : Text} (handler : Handler F)
    {pattern : RoutePattern} (hc : RoutePattern.compile path = .ok pattern)
    (hfree : app.dispatch (method.map Char.toUpper) path = none) :
    ∃ params, (app.orSelf (app.route method path handler)).dispatch (method.map Char.toUpper) path =
      some (handler, params) := by
  obtain rfl := RoutePattern.raw_of_compile hc
  obtain ⟨params, hmatch⟩ := Option.isSome_iff_exists.1 pattern.matchPath_raw
  have hnew : app.routes.any (fun r => r.method = method.map Char.toUpper ∧ r.pattern.raw = pattern.raw) =
      false := by
    rw [List.any_eq_false]
    intro r hr hsame
    obtain ⟨hm, hraw⟩ := of_decide_eq_true hsame
    have hnone := List.findSome?_eq_none_iff.1 hfree r hr
    rw [if_pos hm, Option.map_eq_none_iff, ← hraw] at hnone
    have hself := r.pattern.matchPath_raw
    rw [hnone] at hself
    cases hself
  have hroute : app.route method pattern.raw handler =
      .ok { app with routes := app.routes ++ [⟨method.map Char.toUpper, pattern, handler⟩] } := by
    rw [route, hc]
    exact if_neg (by rw [hnew]; exact Bool.false_ne_true)
  refine ⟨params, ?_⟩
  unfold dispatch at hfree
  rw [hroute, orSelf, Except.toOption, Option.getD_some, dispatch, List.findSome?_append, hfree,
    Option.none_or, List.findSome?_singleton, if_pos rfl, hmatch]
  rfl

/-- A registration leaves what is dispatched as it was, or adds a route behind the others. -/
theorem routes_orSelf (app : App F) (method path : Text) (handler : Handler F) :
    (app.orSelf (app.route method path handler)).routes = app.routes ∨
      ∃ pattern, RoutePattern.compile path = .ok pattern ∧
        (app.orSelf (app.route method path handler)).routes =
          app.routes ++ [⟨method.map Char.toUpper, pattern, handler⟩] := by
  cases hr : app.route method path handler with
  | error e => exact .inl rfl
  | ok app' =>
    obtain ⟨pattern, hc, rfl⟩ := route_ok hr
    exact .inr ⟨pattern, hc, rfl⟩

theorem dispatch_orSelf {app : App F} {method path method' path' : Text} {handler : Handler F}
    {found : Handler F × List (Text × Text)} (h : app.dispatch method path = some found) :
    (app.orSelf (app.route method' path' handler)).dispatch method path = some found := by
  unfold dispatch at h ⊢
  rcases routes_orSelf app method' path' handler with hr | ⟨pattern, -, hr⟩
  · rw [hr, h]
  · rw [hr, List.findSome?_append, h, Option.some_or]

theorem mem_of_dispatch {app : App F} {method path : Text} {handler : Handler F}
    {params : List (Text × Text)} (h : app.dispatch method path = some (handler, params)) :
    ∃ r ∈ app.routes, r.handler = handler := by
  obtain ⟨r, hr, hfound⟩ := List.exists_of_findSome?_eq_some h
  split at hfound
  · obtain ⟨_, -, he⟩ := Option.map_eq_some_iff.1 hfound
    exact ⟨r, hr, (Prod.mk.inj he).1⟩
  · cases hfound

/-- Every route of a registration is a validated one. -/
theorem validated_of_register (registrations : List Registration) :
    ∀ r ∈ (register registrations : App F).routes, ∃ schema, r.handler = .validated schema := by
  have hrun (app : App F) (h : ∀ r ∈ app.routes, ∃ schema, r.handler = .validated schema) :
      ∀ r ∈ (registrations.foldl (fun app r => app.routeValidated r.method r.path r.schema) app).routes,
        ∃ schema, r.handler = .validated schema := by
    induction registrations generalizing app with
    | nil => exact h
    | cons first rest ih =>
      refine ih _ fun r hr => ?_
      have horSelf := routes_orSelf (app.registerValidatedMeta first.method first.path first.schema)
        first.method first.path (.validated first.schema)
      rcases horSelf with he | ⟨pattern, -, he⟩
      · exact h r (he ▸ hr)
      · rcases List.mem_append.1 (he ▸ hr) with hr | hr
        · exact h r hr
        · obtain rfl := List.mem_singleton.1 hr
          exact ⟨_, rfl⟩
  exact hrun empty (by simp [empty])

end Table

end App

end Cobrust.Pit
