import Cobrust.Pit.App
import Cobrust.Pit.Overlap
import Mathlib.Algebra.Order.BigOperators.Group.List
import Mathlib.Algebra.Order.Group.Nat

/-!
# Which route serves a path

An app dispatches to the first route of its table that matches, while the table tells routes apart by their text. So
a route may be hidden by one before it, and of two captures of one name only the last one is kept.

* `serves_iff_clear`: a route serves all its paths, but for those that a more literal route matches too, exactly when
  its captures have different names and every route before it leaves the shared paths to a more literal one.
* `route_hidden`: a route that is accepted and serves no path.
-/

namespace Cobrust.Pit

open List (Forall₂)

/-- A call of `App::route`. -/
structure Rule (F : Type) where
  method : Text
  path : Text
  handler : Handler F

namespace App

variable {F : Type}

/-- The app after some calls; those that fail leave it as it is. -/
def routeAll (rules : List (Rule F)) : App F :=
  rules.foldl (fun app rule => app.orSelf (app.route rule.method rule.path rule.handler)) empty

/-- The route takes a request. -/
def takes (method path : Text) (r : Route F) : Bool :=
  r.method = method && (r.pattern.matchPath path).isSome

/-- The position of the route that a request is dispatched to. -/
def firstMatch (app : App F) (method path : Text) : Option Nat :=
  app.routes.findIdx? (takes method path)

/-- The path of a route with values for its captures. -/
def pathFor (r : Route F) (values : List Text) : Text :=
  pathOf (substitute r.pattern.segments values)

/-- The path is dispatched to the route, with the values as the captures. -/
structure Serves (app : App F) (i : Nat) (r : Route F) (values : List Text) : Prop where
  first : app.firstMatch r.method (pathFor r values) = some i
  captures : ∃ params, app.dispatch r.method (pathFor r values) = some (r.handler, params) ∧
    ∀ name v, params.lookup name = some v ↔ (name, v) ∈ (captureNames r.pattern.segments).zip values

def MoreLiteral (q r : Route F) : Prop :=
  literalCount r.pattern.segments < literalCount q.pattern.segments

/-- A more literal route matches the path, too. -/
def Excused (app : App F) (r : Route F) (values : List Text) : Prop :=
  ∃ q ∈ app.routes, q.method = r.method ∧ MoreLiteral q r ∧
    (q.pattern.matchPath (pathFor r values)).isSome = true

/-- The names of the captures are different, and what a route before this one shares with it is shared by a more
literal one. -/
structure Clear (app : App F) (i : Nat) (r : Route F) : Prop where
  names : (captureNames r.pattern.segments).Nodup
  earlier : ∀ j q, j < i → app.routes[j]? = some q → q.method = r.method →
    Forall₂ Segment.Meets r.pattern.segments q.pattern.segments →
      ∃ m ∈ app.routes, m.method = r.method ∧ MoreLiteral m r ∧
        Forall₂ Segment.Covers m.pattern.segments
          (List.zipWith Segment.meet r.pattern.segments q.pattern.segments)

/-- A pattern has a segment, and its literals have no slash. -/
structure WellFormed (segments : List Segment) : Prop where
  ne_nil : segments ≠ []
  literals : ∀ l, Segment.literal l ∈ segments → '/' ∉ l

theorem wellFormed_of_compile {raw : Text} {pattern : RoutePattern} (h : RoutePattern.compile raw = .ok pattern) :
    WellFormed pattern.segments := by
  have hraw := RoutePattern.raw_of_compile h
  constructor
  · intro hnil
    have hlen := (matchSegments_self pattern.compiled []).1
    rw [hnil, hraw] at hlen
    unfold RoutePattern.compile at h
    split at h
    · cases h
    · next hhead =>
      cases raw with
      | nil => simp at hhead
      | cons c raw =>
        obtain rfl : c = '/' := by simpa using hhead
        rw [pathParts, List.splitOn_cons_eq_if_modifyHead] at hlen
        simp at hlen
  · intro l hl
    obtain ⟨part, hpart, hcompiled⟩ := Control.exists_left (Control.except_mapM_iff.1 pattern.compiled) hl
    rcases compileSegment_ok hcompiled with heq | ⟨name, heq, -⟩
    · cases heq
      exact Text.not_mem_of_mem_splitOn (List.mem_of_mem_drop hpart)
    · cases heq

theorem wellFormed_routeAll (rules : List (Rule F)) :
    ∀ r ∈ (routeAll rules).routes, WellFormed r.pattern.segments := by
  have hrun (app : App F) (happ : ∀ r ∈ app.routes, WellFormed r.pattern.segments) :
      ∀ r ∈ (rules.foldl (fun app rule => app.orSelf (app.route rule.method rule.path rule.handler)) app).routes,
        WellFormed r.pattern.segments := by
    induction rules generalizing app with
    | nil => exact happ
    | cons rule rules ih =>
      refine ih _ fun r hr => ?_
      rcases routes_orSelf app rule.method rule.path rule.handler with heq | ⟨pattern, hcompile, heq⟩
      · exact happ r (heq ▸ hr)
      · rcases List.mem_append.1 (heq ▸ hr) with hr | hr
        · exact happ r hr
        · rw [List.mem_singleton.1 hr]
          exact wellFormed_of_compile hcompile
  exact hrun empty (by simp [empty])

def Segment.literalLength : Segment → Nat
  | .literal l => l.length
  | .param _ => 0

/-- No literal of the patterns is longer than some number. -/
theorem exists_within (ps : List (List Segment)) : ∃ n, ∀ p ∈ ps, Within n p := by
  refine ⟨(ps.flatten.map Segment.literalLength).sum, fun p hp l hl => ?_⟩
  exact List.le_sum_of_mem (List.mem_map.2 ⟨.literal l, List.mem_flatten.2 ⟨p, hp, hl⟩, rfl⟩)

/-! ## One path -/

section Path

variable {app : App F} {r q : Route F} {i : Nat} {values : List Text}

theorem slash_not_mem_substitute {p : List Segment} (hp : ∀ l, Segment.literal l ∈ p → '/' ∉ l)
    (hvalues : ∀ v ∈ values, '/' ∉ v) : ∀ part ∈ substitute p values, '/' ∉ part := by
  induction p generalizing values with
  | nil => simp [substitute]
  | cons s p ih =>
    have hrest := fun l hl => hp l (List.mem_cons_of_mem _ hl)
    cases s with
    | literal l => exact List.forall_mem_cons.2 ⟨hp l List.mem_cons_self, ih hrest hvalues⟩
    | param name =>
      cases values with
      | nil => simp [substitute]
      | cons v values =>
        exact List.forall_mem_cons.2 ⟨hvalues v List.mem_cons_self,
          ih hrest fun v hv => hvalues v (List.mem_cons_of_mem _ hv)⟩

theorem pathParts_pathFor (hr : WellFormed r.pattern.segments) (hvalues : Assigns r.pattern.segments values) :
    pathParts (pathFor r values) = substitute r.pattern.segments values := by
  refine pathParts_pathOf ?_ (slash_not_mem_substitute hr.literals fun v hv => (hvalues.value v hv).2)
  intro hnil
  have haccepts := accepts_substitute hvalues
  rw [hnil] at haccepts
  cases hsegments : r.pattern.segments with
  | nil => exact hr.ne_nil hsegments
  | cons s p =>
    rw [hsegments] at haccepts
    cases haccepts

theorem takes_pathFor (hr : WellFormed r.pattern.segments) (hvalues : Assigns r.pattern.segments values) :
    takes r.method (pathFor r values) q = true ↔
      q.method = r.method ∧ Forall₂ Segment.Accepts q.pattern.segments (substitute r.pattern.segments values) := by
  rw [takes, Bool.and_eq_true, decide_eq_true_iff, RoutePattern.isSome_matchPath, pathParts_pathFor hr hvalues]

theorem excused_iff (hr : WellFormed r.pattern.segments) (hvalues : Assigns r.pattern.segments values) :
    app.Excused r values ↔ ∃ q ∈ app.routes, q.method = r.method ∧ MoreLiteral q r ∧
      Forall₂ Segment.Accepts q.pattern.segments (substitute r.pattern.segments values) := by
  unfold Excused
  simp only [RoutePattern.isSome_matchPath, pathParts_pathFor hr hvalues]

theorem findSome?_of_findIdx? {α β : Type} {p : α → Bool} {f : α → Option β} {xs : List α} {x : α}
    (hf : ∀ x, p x = false → f x = none) (hx : xs[i]? = some x) (h : xs.findIdx? p = some i)
    (hsome : (f x).isSome = true) : xs.findSome? f = f x := by
  induction xs generalizing i with
  | nil => cases hx
  | cons y ys ih =>
    rw [List.findIdx?_cons] at h
    split at h
    · cases h
      cases hx
      exact List.findSome?_cons_of_isSome hsome
    · next hy =>
      obtain ⟨k, hk, rfl⟩ := Option.map_eq_some_iff.1 h
      rw [List.findSome?_cons, hf y (Bool.eq_false_iff.2 hy)]
      exact ih hx hk

theorem dispatch_of_firstMatch {method path : Text} (hi : app.routes[i]? = some r)
    (h : app.firstMatch method path = some i) :
    app.dispatch method path = (r.pattern.matchPath path).map fun params => (r.handler, params) := by
  obtain ⟨hlt, htakes, -⟩ := List.findIdx?_eq_some_iff_getElem.1 h
  obtain ⟨hlt', rfl⟩ := List.getElem?_eq_some_iff.1 hi
  obtain ⟨hmethod, hmatch⟩ := Bool.and_eq_true_iff.1 htakes
  have hsame : app.routes[i].method = method := of_decide_eq_true hmethod
  unfold dispatch
  rw [findSome?_of_findIdx? ?_ hi h ?_, if_pos hsame]
  · intro q hq
    split
    · next hq' =>
      have hnot : (q.pattern.matchPath path).isSome = false :=
        (Bool.and_eq_false_iff.1 hq).resolve_left (by simp [hq'])
      rw [Option.isSome_eq_false_iff.1 hnot |> Option.isNone_iff_eq_none.1]
      rfl
    · rfl
  · rw [if_pos hsame, Option.isSome_map]
    exact hmatch

/-- What a match of the path of an assignment captures. -/
theorem matchPath_pathFor (hr : WellFormed r.pattern.segments) (hvalues : Assigns r.pattern.segments values) :
    r.pattern.matchPath (pathFor r values) = some ((captureNames r.pattern.segments).zip values).reverse := by
  have haccepts := accepts_substitute hvalues
  obtain ⟨values', hlen, hsub, -, hmatch⟩ := matchSegments_of_accepts [] haccepts
  rw [substitute_injective hlen hvalues.length hsub, List.append_nil] at hmatch
  rw [RoutePattern.matchPath, pathParts_pathFor hr hvalues, if_pos haccepts.length_eq.symm, hmatch]

/-- Where no name is there twice, looking up finds what is there. -/
theorem lookup_iff_mem {captures : List (Text × Text)} {name v : Text} (h : (captures.map Prod.fst).Nodup) :
    captures.lookup name = some v ↔ (name, v) ∈ captures := by
  induction captures with
  | nil => simp
  | cons capture captures ih =>
    obtain ⟨hnew, hrest⟩ := List.nodup_cons.1 h
    rw [List.lookup_cons, List.mem_cons]
    by_cases hname : name = capture.1
    · subst hname
      have hnot : (capture.1, v) ∉ captures := fun hmem => hnew (List.mem_map.2 ⟨_, hmem, rfl⟩)
      rw [beq_self_eq_true, or_iff_left hnot, Option.some.injEq]
      exact ⟨fun hv => hv ▸ rfl, fun hv => congrArg Prod.snd hv.symm⟩
    · have hnot : (name, v) ≠ capture := fun heq => hname (heq ▸ rfl)
      rw [beq_eq_false_iff_ne.2 hname, or_iff_right hnot]
      exact ih hrest

/-- A route serves a path if no route before it takes the path, and the names of its captures are different. -/
theorem serves_of_first (hr : WellFormed r.pattern.segments) (hvalues : Assigns r.pattern.segments values)
    (hi : app.routes[i]? = some r) (hnames : (captureNames r.pattern.segments).Nodup)
    (hfirst : app.firstMatch r.method (pathFor r values) = some i) : app.Serves i r values := by
  refine ⟨hfirst, ((captureNames r.pattern.segments).zip values).reverse, ?_, fun name v => ?_⟩
  · rw [dispatch_of_firstMatch hi hfirst, matchPath_pathFor hr hvalues]
    rfl
  · rw [lookup_iff_mem, List.mem_reverse]
    rw [List.map_reverse, List.Nodup, List.pairwise_reverse, List.map_fst_zip (Nat.le_of_eq hvalues.length.symm)]
    exact hnames.imp Ne.symm

end Path

/-! ## All paths -/

section Clear

variable {app : App F} {r q : Route F} {i : Nat} {values : List Text} {n : Nat}

theorem excused_or_serves (hr : WellFormed r.pattern.segments) (hclear : app.Clear i r)
    (hi : app.routes[i]? = some r) (hvalues : Assigns r.pattern.segments values) :
    app.Serves i r values ∨ app.Excused r values := by
  by_cases hexcused : app.Excused r values
  · exact .inr hexcused
  · refine .inl (serves_of_first hr hvalues hi hclear.names ?_)
    obtain ⟨hlt, hget⟩ := List.getElem?_eq_some_iff.1 hi
    refine List.findIdx?_eq_some_iff_getElem.2 ⟨hlt, ?_, fun j hj htakes => ?_⟩
    · rw [hget]
      exact (takes_pathFor hr hvalues).2 ⟨rfl, accepts_substitute hvalues⟩
    · -- what both accept is accepted by a more literal route
      obtain ⟨hmethod, haccepts⟩ := (takes_pathFor hr hvalues).1 htakes
      obtain ⟨hmeets, hmeet⟩ := accepts_meet (accepts_substitute hvalues) haccepts
      obtain ⟨m, hm, hm', hliteral, hcovers⟩ := hclear.earlier j _ hj (List.getElem?_eq_getElem _) hmethod hmeets
      exact hexcused ((excused_iff hr hvalues).2 ⟨m, hm, hm', hliteral, accepts_of_covers hcovers hmeet⟩)

theorem exists_values (hr : WellFormed r.pattern.segments)
    (hall : ∀ values, Assigns r.pattern.segments values → app.Serves i r values ∨ app.Excused r values)
    {parts : List Text} (haccepts : List.Forall₂ Segment.Accepts r.pattern.segments parts)
    (hslash : ∀ part ∈ parts, '/' ∉ part) :
    ∃ values, Assigns r.pattern.segments values ∧ substitute r.pattern.segments values = parts ∧
      (app.Serves i r values ∨ ∃ m ∈ app.routes, m.method = r.method ∧ MoreLiteral m r ∧
        List.Forall₂ Segment.Accepts m.pattern.segments parts) := by
  obtain ⟨values, hvalues, rfl⟩ := exists_assigns haccepts hslash
  refine ⟨values, hvalues, rfl, (hall values hvalues).imp id fun h => ?_⟩
  exact (excused_iff hr hvalues).1 h

theorem names_of_served (hwithin : ∀ q ∈ app.routes, Within n q.pattern.segments) (hr : WellFormed r.pattern.segments)
    (hall : ∀ values, Assigns r.pattern.segments values → app.Serves i r values ∨ app.Excused r values) :
    (captureNames r.pattern.segments).Nodup := by
  by_contra hnames
  obtain ⟨values, hvalues, hsub, hserved⟩ := exists_values hr hall (accepts_generic n _)
    (slash_not_mem_generic hr.literals)
  rcases hserved with hserves | ⟨m, hm, -, hliteral, haccepts⟩
  · obtain ⟨params, -, hcaptures⟩ := hserves.captures
    obtain ⟨name, v, v', hne, hv, hv'⟩ := exists_lost hnames hvalues.length (generic_values hvalues.length hsub).1
    have hlookup := ((hcaptures name v).2 hv).symm.trans ((hcaptures name v').2 hv')
    exact hne (Option.some.inj hlookup)
  · have hcovers := covers_of_accepts_generic (hwithin m hm) haccepts
    exact Nat.not_lt_of_le (literalCount_le_of_covers hcovers) hliteral

theorem literal_of_mem_meet {p q : List Segment} {l : Text}
    (h : Segment.literal l ∈ List.zipWith Segment.meet p q) : Segment.literal l ∈ p ∨ Segment.literal l ∈ q := by
  induction p generalizing q with
  | nil => simp at h
  | cons s p ih =>
    cases q with
    | nil => simp at h
    | cons t q =>
      rcases List.mem_cons.1 h with h | h
      · cases s <;> cases t <;> simp_all [Segment.meet]
      · exact (ih h).imp (List.mem_cons_of_mem _) (List.mem_cons_of_mem _)

theorem earlier_of_served (hwithin : ∀ q ∈ app.routes, Within n q.pattern.segments)
    (hwell : ∀ q ∈ app.routes, WellFormed q.pattern.segments) (hr : WellFormed r.pattern.segments)
    (hall : ∀ values, Assigns r.pattern.segments values → app.Serves i r values ∨ app.Excused r values)
    {j : Nat} (hj : j < i) (hq : app.routes[j]? = some q) (hmethod : q.method = r.method)
    (hmeets : List.Forall₂ Segment.Meets r.pattern.segments q.pattern.segments) :
    ∃ m ∈ app.routes, m.method = r.method ∧ MoreLiteral m r ∧
      List.Forall₂ Segment.Covers m.pattern.segments
        (List.zipWith Segment.meet r.pattern.segments q.pattern.segments) := by
  have hmem : q ∈ app.routes := List.mem_of_getElem? hq
  obtain ⟨hcovers, hcovers'⟩ := covers_meet hmeets
  have hgeneric := accepts_generic n (List.zipWith Segment.meet r.pattern.segments q.pattern.segments)
  obtain ⟨values, hvalues, hsub, hserved⟩ := exists_values hr hall (accepts_of_covers hcovers hgeneric)
    (slash_not_mem_generic fun l hl => (literal_of_mem_meet hl).elim (hr.literals l) ((hwell q hmem).literals l))
  rcases hserved with hserves | ⟨m, hm, hm', hliteral, haccepts⟩
  · -- the earlier route takes the path first
    obtain ⟨hlt, -, hfirst⟩ := List.findIdx?_eq_some_iff_getElem.1 hserves.first
    obtain ⟨hlt', rfl⟩ := List.getElem?_eq_some_iff.1 hq
    refine absurd ((takes_pathFor hr hvalues).2 ⟨hmethod, ?_⟩) (hfirst j hj)
    rw [hsub]
    exact accepts_of_covers hcovers' hgeneric
  · exact ⟨m, hm, hm', hliteral, covers_of_accepts_generic (hwithin m hm) haccepts⟩

end Clear

/-- A route that was accepted serves all its paths, but for those that a more literal route matches too, exactly when
its captures have different names and every route before it leaves what they share to a more literal one. -/
theorem serves_iff_clear {rules : List (Rule F)} {i : Nat} {r : Route F}
    (hi : (routeAll rules).routes[i]? = some r) :
    (∀ values, Assigns r.pattern.segments values →
        (routeAll rules).Serves i r values ∨ (routeAll rules).Excused r values) ↔ (routeAll rules).Clear i r := by
  have hwell := wellFormed_routeAll rules
  have hr := hwell r (List.mem_of_getElem? hi)
  obtain ⟨n, hn⟩ := exists_within ((routeAll rules).routes.map fun q => q.pattern.segments)
  have hwithin : ∀ q ∈ (routeAll rules).routes, Within n q.pattern.segments :=
    fun q hq => hn _ (List.mem_map_of_mem hq)
  constructor
  · intro hall
    exact ⟨names_of_served hwithin hr hall,
      fun j q hj hq hmethod hmeets => earlier_of_served hwithin hwell hr hall hj hq hmethod hmeets⟩
  · exact fun hclear values hvalues => excused_or_serves hr hclear hi hvalues

/-- Two registrations of the same paths. -/
def users : List (Rule Unit) :=
  [⟨"GET".toList, "/users/<id>".toList, .validated "User".toList⟩,
    ⟨"GET".toList, "/users/<name>".toList, .validated "Account".toList⟩]

def userById : Route Unit :=
  ⟨"GET".toList, ⟨[.literal "users".toList, .param "id".toList], "/users/<id>".toList, rfl⟩, .validated "User".toList⟩

def userByName : Route Unit :=
  ⟨"GET".toList, ⟨[.literal "users".toList, .param "name".toList], "/users/<name>".toList, rfl⟩,
    .validated "Account".toList⟩

theorem routes_users : (routeAll users).routes = [userById, userByName] :=
  rfl

theorem routes_first : (routeAll users).routes[0]? = some userById := by
  rw [routes_users]
  rfl

/-- The route registered first is clear. -/
theorem serves_userById :
    (routeAll users).Serves 0 userById ["42".toList] ∨ (routeAll users).Excused userById ["42".toList] :=
  (serves_iff_clear (i := 0) routes_first).2
    ⟨by decide, fun _ _ hj => absurd hj (Nat.not_lt_zero _)⟩ _ ⟨show 1 = 1 from rfl, by decide⟩

/-- The second registration is accepted, and its path is never dispatched to it. -/
theorem route_hidden :
    (routeAll users).routes[1]? = some userByName ∧ Assigns userByName.pattern.segments ["42".toList] ∧
      ¬ ((routeAll users).Serves 1 userByName ["42".toList] ∨ (routeAll users).Excused userByName ["42".toList]) := by
  refine ⟨rfl, ⟨show 1 = 1 from rfl, by decide⟩, ?_⟩
  rintro (hserves | ⟨q, hq, -, hliteral, -⟩)
  · have hfirst : (routeAll users).firstMatch "GET".toList "/users/42".toList = some 0 := rfl
    cases hfirst.symm.trans hserves.first
  · rw [routes_users] at hq
    simp only [List.mem_cons, List.not_mem_nil, or_false] at hq
    rcases hq with rfl | rfl <;> exact absurd hliteral (Nat.lt_irrefl _)

end App

end Cobrust.Pit
