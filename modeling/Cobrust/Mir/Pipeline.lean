import Cobrust.Mir.DropOrder
import Cobrust.Mir.DropSafety
import Cobrust.Mir.Lower.Module
import Cobrust.Mir.LowerTidy
import Cobrust.Mir.MatchPaths
import Cobrust.Mir.MoveSafety

/-!
# The lowering pipeline

Every body that lowering builds is sound (`Body.Sound`): its blocks and locals are numbered by their places, its edges
stay inside the vector and nothing is dropped yet. On sound bodies the phases behind the lowering return, the drop
schedule raises no error, and the borrow checks accept exactly the bodies on whose paths no check fails.
-/

namespace Cobrust.Mir

open Control BodyBuilder
open Hir (Item FnBody)

/-! ## Bodies -/

/-- What lowering promises of a body. -/
structure Body.Sound (body : Body) : Prop where
  wellFormed : body.WellFormed
  dropFree : body.DropFree
  entry : 0 < body.blocks.length

theorem tidy_new (id : DefId) (name : String) (span : Span) : (BodyBuilder.new id name span).Tidy := by
  intro x block h
  obtain ⟨hx, rfl⟩ := List.getElem?_eq_some_iff.1 h
  obtain rfl : x = 0 := Nat.lt_one_iff.1 hx
  exact ⟨rfl, fun h => h⟩

theorem sound_buildBody {build : LowerM Unit} (htidy : TidyM build) (hext : ExtendsM build) {id : DefId} {name : String}
    {span : Span} {body : Body} (hok : buildBody id name span build = .ok body) : body.Sound := by
  unfold buildBody at hok
  cases hbuild : build (.new id name span) with
  | error e => simp [hbuild, Except.map] at hok
  | ok r =>
    obtain ⟨u, b⟩ := r
    obtain rfl : b.finish = body := by simpa [hbuild, Except.map] using hok
    have hb := htidy _ u b hbuild (tidy_new id name span)
    have hgrown := hext _ u b hbuild (inRange_new id name span)
    refine ⟨⟨fun x block hblock => (hb x block hblock).1, fun x y hy => ?_⟩, fun block hblock => ?_,
      Nat.zero_lt_one.trans_le hgrown.len⟩
    · obtain ⟨block, hblock, hy⟩ := Body.exists_block_of_mem_successors hy
      have hterm : b.term x = some block.terminator := by
        rw [term, show b.blocks[x]? = some block from hblock]
        rfl
      exact (hgrown.inRange (inRange_new id name span)).targets x y (targets_eq hterm ▸ hy)
    · obtain ⟨x, hx⟩ := List.mem_iff_getElem?.1 hblock
      exact (hb x block hx).2

section

variable (ctx : LowerCtx)

theorem extends_declareParams (params : List Hir.Param) : ExtendsM (declareParams ctx params) := by
  induction params with
  | nil => exact .ret _
  | cons p rest ih => exact .bind (.of_straight (straight_declareLocalForDef _ _ _ _ _)) fun _ => ih

@[grind ←] theorem tidy_declareParams (params : List Hir.Param) : TidyM (declareParams ctx params) := by
  fun_induction declareParams ctx params <;> grind

@[grind ←] theorem tidy_setParamCount : TidyM setParamCount :=
  .of_blocks fun _ _ _ h => by cases h; rfl

theorem extends_markHandler (id : DefId) (params : Hir.Params) : ExtendsM (markHandler ctx id params) := by
  refine Steps.of_modify fun _ _ => .of_blocks_eq ?_ ?_ ?_ <;>
  · split
    · rfl
    · split <;> rfl

@[grind ←] theorem tidy_markHandler (id : DefId) (params : Hir.Params) : TidyM (markHandler ctx id params) := by
  refine .of_blocks fun b _ _ h => ?_
  rw [← modify_eq_ok.1 h]
  split
  · rfl
  · split <;> rfl

theorem extends_ret : ExtendsM (terminate .ret) :=
  fun _ _ _ h _ => extends_terminate h fun _ hy => absurd hy List.not_mem_nil

theorem extends_returnNone (span : Span) : ExtendsM (returnNone span) := by
  refine .bind .terminated fun closed => ?_
  cases closed with
  | false => exact .bind .builder fun _ => .bind (.of_straight (straight_emitAssign _ _ _)) fun _ => extends_ret
  | true => exact .ret _

@[grind ←] theorem tidy_returnNone (span : Span) : TidyM (returnNone span) := by
  unfold returnNone
  grind

theorem sound_lowerFn {f : FnBody} {body : Body} (h : lowerFn ctx f = .ok body) : body.Sound := by
  obtain ⟨id, name, params, block, span⟩ := f
  have hcount : ExtendsM setParamCount :=
    Steps.of_modify fun _ _ => .of_blocks_eq rfl rfl rfl
  refine sound_buildBody (.bind (tidy_declareParams ctx _) fun _ => by grind [tidy_lowerBlock])
    (.bind (extends_declareParams ctx _) fun _ => .bind hcount fun _ =>
    .bind (extends_markHandler ctx id params) fun _ => .bind (extends_lowerBlock ctx block) fun _ =>
    extends_returnNone span) h

theorem extends_lowerInitItems (items : List Item) : ExtendsM (lowerInitItems ctx items) := by
  fun_induction lowerInitItems ctx items with
  | case1 => exact .ret _
  | case2 body span rest ih => exact .bind (.of_straight (straight_lowerLet ctx body)) fun _ => ih
  | case3 e span rest ih => exact .bind (.of_straight (straight_lowerExpr ctx e)) fun _ => ih
  | case4 _ rest _ _ ih => exact ih

@[grind ←] theorem tidy_lowerInitItems (items : List Item) : TidyM (lowerInitItems ctx items) := by
  fun_induction lowerInitItems ctx items <;> grind

mutual

theorem sound_lowerItems : ∀ (items : List Item) {bodies : List Body}, lowerItems ctx items = .ok bodies →
    ∀ body ∈ bodies, body.Sound
  | [], _, h => by
    cases h
    exact List.forall_mem_nil _
  | item :: rest, _, h => by
    obtain ⟨bodies, hitem, h⟩ := except_bind_ok.1 h
    obtain ⟨more, hrest, h⟩ := except_bind_ok.1 h
    cases h
    exact List.forall_mem_append.2 ⟨sound_lowerItem item hitem, sound_lowerItems rest hrest⟩

theorem sound_lowerItem : ∀ (item : Item) {bodies : List Body}, lowerItem ctx item = .ok bodies →
    ∀ body ∈ bodies, body.Sound
  | .mk (.fn f) _, _, h => by
    obtain ⟨body, hf, h⟩ := except_bind_ok.1 h
    cases h
    exact List.forall_mem_singleton.2 (sound_lowerFn ctx hf)
  | .mk (.«class» _ _ members _) _, _, h => sound_lowerItems members h
  | .mk (.decorated _ inner) _, _, h => sound_lowerItem inner h
  | .mk (.typeAlias _ _ _ _) _, _, h | .mk (.«import» _ _ _ _) _, _, h | .mk (.«let» _) _, _, h
  | .mk (.exprStmt _) _, _, h => by
    cases h
    exact List.forall_mem_nil _

end

theorem sound_lowerBodies {module : Hir.Module} {bodies : List Body} (h : lowerBodies ctx module = .ok bodies) :
    ∀ body ∈ bodies, body.Sound := by
  obtain ⟨init, hinit, h⟩ := except_bind_ok.1 h
  obtain ⟨rest, hrest, h⟩ := except_bind_ok.1 h
  cases h
  exact List.forall_mem_cons.2 ⟨sound_buildBody (by grind)
    (.bind (extends_lowerInitItems ctx module.items) fun _ => extends_ret) hinit,
    sound_lowerItems ctx module.items hrest⟩

end

/-! ## The phases -/

/-- No check fails on any path. -/
def Body.PathsAccepted (body : Body) : Prop :=
  ∀ path, body.IsPath path → ∃ facts, checkPath body path (∅, ∅) = .ok facts

/-- The borrow check of every body returns, and it accepts when no check fails on any path of any body. -/
theorem borrowCheckAll_decides {bodies : List Body} (hrange : ∀ body ∈ bodies, body.TargetsInRange)
    (hentry : ∀ body ∈ bodies, 0 < body.blocks.length) :
    ∃ r fuel₀, (∀ fuel ≥ fuel₀, borrowCheckAll fuel bodies = some r) ∧
      (r = .ok () ↔ ∀ body ∈ bodies, body.PathsAccepted) := by
  induction bodies with
  | nil => exact ⟨.ok (), 0, fun _ _ => rfl, fun _ => List.forall_mem_nil _, fun _ => rfl⟩
  | cons body rest ih =>
    obtain ⟨hbodyRange, hrange⟩ := List.forall_mem_cons.1 hrange
    obtain ⟨hbodyEntry, hentry⟩ := List.forall_mem_cons.1 hentry
    obtain ⟨r, fuel₁, hr, hok⟩ := ih hrange hentry
    obtain ⟨first, fuel₂, hfirst⟩ := borrowCheck_returns hbodyRange
    have hpaths : first = .ok () ↔ body.PathsAccepted := by
      rw [borrowCheck_ok_iff (hfirst fuel₂ le_rfl) hbodyEntry, pathsOk_iff hbodyRange hbodyEntry]
      rfl
    cases first with
    | error e =>
      refine ⟨.error e, fuel₂, fun fuel hfuel => ?_, fun he => (by cases he), fun hall => ?_⟩
      · simp only [borrowCheckAll, hfirst fuel hfuel]
      · cases hpaths.2 (hall body List.mem_cons_self)
    | ok _ =>
      refine ⟨r, max fuel₁ fuel₂, fun fuel hfuel => ?_, ?_⟩
      · simp only [borrowCheckAll, hfirst fuel (le_of_max_le_right hfuel), hr fuel (le_of_max_le_left hfuel)]
      · rw [hok, List.forall_mem_cons, ← hpaths]
        exact ⟨fun h => ⟨rfl, h⟩, And.right⟩

/-- The bodies with their drops. -/
def insertAll (orders : Nat → HashOrder) : Nat → List Body → List Body
  | _, [] => []
  | i, body :: rest => insertDrops (orders i) body :: insertAll orders (i + 1) rest

theorem mem_insertAll {orders : Nat → HashOrder} {i : Nat} {bodies : List Body} {B : Body}
    (h : B ∈ insertAll orders i bodies) : ∃ body ∈ bodies, ∃ order, B = insertDrops order body := by
  induction bodies generalizing i with
  | nil => cases h
  | cons body rest ih =>
    rcases List.mem_cons.1 h with rfl | h
    · exact ⟨body, List.mem_cons_self, orders i, rfl⟩
    · obtain ⟨body', hbody, horder⟩ := ih h
      exact ⟨body', List.mem_cons_of_mem _ hbody, horder⟩

theorem forall₂_insertAll {R : Body → Body → Prop} {orders : Nat → HashOrder} {bodies : List Body}
    (h : ∀ body ∈ bodies, ∀ order, R body (insertDrops order body)) (i : Nat) :
    List.Forall₂ R bodies (insertAll orders i bodies) := by
  induction bodies generalizing i with
  | nil => exact .nil
  | cons body rest ih =>
    obtain ⟨hbody, hrest⟩ := List.forall_mem_cons.1 h
    exact .cons (hbody _) (ih hrest _)

/-- The drop schedule of sound bodies raises no error. -/
theorem scheduleAll_ok (orders : Nat → HashOrder) {bodies : List Body} (h : ∀ body ∈ bodies, body.Sound) (i : Nat) :
    ∃ fuel₀, ∀ fuel ≥ fuel₀, scheduleAll orders fuel i bodies = some (.ok (insertAll orders i bodies)) := by
  induction bodies generalizing i with
  | nil => exact ⟨0, fun _ _ => rfl⟩
  | cons body rest ih =>
    obtain ⟨hbody, hrest⟩ := List.forall_mem_cons.1 h
    obtain ⟨fuel₁, hfirst⟩ := computeDropSchedule_ok (orders i) hbody.wellFormed hbody.dropFree
    obtain ⟨fuel₂, hmore⟩ := ih hrest (i + 1)
    refine ⟨max fuel₁ fuel₂, fun fuel hfuel => ?_⟩
    simp only [scheduleAll, hfirst fuel (le_of_max_le_left hfuel), hmore fuel (le_of_max_le_right hfuel),
      Option.map_some]
    rfl

theorem scheduleAll_eq {orders : Nat → HashOrder} {fuel i : Nat} {bodies scheduled : List Body}
    (h : scheduleAll orders fuel i bodies = some (.ok scheduled)) : scheduled = insertAll orders i bodies := by
  induction bodies generalizing i scheduled with
  | nil => exact (Except.ok.inj (Option.some.inj h)).symm
  | cons body rest ih =>
    unfold scheduleAll at h
    split at h
    · next B hB =>
      obtain ⟨r, hr, hmap⟩ := Option.map_eq_some_iff.1 h
      cases r with
      | error e => cases hmap
      | ok more =>
        obtain rfl := Except.ok.inj hmap
        rw [insertAll, ← ih hr, computeDropSchedule_eq hB]
    · cases h
    · cases h

theorem borrowCheckAll_ok {fuel : Nat} {bodies : List Body} (h : borrowCheckAll fuel bodies = some (.ok ())) :
    ∀ body ∈ bodies, BorrowAccepts body := by
  induction bodies with
  | nil => exact List.forall_mem_nil _
  | cons body rest ih =>
    unfold borrowCheckAll at h
    split at h
    · next hbody => exact List.forall_mem_cons.2 ⟨⟨fuel, hbody⟩, ih h⟩
    · next hno => exact absurd h hno

theorem Body.Sound.insertDrops {body : Body} (h : body.Sound) (order : HashOrder) :
    (insertDrops order body).WellFormed ∧ 0 < (Mir.insertDrops order body).blocks.length := by
  obtain ⟨chain, done, hdone, hsched⟩ := insertDrops_scheduled order h.wellFormed h.dropFree
  exact ⟨⟨hsched.ids, hsched.targetsInRange h.wellFormed.targets hdone⟩, h.entry.trans_le hsched.length_le⟩

theorem Body.Sound.nodup_dropsOn {body : Body} (h : body.Sound) (order : HashOrder) {path : List BlockId}
    (hp : (Mir.insertDrops order body).IsPath path) : ((Mir.insertDrops order body).dropsOn path).Nodup := by
  obtain ⟨chain, done, hdone, hsched⟩ := insertDrops_scheduled order h.wellFormed h.dropFree
  exact (nodup_toDrop order body).sublist
    (hsched.dropsOn_prefix h.wellFormed.targets h.dropFree hdone hp).sublist

/-- Every owned local is dropped once on every path to a return, if the entry block does not return. -/
theorem Body.Sound.dropsExactlyOnce {body : Body} (h : body.Sound) (order : HashOrder) (hentry : ¬ body.ReturnsAt 0) :
    DropsExactlyOnce body (Mir.insertDrops order body) := by
  obtain ⟨chain, done, hdone, hsched⟩ := insertDrops_scheduled order h.wellFormed h.dropFree
  intro path R hp hlast hR
  refine ⟨fun l hl => ?_, h.nodup_dropsOn order hp⟩
  rcases hsched.dropsOn_return h.wellFormed.targets h.dropFree hdone hp hlast hR with h0 | hall
  · exact absurd h0 hentry
  · rw [hall]
    exact List.count_eq_one_of_mem (nodup_toDrop order body) (hl.mem_toDrop h.wellFormed order)

/-! ## The whole pipeline -/

/-- **`lower` accepts what its checks accept on every path.** For every module it returns, and it returns bodies exactly
when the lowering succeeds and no check fails on any path of any lowered body, neither before its drops are scheduled
nor afterwards. The drop schedule itself raises no error. -/
theorem lower_decides (ctx : LowerCtx) (orders : Nat → HashOrder) (module : Hir.Module) :
    ∃ r fuel₀, (∀ fuel ≥ fuel₀, lower ctx orders module fuel = some r) ∧
      ∀ scheduled, r = .ok scheduled ↔ ∃ bodies, lowerBodies (ctx.ofItems module.items) module = .ok bodies ∧
        scheduled = insertAll orders 0 bodies ∧ (∀ body ∈ bodies, body.PathsAccepted) ∧
        ∀ body ∈ scheduled, body.PathsAccepted := by
  cases hbodies : lowerBodies (ctx.ofItems module.items) module with
  | error e => exact ⟨.error e, 0, fun fuel _ => by simp only [lower, hbodies], by simp⟩
  | ok bodies =>
    have hsound := sound_lowerBodies _ hbodies
    obtain ⟨first, fuel₁, hfirst, hfirstOk⟩ := borrowCheckAll_decides
      (fun body hb => (hsound body hb).wellFormed.targets) fun body hb => (hsound body hb).entry
    obtain ⟨fuel₂, hsched⟩ := scheduleAll_ok orders hsound 0
    have hmore (B : Body) (hB : B ∈ insertAll orders 0 bodies) : B.WellFormed ∧ 0 < B.blocks.length := by
      obtain ⟨body, hbody, order, rfl⟩ := mem_insertAll hB
      exact (hsound body hbody).insertDrops order
    obtain ⟨last, fuel₃, hlast, hlastOk⟩ := borrowCheckAll_decides
      (fun B hB => (hmore B hB).1.targets) fun B hB => (hmore B hB).2
    have hrun (fuel : Nat) (hfuel : max fuel₁ (max fuel₂ fuel₃) ≤ fuel) : lower ctx orders module fuel =
        andThen (some first) fun _ => andThen (some last) fun _ => some (.ok (insertAll orders 0 bodies)) := by
      simp only [lower, hbodies, hfirst fuel (le_of_max_le_left hfuel),
        hsched fuel (le_of_max_le_left (le_of_max_le_right hfuel))]
      change (andThen (some first) fun _ => andThen (borrowCheckAll fuel (insertAll orders 0 bodies)) _) = _
      rw [hlast fuel (le_of_max_le_right (le_of_max_le_right hfuel))]
    cases first with
    | error e =>
      refine ⟨.error (.error e), _, hrun, fun scheduled => ⟨fun he => (by cases he), ?_⟩⟩
      rintro ⟨bodies', he, -, hpaths, -⟩
      obtain rfl := Except.ok.inj he
      cases hfirstOk.2 hpaths
    | ok _ =>
      cases last with
      | error e =>
        refine ⟨.error (.error e), _, hrun, fun scheduled => ⟨fun he => (by cases he), ?_⟩⟩
        rintro ⟨bodies', he, rfl, -, hpaths⟩
        obtain rfl := Except.ok.inj he
        cases hlastOk.2 hpaths
      | ok _ =>
        refine ⟨.ok (insertAll orders 0 bodies), _, hrun, fun scheduled => ⟨fun he => ?_, ?_⟩⟩
        · obtain rfl := Except.ok.inj he
          exact ⟨bodies, rfl, rfl, hfirstOk.1 rfl, hlastOk.1 rfl⟩
        · rintro ⟨bodies', he, rfl, -, -⟩
          obtain rfl := Except.ok.inj he
          rfl

/-- What a call of `lower` that returned bodies has done. -/
theorem lower_ok {ctx : LowerCtx} {orders : Nat → HashOrder} {module : Hir.Module} {fuel : Nat} {scheduled : List Body}
    (h : lower ctx orders module fuel = some (.ok scheduled)) :
    ∃ bodies, lowerBodies (ctx.ofItems module.items) module = .ok bodies ∧ scheduled = insertAll orders 0 bodies ∧
      ∀ body ∈ scheduled, BorrowAccepts body := by
  unfold lower at h
  cases hbodies : lowerBodies (ctx.ofItems module.items) module with
  | error e =>
    rw [hbodies] at h
    cases h
  | ok bodies =>
    rw [hbodies] at h
    simp only [andThen] at h
    split at h
    · cases h
    · cases h
    split at h
    · cases h
    · cases h
    next bodies' hsched =>
    split at h
    · cases h
    · cases h
    next hlast =>
    obtain rfl := Except.ok.inj (Option.some.inj h)
    exact ⟨bodies, rfl, scheduleAll_eq hsched, borrowCheckAll_ok hlast⟩

/-- **Runs of what `lower` returns.** Every returned body is well formed. On none of its paths a local is dropped twice,
and no point of a path consumes a local that the path has moved and not written since. -/
theorem lower_runs_safe (ctx : LowerCtx) (orders : Nat → HashOrder) (module : Hir.Module) (fuel : Nat)
    (scheduled : List Body) (h : lower ctx orders module fuel = some (.ok scheduled)) :
    ∀ body ∈ scheduled, (body.WellFormed ∧ 0 < body.blocks.length) ∧
      ∀ path, body.IsPath path → (body.dropsOn path).Nodup ∧ ReadsClear ∅ (body.points path) := by
  obtain ⟨bodies, hbodies, rfl, haccepts⟩ := lower_ok h
  intro B hB
  have hB' := haccepts B hB
  obtain ⟨body, hbody, order, rfl⟩ := mem_insertAll hB
  have hsound := sound_lowerBodies _ hbodies body hbody
  refine ⟨hsound.insertDrops order, fun path hp => ⟨hsound.nodup_dropsOn order hp, ?_⟩⟩
  obtain ⟨facts, hfacts⟩ := hB'.checkPath_ok hp
  exact checkPath_readsClear _ path hp.2.2 hfacts

/-- `fn f(): let s = "a"; if True: pass`. -/
def stringModule : Hir.Module where
  items := [.mk (.fn (.mk 1 "f" ⟨[], none, [], none⟩ (.mk
    [.mk (.«let» ⟨2, .mk (.binding "s" 2) .synthetic, none, .mk (.lit (.str "a")) .synthetic, .synthetic⟩) .synthetic,
      .mk (.«if» [(.mk (.lit (.bool true)) .synthetic, .mk [.mk .pass .synthetic] .synthetic)] none) .synthetic]
    .synthetic) .synthetic)) .synthetic]
  span := .synthetic

/-- Definition 2 is a string. -/
def stringCtx : LowerCtx :=
  { LowerCtx.plain with defTy := fun id => if id = 2 then some .str else none }

/-- The bodies of the module with the drops of `f`. -/
def stringBodies : List Body :=
  ((lower stringCtx (fun _ => .ascending) stringModule 20).bind Except.toOption).getD []

/-- The path on which `f` drops its string. -/
theorem lower_runs_safe_string : ∃ body ∈ stringBodies, body.IsPath [0, 2, 4, 1] ∧ body.dropsOn [0, 2, 4, 1] = [1] ∧
    ReadsClear ∅ (body.points [0, 2, 4, 1]) := by
  have hmem : stringBodies.get ⟨1, by decide⟩ ∈ stringBodies := List.get_mem _ _
  have hpath : (stringBodies.get ⟨1, by decide⟩).IsPath [0, 2, 4, 1] := ⟨rfl, by decide, by decide⟩
  exact ⟨_, hmem, hpath, rfl,
    ((lower_runs_safe stringCtx (fun _ => .ascending) stringModule 20 stringBodies rfl _ hmem).2 _ hpath).2⟩

/-- **Drops are all that `lower` adds to what it lowered.** Each returned body does what the lowered body does, apart
from the drops in front of its returns, and they drop every owned local exactly once on every path to a return, unless
the entry block is such a return. -/
theorem lower_simulates (ctx : LowerCtx) (orders : Nat → HashOrder) (module : Hir.Module) (fuel : Nat)
    (scheduled : List Body) (h : lower ctx orders module fuel = some (.ok scheduled)) :
    ∃ bodies, lowerBodies (ctx.ofItems module.items) module = .ok bodies ∧
      List.Forall₂ (fun body B => (∃ order chain, DropSimulation body (toDrop order body) chain B) ∧
        (¬ body.ReturnsAt 0 → DropsExactlyOnce body B)) bodies scheduled := by
  obtain ⟨bodies, hbodies, rfl, -⟩ := lower_ok h
  refine ⟨bodies, hbodies, forall₂_insertAll (fun body hbody order => ?_) 0⟩
  have hsound := sound_lowerBodies _ hbodies body hbody
  obtain ⟨chain, done, hdone, hsched⟩ := insertDrops_scheduled order hsound.wellFormed hsound.dropFree
  exact ⟨⟨order, chain, hsched.simulates hsound.wellFormed.targets hdone⟩, hsound.dropsExactlyOnce order⟩

theorem lower_simulates_string : ∃ bodies,
    lowerBodies (stringCtx.ofItems stringModule.items) stringModule = .ok bodies ∧ List.Forall₂ (fun body B =>
      (∃ order chain, DropSimulation body (toDrop order body) chain B) ∧
        (¬ body.ReturnsAt 0 → DropsExactlyOnce body B)) bodies stringBodies :=
  lower_simulates stringCtx (fun _ => .ascending) stringModule 20 stringBodies rfl

end Cobrust.Mir
