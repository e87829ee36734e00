import Cobrust.Types.Statements
import Mathlib.Data.List.Forall2

/-!
# Exhaustive matches

What a pattern matches, and what the verdict of `check_match` says about the values of the scrutinee. The checker looks
at the wildcards, bindings and literals that stand on top of unguarded arms, and passes over or-patterns and sequences.

* `checkMatch_exact_iff`: on bool, None and tuples of such types it accepts exactly the matches that cover every value,
  if or-patterns and sequences are not needed for that.
* `match_rejected`: a match that covers both values with an or-pattern.
-/

namespace Cobrust

open Hir Checker
open Unify (Acyclic)
open List (Forall₂)

/-! ## Values -/

/-- The values that patterns look into; the others are of some type `α`. -/
inductive Value (α : Type) where
  | bool (b : Bool)
  | none
  | tuple (items : List (Value α))
  | list (items : List (Value α))
  | other (a : α)

/-- What the rest of the language says: which other values a type has, which literals they match, and what mapping and
class patterns match. -/
structure Values (α : Type) where
  has : Ty → α → Prop
  literal : Lit → α → Prop
  structured : PatternKind → Value α → Prop

/-- Types with values of their own. -/
def Ty.IsOther : Ty → Prop
  | .bool | .none | .never | .tuple _ | .list _ => False
  | _ => True

/-- Bool, None, and tuples of such types. -/
inductive Ty.Finite : Ty → Prop
  | bool : Finite .bool
  | none : Finite .none
  | tuple {ts : List Ty} : (∀ t ∈ ts, Finite t) → Finite (.tuple ts)

def Hir.PatternKind.IsStructured : PatternKind → Prop
  | .mapping _ _ | .class _ _ _ => True
  | _ => False

/-- Wildcards, bindings and literals. -/
def Hir.PatternKind.isPlain : PatternKind → Bool
  | .wildcard | .binding _ _ | .literal _ => true
  | _ => false

namespace Values

variable {α : Type} (vals : Values α)

inductive HasTy : Ty → Value α → Prop
  | bool (b : Bool) : HasTy .bool (.bool b)
  | none : HasTy .none .none
  | tuple {ts : List Ty} {items : List (Value α)} : Forall₂ HasTy ts items → HasTy (.tuple ts) (.tuple items)
  | list {t : Ty} {items : List (Value α)} : (∀ v ∈ items, HasTy t v) → HasTy (.list t) (.list items)
  | other {t : Ty} {a : α} : t.IsOther → vals.has t a → HasTy t (.other a)

/-- A sequence pattern with a rest matches what begins with its items. -/
inductive Matches : Pattern → Value α → Prop
  | wildcard {span v} : Matches (.mk .wildcard span) v
  | binding {name d span v} : Matches (.mk (.binding name d) span) v
  | bool {b span} : Matches (.mk (.literal (.bool b)) span) (.bool b)
  | none {span} : Matches (.mk (.literal .none) span) .none
  | literal {l span a} : vals.literal l a → Matches (.mk (.literal l) span) (.other a)
  | tuple {items span vs} : Forall₂ Matches items vs → Matches (.mk (.sequence items .none) span) (.tuple vs)
  | list {items span vs} : Forall₂ Matches items vs → Matches (.mk (.sequence items .none) span) (.list vs)
  | tupleRest {items rest span front back} : Forall₂ Matches items front → Matches rest (.list back) →
      Matches (.mk (.sequence items (some rest)) span) (.tuple (front ++ back))
  | listRest {items rest span front back} : Forall₂ Matches items front → Matches rest (.list back) →
      Matches (.mk (.sequence items (some rest)) span) (.list (front ++ back))
  | or {branches span v p} : p ∈ branches → Matches p v → Matches (.mk (.or branches) span) v
  | structured {kind span v} : PatternKind.IsStructured kind → vals.structured kind v → Matches (.mk kind span) v

end Values

def Hir.MatchArm.pattern : MatchArm → Pattern
  | .mk pattern _ _ _ _ => pattern

def Hir.MatchArm.guard : MatchArm → Option Expr
  | .mk _ _ guard _ _ => guard

section Spec

variable {α : Type} (vals : Values α)

/-- The arm has no guard and matches the value. -/
def Fires (arm : MatchArm) (v : Value α) : Prop :=
  arm.guard = none ∧ vals.Matches arm.pattern v

/-- Every value of the type is matched by an arm without a guard. -/
def Covers (arms : List MatchArm) (t : Ty) : Prop :=
  ∀ v, vals.HasTy t v → ∃ arm ∈ arms, Fires vals arm v

/-- The arms with a wildcard, a binding or a literal on top. -/
def plainArms (arms : List MatchArm) : List MatchArm :=
  arms.filter fun arm => arm.pattern.kind.isPlain

/-- Or-patterns and sequences are not needed to cover the type. -/
def PlainSuffices (arms : List MatchArm) (t : Ty) : Prop :=
  t.Finite → Covers vals arms t → Covers vals (plainArms arms) t

end Spec

/-! ## What the verdict looks at -/

def Hir.PatternKind.isWild : PatternKind → Bool
  | .wildcard | .binding _ _ => true
  | _ => false

/-- The literal on top of an arm without a guard. -/
def IsLit (l : Lit) (arm : MatchArm) : Prop :=
  arm.guard = none ∧ arm.pattern.kind = .literal l

def IsWild (arm : MatchArm) : Prop :=
  arm.guard = none ∧ arm.pattern.kind.isWild = true

def coverageOf (arms : List MatchArm) (cov : Coverage) : Coverage :=
  arms.foldl (fun cov arm => cov.add arm.pattern arm.guard) cov

theorem hasWildcard_coverageOf {arms : List MatchArm} {cov : Coverage} :
    (coverageOf arms cov).hasWildcard = true ↔ cov.hasWildcard = true ∨ ∃ arm ∈ arms, IsWild arm := by
  induction arms generalizing cov with
  | nil => simp [coverageOf]
  | cons arm arms ih =>
    have hstep : (cov.add arm.pattern arm.guard).hasWildcard = true ↔ cov.hasWildcard = true ∨ IsWild arm := by
      unfold Coverage.add IsWild
      cases arm.guard <;> cases arm.pattern.kind <;> simp [PatternKind.isWild]
    rw [coverageOf, List.foldl_cons, ← coverageOf, ih, hstep, List.exists_mem_cons_iff, or_assoc]

theorem mem_coveredLits_coverageOf {arms : List MatchArm} {cov : Coverage} {text : String} :
    text ∈ (coverageOf arms cov).coveredLits ↔
      text ∈ cov.coveredLits ∨ ∃ arm ∈ arms, ∃ l, IsLit l arm ∧ litToString l = text := by
  induction arms generalizing cov with
  | nil => simp [coverageOf]
  | cons arm arms ih =>
    have hstep : text ∈ (cov.add arm.pattern arm.guard).coveredLits ↔
        text ∈ cov.coveredLits ∨ ∃ l, IsLit l arm ∧ litToString l = text := by
      unfold Coverage.add IsLit
      cases arm.guard <;> cases arm.pattern.kind <;> simp [eq_comm]
    rw [coverageOf, List.foldl_cons, ← coverageOf, ih, hstep, List.exists_mem_cons_iff, or_assoc]

section Run

variable {checks : Checks} {flow : Flow} {fuel : Nat} {c c' : Ctx} {ty r : Ty} {arms : List MatchArm}
  {cov cov' : Coverage} {scrutinee : Expr} {span : Span}

/-- A literal that was unified with a type is of that type. -/
theorem eq_litType_of_unify {l : Lit} {s s' s'' : Subst} (hac : Acyclic s.get)
    (hunify : unify span fuel ty (litType l) s = some (.ok (), s')) (hgrows : s'.Grows s'')
    (hr : s''.Resolves ty r) : r = litType l ∨ r = .never := by
  obtain ⟨hac', hext⟩ := grows_unify _ _ _ _ _ _ hunify hac
  obtain ⟨hac'', hext'⟩ := hgrows hac'
  have hsolves := s''.solves_closed hac''
  have hsolves' := hsolves.of_extends hext'
  cases fuel with
  | zero => cases hunify
  | succ fuel =>
    obtain ⟨r₁, r₂, h₁, h₂, harms⟩ := unify_succ.1 hunify
    obtain rfl : r₂ = litType l := (s.apply_eq hac h₂).trans (by cases l <;> rfl)
    rw [hr.eq hac'', ← Subst.Resolves.bind_eq hac ⟨fuel, h₁⟩ (hsolves'.of_extends hext)]
    have hlit (θ : Nat → Ty) : (litType l).bind θ = litType l := by cases l <;> rfl
    rcases unifyArms_ok.1 harms with ⟨hnever | hnever, -⟩ | ⟨v, -, hvar, -⟩ | ⟨v, rfl, -, -, rfl⟩ | ⟨v, hvar, -⟩ |
      ⟨hvar, -, -, -, hshape, -⟩
    · rw [hnever]
      exact .inr rfl
    · cases l <;> cases hnever
    · cases l <;> cases hvar
    · -- the variable is bound to the type of the literal
      have hbound : (s.extend v (litType l)).get v = some (litType l) := by
        rw [Subst.get_extend, Unify.update, if_pos rfl]
      exact .inl ((hsolves' v _ hbound).trans (hlit _))
    · cases l <;> cases hvar
    · obtain rfl : r₁ = litType l := by
        cases l <;> cases r₁ <;> first | rfl | cases hshape
      exact .inl (hlit _)

/-- A literal that the arms were checked with is of the type that the scrutinee has behind them. -/
theorem checkArms_ok (hac : Acyclic c.subst.get)
    (h : run fuel (checkArms checks flow ty arms cov) c = some (.ok cov', c')) :
    cov' = coverageOf arms cov ∧ ∀ arm ∈ arms, ∀ l, arm.pattern.kind = .literal l →
      ∀ s r, c'.subst.Grows s → s.Resolves ty r → r = litType l ∨ r = .never := by
  induction arms generalizing c cov with
  | nil =>
    obtain ⟨rfl, rfl⟩ := run_pure.1 h
    exact ⟨rfl, by simp⟩
  | cons arm arms ih =>
    obtain ⟨pattern, ids, guard, body, armSpan⟩ := arm
    rw [checkArms] at h
    obtain ⟨_, c₁, hpattern, h₁⟩ := run_bind.1 h
    obtain ⟨_, c₂, hguard, h₂⟩ := run_bind.1 h₁
    obtain ⟨_, c₃, hbody, h₃⟩ := run_bind.1 h₂
    have hgrows := (grows hguard).trans (grows hbody)
    have hac₁ := (grows hpattern hac).1
    obtain ⟨hcov, hrest⟩ := ih (hgrows hac₁).1 h₃
    refine ⟨hcov, List.forall_mem_cons.2 ⟨fun l hl s r hs hr => ?_, hrest⟩⟩
    obtain ⟨kind, patternSpan⟩ := pattern
    obtain rfl : kind = .literal l := hl
    rw [bindPattern] at hpattern
    obtain ⟨s₁, hunify, rfl⟩ := run_unifyTys.1 hpattern
    exact eq_litType_of_unify hac hunify ((hgrows.trans (grows h₃)).trans hs) hr

/-- What the verdict accepts. -/
def Accepts (r : Ty) (cov : Coverage) : Prop :=
  cov.hasWildcard = true ∨ (r = .bool ∧ "True" ∈ cov.coveredLits ∧ "False" ∈ cov.coveredLits) ∨
    (r = .none ∧ "None" ∈ cov.coveredLits)

theorem run_isExhaustive (hr : c.subst.apply fuel ty = some r) :
    ∃ b, run fuel (isExhaustive ty cov) c = some (.ok b, c) ∧ (b = true ↔ Accepts r cov) := by
  unfold isExhaustive Accepts
  cases hwild : cov.hasWildcard with
  | true => exact ⟨true, rfl, by simp⟩
  | false =>
    have happly (f : Ty → Checker Bool) : run fuel (apply ty >>= f) c = run fuel (f r) c := by
      unfold run apply
      rw [Control.Program.run_bind, Control.Program.run_request]
      change Option.bind ((c.subst.apply fuel ty).map fun r => (Except.ok r, c)) _ = _
      rw [hr]
      rfl
    rw [if_neg Bool.false_ne_true, happly]
    cases r with
    | bool => exact ⟨_, rfl, by simp⟩
    | none => exact ⟨_, rfl, by simp⟩
    | _ => exact ⟨false, rfl, by simp⟩

theorem matchVerdict_ok (hr : c.subst.apply fuel ty = some r) :
    (∃ c', run fuel (matchVerdict ty cov span) c = some (.ok .falls, c')) ↔ Accepts r cov := by
  obtain ⟨b, hrun, hb⟩ : ∃ b, run fuel (isExhaustive ty cov) c = some (.ok b, c) ∧ (b = true ↔ Accepts r cov) :=
    run_isExhaustive hr
  rw [← hb]
  constructor
  · rintro ⟨c', h⟩
    rw [matchVerdict] at h
    obtain ⟨b', c₁, hrun', h⟩ := run_bind.1 h
    cases hrun.symm.trans hrun'
    cases b with
    | true => rfl
    | false =>
      obtain ⟨_, _, -, h⟩ := run_bind.1 h
      exact absurd h not_run_fail
  · rintro rfl
    refine ⟨c, run_bind.2 ⟨true, c, hrun, rfl⟩⟩

end Run

/-! ## What is covered -/

section Cover

variable {α : Type} {vals : Values α} {arms : List MatchArm} {r : Ty}

theorem exists_value (vals : Values α) {t : Ty} (h : t.Finite) : ∃ v, vals.HasTy t v := by
  induction h with
  | bool => exact ⟨.bool true, .bool true⟩
  | none => exact ⟨.none, .none⟩
  | @tuple ts _ ih =>
    suffices h : ∃ items, Forall₂ vals.HasTy ts items from h.imp' .tuple fun _ => .tuple
    clear * - ih
    induction ts with
    | nil => exact ⟨[], .nil⟩
    | cons t ts ihts =>
      obtain ⟨v, hv⟩ := ih t List.mem_cons_self
      obtain ⟨items, hitems⟩ := ihts fun t ht => ih t (List.mem_cons_of_mem _ ht)
      exact ⟨v :: items, .cons hv hitems⟩

theorem matches_of_isWild {arm : MatchArm} {v : Value α} (h : IsWild arm) : Fires vals arm v := by
  obtain ⟨⟨kind, span⟩, ids, guard, body, armSpan⟩ := arm
  obtain ⟨hguard, hwild⟩ := h
  refine ⟨hguard, ?_⟩
  cases kind with
  | wildcard => exact .wildcard
  | binding name d => exact .binding
  | _ => cases hwild

theorem fires_of_isLit {arm : MatchArm} {l : Lit} {v : Value α} (h : IsLit l arm)
    (hmatches : vals.Matches (.mk (.literal l) arm.pattern.span) v) : Fires vals arm v := by
  obtain ⟨⟨kind, span⟩, ids, guard, body, armSpan⟩ := arm
  obtain ⟨hguard, hkind⟩ := h
  obtain rfl : kind = .literal l := hkind
  exact ⟨hguard, hmatches⟩

theorem mem_plainArms_of_isWild {arm : MatchArm} (hmem : arm ∈ arms) (h : IsWild arm) : arm ∈ plainArms arms := by
  refine List.mem_filter.2 ⟨hmem, ?_⟩
  have hwild := h.2
  revert hwild
  cases arm.pattern.kind <;> simp [PatternKind.isWild, PatternKind.isPlain]

theorem covers_plainArms {arms : List MatchArm} (h : Covers vals (plainArms arms) r) : Covers vals arms r := by
  intro v hv
  obtain ⟨arm, hmem, hfires⟩ := h v hv
  exact ⟨arm, List.mem_of_mem_filter hmem, hfires⟩

/-- What a plain arm matches is anything, or its literal. -/
theorem plain_cases {arm : MatchArm} {v : Value α} (hmem : arm ∈ plainArms arms) (h : Fires vals arm v) :
    IsWild arm ∨ ∃ l, IsLit l arm ∧ vals.Matches (.mk (.literal l) arm.pattern.span) v := by
  obtain ⟨⟨kind, span⟩, ids, guard, body, armSpan⟩ := arm
  obtain ⟨hguard, hmatches⟩ := h
  have hplain := (List.mem_filter.1 hmem).2
  cases kind with
  | wildcard => exact .inl ⟨hguard, rfl⟩
  | binding name d => exact .inl ⟨hguard, rfl⟩
  | literal l => exact .inr ⟨l, ⟨hguard, rfl⟩, hmatches⟩
  | _ => cases hplain

/-- Plain arms cover a type of finitely many values where the verdict accepts them. -/
theorem covers_plainArms_iff (hfinite : r.Finite) :
    Covers vals (plainArms arms) r ↔ (∃ arm ∈ arms, IsWild arm) ∨
      (r = .bool ∧ (∃ arm ∈ arms, IsLit (.bool true) arm) ∧ ∃ arm ∈ arms, IsLit (.bool false) arm) ∨
      (r = .none ∧ ∃ arm ∈ arms, IsLit .none arm) := by
  have hmem {arm : MatchArm} (h : arm ∈ plainArms arms) : arm ∈ arms := List.mem_of_mem_filter h
  have hplain {arm : MatchArm} {l : Lit} (h : arm ∈ arms) (hl : IsLit l arm) : arm ∈ plainArms arms :=
    List.mem_filter.2 ⟨h, by rw [hl.2]; rfl⟩
  constructor
  · intro h
    cases hfinite with
    | bool =>
      have hlit (b : Bool) : (∃ arm ∈ arms, IsWild arm) ∨ ∃ arm ∈ arms, IsLit (.bool b) arm := by
        obtain ⟨arm, harm, hfires⟩ := h (.bool b) (.bool b)
        rcases plain_cases harm hfires with hwild | ⟨l, hl, hmatches⟩
        · exact .inl ⟨arm, hmem harm, hwild⟩
        · cases hmatches with
          | bool => exact .inr ⟨arm, hmem harm, hl⟩
          | structured hs => cases hs
      rcases hlit true with hwild | htrue
      · exact .inl hwild
      · exact (hlit false).imp id fun hfalse => .inl ⟨rfl, htrue, hfalse⟩
    | none =>
      obtain ⟨arm, harm, hfires⟩ := h .none .none
      rcases plain_cases harm hfires with hwild | ⟨l, hl, hmatches⟩
      · exact .inl ⟨arm, hmem harm, hwild⟩
      · cases hmatches with
        | none => exact .inr (.inr ⟨rfl, arm, hmem harm, hl⟩)
        | structured hs => cases hs
    | tuple hts =>
      obtain ⟨v, hv⟩ := exists_value vals (.tuple hts)
      obtain ⟨arm, harm, hfires⟩ := h v hv
      rcases plain_cases harm hfires with hwild | ⟨l, hl, hmatches⟩
      · exact .inl ⟨arm, hmem harm, hwild⟩
      · -- no literal is a tuple
        cases hv with
        | tuple _ => cases hmatches with | structured hs => cases hs
        | other hother => exact hother.elim
  · rintro (⟨arm, harm, hwild⟩ | ⟨rfl, ⟨t, ht, htrue⟩, f, hf, hfalse⟩ | ⟨rfl, arm, harm, hnone⟩) v hv
    · exact ⟨arm, mem_plainArms_of_isWild harm hwild, matches_of_isWild hwild⟩
    · cases hv with
      | bool b =>
        cases b with
        | true => exact ⟨t, hplain ht htrue, fires_of_isLit htrue .bool⟩
        | false => exact ⟨f, hplain hf hfalse, fires_of_isLit hfalse .bool⟩
      | other hother => exact hother.elim
    · cases hv with
      | none => exact ⟨arm, hplain harm hnone, fires_of_isLit hnone .none⟩
      | other hother => exact hother.elim

end Cover

section Exact

variable {checks : Checks} {flow : Flow} {fuel : Nat} {c c' : Ctx} {ty r : Ty} {arms : List MatchArm}
  {cov : Coverage} {scrutinee : Expr}

theorem accepts_iff (hac : Acyclic c.subst.get)
    (hcov : run fuel (matchCoverage checks flow scrutinee arms) c = some (.ok (ty, cov), c'))
    (hr : c'.subst.apply fuel ty = some r) :
    Accepts r cov ↔ (∃ arm ∈ arms, IsWild arm) ∨
      (r = .bool ∧ (∃ arm ∈ arms, IsLit (.bool true) arm) ∧ ∃ arm ∈ arms, IsLit (.bool false) arm) ∨
      (r = .none ∧ ∃ arm ∈ arms, IsLit .none arm) := by
  rw [matchCoverage] at hcov
  obtain ⟨_, c₁, hsynth, h₁⟩ := run_bind.1 hcov
  obtain ⟨ty', c₂, happly, h₂⟩ := run_bind.1 h₁
  obtain ⟨_, c₃, harms, h₃⟩ := run_bind.1 h₂
  obtain ⟨heq, rfl⟩ := run_pure.1 h₃
  cases heq
  obtain ⟨rfl, hlits⟩ := checkArms_ok ((grows hsynth).trans (grows happly) hac).1 harms
  have hlit {arm : MatchArm} {l : Lit} (harm : arm ∈ arms) (hl : IsLit l arm) : r = litType l ∨ r = .never :=
    hlits arm harm l hl.2 _ _ (.refl _) ⟨fuel, hr⟩
  have htext (l : Lit) (hty : r = litType l) (hinj : ∀ l', litType l' = litType l → litToString l' = litToString l → l' = l)
      (hne : litType l ≠ .never) :
      litToString l ∈ (coverageOf arms .none).coveredLits ↔ ∃ arm ∈ arms, IsLit l arm := by
    rw [mem_coveredLits_coverageOf]
    constructor
    · rintro (hnone | ⟨arm, harm, l', hl', heq⟩)
      · cases hnone
      · rcases hlit harm hl' with hl | hl
        · obtain rfl := hinj l' (hl.symm.trans hty) heq
          exact ⟨arm, harm, hl'⟩
        · exact absurd (hty.symm.trans hl) hne
    · rintro ⟨arm, harm, hl⟩
      exact .inr ⟨arm, harm, l, hl, rfl⟩
  have hbool (b : Bool) (l' : Lit) (hty : litType l' = .bool) (htext : litToString l' = litToString (.bool b)) :
      l' = .bool b := by
    cases l' with
    | bool b' =>
      revert htext
      cases b <;> cases b' <;> decide
    | _ => cases hty
  have hnone (l' : Lit) (hty : litType l' = .none) (_ : litToString l' = litToString .none) : l' = .none := by
    cases l' with
    | none => rfl
    | _ => cases hty
  unfold Accepts
  rw [hasWildcard_coverageOf]
  refine or_congr (or_iff_right Bool.false_ne_true)
    (or_congr (and_congr_right fun hty => and_congr ?_ ?_) (and_congr_right fun hty => ?_))
  · exact htext (.bool true) hty (hbool true) nofun
  · exact htext (.bool false) hty (hbool false) nofun
  · exact htext .none hty hnone nofun

/-- The verdict, for a match whose arms have been checked: on types of finitely many values it accepts exactly what
covers them, and on others only matches with an arm that matches everything, if and only if or-patterns and sequences
are not needed to cover the type. -/
theorem checkMatch_exact_iff {α : Type} (vals : Values α) {span : Span} (hac : Acyclic c.subst.get)
    (hcov : run fuel (matchCoverage checks flow scrutinee arms) c = some (.ok (ty, cov), c'))
    (hr : c'.subst.apply fuel ty = some r) :
    ((r.Finite → ((∃ c'', run fuel (checkMatch checks flow scrutinee arms span) c = some (.ok .falls, c'')) ↔
        Covers vals arms r)) ∧
      (¬ r.Finite → (∃ c'', run fuel (checkMatch checks flow scrutinee arms span) c = some (.ok .falls, c'')) →
        ∃ arm ∈ arms, ∀ v, vals.HasTy r v → Fires vals arm v)) ↔
      PlainSuffices vals arms r := by
  have hverdict : (∃ c'', run fuel (checkMatch checks flow scrutinee arms span) c = some (.ok .falls, c'')) ↔
      Accepts r cov := by
    rw [← matchVerdict_ok hr]
    refine exists_congr fun c'' => ?_
    rw [checkMatch, run_bind]
    constructor
    · rintro ⟨p, c₁, hrun, h⟩
      cases hrun.symm.trans hcov
      exact h
    · exact fun h => ⟨_, _, hcov, h⟩
  have haccepts := accepts_iff hac hcov hr
  rw [hverdict, haccepts]
  constructor
  · rintro ⟨hfinite, -⟩ hf hcovers
    exact (covers_plainArms_iff hf).2 ((hfinite hf).2 hcovers)
  · intro hsuffices
    refine ⟨fun hf => ?_, fun hf h => ?_⟩
    · have hplain : Covers vals (plainArms arms) r ↔ _ := covers_plainArms_iff hf
      rw [← hplain]
      exact ⟨covers_plainArms, hsuffices hf⟩
    · rcases h with ⟨arm, harm, hwild⟩ | ⟨rfl, -⟩ | ⟨rfl, -⟩
      · exact ⟨arm, harm, fun v _ => matches_of_isWild hwild⟩
      · exact absurd .bool hf
      · exact absurd .none hf

end Exact

/-! ## A match with an or-pattern -/

/-- Every expression is a bool. -/
def boolChecks : Checks where
  synthExpr _ _ := return .bool
  item _ _ := return ()

def emptyCtx : Ctx :=
  ⟨.new, ⟨0, .empty, ⟨.empty, .empty⟩⟩⟩

def boolPattern (b : Bool) : Pattern :=
  .mk (.literal (.bool b)) .synthetic

def flag : Expr :=
  .mk (.name ⟨"flag", 0, .param⟩) .synthetic

def passArm (pattern : Pattern) : MatchArm :=
  .mk pattern [] none (.mk [.mk .pass .synthetic] .synthetic) .synthetic

/-- No other values. -/
def onlyFinite : Values Empty where
  has _ _ := False
  literal _ _ := False
  structured _ _ := False

def bothArms : List MatchArm :=
  [passArm (boolPattern true), passArm (boolPattern false)]

def orArm : List MatchArm :=
  [passArm (.mk (.or [boolPattern true, boolPattern false]) .synthetic)]

theorem covers_bothArms : Covers onlyFinite bothArms .bool := by
  intro v hv
  cases hv with
  | bool b =>
    cases b with
    | true => exact ⟨_, List.mem_cons_self, rfl, .bool⟩
    | false => exact ⟨_, List.mem_cons_of_mem _ List.mem_cons_self, rfl, .bool⟩
  | other hother => exact hother.elim

/-- A match with an arm for `True` and an arm for `False`. -/
theorem match_bool_exact :
    (Ty.bool.Finite → ((∃ c'', run 5 (checkMatch boolChecks ⟨[], 0⟩ flag bothArms .synthetic) emptyCtx =
        some (.ok .falls, c'')) ↔ Covers onlyFinite bothArms .bool)) ∧
      (¬ Ty.bool.Finite → (∃ c'', run 5 (checkMatch boolChecks ⟨[], 0⟩ flag bothArms .synthetic) emptyCtx =
        some (.ok .falls, c'')) → ∃ arm ∈ bothArms, ∀ v, onlyFinite.HasTy .bool v → Fires onlyFinite arm v) :=
  have hcov : run 5 (matchCoverage boolChecks ⟨[], 0⟩ flag bothArms) emptyCtx =
      some (.ok (.bool, ⟨false, ["True", "False"]⟩), emptyCtx) := rfl
  (checkMatch_exact_iff onlyFinite acyclic_new hcov rfl).2 fun _ _ => covers_bothArms

/-- One arm with both literals covers the type, and is rejected. -/
theorem match_rejected :
    run 5 (checkMatch boolChecks ⟨[], 0⟩ flag orArm .synthetic) emptyCtx =
        some (.error (.nonExhaustiveMatch ["True", "False"] .synthetic
          (some "add the missing cases or a wildcard `_` arm")), emptyCtx) ∧
      Ty.bool.Finite ∧ Covers onlyFinite orArm .bool := by
  refine ⟨rfl, .bool, fun v hv => ?_⟩
  refine ⟨_, List.mem_cons_self, rfl, ?_⟩
  cases hv with
  | bool b =>
    cases b with
    | true => exact .or List.mem_cons_self .bool
    | false => exact .or (List.mem_cons_of_mem _ List.mem_cons_self) .bool
  | other hother => exact hother.elim

end Cobrust
