import Cobrust.Pit.App
import Mathlib.Data.List.Forall2

/-!
# Paths that patterns share

The parts of a path that a pattern accepts, the pattern of the paths that two patterns share, and paths that no
pattern accepts by chance.

* `matchPath_iff`: what a match captures.
* `accepts_meet`, `covers_of_accepts_generic`: the shared paths, and a path that stands for all of them.
-/

namespace Cobrust.Pit

namespace Segment

/-- The parts of paths that a segment accepts. -/
def Accepts : Segment → Text → Prop
  | literal l, part => l = part
  | param _, part => part ≠ []

/-- The segments accept a part in common. -/
def Meets : Segment → Segment → Prop
  | literal a, literal b => a = b
  | literal a, param _ => a ≠ []
  | param _, literal b => b ≠ []
  | param _, param _ => True

/-- The parts that both segments accept. -/
def meet : Segment → Segment → Segment
  | literal a, _ => literal a
  | param _, literal b => literal b
  | param name, param _ => param name

/-- The one segment accepts what the other one accepts. -/
def Covers : Segment → Segment → Prop
  | literal a, literal b => a = b
  | literal _, param _ => False
  | param _, literal b => b ≠ []
  | param _, param _ => True

def isLiteral : Segment → Bool
  | literal _ => true
  | param _ => false

end Segment

open List (Forall₂)

def captureNames : List Segment → List Text
  | [] => []
  | .literal _ :: segments => captureNames segments
  | .param name :: segments => name :: captureNames segments

/-- The parts of the path with the values in place of the captures. -/
def substitute : List Segment → List Text → List Text
  | .literal l :: segments, values => l :: substitute segments values
  | .param _ :: segments, value :: values => value :: substitute segments values
  | _, _ => []

/-- One value for each capture, without slashes and not empty. -/
structure Assigns (segments : List Segment) (values : List Text) : Prop where
  length : values.length = (captureNames segments).length
  value : ∀ v ∈ values, v ≠ [] ∧ '/' ∉ v

/-- The path of some parts. -/
def pathOf (parts : List Text) : Text :=
  '/' :: ['/'].intercalate parts

def literalCount (segments : List Segment) : Nat :=
  segments.countP Segment.isLiteral

variable {p q m : List Segment} {parts values : List Text} {params : List (Text × Text)}

theorem pathParts_pathOf (hne : parts ≠ []) (hslash : ∀ part ∈ parts, '/' ∉ part) :
    pathParts (pathOf parts) = parts := by
  have hpath : pathOf parts = ['/'].intercalate ([] :: parts) := by
    rw [List.intercalate_cons_of_ne_nil hne]
    rfl
  rw [pathParts, hpath, List.splitOn_intercalate '/' (List.forall_mem_cons.2 ⟨by simp, hslash⟩) (by simp)]
  rfl

/-- A match collects the captures behind one another. -/
theorem matchSegments_of_accepts (params : List (Text × Text)) (h : Forall₂ Segment.Accepts p parts) :
    ∃ values, values.length = (captureNames p).length ∧ substitute p values = parts ∧
      (∀ v ∈ values, v ≠ [] ∧ v ∈ parts) ∧
      matchSegments p parts params = some (((captureNames p).zip values).reverse ++ params) := by
  induction h generalizing params with
  | nil => exact ⟨[], rfl, rfl, by simp, rfl⟩
  | @cons s part p parts hs h ih =>
    cases s with
    | literal l =>
      obtain rfl : l = part := hs
      obtain ⟨values, hlen, hsub, hvalues, hmatch⟩ := ih params
      refine ⟨values, hlen, congrArg (l :: ·) hsub, ?_, ?_⟩
      · exact fun v hv => ⟨(hvalues v hv).1, List.mem_cons_of_mem _ (hvalues v hv).2⟩
      · rw [matchSegments, if_pos rfl, hmatch]
        rfl
    | param name =>
      have hne : part ≠ [] := hs
      obtain ⟨values, hlen, hsub, hvalues, hmatch⟩ := ih ((name, part) :: params)
      refine ⟨part :: values, congrArg (· + 1) hlen, congrArg (part :: ·) hsub, ?_, ?_⟩
      · refine List.forall_mem_cons.2 ⟨⟨hne, List.mem_cons_self⟩, fun v hv => ?_⟩
        exact ⟨(hvalues v hv).1, List.mem_cons_of_mem _ (hvalues v hv).2⟩
      · rw [matchSegments, if_neg hne, hmatch]
        simp [captureNames]

theorem accepts_of_matchSegments (hlen : parts.length = p.length) (h : (matchSegments p parts params).isSome = true) :
    Forall₂ Segment.Accepts p parts := by
  induction p generalizing parts params with
  | nil =>
    obtain rfl := List.length_eq_zero_iff.1 hlen
    exact .nil
  | cons s p ih =>
    cases parts with
    | nil => cases hlen
    | cons part parts =>
      have hrest : parts.length = p.length := Nat.succ.inj hlen
      cases s with
      | literal l =>
        rw [matchSegments] at h
        split at h
        · next heq => exact .cons heq (ih hrest h)
        · cases h
      | param name =>
        rw [matchSegments] at h
        split at h
        · cases h
        · next hne => exact .cons hne (ih hrest h)

theorem RoutePattern.isSome_matchPath {r : RoutePattern} {path : Text} :
    (r.matchPath path).isSome = true ↔ Forall₂ Segment.Accepts r.segments (pathParts path) := by
  unfold matchPath
  split
  · next hlen =>
    refine ⟨accepts_of_matchSegments hlen, fun h => ?_⟩
    obtain ⟨values, -, -, -, hmatch⟩ := matchSegments_of_accepts [] h
    rw [hmatch]
    rfl
  · next hlen => exact iff_of_false (by simp) fun h => hlen h.length_eq.symm

/-- The values of an assignment are those of the match. -/
theorem accepts_substitute (h : Assigns p values) : Forall₂ Segment.Accepts p (substitute p values) := by
  obtain ⟨hlen, hvalue⟩ := h
  induction p generalizing values with
  | nil => exact .nil
  | cons s p ih =>
    cases s with
    | literal l => exact .cons rfl (ih hlen hvalue)
    | param name =>
      cases values with
      | nil => cases hlen
      | cons v values =>
        exact .cons (hvalue v List.mem_cons_self).1
          (ih (Nat.succ.inj hlen) fun v hv => hvalue v (List.mem_cons_of_mem _ hv))

theorem substitute_injective {values' : List Text} (hlen : values.length = (captureNames p).length)
    (hlen' : values'.length = (captureNames p).length) (h : substitute p values = substitute p values') :
    values = values' := by
  induction p generalizing values values' with
  | nil =>
    rw [List.length_eq_zero_iff.1 hlen, List.length_eq_zero_iff.1 hlen']
  | cons s p ih =>
    cases s with
    | literal l => exact ih hlen hlen' (List.cons.inj h).2
    | param name =>
      cases values with
      | nil => cases hlen
      | cons v values =>
        cases values' with
        | nil => cases hlen'
        | cons v' values' =>
          obtain ⟨rfl, hrest⟩ := List.cons.inj h
          rw [ih (Nat.succ.inj hlen) (Nat.succ.inj hlen') hrest]

/-- A path that both patterns accept is one that their common pattern accepts. -/
theorem accepts_meet (hp : Forall₂ Segment.Accepts p parts) (hq : Forall₂ Segment.Accepts q parts) :
    Forall₂ Segment.Meets p q ∧ Forall₂ Segment.Accepts (List.zipWith Segment.meet p q) parts := by
  induction hp generalizing q with
  | nil =>
    cases hq
    exact ⟨.nil, .nil⟩
  | @cons s part p parts hs _ ih =>
    cases hq with
    | @cons t _ q _ ht hq =>
      obtain ⟨hmeets, haccepts⟩ := ih hq
      refine ⟨.cons ?_ hmeets, .cons ?_ haccepts⟩
      · cases s <;> cases t <;> simp_all [Segment.Accepts, Segment.Meets]
      · cases s <;> cases t <;> simp_all [Segment.Accepts, Segment.meet]

theorem accepts_of_covers (hcovers : Forall₂ Segment.Covers m p) (h : Forall₂ Segment.Accepts p parts) :
    Forall₂ Segment.Accepts m parts := by
  induction hcovers generalizing parts with
  | nil => exact h
  | @cons s t m p hs _ ih =>
    cases h with
    | @cons _ part _ parts ht h =>
      refine .cons ?_ (ih h)
      cases s <;> cases t <;> simp_all [Segment.Accepts, Segment.Covers]

/-- Patterns that share a path cover what they share. -/
theorem covers_meet (h : Forall₂ Segment.Meets p q) :
    Forall₂ Segment.Covers p (List.zipWith Segment.meet p q) ∧
      Forall₂ Segment.Covers q (List.zipWith Segment.meet p q) := by
  induction h with
  | nil => exact ⟨.nil, .nil⟩
  | @cons s t p q hs _ ih =>
    refine ⟨.cons ?_ ih.1, .cons ?_ ih.2⟩ <;>
      cases s <;> cases t <;> simp_all [Segment.Meets, Segment.Covers, Segment.meet]

theorem literalCount_le_of_covers (h : Forall₂ Segment.Covers m p) : literalCount m ≤ literalCount p := by
  induction h with
  | nil => exact Nat.le_refl _
  | @cons s t m p hs _ ih =>
    unfold literalCount at ih ⊢
    rw [List.countP_cons, List.countP_cons]
    cases s <;> cases t <;> simp_all [Segment.Covers, Segment.isLiteral] <;> omega

/-! ## A path that stands for all of a pattern -/

/-- A part that is longer than all literals. -/
def fresh (n : Nat) : Text :=
  List.replicate (n + 1) 'x'

/-- The parts of a path with parts for the captures that are longer than `n` and grow. -/
def generic : Nat → List Segment → List Text
  | n, .literal l :: segments => l :: generic n segments
  | n, .param _ :: segments => fresh n :: generic (n + 1) segments
  | _, [] => []

/-- No literal is longer than `n`. -/
def Within (n : Nat) (segments : List Segment) : Prop :=
  ∀ l, Segment.literal l ∈ segments → l.length ≤ n

theorem fresh_ne_nil (n : Nat) : fresh n ≠ [] := by
  simp [fresh]

theorem length_fresh (n : Nat) : (fresh n).length = n + 1 :=
  List.length_replicate

theorem accepts_generic (n : Nat) (p : List Segment) : Forall₂ Segment.Accepts p (generic n p) := by
  induction p generalizing n with
  | nil => exact .nil
  | cons s p ih =>
    cases s with
    | literal l => exact .cons rfl (ih n)
    | param name => exact .cons (fresh_ne_nil n) (ih (n + 1))

/-- A pattern with literals of the given length accepts the path only if it accepts all paths. -/
theorem covers_of_accepts_generic {n : Nat} (hm : Within n m) (h : Forall₂ Segment.Accepts m (generic n p)) :
    Forall₂ Segment.Covers m p := by
  induction p generalizing n m with
  | nil =>
    cases h
    exact .nil
  | cons t p ih =>
    cases t with
    | literal l =>
      cases h with
      | @cons s _ m _ hs h =>
        refine .cons ?_ (ih (fun l hl => hm l (List.mem_cons_of_mem _ hl)) h)
        cases s <;> exact hs
    | param name =>
      cases h with
      | @cons s _ m _ hs h =>
        refine .cons ?_ (ih (fun l hl => Nat.le_succ_of_le (hm l (List.mem_cons_of_mem _ hl))) h)
        cases s with
        | param name' => trivial
        | literal l =>
          have hlen := hm l List.mem_cons_self
          rw [show l = fresh n from hs, length_fresh] at hlen
          omega

/-- The captured parts grow, so no two of them are the same. -/
theorem generic_values {n : Nat} (hlen : values.length = (captureNames p).length)
    (h : substitute p values = generic n p) : values.Nodup ∧ ∀ v ∈ values, n < v.length := by
  induction p generalizing n values with
  | nil =>
    rw [List.length_eq_zero_iff.1 hlen]
    simp
  | cons s p ih =>
    cases s with
    | literal l => exact ih hlen (List.cons.inj h).2
    | param name =>
      cases values with
      | nil => cases hlen
      | cons v values =>
        obtain ⟨rfl, hrest⟩ := List.cons.inj h
        obtain ⟨hnodup, hlong⟩ := ih (Nat.succ.inj hlen) hrest
        refine ⟨List.nodup_cons.2 ⟨fun hmem => ?_, hnodup⟩, ?_⟩
        · have hlt := hlong _ hmem
          rw [length_fresh] at hlt
          omega
        · refine List.forall_mem_cons.2 ⟨by rw [length_fresh]; omega, fun v hv => ?_⟩
          exact Nat.lt_of_succ_lt (hlong v hv)

theorem slash_not_mem_generic {n : Nat} (hp : ∀ l, Segment.literal l ∈ p → '/' ∉ l) :
    ∀ part ∈ generic n p, '/' ∉ part := by
  induction p generalizing n with
  | nil => simp [generic]
  | cons s p ih =>
    have hrest := fun l hl => hp l (List.mem_cons_of_mem _ hl)
    cases s with
    | literal l => exact List.forall_mem_cons.2 ⟨hp l List.mem_cons_self, ih hrest⟩
    | param name => exact List.forall_mem_cons.2 ⟨by simp [fresh], ih hrest⟩

/-- The parts of a path that the pattern accepts are those of an assignment. -/
theorem exists_assigns (h : Forall₂ Segment.Accepts p parts) (hslash : ∀ part ∈ parts, '/' ∉ part) :
    ∃ values, Assigns p values ∧ substitute p values = parts := by
  obtain ⟨values, hlen, hsub, hvalues, -⟩ := matchSegments_of_accepts [] h
  exact ⟨values, ⟨hlen, fun v hv => ⟨(hvalues v hv).1, hslash v (hvalues v hv).2⟩⟩, hsub⟩

/-- A name that occurs twice stands for two different values. -/
theorem exists_lost {names : List Text} (hnames : ¬ names.Nodup) (hlen : values.length = names.length)
    (hvalues : values.Nodup) : ∃ name v v', v ≠ v' ∧ (name, v) ∈ names.zip values ∧ (name, v') ∈ names.zip values := by
  induction names generalizing values with
  | nil => exact absurd List.nodup_nil hnames
  | cons name names ih =>
    cases values with
    | nil => cases hlen
    | cons v values =>
      have hrest : values.length = names.length := Nat.succ.inj hlen
      obtain ⟨hv, hvalues⟩ := List.nodup_cons.1 hvalues
      by_cases hmem : name ∈ names
      · obtain ⟨i, hi, rfl⟩ := List.getElem_of_mem hmem
        have hpair : (names[i], values[i]) ∈ names.zip values :=
          List.mem_iff_getElem.2 ⟨i, by simp [hrest, hi], List.getElem_zip⟩
        refine ⟨names[i], v, values[i], ?_, List.mem_cons_self, List.mem_cons_of_mem _ hpair⟩
        exact fun heq => hv (heq ▸ List.getElem_mem (hrest ▸ hi))
      · have hdup : ¬ names.Nodup := fun h => hnames (List.nodup_cons.2 ⟨hmem, h⟩)
        obtain ⟨other, w, w', hne, hw, hw'⟩ := ih hdup hrest hvalues
        exact ⟨other, w, w', hne, List.mem_cons_of_mem _ hw, List.mem_cons_of_mem _ hw'⟩

end Cobrust.Pit
