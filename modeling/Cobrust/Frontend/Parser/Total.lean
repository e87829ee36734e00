import Cobrust.Frontend.Parser.ForwardStmt
import Cobrust.Frontend.Parser.Pieces

/-!
# The parser returns

With levels enough the parser ends in a tree or an error, for every token list that ends with `Eof`, and on
its way the cursor only moves forward. The levels that a list takes are three for each of its tokens, on top
of those for the texts that its f-strings interpolate, which are shorter than the text of the f-string.

* `feeds_descent`: what one level does, by induction on the levels.
* `exists_levels`: a list has levels enough if each of its interpolations has.
-/

namespace Cobrust.Frontend.Parser

open Ast Control

variable {u : Unicode} {ov : Overflow} {toks : List Token}

@[simp] theorem descent_fuel (n : Nat) : (descent u ov n).fuel = n := by
  cases n <;> rfl

/-- The functions that go on at a level, by the levels they need above the ones below. -/
structure Climbs (toks : List Token) (base r n : Nat) (d : Descent) : Prop where
  pratt : base + 3 * r + 1 ≤ n → ∀ prec, Eats (reading toks) r (d.parsePratt prec)
  typeAtom : base + 3 * r + 1 ≤ n → Eats (reading toks) r d.parseTypeAtom
  pattern : base + 3 * r + 1 ≤ n → Eats (reading toks) r d.parsePatternSimple
  expr : base + 3 * r + 2 ≤ n → Eats (reading toks) r d.parseExpr
  type : base + 3 * r + 2 ≤ n → Eats (reading toks) r d.parseType
  stmt : base + 3 * r + 3 ≤ n → Eats (reading toks) r d.parseStmt

theorem climbs_descent (hends : EndsInEof toks) {base : Nat}
    (hsub : ∀ n, base ≤ n → ∀ s, Interpolates toks s → Subparses u ov (descent u ov n) s) (n r : Nat) :
    Climbs toks base r n (descent u ov n) := by
  induction n generalizing r with
  | zero => constructor <;> omega
  | succ n ih =>
    have hbelow (h : base + 3 * r ≤ n) : ∀ r' < r, Feeds toks r' (descent u ov n) := fun r' hr => by
      have hc := ih r'
      exact ⟨by rw [descent_fuel]; omega, hc.stmt (by omega), hc.expr (by omega), hc.pratt (by omega),
        hc.type (by omega), hc.typeAtom (by omega), hc.pattern (by omega)⟩
    have hturns (h : base + 3 * r ≤ n) : r ≤ (descent u ov n).fuel := by
      rw [descent_fuel]
      omega
    constructor
    · intro h prec
      exact eats_parsePratt hends (hbelow (by omega)) (hsub n (by omega)) prec
    · intro h
      exact eats_parseTypeAtom hends (hturns (by omega)) (hbelow (by omega))
    · intro h
      exact eats_parsePatternSimple hends (hbelow (by omega))
    · intro h
      exact eats_parseExpr hends ((ih r).pratt (by omega) 0) (hbelow (by omega))
    · intro h
      exact eats_parseType hends ((ih r).typeAtom (by omega)) (hbelow (by omega))
    · intro h
      exact eats_parseStmt hends (hbelow (by omega)) (hturns (by omega)) ((ih r).expr (by omega))

theorem feeds_descent (hends : EndsInEof toks) {base n r : Nat}
    (hsub : ∀ n, base ≤ n → ∀ s, Interpolates toks s → Subparses u ov (descent u ov n) s)
    (h : base + 3 * r + 3 ≤ n) : Feeds toks r (descent u ov n) := by
  have hc := climbs_descent hends hsub n r
  exact ⟨by rw [descent_fuel]; omega, hc.stmt h, hc.expr (by omega), hc.pratt (by omega), hc.type (by omega),
    hc.typeAtom (by omega), hc.pattern (by omega)⟩

/-- The sources that a token interpolates. -/
def interpolated (t : Token) : List Source :=
  match t.kind with
  | .fString pieces => pieces.filterMap fun
    | .lit _ => none
    | .expr source _ _ => some ⟨source, t.span.file⟩
  | _ => []

theorem mem_interpolated {s : Source} : s ∈ toks.flatMap interpolated ↔ Interpolates toks s := by
  rw [List.mem_flatMap]
  refine exists_congr fun t => and_congr_right fun _ => ?_
  unfold interpolated
  constructor
  · intro h
    split at h
    · next pieces hk =>
      obtain ⟨piece, hmem, hsome⟩ := List.mem_filterMap.1 h
      split at hsome
      · cases hsome
      · obtain rfl := Option.some.inj hsome
        exact ⟨rfl, pieces, hk, _, _, hmem⟩
    · exact absurd h List.not_mem_nil
  · rintro ⟨hfile, pieces, hk, b, f, hmem⟩
    rw [hk]
    refine List.mem_filterMap.2 ⟨_, hmem, ?_⟩
    dsimp only
    rw [← hfile]

/-- From some level on a parser of its own gets through the source. -/
def Readable (u : Unicode) (ov : Overflow) (s : Source) : Prop :=
  ∃ base, ∀ n, base ≤ n → Subparses u ov (descent u ov n) s

/-- One level is enough for all the sources of a list. -/
theorem exists_base (sources : List Source) (h : ∀ s ∈ sources, Readable u ov s) :
    ∃ base, ∀ n, base ≤ n → ∀ s ∈ sources, Subparses u ov (descent u ov n) s := by
  induction sources with
  | nil => exact ⟨0, fun _ _ _ hmem => absurd hmem List.not_mem_nil⟩
  | cons s rest ih =>
    obtain ⟨hfirst, hrest⟩ := List.forall_mem_cons.1 h
    obtain ⟨base, hbase⟩ := hfirst
    obtain ⟨base', hbase'⟩ := ih hrest
    refine ⟨max base base', fun n hn => List.forall_mem_cons.2 ⟨hbase n ?_, hbase' n ?_⟩⟩
    · exact (Nat.le_max_left _ _).trans hn
    · exact (Nat.le_max_right _ _).trans hn

/-- A list has levels enough if each of its interpolations has. -/
theorem exists_levels (hends : EndsInEof toks) (h : ∀ s, Interpolates toks s → Readable u ov s) :
    ∃ levels, ∀ n, levels ≤ n → Feeds toks (eofIndex toks) (descent u ov n) := by
  obtain ⟨base, hbase⟩ := exists_base (toks.flatMap interpolated) fun s hs => h s (mem_interpolated.1 hs)
  have hsub : ∀ n, base ≤ n → ∀ s, Interpolates toks s → Subparses u ov (descent u ov n) s :=
    fun n hn s hs => hbase n hn s (mem_interpolated.2 hs)
  exact ⟨base + 3 * eofIndex toks + 3, fun n hn => feeds_descent hends hsub hn⟩

theorem endsInEof_lex {s : Source} {out : List Token} (h : lex u ov s = .ok out) : EndsInEof out := by
  have hlex := Lexer.meets_lex s ov u
  rw [h] at hlex
  obtain ⟨st, hsteps, -, rfl⟩ := hlex
  obtain ⟨front, span, hout, -⟩ := (layoutSound_finish hsteps).eof
  rw [EndsInEof, hout, List.getLast?_concat]
  rfl

/-- Every source is readable, by induction on its length: its interpolations are shorter. -/
theorem readable (s : Source) : Readable u ov s := by
  induction hlen : s.text.length using Nat.strong_induction_on generalizing s with
  | _ len ih =>
    cases hlex : lex u ov s with
    | error e => exact ⟨0, fun _ _ out hout => nomatch hlex.symm.trans hout⟩
    | ok out =>
      have hshort : ∀ s', Interpolates out s' → Readable u ov s' := by
        rintro s' ⟨t, ht, -, pieces, hk, b, f, hmem⟩
        have hinside : s'.text.length < s.text.length := lex_inside hlex t ht pieces hk _ hmem
        exact ih s'.text.length (hlen ▸ hinside) s' rfl
      obtain ⟨levels, hlevels⟩ := exists_levels (endsInEof_lex hlex) hshort
      refine ⟨levels, fun n hn out' hout => ?_⟩
      obtain rfl := Except.ok.inj (hlex.symm.trans hout)
      exact (hlevels n hn).expr

/-- **The parser makes progress.** For every token list that ends with `Eof` it returns a tree or an error,
given enough levels: it does not run on, and reads no token that is not there. The cursor has only moved
forward and not past `Eof`, and every turn of a loop that another one has followed has consumed a token. -/
theorem parse_progresses (u : Unicode) (ov : Overflow) (toks : List Token) (hends : EndsInEof toks) :
    ∃ levels, ∀ fuel, levels ≤ fuel →
      match parse u ov fuel toks with
      | .ok _ p => Forward toks p
      | .error e p => e ≠ .fuel ∧ e ≠ .panic ∧ Forward toks p := by
  have henough : ∃ levels, ∀ n, levels ≤ n → Feeds toks (eofIndex toks) (descent u ov n) :=
    exists_levels hends fun s _ => readable s
  obtain ⟨levels, hlevels⟩ := henough
  refine ⟨levels, fun fuel hfuel => ?_⟩
  have hrun := fed_parseModule hends (hlevels fuel hfuel) (new toks) (forward_new toks) trivial (Nat.sub_le _ _)
  unfold parse
  cases hparse : parseModule (descent u ov fuel) (new toks) with
  | ok m p =>
    rw [hparse] at hrun
    exact hrun.1
  | error e p =>
    rw [hparse] at hrun
    exact ⟨hrun.2.2.1, hrun.2.2.2, hrun.1⟩

/-- The tokens of a line with a name. -/
def nameLine : List Token :=
  [⟨.ident ['x'], ⟨0, 0, 1⟩⟩, ⟨.newline, ⟨0, 1, 2⟩⟩, ⟨.eof, ⟨0, 2, 2⟩⟩]

theorem parse_nameLine :
    ∃ levels, ∀ fuel, levels ≤ fuel →
      match parse asciiTables .panics fuel nameLine with
      | .ok _ p => Forward nameLine p
      | .error e p => e ≠ .fuel ∧ e ≠ .panic ∧ Forward nameLine p :=
  parse_progresses asciiTables .panics nameLine rfl

end Cobrust.Frontend.Parser
