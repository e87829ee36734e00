import Cobrust.Frontend.Parser.Operators
import Cobrust.Frontend.Parser.Total

/-!
# Operators by precedence

The parser reads an expression of operators, written with the parentheses that the table asks for, as that expression.

* `parseExpr_kinds`: that is so whatever stands behind the expression, unless it goes on with it.
* `other_target`: a cast to a type whose name is not known behind `as`.
-/

namespace Cobrust.Frontend.Parser

open Ast Control

variable {u : Unicode} {ov : Overflow} {d : Descent} {k : TokenKind} {ks rest : List TokenKind} {depth : Nat}

/-! ## What may follow -/

/-- A kind behind which an atom goes on. -/
def goesOnAtom : TokenKind → Bool
  | .lParen | .dot | .lBracket | .walrus => true
  | _ => false

/-- How tight the kinds ahead bind an operand before them. -/
def bindingOf : List TokenKind → Option Nat
  | [] => none
  | k :: ks =>
    if k = .kwAs ∧ isCastTypeToken (ks.headD k) then some precCast
    else (binopOf k (ks.headD k)).map fun b => b.2.1

/-- What may follow an expression: nothing that its last operand would take. -/
structure Follows (limit : Nat) (endsInType : Prop) (rest : List TokenKind) : Prop where
  head : ∃ k ks, rest = k :: ks ∧ goesOnAtom k = false ∧ (endsInType → k ≠ .pipe)
  binds : ∀ prec, bindingOf rest = some prec → prec < limit

theorem binopOf_kinds {op : BinOp} (hop : op ≠ .notIn) : ∃ k, op.kinds = [k] ∧ goesOnAtom k = false ∧ k ≠ .kwAs ∧
    (k = .pipe → op = .bitOr) ∧ ∀ next, binopOf k next = some (op, op.prec, op.rightAssoc) := by
  cases op with
  | notIn => exact absurd rfl hop
  | _ => exact ⟨_, rfl, rfl, by decide, by decide, fun _ => rfl⟩

end Cobrust.Frontend.Parser

namespace Cobrust.Frontend

theorem Ast.UnaryOp.prec_pos (op : Ast.UnaryOp) : 0 < op.prec := by
  cases op <;> decide

theorem Ast.BinOp.prec_pos (op : Ast.BinOp) : 0 < op.prec := by
  cases op <;> decide

theorem Ast.BinOp.rightMin_cases (op : Ast.BinOp) :
    op.rightMin = op.prec + 1 ∨ op.prec = 95 ∧ op.rightMin = 95 := by
  cases op <;> decide

namespace OpTree

open Ast Parser

/-- Operators that bind less than this do not go on with the last operand. -/
def limit : OpTree → Nat
  | .atom _ => 200
  | .paren _ => 200
  | .unary op operand => min op.prec (if operand.prec < op.prec then 200 else operand.limit)
  | .binary op _ rhs => min op.rightMin (if rhs.prec < op.rightMin then 200 else rhs.limit)
  | .cast _ _ => 200
  | .ternary _ _ _ => 0

/-- A left operand that needs no parentheses before an operator stops there. -/
theorem lt_limit {p m : Nat} (hp : p ≤ m) (hpos : 0 < p) (hle : p ≤ 95) (hnot : p ≠ 50) (hpow : p = 95 → 96 ≤ m)
    (t : OpTree) (h : m ≤ t.prec) : p < t.limit := by
  induction t with
  | atom a => exact Nat.lt_of_le_of_lt hle (show 95 < 200 by decide)
  | paren inner _ => exact Nat.lt_of_le_of_lt hle (show 95 < 200 by decide)
  | cast operand target _ => exact Nat.lt_of_le_of_lt hle (show 95 < 200 by decide)
  | ternary thenBranch cond elseBranch _ _ _ => exact absurd (hpos.trans_le (hp.trans h)) (Nat.lt_irrefl 0)
  | unary op operand ih =>
    have hop : p < op.prec := by
      rw [prec] at h
      cases op <;> simp only [UnaryOp.prec] at h ⊢ <;> omega
    refine Nat.lt_min.2 ⟨hop, ?_⟩
    split
    · omega
    · next hge => exact ih (h.trans (Nat.le_of_not_lt hge))
  | binary op lhs rhs _ ih =>
    rw [prec] at h
    have hop : p < op.rightMin ∧ op.prec ≤ op.rightMin := by
      rcases op.rightMin_cases with heq | ⟨hprec, heq⟩ <;> omega
    refine Nat.lt_min.2 ⟨hop.1, ?_⟩
    split
    · omega
    · next hge => exact ih (h.trans (hop.2.trans (Nat.le_of_not_lt hge)))

theorem Denotes.respan {t : OpTree} {e : Expr} (h : Denotes t e) (span : Span) : Denotes t (.mk e.kind span) := by
  cases h with
  | atom a _ => exact .atom a span
  | paren h => exact .paren h
  | unary h => exact .unary h
  | binary hl hr => exact .binary hl hr
  | cast h ht => exact .cast h ht
  | ternary ht hc he => exact .ternary ht hc he

/-- An expression begins with a token, and not with one that closes it. -/
theorem kinds_cons (t : OpTree) : ∃ k ks, t.kinds = k :: ks ∧ k ≠ .rParen := by
  have hparens : ∀ (needed : Prop) [Decidable needed] (ks : List TokenKind), (∃ k ks', ks = k :: ks' ∧ k ≠ .rParen) →
      ∀ rest, ∃ k ks', parens needed ks ++ rest = k :: ks' ∧ k ≠ .rParen := by
    rintro needed _ _ ⟨k, ks', rfl, hk⟩ rest
    unfold parens
    split
    · exact ⟨_, _, rfl, by decide⟩
    · exact ⟨_, _, rfl, hk⟩
  induction t with
  | atom a =>
    refine ⟨a.kind, [], rfl, ?_⟩
    cases a with
    | bool b => cases b <;> exact fun h => by cases h
    | _ => exact fun h => by cases h
  | paren inner _ => exact ⟨_, _, rfl, by decide⟩
  | unary op operand _ => exact ⟨op.kind, _, rfl, by cases op <;> decide⟩
  | binary op lhs rhs ih _ => exact hparens _ _ ih _
  | cast operand target ih => exact hparens _ _ ih _
  | ternary thenBranch cond elseBranch ih _ _ => exact hparens _ _ ih _

end OpTree

end Cobrust.Frontend

namespace Cobrust.Frontend.Parser

open Ast Control

variable {u : Unicode} {ov : Overflow} {d : Descent} {α β : Type} {k k' : TokenKind} {ks rest : List TokenKind}
  {depth m : Nat}

theorem gives_peekBinop {f : Option (BinOp × Nat × Bool) → ParserM β} {R : β → Parser → Prop}
    (hf : Gives (Ahead (k :: ks) depth) (f (binopOf k (ks.headD k))) R) :
    Gives (Ahead (k :: ks) depth) (peekBinop >>= f) R :=
  .look (S := fun o => o = binopOf k (ks.headD k))
    (fun _ h => ⟨_, (bind_of_ok (peekKind_eq h)).trans (bind_of_ok (peekAt_eq h)), rfl⟩) fun _ ho => ho ▸ hf

theorem prattTurn_done {e : Expr} (h : ∀ prec, bindingOf (k :: ks) = some prec → prec < m) :
    Gives (Ahead (k :: ks) depth) (prattTurn d m e) fun t p => ∃ r, t = .done r ∧ r = e ∧ Ahead (k :: ks) depth p := by
  refine gives_peekKind (gives_peekAt ?_)
  rw [bindingOf] at h
  split
  · next hcast =>
    rw [if_pos ⟨hcast.1, hcast.2.2⟩] at h
    exact absurd (h _ rfl) (Nat.not_lt.2 hcast.2.1)
  · refine gives_peekBinop ?_
    cases hop : binopOf k (ks.headD k) with
    | none => exact .pure fun p hp => ⟨e, rfl, rfl, hp⟩
    | some o =>
      obtain ⟨op, prec, rightAssoc⟩ := o
      have hk : ¬ (k = .kwAs ∧ isCastTypeToken (ks.headD k) = true) := by
        rintro ⟨rfl, -⟩
        cases hop
      rw [if_neg hk, hop] at h
      dsimp only
      rw [if_pos (h prec rfl)]
      exact .pure fun p hp => ⟨e, rfl, rfl, hp⟩

theorem prattTurn_operator {op : BinOp} {l : Expr} {Q : Expr → Prop}
    (hop : ∀ next, binopOf k next = some (op, op.prec, op.rightAssoc)) (hmin : m ≤ op.prec)
    (hrhs : Gives (Ahead (k' :: ks) depth) (d.parsePratt op.rightMin) fun r p => Q r ∧ Ahead rest depth p) :
    Gives (Ahead (k :: k' :: ks) depth) (prattTurn d m l) fun t p =>
      ∃ e, t = .again e ∧ (∃ r span, e = .mk (.binary op l r) span ∧ Q r) ∧ Ahead rest depth p := by
  refine gives_peekKind (gives_peekAt ?_)
  have hk : k ≠ .kwAs := by
    rintro rfl
    cases hop .eof
  rw [if_neg (fun h => hk h.1)]
  refine gives_peekBinop ?_
  rw [hop]
  dsimp only
  rw [if_neg (Nat.not_lt.2 hmin)]
  exact gives_bumpBind fun _ => hrhs.bind fun r => .pure fun p hp => ⟨_, rfl, ⟨r, _, rfl, hp.1⟩, hp.2⟩

theorem prattTurn_cast {l : Expr} {Q : TypeExpr → Prop} (hmin : m ≤ 88) (hword : isCastTypeToken k = true)
    (htype : Gives (Ahead (k :: ks) depth) d.parseType fun type p => Q type ∧ Ahead rest depth p) :
    Gives (Ahead (.kwAs :: k :: ks) depth) (prattTurn d m l) fun t p =>
      ∃ e, t = .again e ∧ (∃ type span, e = .mk (.cast l type) span ∧ Q type) ∧ Ahead rest depth p := by
  refine gives_peekKind (gives_peekAt ?_)
  rw [if_pos ⟨rfl, hmin, hword⟩]
  exact gives_bumpBind fun _ => htype.bind fun type => .pure fun p hp => ⟨_, rfl, ⟨type, _, rfl, hp.1⟩, hp.2⟩

/-- Behind an atom the chain of postfixes ends at once. -/
theorem gives_parsePostfix {Q : Expr → Prop} (hk : goesOnAtom k = false)
    (hatom : Gives (Ahead rest depth) (parseAtom d u ov) fun e p => Q e ∧ Ahead (k :: ks) depth p) :
    Gives (Ahead rest depth) (parsePostfix d u ov) fun e p => Q e ∧ Ahead (k :: ks) depth p := by
  refine (Reaches.start hatom).done (Nat.succ_pos d.fuel) fun e => .assuming fun he => ?_
  refine gives_peekKind ?_
  split
  · cases hk
  · cases hk
  · cases hk
  · exact .pure fun p hp => ⟨e, rfl, he, hp⟩

theorem gives_atom (a : Atom) (hk : goesOnAtom k = false) : Gives (Ahead (a.kind :: k :: ks) depth) (parseUnary d u ov)
    fun e p => (OpTree.atom a).Denotes e ∧ Ahead (k :: ks) depth p := by
  have hliteral : ∀ (t : Token) (lit : Ast.Literal), .literal lit = a.expr →
      Gives (Ahead (a.kind :: k :: ks) depth) (parseLiteralAtom t lit) fun e p =>
        (OpTree.atom a).Denotes e ∧ Ahead (k :: ks) depth p :=
    fun t lit hlit => gives_bumpBind fun _ => .pure fun p hp => ⟨hlit ▸ .atom a t.span, hp⟩
  have hatom : Gives (Ahead (a.kind :: k :: ks) depth) (parseAtom d u ov) fun e p =>
      (OpTree.atom a).Denotes e ∧ Ahead (k :: ks) depth p := by
    refine gives_peek fun t ht => ?_
    rw [ht]
    cases a with
    | name s =>
      refine gives_bumpBind fun _ => gives_peek fun next hnext => ?_
      rw [if_neg (by rw [hnext]; rintro rfl; cases hk)]
      exact .pure fun p hp => ⟨.atom (.name s) t.span, hp⟩
    | bool b => cases b <;> exact hliteral t _ rfl
    | _ => exact hliteral t _ rfl
  refine gives_peek fun t ht => ?_
  rw [ht]
  cases a with
  | bool b => cases b <;> exact gives_parsePostfix hk hatom
  | _ => exact gives_parsePostfix hk hatom

theorem gives_parens {t : OpTree} (hk : goesOnAtom k = false) (hdepth : depth < maxDepth)
    (hexpr : Gives (Ahead (t.kinds ++ .rParen :: k :: ks) (depth + 1)) d.parseExpr fun e p =>
      t.Denotes e ∧ Ahead (.rParen :: k :: ks) (depth + 1) p) :
    Gives (Ahead (.lParen :: (t.kinds ++ .rParen :: k :: ks)) depth) (parseUnary d u ov) fun e p =>
      (∃ e' span, e = .mk (Expr.kind e') span ∧ t.Denotes e') ∧ Ahead (k :: ks) depth p := by
  refine gives_peek fun tok htok => ?_
  rw [htok]
  refine gives_parsePostfix hk (gives_peek fun tok htok => ?_)
  rw [htok]
  obtain ⟨first, more, hkinds, hfirst⟩ := t.kinds_cons
  refine gives_deeper hdepth (gives_currentSpan fun start => ?_)
  rw [hkinds] at hexpr ⊢
  refine gives_expect.bind fun _ => gives_peekKind ?_
  rw [if_neg hfirst]
  refine hexpr.bind fun e => .assuming fun he => gives_peekKind ?_
  rw [if_neg (by decide)]
  refine gives_notEat (by decide) ?_
  rw [if_neg (by decide)]
  refine gives_currentSpan fun stop => gives_expect.bind fun _ => .pure fun p hp => ?_
  exact ⟨⟨e, _, rfl, he⟩, hp⟩

end Cobrust.Frontend.Parser

namespace Cobrust.Frontend.OpTree

open Ast Parser Control

variable {u : Unicode} {ov : Overflow} {t : OpTree} {rest : List TokenKind} {depth m min : Nat}

/-! ## Trees -/

/-- The levels that an operand takes where it has to bind with `m`. -/
def operandLevels (m : Nat) (t : OpTree) : Nat :=
  if t.prec < m then t.levels + 2 else t.levels

section Reading

variable (u : Unicode) (ov : Overflow)

/-- The loop over operators gets behind the tokens of the tree. -/
def IsSpine (t : OpTree) : Prop :=
  ∀ min depth rest, min ≤ t.prec → 0 < t.prec → depth + t.levels ≤ maxDepth → Follows t.limit t.endsInType rest →
    ∃ levels c, ∀ n, levels ≤ n → Reaches (parseUnary (descent u ov n) u ov) .fuel markTurn
      (prattTurn (descent u ov n) min) c (Ahead (t.kinds ++ rest) (depth + 1)) fun e p =>
        t.Denotes e ∧ Ahead rest (depth + 1) p

/-- What does not go on with an expression. -/
structure Stops (rest : List TokenKind) : Prop where
  head : ∃ k ks, rest = k :: ks ∧ goesOnAtom k = false ∧ k ≠ .kwIf
  binds : bindingOf rest = none

/-- The parser reads the tokens of the tree. -/
def IsExpr (t : OpTree) : Prop :=
  ∀ depth rest, depth + t.levels ≤ maxDepth → Stops rest → ∃ levels, ∀ n, levels ≤ n →
    Gives (Ahead (t.kinds ++ rest) depth) (descent u ov n).parseExpr fun e p => t.Denotes e ∧ Ahead rest depth p

end Reading

theorem levels_pos (t : OpTree) : 0 < t.levels := by
  induction t with
  | atom a => exact Nat.one_pos
  | paren inner _ => exact Nat.succ_pos _
  | unary op operand _ => exact Nat.succ_pos _
  | binary op lhs rhs _ _ => exact Nat.lt_of_lt_of_le (Nat.succ_pos _) (Nat.le_max_right _ _)
  | cast operand target ih =>
    rw [levels]
    split
    · exact Nat.succ_pos _
    · exact ih
  | ternary thenBranch cond elseBranch _ _ ih =>
    exact Nat.lt_of_lt_of_le ih ((Nat.le_max_right _ _).trans (Nat.le_max_right _ _))

theorem stops_rParen (rest : List TokenKind) : Stops (.rParen :: rest) :=
  ⟨⟨_, _, rfl, rfl, by decide⟩, by rw [bindingOf, if_neg (by simp)]; rfl⟩

/-- An operand, in parentheses where it binds too loose. -/
theorem reaches_operand (depth : Nat) (hspine : IsSpine u ov t) (hexpr : IsExpr u ov t) (hmin : min ≤ m)
    (hpos : ¬ t.prec < m → 0 < t.prec) (hlevels : depth + operandLevels m t ≤ maxDepth)
    (hrest : Follows (if t.prec < m then 200 else t.limit) (¬ t.prec < m ∧ t.endsInType) rest) :
    ∃ levels c, ∀ n, levels ≤ n → Reaches (parseUnary (descent u ov n) u ov) .fuel markTurn
      (prattTurn (descent u ov n) min) c (Ahead (parens (t.prec < m) t.kinds ++ rest) (depth + 1)) fun e p =>
        t.Denotes e ∧ Ahead rest (depth + 1) p := by
  by_cases hm : t.prec < m
  · rw [operandLevels, if_pos hm] at hlevels
    obtain ⟨k, ks, rfl, hk, -⟩ := hrest.head
    obtain ⟨levels, hread⟩ := hexpr (depth + 2) (.rParen :: k :: ks) (by omega) (stops_rParen _)
    refine ⟨levels, 0, fun n hn => (Reaches.start (gives_parens hk (by omega) (hread n hn))).mono ?_ ?_⟩
    · rw [parens, if_pos hm, List.cons_append, List.append_assoc]
      exact fun _ h => h
    · rintro _ p ⟨⟨e, span, rfl, he⟩, hp⟩
      exact ⟨he.respan span, hp⟩
  · rw [operandLevels, if_neg hm] at hlevels
    rw [if_neg hm] at hrest
    rw [parens, if_neg hm]
    exact hspine min depth rest (hmin.trans (Nat.le_of_not_lt hm)) (hpos hm) hlevels
      ⟨hrest.head.imp fun k => .imp fun ks h => ⟨h.1, h.2.1, fun hends => h.2.2 ⟨hm, hends⟩⟩, hrest.binds⟩

/-- The loop ends behind an operand that nothing ahead goes on with. -/
theorem gives_parsePratt {ks : List TokenKind} (hdepth : depth < maxDepth) (hhead : ∃ k ks, rest = k :: ks)
    (hreach : ∃ levels c, ∀ n, levels ≤ n → Reaches (parseUnary (descent u ov n) u ov) .fuel markTurn
      (prattTurn (descent u ov n) m) c (Ahead ks (depth + 1)) fun e p => t.Denotes e ∧ Ahead rest (depth + 1) p)
    (hbinds : ∀ prec, bindingOf rest = some prec → prec < m) :
    ∃ levels, ∀ n, levels ≤ n → Gives (Ahead ks depth) ((descent u ov n).parsePratt m) fun e p =>
      t.Denotes e ∧ Ahead rest depth p := by
  obtain ⟨levels, c, hreach⟩ := hreach
  obtain ⟨k, ks', rfl⟩ := hhead
  refine ⟨max levels (c + 1) + 1, fun n hn => ?_⟩
  obtain ⟨n, rfl⟩ := Nat.exists_eq_add_of_le' (Nat.le_of_add_left_le hn)
  refine gives_deeper hdepth ((hreach n (by omega)).done (by rw [descent_fuel]; omega) fun e => .assuming fun he => ?_)
  exact (prattTurn_done hbinds).mono (fun _ h => h) fun _ _ ⟨r, hr, heq, hp⟩ => ⟨r, hr, heq ▸ he, hp⟩

theorem gives_operand (depth : Nat) (hspine : IsSpine u ov t) (hexpr : IsExpr u ov t) (hmin : min ≤ m)
    (hpos : ¬ t.prec < m → 0 < t.prec) (hlevels : depth + operandLevels m t ≤ maxDepth)
    (hrest : Follows (if t.prec < m then 200 else t.limit) (¬ t.prec < m ∧ t.endsInType) rest)
    (hbinds : ∀ prec, bindingOf rest = some prec → prec < min) :
    ∃ levels, ∀ n, levels ≤ n → Gives (Ahead (parens (t.prec < m) t.kinds ++ rest) depth)
      ((descent u ov n).parsePratt min) fun e p => t.Denotes e ∧ Ahead rest depth p := by
  have hdepth : depth < maxDepth := by
    have := t.levels_pos
    rw [operandLevels] at hlevels
    split at hlevels <;> omega
  exact gives_parsePratt hdepth (hrest.head.imp fun _ => .imp fun _ h => h.1)
    (reaches_operand depth hspine hexpr hmin hpos hlevels hrest) hbinds

/-- A tree of an operator is an expression where nothing goes on with it. -/
theorem isExpr_of_isSpine (hspine : IsSpine u ov t) (hpos : 0 < t.prec) : IsExpr u ov t := by
  intro depth rest hlevels hstops
  obtain ⟨k, ks, rfl, hk, hif⟩ := hstops.head
  have hpipe : k ≠ .pipe := by
    rintro rfl
    cases hstops.binds
  have hnone : ∀ limit prec, bindingOf (k :: ks) = some prec → prec < limit := by
    intro _ _ h
    rw [hstops.binds] at h
    cases h
  have hdepth : depth < maxDepth := by
    have := t.levels_pos
    omega
  obtain ⟨levels, hpratt⟩ := gives_parsePratt (m := 0) hdepth ⟨k, ks, rfl⟩
    (hspine 0 depth (k :: ks) (Nat.zero_le _) hpos hlevels ⟨⟨k, ks, rfl, hk, fun _ => hpipe⟩, hnone _⟩) (hnone 0)
  refine ⟨levels + 1, fun n hn => ?_⟩
  obtain ⟨n, rfl⟩ := Nat.exists_eq_add_of_le' (Nat.le_of_add_left_le hn)
  refine (hpratt n (by omega)).bind fun e => .assuming fun he => gives_peekKind ?_
  rw [if_neg hif]
  exact .pure fun p hp => ⟨he, hp⟩

/-! ## Each kind of tree -/

theorem parens_cons (t : OpTree) (needed : Prop) [Decidable needed] (rest : List TokenKind) :
    ∃ k ks, parens needed t.kinds ++ rest = k :: ks := by
  obtain ⟨k, ks, hk, -⟩ := t.kinds_cons
  unfold parens
  split
  · exact ⟨_, _, rfl⟩
  · exact ⟨_, _, by rw [hk]; rfl⟩

theorem isSpine_atom (a : Atom) : IsSpine u ov (.atom a) := by
  intro min depth rest _ _ _ hrest
  obtain ⟨k, ks, rfl, hk, -⟩ := hrest.head
  exact ⟨0, 0, fun n _ => .start (gives_atom a hk)⟩

theorem isSpine_paren (hexpr : IsExpr u ov t) : IsSpine u ov (.paren t) := by
  intro min depth rest _ _ hlevels hrest
  obtain ⟨k, ks, rfl, hk, -⟩ := hrest.head
  rw [levels] at hlevels
  obtain ⟨levels, hread⟩ := hexpr (depth + 2) (.rParen :: k :: ks) (by omega) (stops_rParen _)
  refine ⟨levels, 0, fun n hn => (Reaches.start (gives_parens hk (by omega) (hread n hn))).mono ?_ ?_⟩
  · rw [kinds, List.cons_append, List.append_assoc]
    exact fun _ h => h
  · rintro _ p ⟨⟨⟨kind, _⟩, span, rfl, he⟩, hp⟩
    exact ⟨.paren he, hp⟩

theorem isSpine_unary (op : UnaryOp) (hspine : IsSpine u ov t) (hexpr : IsExpr u ov t) :
    IsSpine u ov (.unary op t) := by
  intro min depth rest _ _ hlevels hrest
  rw [levels] at hlevels
  have hpos : ¬ t.prec < op.prec → 0 < t.prec := by
    cases op <;> simp only [UnaryOp.prec] <;> omega
  have hfollows : Follows (if t.prec < op.prec then 200 else t.limit) (¬ t.prec < op.prec ∧ t.endsInType) rest :=
    ⟨hrest.head, fun prec h => (Nat.lt_min.1 (hrest.binds prec h)).2⟩
  obtain ⟨levels, hread⟩ := gives_operand (depth + 1) hspine hexpr (Nat.le_refl op.prec) hpos
    (by rw [operandLevels]; omega) hfollows fun prec h => (Nat.lt_min.1 (hrest.binds prec h)).1
  obtain ⟨k, ks, hkinds⟩ := parens_cons t (t.prec < op.prec) rest
  refine ⟨levels, 0, fun n hn => .start ?_⟩
  have hprefix : ∀ span build, build = ExprKind.unary op → Gives (Ahead (op.kind :: k :: ks) (depth + 1))
      (parsePrefix (descent u ov n) span op.prec build) fun e p =>
        (OpTree.unary op t).Denotes e ∧ Ahead rest (depth + 1) p := by
    rintro span build rfl
    refine gives_bumpBind fun _ => (hkinds ▸ hread n hn).bind fun e => .pure fun p hp => ?_
    exact ⟨.unary hp.1, hp.2⟩
  rw [kinds, List.cons_append, hkinds]
  refine gives_peek fun tok htok => ?_
  rw [htok]
  cases op <;> exact hprefix _ _ rfl

variable {lhs rhs : OpTree}

theorem isSpine_binary {op : BinOp} (hop : op ≠ .notIn)
    (htype : op = .bitOr → ¬ lhs.prec < op.leftMin → ¬ lhs.endsInType) (hl : IsSpine u ov lhs) (hl' : IsExpr u ov lhs)
    (hr : IsSpine u ov rhs) (hr' : IsExpr u ov rhs) : IsSpine u ov (.binary op lhs rhs) := by
  intro min depth rest hmin _ hlevels hrest
  rw [prec] at hmin
  rw [levels] at hlevels
  have hop' : op.prec ≤ op.leftMin ∧ 0 < op.prec ∧ op.prec ≤ 95 ∧ op.prec ≠ 50 ∧ (op.prec = 95 → 96 ≤ op.leftMin) ∧
      0 < op.rightMin := by
    cases op <;> decide
  obtain ⟨hle, hpos, hsmall, hnot, hpow, hright⟩ := hop'
  obtain ⟨k, hk, hatom, has, hpipe, hbin⟩ := binopOf_kinds hop
  obtain ⟨k', ks, hkinds⟩ := parens_cons rhs (rhs.prec < op.rightMin) rest
  have hbinding : ∀ prec, bindingOf (k :: k' :: ks) = some prec → prec = op.prec := by
    intro prec h
    rw [bindingOf, if_neg fun h => has h.1, hbin] at h
    exact (Option.some.inj h).symm
  have hlhs : Follows (if lhs.prec < op.leftMin then 200 else lhs.limit) (¬ lhs.prec < op.leftMin ∧ lhs.endsInType)
      (k :: k' :: ks) := by
    refine ⟨⟨k, _, rfl, hatom, fun hends heq => htype (hpipe heq) hends.1 hends.2⟩, fun prec h => ?_⟩
    rw [hbinding prec h]
    split
    · omega
    · next hge => exact lt_limit hle hpos hsmall hnot hpow lhs (Nat.le_of_not_lt hge)
  obtain ⟨levels, c, hreach⟩ := reaches_operand depth hl hl' (hmin.trans hle) (fun hge => by omega)
    (by rw [operandLevels]; omega) hlhs
  obtain ⟨levels', hread⟩ := gives_operand (depth + 1) hr hr' (Nat.le_refl op.rightMin)
    (fun hge => by omega) (by rw [operandLevels]; omega)
    ⟨hrest.head, fun prec h => (Nat.lt_min.1 (hrest.binds prec h)).2⟩ fun prec h => (Nat.lt_min.1 (hrest.binds prec h)).1
  refine ⟨max levels levels', c + 1, fun n hn => ?_⟩
  refine ((hreach n (by omega)).again (fun e => .assuming fun he => ?_) fun b _ _ h => ⟨h.1, h.2.markTurn⟩).mono ?_
    fun _ _ h => h
  · refine (prattTurn_operator hbin hmin (hkinds ▸ hread n (by omega))).mono (fun _ h => h) ?_
    rintro t p ⟨e', ht, ⟨r, span, rfl, hr⟩, hp⟩
    exact ⟨_, ht, .binary he hr, hp⟩
  · rw [kinds, hk, List.append_assoc, List.singleton_append, List.cons_append, hkinds]
    exact fun _ h => h

theorem isSpine_cast {target : CastTarget} (htarget : target.Supported u ov) (hspine : IsSpine u ov t)
    (hexpr : IsExpr u ov t) : IsSpine u ov (.cast t target) := by
  intro min depth rest hmin _ hlevels hrest
  rw [prec] at hmin
  rw [levels] at hlevels
  obtain ⟨word, ks, hword, hknown⟩ := htarget.word
  obtain ⟨k, ks', rfl, hk, hpipe⟩ := hrest.head
  obtain ⟨levels, hread⟩ := htarget.reads
  have hoperand : Follows (if t.prec < 88 then 200 else t.limit) (¬ t.prec < 88 ∧ t.endsInType)
      (.kwAs :: word :: (ks ++ k :: ks')) := by
    refine ⟨⟨_, _, rfl, rfl, fun _ => by decide⟩, fun prec h => ?_⟩
    rw [bindingOf, if_pos ⟨rfl, hknown⟩] at h
    obtain rfl := Option.some.inj h
    split
    · decide
    · next hge =>
      exact lt_limit (Nat.le_refl 88) (by decide) (by decide) (by decide) (by decide) t (Nat.le_of_not_lt hge)
  obtain ⟨levels', c, hreach⟩ := reaches_operand depth hspine hexpr hmin (fun hge => by omega)
    (by rw [operandLevels]; omega) hoperand
  have htype : goesOnType k = false := by
    have hpipe := hpipe trivial
    cases k <;> first | rfl | exact hk | exact absurd rfl hpipe
  refine ⟨max levels levels', c + 1, fun n hn => ?_⟩
  have hread := hread n (by omega) k ks' (depth + 1) htype
  rw [hword, List.cons_append] at hread
  refine ((hreach n (by omega)).again (fun e => .assuming fun he => ?_) fun b _ _ h => ⟨h.1, h.2.markTurn⟩).mono ?_
    fun _ _ h => h
  · refine (prattTurn_cast hmin hknown hread).mono (fun _ h => h) ?_
    rintro t p ⟨e', ht, ⟨type, span, rfl, htype⟩, hp⟩
    exact ⟨_, ht, .cast he htype, hp⟩
  · rw [kinds, hword, List.append_assoc, List.cons_append, List.cons_append]
    exact fun _ h => h

theorem follows_keyword {k : TokenKind} (limit : Nat) (endsInType : Prop) (ks : List TokenKind)
    (h : k = .kwIf ∨ k = .kwElse) : Follows limit endsInType (k :: ks) ∧ ∀ prec, bindingOf (k :: ks) ≠ some prec := by
  have hnone : ∀ prec, bindingOf (k :: ks) ≠ some prec := by
    rcases h with rfl | rfl <;> exact fun prec h => by simp [bindingOf, binopOf] at h
  refine ⟨⟨⟨k, ks, rfl, ?_⟩, fun prec h => absurd h (hnone prec)⟩, hnone⟩
  rcases h with rfl | rfl <;> exact ⟨rfl, fun _ => by decide⟩

theorem isExpr_ternary {thenBranch cond elseBranch : OpTree} (ht : IsSpine u ov thenBranch)
    (ht' : IsExpr u ov thenBranch) (hc : IsSpine u ov cond) (hc' : IsExpr u ov cond) (he : IsExpr u ov elseBranch) :
    IsExpr u ov (.ternary thenBranch cond elseBranch) := by
  intro depth rest hlevels hstops
  rw [levels] at hlevels
  obtain ⟨k, ks, hkinds, -⟩ := elseBranch.kinds_cons
  obtain ⟨k', ks', hcond⟩ := parens_cons cond (cond.prec < 1) (.kwElse :: k :: (ks ++ rest))
  obtain ⟨hif, hnoif⟩ := follows_keyword (if thenBranch.prec < 1 then 200 else thenBranch.limit)
    (¬ thenBranch.prec < 1 ∧ thenBranch.endsInType) (k' :: ks') (.inl rfl)
  obtain ⟨helse, hnoelse⟩ := follows_keyword (if cond.prec < 1 then 200 else cond.limit)
    (¬ cond.prec < 1 ∧ cond.endsInType) (k :: (ks ++ rest)) (.inr rfl)
  obtain ⟨n₁, hthen⟩ := gives_operand depth ht ht' (Nat.zero_le 1) (fun hge => by omega)
    (by rw [operandLevels]; omega) hif fun prec h => absurd h (hnoif prec)
  obtain ⟨n₂, hcond'⟩ := gives_operand depth hc hc' (Nat.zero_le 1) (fun hge => by omega)
    (by rw [operandLevels]; omega) helse fun prec h => absurd h (hnoelse prec)
  obtain ⟨n₃, helse'⟩ := he depth rest (by omega) hstops
  refine ⟨max n₁ (max n₂ n₃) + 1, fun n hn => ?_⟩
  obtain ⟨n, rfl⟩ := Nat.exists_eq_add_of_le' (Nat.le_of_add_left_le hn)
  have hthen := hthen n (by omega)
  have hcond' := hcond' n (by omega)
  have helse' := helse' n (by omega)
  rw [hcond] at hcond'
  rw [hkinds, List.cons_append] at helse'
  rw [kinds, List.append_assoc, List.cons_append, List.append_assoc, hkinds, List.cons_append, List.cons_append, hcond]
  refine hthen.bind fun e₁ => .assuming fun he₁ => gives_peekKind ?_
  rw [if_pos rfl]
  refine gives_bumpBind fun _ => hcond'.bind fun e₂ => .assuming fun he₂ => gives_expect.bind fun _ => ?_
  exact helse'.bind fun e₃ => .pure fun p hp => ⟨.ternary he₁ he₂ hp.1, hp.2⟩

/-- By induction on the tree, with what the loop and what the parser of expressions read. -/
theorem reads_of_supported (t : OpTree) (h : t.Supported u ov) : IsSpine u ov t ∧ IsExpr u ov t := by
  have hboth : ∀ {t : OpTree}, IsSpine u ov t → 0 < t.prec → IsSpine u ov t ∧ IsExpr u ov t :=
    fun hspine hpos => ⟨hspine, isExpr_of_isSpine hspine hpos⟩
  induction t with
  | atom a => exact hboth (isSpine_atom a) (Nat.succ_pos 109)
  | paren inner ih => exact hboth (isSpine_paren (ih h).2) (Nat.succ_pos 109)
  | unary op operand ih => exact hboth (isSpine_unary op (ih h).1 (ih h).2) op.prec_pos
  | binary op lhs rhs ihl ihr =>
    obtain ⟨hop, htype, hl, hr⟩ := h
    exact hboth (isSpine_binary hop htype (ihl hl).1 (ihl hl).2 (ihr hr).1 (ihr hr).2) op.prec_pos
  | cast operand target ih => exact hboth (isSpine_cast h.2 (ih h.1).1 (ih h.1).2) (Nat.succ_pos 87)
  | ternary thenBranch cond elseBranch iht ihc ihe =>
    obtain ⟨ht, hc, he⟩ := h
    refine ⟨fun _ _ _ _ hpos => absurd hpos (Nat.lt_irrefl 0), ?_⟩
    exact isExpr_ternary (iht ht).1 (iht ht).2 (ihc hc).1 (ihc hc).2 (ihe he).2

/-- **The parser agrees with the table.** It reads the tokens of every supported tree as that tree, and leaves what stands
behind them. -/
theorem parseExpr_kinds (t : OpTree) (hsupported : t.Supported u ov) (hlevels : t.levels ≤ maxDepth)
    (hstops : Stops rest) {toks : List Token} (htoks : toks.map Token.kind = t.kinds ++ rest) :
    ∃ levels, ∀ n, levels ≤ n → ∃ e p, (descent u ov n).parseExpr (new toks) = .ok e p ∧ t.Denotes e ∧
      Ahead rest 0 p := by
  obtain ⟨levels, hread⟩ := (reads_of_supported t hsupported).2 0 rest (by omega) hstops
  exact ⟨levels, fun n hn => hread n hn (new toks) (htoks ▸ ahead_new)⟩

/-- The name of a type. -/
def named (name : Text) : CastTarget :=
  ⟨[.ident name], .mk (.name [name]) noSpan⟩

theorem supported_named {name : Text} (h : isCastTypeToken (.ident name) = true) : (named name).Supported u ov := by
  refine ⟨⟨_, _, rfl, h⟩, 2, fun n hn k ks depth hk => ?_⟩
  obtain ⟨n, rfl⟩ := Nat.exists_eq_add_of_le' hn
  have hdot : k ≠ .dot := by rintro rfl; cases hk
  have hbracket : k ≠ .lBracket := by rintro rfl; cases hk
  have hpipe : k ≠ .pipe := by rintro rfl; cases hk
  have hpath : Gives (Ahead (.ident name :: k :: ks) depth) (parseDottedName (descent u ov n)) fun path p =>
      path = [name] ∧ Ahead (k :: ks) depth p := by
    have hident : Gives (Ahead (.ident name :: k :: ks) depth) expectIdent fun s p =>
        s = name ∧ Ahead (k :: ks) depth p := by
      refine gives_peek fun t ht => ?_
      rw [ht]
      exact gives_bumpBind fun _ => .pure fun p hp => ⟨rfl, hp⟩
    refine hident.bind fun s => .assuming fun hs => ?_
    unfold whileEat turns
    refine .loop (gives_notEat hdot ?_)
    exact .pure fun p hp => ⟨[s], rfl, by rw [hs], hp⟩
  have hnamed : ∀ start, Gives (Ahead (.ident name :: k :: ks) depth) (parseNamedType (descent u ov n) start) fun type p =>
      type.erase = .mk (.name [name]) noSpan ∧ Ahead (k :: ks) depth p := by
    refine fun start => hpath.bind fun path => .assuming fun hp => gives_notEat hbracket (gives_currentSpan fun stop => ?_)
    exact .pure fun p hahead => ⟨by rw [hp]; rfl, hahead⟩
  have hatom : Gives (Ahead (.ident name :: k :: ks) depth) ((descent u ov (n + 1)).parseTypeAtom) fun type p =>
      type.erase = .mk (.name [name]) noSpan ∧ Ahead (k :: ks) depth p := by
    refine gives_currentSpan fun start => gives_peekKind ?_
    rw [if_neg (by simp)]
    refine gives_notEat (by simp) (gives_notEat (by simp) (gives_notEat (by simp) ?_))
    exact hnamed start
  refine hatom.bind fun type => .assuming fun htype => .loop (gives_peekKind ?_)
  rw [if_neg hpipe]
  exact .pure fun p hp => ⟨type, rfl, htype, hp⟩

def tokens (ks : List TokenKind) : List Token :=
  ks.map fun k => ⟨k, noSpan⟩

/-- `not a or -b ** c as f64`. -/
def mixed : OpTree :=
  .binary .or (.unary .not (.atom (.name "a".toList)))
    (.cast (.binary .pow (.unary .neg (.atom (.name "b".toList))) (.atom (.name "c".toList))) (named "f64".toList))

theorem parseExpr_mixed : ∃ levels, ∀ n, levels ≤ n → ∃ e p, (descent asciiTables .panics n).parseExpr
    (new (tokens (mixed.kinds ++ [.newline, .eof]))) = .ok e p ∧ mixed.Denotes e ∧ Ahead [.newline, .eof] 0 p :=
  parseExpr_kinds mixed
    ⟨by decide, by simp, trivial, ⟨by decide, by simp, trivial, trivial⟩, supported_named (by decide)⟩ (by decide)
    ⟨⟨_, _, rfl, rfl, by decide⟩, rfl⟩ rfl

/-- `x as Celsius`. -/
def castToCelsius : OpTree :=
  .cast (.atom (.name "x".toList)) (named "Celsius".toList)

theorem other_target : ¬ ∃ levels, ∀ n, levels ≤ n → ∃ e p, (descent asciiTables .panics n).parseExpr
    (new (tokens (castToCelsius.kinds ++ [.newline, .eof]))) = .ok e p ∧ castToCelsius.Denotes e := by
  rintro ⟨levels, h⟩
  have hname : IsExpr asciiTables .panics (.atom (.name "x".toList)) :=
    (reads_of_supported (.atom (.name "x".toList)) trivial).2
  obtain ⟨levels', hread⟩ := hname 0 [.kwAs, .ident "Celsius".toList, .newline, .eof] (by decide)
    ⟨⟨_, _, rfl, rfl, by decide⟩, by decide⟩
  obtain ⟨e, p, hrun, he⟩ := h (max levels levels') (Nat.le_max_left _ _)
  obtain ⟨e', p', hrun', he', -⟩ := hread (max levels levels') (Nat.le_max_right _ _)
    (new (tokens (castToCelsius.kinds ++ [.newline, .eof]))) ⟨rfl, rfl⟩
  obtain ⟨rfl, -⟩ := EStateM.Result.ok.inj (hrun.symm.trans hrun')
  cases he'
  cases he

end Cobrust.Frontend.OpTree
