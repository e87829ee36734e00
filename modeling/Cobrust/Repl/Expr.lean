import Cobrust.Mir.Lower.Expr
import Cobrust.Mir.LowerRunOperator

/-!
# Expressions over integers, booleans and strings

The expressions that the REPL walks over and the compiler lowers: literals, bound names and operators. `check` is what
`synth_bin` and `synth_un` of `cobrust-types/src/check.rs` say of them.

* `evaluates_iff`: lowering an expression that is checked gives code, and the code does `outcome`.
-/

namespace Cobrust.Repl

open Mir (LowerCtx LowerM BodyBuilder)
open Mir.Exec (Value Outcome Frame)

/-- The text of an integer literal, as the lexer leaves it. -/
structure IntLiteral where
  text : List Char
  lexed : Frontend.IntText text

inductive Literal where
  | int (s : IntLiteral)
  | str (s : String)
  | bool (b : Bool)

inductive Expr where
  | literal (lit : Literal) (span : Span)
  | name (n : String) (span : Span)
  | binary (op : Hir.BinOp) (lhs rhs : Expr) (span : Span)
  | unary (op : Hir.UnaryOp) (operand : Expr) (span : Span)

def Literal.hir : Literal → Hir.Lit
  | .int s => .int (String.ofList s.text)
  | .str s => .str s
  | .bool b => .bool b

/-- `lower_expr` of `cobrust-hir/src/lower.rs`, where the names resolve to definitions. -/
def Expr.hir (resolve : String → Hir.ResolvedName) : Expr → Hir.Expr
  | .literal lit span => .mk (.lit lit.hir) span
  | .name n span => .mk (.name (resolve n)) span
  | .binary op lhs rhs span => .mk (.bin op (lhs.hir resolve) (rhs.hir resolve)) span
  | .unary op operand span => .mk (.un op (operand.hir resolve)) span

/-- The expression and the expressions inside of it. -/
def Expr.parts : Expr → List Expr
  | .literal lit span => [.literal lit span]
  | .name n span => [.name n span]
  | .binary op lhs rhs span => .binary op lhs rhs span :: (lhs.parts ++ rhs.parts)
  | .unary op operand span => .unary op operand span :: operand.parts

/-- No operator. -/
def Expr.isAtom : Expr → Bool
  | .literal _ _ | .name _ _ => true
  | .binary _ _ _ _ | .unary _ _ _ => false

def valueTy : Value → Ty
  | .int _ => .int
  | .bool _ => .bool
  | .str _ => .str

def Literal.ty : Literal → Ty
  | .int _ => .int
  | .str _ => .str
  | .bool _ => .bool

/-- `synth_bin`; `rhs` is the right side, whose literal value the exponent of `**` is tested by. -/
def checkBin (op : Hir.BinOp) (rhs : Hir.Expr) (lt rt : Ty) : Option Ty :=
  match lt, rt with
  | .int, .int =>
    match op with
    | .pow =>
      match Mir.literalIntValueMir rhs with
      | some n => if n < 0 then none else some .int
      | none => some .int
    | .eq | .notEq | .lt | .ltEq | .gt | .gtEq => some .bool
    | .and | .or | .in | .notIn => none
    | _ => some .int
  | .str, .str =>
    match op with
    | .add => some .str
    | .eq | .notEq | .lt | .ltEq | .gt | .gtEq => some .bool
    | _ => none
  | .bool, .bool =>
    match op with
    | .eq | .notEq | .lt | .ltEq | .gt | .gtEq | .and | .or => some .bool
    | _ => none
  | .str, .int | .int, .str => if op = .mul then some .str else none
  | _, _ => none

/-- `synth_un`. -/
def checkUn (op : Hir.UnaryOp) (ty : Ty) : Option Ty :=
  match op, ty with
  | .plus, .int | .neg, .int | .bitNot, .int => some .int
  | .not, .bool => some .bool
  | _, _ => none

/-! ## Sessions -/

/-- The bindings of a REPL session, and a body under construction whose locals hold the same values. -/
structure Session where
  ctx : LowerCtx
  bindings : List (String × Value)
  resolve : String → Hir.ResolvedName
  builder : BodyBuilder
  frame : Frame
  opened : ∃ c block, builder.Open c block
  typed : ∀ n v, bindings.lookup n = some v → ctx.lookupTy (resolve n).defId = valueTy v
  held : ∀ n v, bindings.lookup n = some v →
    ∃ l, builder.localOf (resolve n).defId = some l ∧ l < builder.locals.length ∧ frame l = some v
  /-- `lookup_buffer_binop` has entries for buffers only. -/
  noBuffers : ∀ ty op, Mir.isPlain ty = true → ctx.eco.lookupBufferBinop ty op = none

namespace Session

variable (s : Session)

/-- What the checker makes of an expression. -/
def check : Expr → Option Ty
  | .literal lit _ => some lit.ty
  | .name n _ => (s.bindings.lookup n).map valueTy
  | .binary op lhs rhs _ => do
    let lt ← check lhs
    let rt ← check rhs
    checkBin op (rhs.hir s.resolve) lt rt
  | .unary op operand _ => do
    let ty ← check operand
    checkUn op ty

/-- The type that lowering gives a part. -/
def loweredTy (e : Expr) : Ty :=
  s.ctx.synthExprTy (e.hir s.resolve)

/-- The lowering of the expression. -/
def lower (e : Expr) : LowerM Mir.Operand :=
  Mir.lowerExpr s.ctx (e.hir s.resolve)

/-- What the compiled expression does: the meaning of the MIR that lowering makes of it, by recursion. -/
def outcome : Expr → Outcome
  | .literal (.int lit) _ => .value (.int (BitVec.ofInt 64 ((Mir.parseI64 (String.ofList lit.text)).getD 0)))
  | .literal (.str t) _ => .value (.str t)
  | .literal (.bool b) _ => .value (.bool b)
  | .name n _ =>
    match s.bindings.lookup n with
    | some v => .value v
    | none => .undefined
  | .binary op lhs rhs _ =>
    if op = .and || op = .or then (outcome lhs).bind (Mir.decide₂ (op = .and) (outcome rhs))
    else (outcome lhs).bind fun a => (outcome rhs).bind fun b =>
      Mir.binOutcome op (s.loweredTy lhs) (s.loweredTy rhs) a b
  | .unary op operand _ => (outcome operand).bind (Mir.Exec.unop (Mir.unToMir op))

/-- The code that lowering adds to the body runs to the outcome. -/
def Evaluates (e : Expr) (o : Outcome) : Prop :=
  ∃ op b', s.lower e s.builder = .ok (op, b') ∧ Mir.Delivers b'.blocks s.builder b' op s.frame o

variable {s} {e : Expr} {t : Ty}

theorem hir_not_float (e : Expr) : Mir.hirExprIsFloat (e.hir s.resolve) = false := by
  induction e with
  | literal lit span => cases lit <;> rfl
  | name n span => rfl
  | binary op lhs rhs span ihl ihr =>
    rw [Expr.hir, Mir.hirExprIsFloat, ihl, ihr]
    rfl
  | unary op operand span ih =>
    rw [Expr.hir, Mir.hirExprIsFloat, ih]

theorem synthBinResultTy_plain {op : Hir.BinOp} {lt rt : Ty} (hl : Mir.isPlain lt = true) (hr : Mir.isPlain rt = true) :
    Mir.isPlain (Mir.synthBinResultTy op lt rt) = true ∧ (Mir.synthBinResultTy op lt rt).isStr = false := by
  have hlf := (Mir.isPlain_facts hl).2.2.2.1
  have hrf := (Mir.isPlain_facts hr).2.2.2.1
  unfold Mir.synthBinResultTy
  rw [hlf, hrf]
  cases op <;> simp only [Bool.or_self, Bool.false_eq_true, if_false] <;> (try split) <;> exact ⟨rfl, rfl⟩

/-- Lowering gives every part that is checked a type without a buffer, and knows a string only where it is no operator. -/
theorem loweredTy_of_check (h : s.check e = some t) :
    Mir.isPlain (s.loweredTy e) = true ∧ (s.loweredTy e).isStr = (t.isStr && e.isAtom) := by
  induction e generalizing t with
  | literal lit span =>
    cases lit <;> cases h <;> exact ⟨rfl, rfl⟩
  | name n span =>
    rw [check, Option.map_eq_some_iff] at h
    obtain ⟨v, hv, rfl⟩ := h
    have hty : s.loweredTy (.name n span) = valueTy v := s.typed n v hv
    rw [hty]
    cases v <;> exact ⟨rfl, rfl⟩
  | binary op lhs rhs span ihl ihr =>
    simp only [check, Option.bind_eq_bind, Option.bind_eq_some_iff] at h
    obtain ⟨lt, hlt, rt, hrt, -⟩ := h
    have hplain : Mir.isPlain (Mir.synthBinResultTy op (s.loweredTy lhs) (s.loweredTy rhs)) = true ∧
        (Mir.synthBinResultTy op (s.loweredTy lhs) (s.loweredTy rhs)).isStr = false :=
      synthBinResultTy_plain (ihl hlt).1 (ihr hrt).1
    have hty : s.loweredTy (.binary op lhs rhs span) = Mir.synthBinResultTy op (s.loweredTy lhs) (s.loweredTy rhs) := rfl
    rw [hty, Expr.isAtom, Bool.and_false]
    exact hplain
  | unary op operand span ih =>
    simp only [check, Option.bind_eq_bind, Option.bind_eq_some_iff] at h
    obtain ⟨ty, hty, hun⟩ := h
    obtain ⟨hplain, hstr⟩ := ih hty
    have hnot : ty.isStr = false := by
      unfold checkUn at hun
      split at hun <;> first | rfl | cases hun
    rw [hnot, Bool.false_and] at hstr
    rw [Expr.isAtom, Bool.and_false]
    cases op with
    | plus => exact ⟨hplain, hstr⟩
    | neg => exact ⟨hplain, hstr⟩
    | bitNot => exact ⟨rfl, rfl⟩
    | not => exact ⟨rfl, rfl⟩

/-! ## The code -/

variable (s) in
/-- The definitions of the bound names. -/
def ids : List DefId :=
  s.bindings.map fun p => (s.resolve p.1).defId

variable (s) in
/-- What the locals of the body hold for a definition. -/
def heldValue (id : DefId) : Option Value :=
  (s.builder.localOf id).bind s.frame

theorem mem_ids {n : String} {v : Value} (h : s.bindings.lookup n = some v) : (s.resolve n).defId ∈ s.ids := by
  obtain ⟨l₁, l₂, hl, -⟩ := List.lookup_eq_some_iff.1 h
  rw [ids, hl]
  simp

theorem lookup_of_mem {id : DefId} (h : id ∈ s.ids) :
    ∃ n v, s.bindings.lookup n = some v ∧ id = (s.resolve n).defId := by
  obtain ⟨⟨n, v⟩, hmem, rfl⟩ := List.mem_map.1 h
  cases hv : s.bindings.lookup n with
  | some w => exact ⟨n, w, hv, rfl⟩
  | none => exact absurd (List.lookup_eq_none_iff.1 hv _ hmem) (by simp)

theorem named : Mir.Named s.ids s.builder := by
  intro id hid
  obtain ⟨n, v, hv, rfl⟩ := lookup_of_mem hid
  obtain ⟨l, hl, hlt, -⟩ := s.held n v hv
  exact ⟨l, hl, hlt⟩

theorem holdsValues : Mir.HoldsValues s.ids s.heldValue s.builder s.frame := by
  intro id _ l hl
  rw [heldValue, hl]
  rfl

theorem computes_outcome (h : s.check e = some t) : Mir.Computes s.ids s.heldValue (s.lower e) (s.outcome e) := by
  induction e generalizing t with
  | literal lit span =>
    cases lit with
    | int lit => exact Mir.computes_constant rfl
    | str _ => exact Mir.computes_constant rfl
    | bool _ => exact Mir.computes_constant rfl
  | name n span =>
    rw [check, Option.map_eq_some_iff] at h
    obtain ⟨v, hv, rfl⟩ := h
    obtain ⟨l, hl, -, hheld⟩ := s.held n v hv
    rw [outcome, hv]
    refine Mir.computes_lowerName (mem_ids hv) ?_
    rw [heldValue, hl]
    exact hheld
  | binary op lhs rhs span ihl ihr =>
    simp only [check, Option.bind_eq_bind, Option.bind_eq_some_iff] at h
    obtain ⟨lt, hlt, rt, hrt, -⟩ := h
    rw [outcome]
    by_cases hop : (op = .and || op = .or) = true
    · rw [if_pos hop]
      have hlower : s.lower (.binary op lhs rhs span) =
          Mir.lowerShortCircuitBool (op = .and) ⟨lhs.hir s.resolve, s.lower lhs⟩ ⟨rhs.hir s.resolve, s.lower rhs⟩ span := by
        change Mir.lowerBin s.ctx op _ _ span = _
        exact if_pos hop
      rw [hlower]
      exact Mir.computes_shortCircuit (ihl hlt) (ihr hrt)
    · rw [if_neg hop]
      have hboth : op ≠ .and ∧ op ≠ .or := by simpa using hop
      have hlower : s.lower (.binary op lhs rhs span) =
          Mir.lowerBin s.ctx op ⟨lhs.hir s.resolve, s.lower lhs⟩ ⟨rhs.hir s.resolve, s.lower rhs⟩ span := rfl
      rw [hlower]
      have hl := (loweredTy_of_check hlt).1
      exact Mir.computes_lowerBin (ihl hlt) (ihr hrt) hl (loweredTy_of_check hrt).1 (s.noBuffers _ op hl) hboth
        (hir_not_float lhs)
  | unary op operand span ih =>
    simp only [check, Option.bind_eq_bind, Option.bind_eq_some_iff] at h
    obtain ⟨ty, hty, -⟩ := h
    have hlower : s.lower (.unary op operand span) =
        Mir.lowerUn s.ctx op ⟨operand.hir s.resolve, s.lower operand⟩ span := rfl
    rw [hlower, outcome]
    exact Mir.computes_lowerUn (ih hty)

/-- Compiled code does what `outcome` says, and nothing else. -/
theorem evaluates_iff (h : s.check e = some t) {o : Outcome} : s.Evaluates e o ↔ o = s.outcome e := by
  obtain ⟨c, block, hopen⟩ := s.opened
  obtain ⟨op, b', hlower, hgrows, -, hrun⟩ := computes_outcome h s.builder c block hopen named
  have hcode : Mir.HasCode b'.blocks b' s.builder.Owns := fun i _ block hblock =>
    ⟨block, hblock, List.prefix_refl _, fun _ => rfl⟩
  have hdelivers := hrun b'.blocks hcode s.frame holdsValues
  obtain ⟨c', block', hopen'⟩ := hgrows.opened
  constructor
  · rintro ⟨op₁, b₁, hlower₁, hdelivers₁⟩
    rw [hlower] at hlower₁
    cases hlower₁
    exact hdelivers₁.unique hopen' hdelivers
  · rintro rfl
    exact ⟨op, b', hlower, hdelivers⟩

end Session

end Cobrust.Repl
