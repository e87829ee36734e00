import Cobrust.Repl.Literal

/-!
# The REPL against the compiler

When `eval_expr` and the compiled expression agree, part by part.

* `agrees_iff_regular`: the two agree on an expression and on all its parts exactly when all its parts are regular.
-/

namespace Cobrust.Repl

open Mir.Exec (Value Outcome)

variable {lhs : Expr} {op : Hir.BinOp} {lt rt : Ty} {r : Except EvalError Value} {m : Meaning} {o : Outcome}

/-- A value is the value of the compiled code; an error declares the form unsupported, or the compiled code traps. -/
def Matches (r : Except EvalError Value) (o : Outcome) : Prop :=
  match r with
  | .ok v => o = .value v
  | .error err => err.declaresUnsupported = true ∨ o = .trap

/-- The REPL evaluates to the meaning. -/
def Sound (r : Except EvalError Value) : Meaning → Prop
  | .value v => r = .ok v
  | .zeroDivisor => ∃ err, r = .error err ∧ err.declaresUnsupported = false
  | .unsupported => ∃ err, r = .error err ∧ err.declaresUnsupported = true

/-- The compiled code does what the meaning says; it may do anything where the REPL has no meaning. -/
def Meets (o : Outcome) : Meaning → Prop
  | .value v => o = .value v
  | .zeroDivisor => o = .trap
  | .unsupported => True

theorem Sound.matches (h : Sound r m) (ho : Meets o m) : Matches r o := by
  cases m with
  | value v =>
    rw [show r = .ok v from h]
    exact ho
  | zeroDivisor =>
    obtain ⟨err, rfl, -⟩ := h
    exact .inr ho
  | unsupported =>
    obtain ⟨err, rfl, herr⟩ := h
    exact .inl herr

/-! ## Operators on values -/

/-- The values on which `eval_binary` and the compiled operator agree. A quotient is in range; a remainder is zero or
its operands have the same sign; the left side of a string operator is no operator itself. -/
def RegularValues (op : Hir.BinOp) (lhs : Expr) (a b : Value) : Prop :=
  match op, a, b with
  | .div, .int x, .int y => ¬ (x = BitVec.intMin 64 ∧ y = -1#64)
  | .mod, .int x, .int y =>
    ¬ (x = BitVec.intMin 64 ∧ y = -1#64) ∧ (y.toInt = 0 ∨ y.toInt ∣ x.toInt ∨ (x.toInt < 0 ↔ y.toInt < 0))
  | .add, .str _, .str _ | .eq, .str _, .str _ | .notEq, .str _, .str _ => lhs.isAtom = true
  | _, _, _ => True

section Int

variable {a b : BitVec 64}

theorem binOutcome_int (hl : lt.isStr = false) (hr : rt.isStr = false) :
    Mir.binOutcome op lt rt (.int a) (.int b) =
      if op = .pow then Mir.Exec.callRuntime "__cobrust_ipow" [.int a, .int b]
      else if op = .div || op = .floorDiv || op = .mod then Mir.divide (Mir.binToMir op) (.int a) (.int b)
      else Mir.Exec.binop (Mir.binToMir op) (.int a) (.int b) := by
  simp [Mir.binOutcome, hl, hr]

theorem divide_int {op : Mir.BinOp} (hb : b ≠ 0#64) :
    Mir.divide op (.int a) (.int b) = Mir.Exec.binop op (.int a) (.int b) := by
  have hnonzero : Mir.Exec.binop .notEq (.int b) (.int 0#64) = .value (.bool true) := by
    simp [Mir.Exec.binop, Codegen.lowerBinop, Llvm.icmp, Mir.Exec.ofLlvm, hb]
  rw [Mir.divide, hnonzero, Mir.Exec.bind_value, if_pos rfl]

theorem binop_div (hb : b ≠ 0#64) (hrange : ¬ (a = BitVec.intMin 64 ∧ b = -1#64)) :
    Mir.Exec.binop .div (.int a) (.int b) = .value (.int (a.sdiv b)) := by
  simp only [Mir.Exec.binop, Codegen.lowerBinop, Llvm.sdiv]
  rw [if_pos ⟨hb, hrange⟩]
  rfl

theorem binop_mod (hb : b ≠ 0#64) (hrange : ¬ (a = BitVec.intMin 64 ∧ b = -1#64)) :
    Mir.Exec.binop .mod (.int a) (.int b) = .value (.int (BitVec.ofInt 64 (a.toInt.fmod b.toInt))) := by
  simp only [Mir.Exec.binop, Codegen.lowerBinop, Codegen.modWords_eq]
  rw [if_pos ⟨hb, hrange⟩]
  rfl

theorem binop_undefined {op : Mir.BinOp} (hop : op = .div ∨ op = .mod) (ha : a = BitVec.intMin 64) (hb : b = -1#64) :
    Mir.Exec.binop op (.int a) (.int b) = .undefined := by
  have hdef : ¬ Llvm.DivDefined a b := fun h => h.2 ⟨ha, hb⟩
  rcases hop with rfl | rfl
  · simp only [Mir.Exec.binop, Codegen.lowerBinop, Llvm.sdiv]
    rw [if_neg hdef]
    rfl
  · simp only [Mir.Exec.binop, Codegen.lowerBinop, Codegen.modWords_eq]
    rw [if_neg hdef]
    rfl

/-- The remainder of the REPL is that of the compiler. -/
theorem srem_eq_fmod_iff (hb : b ≠ 0#64) :
    BitVec.ofInt 64 (a.toInt.fmod b.toInt) = a.srem b ↔ b.toInt ∣ a.toInt ∨ (a.toInt < 0 ↔ b.toInt < 0) := by
  have hne : b.toInt ≠ 0 := Llvm.toInt_ne_zero.2 hb
  rw [Llvm.fmod_of_tmod hne]
  by_cases hadjust : ¬ b.toInt ∣ a.toInt ∧ (a.toInt < 0 ↔ ¬ b.toInt < 0)
  · rw [if_pos hadjust, BitVec.ofInt_add, ← Llvm.srem_ofInt, BitVec.ofInt_toInt]
    refine iff_of_false (fun h => hb (by simpa using h)) ?_
    rintro (hdvd | hsign)
    · exact hadjust.1 hdvd
    · have := hadjust.2
      tauto
  · rw [if_neg hadjust, ← Llvm.srem_ofInt]
    refine iff_of_true rfl ?_
    by_contra h
    obtain ⟨hdvd, hsigns⟩ := not_or.1 h
    exact hadjust ⟨hdvd, by tauto⟩

theorem wrap_add (a b : BitVec 64) : wrap (a.toInt + b.toInt) = .int (a + b) := by
  rw [wrap, BitVec.ofInt_add, BitVec.ofInt_toInt, BitVec.ofInt_toInt]

theorem wrap_sub (a b : BitVec 64) : wrap (a.toInt - b.toInt) = .int (a - b) := by
  rw [wrap, Llvm.sub_ofInt, BitVec.ofInt_toInt, BitVec.ofInt_toInt]

theorem wrap_mul (a b : BitVec 64) : wrap (a.toInt * b.toInt) = .int (a * b) := by
  rw [wrap, BitVec.ofInt_mul, BitVec.ofInt_toInt, BitVec.ofInt_toInt]

theorem wrap_neg (a : BitVec 64) : wrap (-a.toInt) = .int (-a) := by
  rw [wrap, BitVec.ofInt_neg, BitVec.ofInt_toInt]

theorem sound_unsupported {a b : Value} (h : evalBinary op a b = .error (.unsupportedBinary op a b))
    (hm : meaningBinary op a b = .unsupported) : Sound (evalBinary op a b) (meaningBinary op a b) ∧
      Meets o (meaningBinary op a b) := by
  rw [hm, h]
  exact ⟨⟨_, rfl, rfl⟩, trivial⟩

theorem agree_value {a b v : Value} (hm : meaningBinary op a b = .value v) (h : evalBinary op a b = .ok v)
    (ho : o = .value v) : Sound (evalBinary op a b) (meaningBinary op a b) ∧ Meets o (meaningBinary op a b) := by
  rw [hm]
  exact ⟨h, ho⟩

theorem agree_int (hl : lt.isStr = false) (hr : rt.isStr = false) (hop : op ≠ .and ∧ op ≠ .or)
    (hreg : RegularValues op lhs (.int a) (.int b)) :
    Sound (evalBinary op (.int a) (.int b)) (meaningBinary op (.int a) (.int b)) ∧
      Meets (Mir.binOutcome op lt rt (.int a) (.int b)) (meaningBinary op (.int a) (.int b)) := by
  rw [binOutcome_int hl hr]
  cases op with
  | add => exact agree_value (v := .int (a + b)) (congrArg _ (wrap_add a b)) rfl rfl
  | sub => exact agree_value (v := .int (a - b)) (congrArg _ (wrap_sub a b)) rfl rfl
  | mul => exact agree_value (v := .int (a * b)) (congrArg _ (wrap_mul a b)) rfl rfl
  | div =>
    by_cases hb : b = 0#64
    · subst hb
      exact ⟨⟨_, rfl, rfl⟩, rfl⟩
    · have hm : meaningBinary .div (.int a) (.int b) = .value (.int (a.sdiv b)) := by
        rw [meaningBinary, if_neg (Llvm.toInt_ne_zero.2 hb), wrap, ← Llvm.sdiv_ofInt]
      refine agree_value hm ?_ ?_
      · rw [evalBinary, if_neg hb]
      · exact (divide_int hb).trans (binop_div hb hreg)
  | mod =>
    by_cases hb : b = 0#64
    · subst hb
      exact ⟨⟨_, rfl, rfl⟩, rfl⟩
    · have hm : meaningBinary .mod (.int a) (.int b) = .value (wrap (a.toInt.fmod b.toInt)) := by
        rw [meaningBinary, if_neg (Llvm.toInt_ne_zero.2 hb)]
      refine agree_value hm ?_ ?_
      · rw [evalBinary, if_neg hb, wrap, (srem_eq_fmod_iff hb).2 (hreg.2.resolve_left (Llvm.toInt_ne_zero.2 hb))]
      · exact (divide_int hb).trans (binop_mod hb hreg.1)
  | eq => exact agree_value (v := .bool (a == b)) (by simp [meaningBinary, beq_eq_decide]) rfl rfl
  | notEq => exact agree_value (v := .bool (a != b)) (by simp [meaningBinary, bne, beq_eq_decide]) rfl rfl
  | lt => exact agree_value (v := .bool (a.slt b)) (by simp [meaningBinary, BitVec.slt]) rfl rfl
  | ltEq => exact agree_value (v := .bool (a.sle b)) (by simp [meaningBinary, BitVec.sle]) rfl rfl
  | gt => exact agree_value (v := .bool (b.slt a)) (by simp [meaningBinary, BitVec.slt]) rfl rfl
  | gtEq => exact agree_value (v := .bool (b.sle a)) (by simp [meaningBinary, BitVec.sle]) rfl rfl
  | and => exact absurd rfl hop.1
  | or => exact absurd rfl hop.2
  | _ => exact sound_unsupported rfl rfl

/-- Where integers are not regular, the REPL gives a value that the compiled code does not. -/
theorem not_matches_int (hl : lt.isStr = false) (hr : rt.isStr = false)
    (hreg : ¬ RegularValues op lhs (.int a) (.int b)) :
    ¬ Matches (evalBinary op (.int a) (.int b)) (Mir.binOutcome op lt rt (.int a) (.int b)) := by
  rw [binOutcome_int hl hr]
  cases op with
  | div =>
    obtain ⟨ha, hb⟩ := not_not.1 hreg
    have hne : b ≠ 0#64 := by rw [hb]; decide
    intro h
    rw [evalBinary, if_neg hne] at h
    have hundef := (divide_int hne).trans (binop_undefined (.inl rfl) ha hb)
    exact absurd (hundef.symm.trans h) (by simp)
  | mod =>
    by_cases hrange : a = BitVec.intMin 64 ∧ b = -1#64
    · have hne : b ≠ 0#64 := by rw [hrange.2]; decide
      intro h
      rw [evalBinary, if_neg hne] at h
      have hundef := (divide_int hne).trans (binop_undefined (.inr rfl) hrange.1 hrange.2)
      exact absurd (hundef.symm.trans h) (by simp)
    · have hsigns := not_and.1 hreg hrange
      obtain ⟨hb, hsigns⟩ := not_or.1 hsigns
      have hne : b ≠ 0#64 := Llvm.toInt_ne_zero.1 hb
      intro h
      rw [evalBinary, if_neg hne] at h
      have hvalue := ((divide_int hne).trans (binop_mod hne hrange)).symm.trans h
      rw [Outcome.value.injEq, Value.int.injEq] at hvalue
      exact hsigns ((srem_eq_fmod_iff hne).1 hvalue)
  | _ => exact absurd trivial hreg

end Int

section Str

variable {x y : String} {p q : Bool} {n : BitVec 64}

theorem str_eq_outcome (x y : String) (op : Mir.BinOp) (t : Bool)
    (hop : op = if t then .eq else .notEq) :
    ((Mir.Exec.callRuntime "__cobrust_str_eq" [.str x, .str y]).bind fun raw => Mir.Exec.binop op raw (.int 0#64)) =
      .value (.bool (if t then x != y else x == y)) := by
  have hcall : Mir.Exec.callRuntime "__cobrust_str_eq" [.str x, .str y] =
      .value (.int (if x = y then 1#64 else 0#64)) := rfl
  rw [hcall, Mir.Exec.bind_value, hop]
  by_cases hxy : x = y <;> cases t <;>
    simp [hxy, Mir.Exec.binop, Codegen.lowerBinop, Llvm.icmp, Mir.Exec.ofLlvm]

theorem agree_str (hl : lt.isStr = lhs.isAtom) (hreg : RegularValues op lhs (.str x) (.str y)) {rhs : Hir.Expr}
    {t : Ty} (hcheck : checkBin op rhs .str .str = some t) :
    Sound (evalBinary op (.str x) (.str y)) (meaningBinary op (.str x) (.str y)) ∧
      Meets (Mir.binOutcome op lt rt (.str x) (.str y)) (meaningBinary op (.str x) (.str y)) := by
  cases op with
  | add =>
    refine agree_value (v := .str (x ++ y)) rfl rfl ?_
    simp [Mir.binOutcome, hl, show lhs.isAtom = true from hreg]
    rfl
  | eq =>
    refine agree_value (v := .bool (x == y)) (by simp [meaningBinary, beq_eq_decide]) rfl ?_
    simp only [Mir.binOutcome, hl, show lhs.isAtom = true from hreg]
    exact str_eq_outcome x y .notEq false rfl
  | notEq =>
    refine agree_value (v := .bool (x != y)) (by simp [meaningBinary, bne, beq_eq_decide]) rfl ?_
    simp only [Mir.binOutcome, hl, show lhs.isAtom = true from hreg]
    exact str_eq_outcome x y .eq true rfl
  | lt => exact sound_unsupported rfl rfl
  | ltEq => exact sound_unsupported rfl rfl
  | gt => exact sound_unsupported rfl rfl
  | gtEq => exact sound_unsupported rfl rfl
  | _ => cases hcheck

theorem not_matches_str (hl : lt.isStr = lhs.isAtom) (hreg : ¬ RegularValues op lhs (.str x) (.str y)) :
    ¬ Matches (evalBinary op (.str x) (.str y)) (Mir.binOutcome op lt rt (.str x) (.str y)) := by
  have hundef (hatom : ¬ lhs.isAtom = true) (hop : op = .add ∨ op = .eq ∨ op = .notEq) :
      Mir.binOutcome op lt rt (.str x) (.str y) = .undefined := by
    rw [Bool.not_eq_true] at hatom
    rw [hatom] at hl
    rcases hop with rfl | rfl | rfl <;> simp [Mir.binOutcome, hl, Mir.Exec.binop]
  cases op with
  | add =>
    rw [hundef hreg (.inl rfl)]
    exact fun h => by cases h
  | eq =>
    rw [hundef hreg (.inr (.inl rfl))]
    exact fun h => by cases h
  | notEq =>
    rw [hundef hreg (.inr (.inr rfl))]
    exact fun h => by cases h
  | _ => exact absurd trivial hreg

theorem agree_bool (hl : lt.isStr = false) (hop : op ≠ .and ∧ op ≠ .or) {rhs : Hir.Expr} {t : Ty}
    (hcheck : checkBin op rhs .bool .bool = some t) :
    Sound (evalBinary op (.bool p) (.bool q)) (meaningBinary op (.bool p) (.bool q)) ∧
      Meets (Mir.binOutcome op lt rt (.bool p) (.bool q)) (meaningBinary op (.bool p) (.bool q)) := by
  cases op with
  | eq =>
    refine agree_value (v := .bool (p == q)) (by simp [meaningBinary, beq_eq_decide]) rfl ?_
    simp [Mir.binOutcome, hl, Mir.Exec.binop, Mir.binToMir]
  | notEq =>
    refine agree_value (v := .bool (p != q)) (by simp [meaningBinary, bne, beq_eq_decide]) rfl ?_
    simp [Mir.binOutcome, hl, Mir.Exec.binop, Mir.binToMir]
  | lt => exact sound_unsupported rfl rfl
  | ltEq => exact sound_unsupported rfl rfl
  | gt => exact sound_unsupported rfl rfl
  | gtEq => exact sound_unsupported rfl rfl
  | and => exact absurd rfl hop.1
  | or => exact absurd rfl hop.2
  | _ => cases hcheck

end Str

section Values

variable {a b : Value} {rhs : Expr} {e : Hir.Expr} {t : Ty}

/-- On regular values of types that the checker accepts, both evaluators do what the operator means. -/
theorem agree_values (hop : op ≠ .and ∧ op ≠ .or) (hl : lt.isStr = ((valueTy a).isStr && lhs.isAtom))
    (hr : rt.isStr = ((valueTy b).isStr && rhs.isAtom)) (hcheck : checkBin op e (valueTy a) (valueTy b) = some t)
    (hreg : RegularValues op lhs a b) :
    Sound (evalBinary op a b) (meaningBinary op a b) ∧ Meets (Mir.binOutcome op lt rt a b) (meaningBinary op a b) := by
  have hrepeat (h : (if op = .mul then some Ty.str else none) = some t) : op = .mul := by
    by_contra hne
    rw [if_neg hne] at h
    cases h
  cases a with
  | int x =>
    cases b with
    | int y => exact agree_int hl hr hop hreg
    | bool q => cases hcheck
    | str y =>
      obtain rfl := hrepeat hcheck
      exact sound_unsupported rfl rfl
  | bool p =>
    cases b with
    | int y => cases hcheck
    | bool q => exact agree_bool hl hop hcheck
    | str y => cases hcheck
  | str x =>
    cases b with
    | int y =>
      obtain rfl := hrepeat hcheck
      exact sound_unsupported rfl rfl
    | bool q => cases hcheck
    | str y => exact agree_str hl hreg hcheck

/-- On other values of such types the REPL gives a value that the compiled code does not. -/
theorem regularValues_of_matches (hl : lt.isStr = ((valueTy a).isStr && lhs.isAtom))
    (hr : rt.isStr = ((valueTy b).isStr && rhs.isAtom)) (h : Matches (evalBinary op a b) (Mir.binOutcome op lt rt a b)) :
    RegularValues op lhs a b := by
  by_contra hreg
  cases a with
  | int x =>
    cases b with
    | int y => exact not_matches_int hl hr hreg h
    | bool q => cases op <;> exact hreg trivial
    | str y => cases op <;> exact hreg trivial
  | bool p => cases op <;> exact hreg trivial
  | str x =>
    cases b with
    | int y => cases op <;> exact hreg trivial
    | bool q => cases op <;> exact hreg trivial
    | str y => exact not_matches_str hl hreg h

end Values

/-! ## Expressions -/

/-- An operator of the REPL gives a value of the type that the checker expects. -/
theorem valueTy_of_meaningBinary {a b v : Value} {e : Hir.Expr} {t : Ty}
    (hcheck : checkBin op e (valueTy a) (valueTy b) = some t) (hm : meaningBinary op a b = .value v) : t = valueTy v := by
  cases a with
  | int x =>
    cases b with
    | int y =>
      cases op with
      | div | mod =>
        cases hcheck
        rw [meaningBinary] at hm
        split at hm <;> cases hm
        rfl
      | _ => first | (cases hcheck; done) | (cases hm; done) | (cases hcheck; cases hm; rfl)
    | bool q => cases hcheck
    | str y => cases op <;> first | (cases hm; done) | (cases hcheck; done)
  | bool p =>
    cases b with
    | int y => cases hcheck
    | bool q => cases op <;> first | (cases hcheck; done) | (cases hm; done) | (cases hcheck; cases hm; rfl)
    | str y => cases hcheck
  | str x =>
    cases b with
    | int y => cases op <;> first | (cases hm; done) | (cases hcheck; done)
    | bool q => cases hcheck
    | str y => cases op <;> first | (cases hcheck; done) | (cases hm; done) | (cases hcheck; cases hm; rfl)

namespace Session

variable {s : Session} {e lhs rhs : Expr} {t : Ty} {span : Span}

theorem valueTy_of_meaning (h : s.check e = some t) {v : Value} (hm : meaning s.bindings e = .value v) :
    t = valueTy v := by
  induction e generalizing t v with
  | literal lit span =>
    cases lit <;> cases h <;> cases hm <;> rfl
  | name n span =>
    rw [check, Option.map_eq_some_iff] at h
    obtain ⟨w, hw, rfl⟩ := h
    rw [meaning, hw] at hm
    cases hm
    rfl
  | binary op lhs rhs span ihl ihr =>
    simp only [check, Option.bind_eq_bind, Option.bind_eq_some_iff] at h
    obtain ⟨lt, hlt, rt, hrt, hbin⟩ := h
    rw [meaning] at hm
    cases hl : meaning s.bindings lhs with
    | value a =>
      rw [hl] at hm
      cases hr : meaning s.bindings rhs with
      | value b =>
        rw [hr] at hm
        rw [ihl hlt hl, ihr hrt hr] at hbin
        exact valueTy_of_meaningBinary hbin hm
      | zeroDivisor =>
        rw [hr] at hm
        cases hm
      | unsupported =>
        rw [hr] at hm
        cases hm
    | zeroDivisor =>
      rw [hl] at hm
      cases hm
    | unsupported =>
      rw [hl] at hm
      cases hm
  | unary op operand span ih =>
    simp only [check, Option.bind_eq_bind, Option.bind_eq_some_iff] at h
    obtain ⟨ty, hty, hun⟩ := h
    rw [meaning] at hm
    cases hv : meaning s.bindings operand with
    | value a =>
      rw [hv] at hm
      rw [ih hty hv] at hun
      cases op <;> cases a <;> first | (cases hun; done) | (cases hm; done) | (cases hun; cases hm; rfl)
    | zeroDivisor =>
      rw [hv] at hm
      cases hm
    | unsupported =>
      rw [hv] at hm
      cases hm

variable (s) in
/-- The REPL and the code that lowering makes of the expression: a value is the value of the code, and an error declares
the form unsupported or stands for a trap. -/
def Agrees (e : Expr) : Prop :=
  ∃ o, s.Evaluates e o ∧ Matches (evalExpr s.bindings e) o

variable (s) in
/-- The condition on one part. The left side of `and` and `or` that decides alone has no division by zero on its right. -/
def Regular : Expr → Prop
  | .literal (.int lit) _ => RegularLiteral lit.text
  | .binary op lhs rhs _ =>
    (∀ a b, meaning s.bindings lhs = .value a → meaning s.bindings rhs = .value b → RegularValues op lhs a b) ∧
      (op = .and ∨ op = .or → ∀ p, meaning s.bindings lhs = .value (.bool p) → p ≠ decide (op = .and) →
        meaning s.bindings rhs ≠ .zeroDivisor)
  | _ => True

theorem agrees_iff (h : s.check e = some t) : s.Agrees e ↔ Matches (evalExpr s.bindings e) (s.outcome e) := by
  constructor
  · rintro ⟨o, hevaluates, hmatches⟩
    rwa [(evaluates_iff h).1 hevaluates] at hmatches
  · exact fun hmatches => ⟨_, (evaluates_iff h).2 rfl, hmatches⟩

variable (s) in
/-- Both evaluators do what the expression means. -/
def Holds (e : Expr) : Prop :=
  Sound (evalExpr s.bindings e) (meaning s.bindings e) ∧ Meets (s.outcome e) (meaning s.bindings e)

theorem holds_of_left (hl : s.Holds lhs) (hm : ∀ v, meaning s.bindings lhs ≠ .value v) :
    s.Holds (.binary op lhs rhs span) := by
  obtain ⟨hsound, hmeets⟩ := hl
  cases hl : meaning s.bindings lhs with
  | value v => exact absurd hl (hm v)
  | zeroDivisor =>
    rw [hl] at hsound hmeets
    obtain ⟨err, heval, herr⟩ := hsound
    rw [Holds, meaning, hl, evalExpr, heval, outcome, show s.outcome lhs = .trap from hmeets]
    exact ⟨⟨err, rfl, herr⟩, ite_self _⟩
  | unsupported =>
    rw [hl] at hsound
    obtain ⟨err, heval, herr⟩ := hsound
    rw [Holds, meaning, hl, evalExpr, heval]
    exact ⟨⟨err, rfl, herr⟩, trivial⟩

/-- `and` and `or` behind the value of the left side. -/
theorem holds_shortCircuit (hop : op = .and ∨ op = .or) (hl : s.Holds lhs) (hr : s.Holds rhs)
    {p : Bool} (hp : meaning s.bindings lhs = .value (.bool p))
    (hq : ∀ v, meaning s.bindings rhs = .value v → valueTy v = .bool)
    (hreg : p ≠ decide (op = .and) → meaning s.bindings rhs ≠ .zeroDivisor) : s.Holds (.binary op lhs rhs span) := by
  obtain ⟨hsound, hmeets⟩ := hl
  obtain ⟨hsound', hmeets'⟩ := hr
  rw [hp] at hsound hmeets
  have hbool : (op = .and || op = .or) = true := by simpa using hop
  rw [Holds, meaning, hp, evalExpr, show evalExpr s.bindings lhs = _ from hsound, outcome, if_pos hbool,
    show s.outcome lhs = _ from hmeets, Mir.Exec.bind_value]
  cases hr : meaning s.bindings rhs with
  | value v =>
    have hty := hq v hr
    rw [hr] at hsound' hmeets'
    rw [show evalExpr s.bindings rhs = _ from hsound', show s.outcome rhs = _ from hmeets']
    cases v with
    | int _ => cases hty
    | str _ => cases hty
    | bool q =>
      rcases hop with rfl | rfl <;> cases p <;> exact ⟨rfl, rfl⟩
  | zeroDivisor =>
    have hpop : p = decide (op = .and) := by
      by_contra hne
      exact hreg hne hr
    rw [hr] at hsound' hmeets'
    obtain ⟨err, heval, herr⟩ := hsound'
    rw [heval, show s.outcome rhs = _ from hmeets', Mir.decide₂, if_pos hpop]
    exact ⟨⟨err, rfl, herr⟩, rfl⟩
  | unsupported =>
    rw [hr] at hsound'
    obtain ⟨err, heval, herr⟩ := hsound'
    rw [heval]
    exact ⟨⟨err, rfl, herr⟩, trivial⟩

/-- The other operators behind the value of the left side. -/
theorem holds_both (hop : op ≠ .and ∧ op ≠ .or) (hl : s.Holds lhs) (hr : s.Holds rhs) {a : Value}
    (ha : meaning s.bindings lhs = .value a)
    (hvalues : ∀ b, meaning s.bindings rhs = .value b →
      Sound (evalBinary op a b) (meaningBinary op a b) ∧
        Meets (Mir.binOutcome op (s.loweredTy lhs) (s.loweredTy rhs) a b) (meaningBinary op a b)) :
    s.Holds (.binary op lhs rhs span) := by
  obtain ⟨hsound, hmeets⟩ := hl
  obtain ⟨hsound', hmeets'⟩ := hr
  rw [ha] at hsound hmeets
  have hbool : ¬ (op = .and || op = .or) = true := by simpa using hop
  rw [Holds, meaning, ha, evalExpr, show evalExpr s.bindings lhs = _ from hsound, outcome, if_neg hbool,
    show s.outcome lhs = _ from hmeets, Mir.Exec.bind_value]
  cases hb : meaning s.bindings rhs with
  | value b =>
    rw [hb] at hsound' hmeets'
    rw [show evalExpr s.bindings rhs = _ from hsound', show s.outcome rhs = _ from hmeets']
    exact hvalues b hb
  | zeroDivisor =>
    rw [hb] at hsound' hmeets'
    obtain ⟨err, heval, herr⟩ := hsound'
    rw [heval, show s.outcome rhs = _ from hmeets']
    exact ⟨⟨err, rfl, herr⟩, rfl⟩
  | unsupported =>
    rw [hb] at hsound'
    obtain ⟨err, heval, herr⟩ := hsound'
    rw [heval]
    exact ⟨⟨err, rfl, herr⟩, trivial⟩

theorem holds_binary (h : s.check (.binary op lhs rhs span) = some t) (hl : s.Holds lhs) (hr : s.Holds rhs)
    (hreg : s.Regular (.binary op lhs rhs span)) : s.Holds (.binary op lhs rhs span) := by
  simp only [check, Option.bind_eq_bind, Option.bind_eq_some_iff] at h
  obtain ⟨lt, hlt, rt, hrt, hbin⟩ := h
  obtain ⟨hvalues, hright⟩ := hreg
  by_cases hstop : ∀ v, meaning s.bindings lhs ≠ .value v
  · exact holds_of_left hl hstop
  push Not at hstop
  obtain ⟨a, ha⟩ := hstop
  obtain rfl := valueTy_of_meaning hlt ha
  by_cases hop : op = .and ∨ op = .or
  · cases a with
    | bool p =>
      refine holds_shortCircuit hop hl hr ha (fun v hv => ?_) (hright hop p ha)
      rw [valueTy_of_meaning hrt hv] at hbin
      cases v with
      | bool _ => rfl
      | int _ => cases hbin
      | str _ => cases hbin
    | int _ => rcases hop with rfl | rfl <;> cases rt <;> cases hbin
    | str _ => rcases hop with rfl | rfl <;> cases rt <;> cases hbin
  · rw [not_or] at hop
    refine holds_both hop hl hr ha fun b hb => ?_
    obtain rfl := valueTy_of_meaning hrt hb
    exact agree_values hop (loweredTy_of_check hlt).2 (loweredTy_of_check hrt).2 hbin (hvalues a b ha hb)

theorem holds_unary {operand : Expr} {op : Hir.UnaryOp} (h : s.check (.unary op operand span) = some t)
    (ho : s.Holds operand) : s.Holds (.unary op operand span) := by
  simp only [check, Option.bind_eq_bind, Option.bind_eq_some_iff] at h
  obtain ⟨ty, hty, hun⟩ := h
  obtain ⟨hsound, hmeets⟩ := ho
  cases hm : meaning s.bindings operand with
  | value v =>
    obtain rfl := valueTy_of_meaning hty hm
    rw [hm] at hsound hmeets
    rw [Holds, meaning, hm, evalExpr, show evalExpr s.bindings operand = _ from hsound, outcome,
      show s.outcome operand = _ from hmeets]
    cases v with
    | int n =>
      cases op with
      | neg =>
        rw [Meaning.bind, meaningUnary, wrap_neg]
        exact ⟨rfl, rfl⟩
      | plus => exact ⟨rfl, rfl⟩
      | bitNot => exact ⟨⟨_, rfl, rfl⟩, trivial⟩
      | not => cases hun
    | bool b => cases op <;> first | (cases hun; done) | exact ⟨rfl, rfl⟩
    | str _ => cases op <;> cases hun
  | zeroDivisor =>
    rw [hm] at hsound hmeets
    obtain ⟨err, heval, herr⟩ := hsound
    rw [Holds, meaning, hm, evalExpr, heval, outcome, show s.outcome operand = _ from hmeets]
    exact ⟨⟨err, rfl, herr⟩, rfl⟩
  | unsupported =>
    rw [hm] at hsound
    obtain ⟨err, heval, herr⟩ := hsound
    rw [Holds, meaning, hm, evalExpr, heval]
    exact ⟨⟨err, rfl, herr⟩, trivial⟩

theorem holds_of_regular (h : s.check e = some t) (hreg : ∀ p ∈ e.parts, s.Regular p) : s.Holds e := by
  induction e generalizing t with
  | literal lit span =>
    cases lit with
    | int lit =>
      have hlit : RegularLiteral lit.text := hreg _ List.mem_cons_self
      refine ⟨evalLiteral_ok hlit.1 hlit.2.1, ?_⟩
      exact congrArg (fun n => Outcome.value (.int n)) ((parseI64_regular hlit.1 hlit.2.1).2 hlit)
    | str _ => exact ⟨rfl, rfl⟩
    | bool _ => exact ⟨rfl, rfl⟩
  | name n span =>
    rw [check, Option.map_eq_some_iff] at h
    obtain ⟨v, hv, rfl⟩ := h
    rw [Holds, meaning, hv, evalExpr, hv, outcome, hv]
    exact ⟨rfl, rfl⟩
  | binary op lhs rhs span ihl ihr =>
    have hparts := h
    simp only [check, Option.bind_eq_bind, Option.bind_eq_some_iff] at hparts
    obtain ⟨lt, hlt, rt, hrt, -⟩ := hparts
    have hl := ihl hlt fun p hp => hreg p (List.mem_cons_of_mem _ (List.mem_append_left _ hp))
    have hr := ihr hrt fun p hp => hreg p (List.mem_cons_of_mem _ (List.mem_append_right _ hp))
    exact holds_binary h hl hr (hreg _ List.mem_cons_self)
  | unary op operand span ih =>
    have hparts := h
    simp only [check, Option.bind_eq_bind, Option.bind_eq_some_iff] at hparts
    obtain ⟨ty, hty, -⟩ := hparts
    exact holds_unary h (ih hty fun p hp => hreg p (List.mem_cons_of_mem _ hp))

theorem regular_literal {lit : IntLiteral} (h : Matches (evalExpr s.bindings (.literal (.int lit) span))
    (s.outcome (.literal (.int lit) span))) : RegularLiteral lit.text := by
  rw [evalExpr, outcome] at h
  by_cases hread : (∃ c ∈ literalDigits lit.text, c ≠ '_') ∧ Mir.literalValue lit.text < 2 ^ 63
  · rw [evalLiteral_ok hread.1 hread.2] at h
    refine (parseI64_regular hread.1 hread.2).1 ?_
    rw [Matches, wrap, Outcome.value.injEq, Value.int.injEq] at h
    exact h
  · obtain ⟨kind, hkind⟩ := evalLiteral_error hread
    rw [hkind] at h
    rcases h with h | h <;> cases h

theorem regular_binary (h : s.check (.binary op lhs rhs span) = some t) (hl : s.Holds lhs) (hr : s.Holds rhs)
    (hmatches : Matches (evalExpr s.bindings (.binary op lhs rhs span)) (s.outcome (.binary op lhs rhs span))) :
    s.Regular (.binary op lhs rhs span) := by
  simp only [check, Option.bind_eq_bind, Option.bind_eq_some_iff] at h
  obtain ⟨lt, hlt, rt, hrt, -⟩ := h
  rw [evalExpr, outcome] at hmatches
  constructor
  · intro a b ha hb
    by_cases hop : op = .and ∨ op = .or
    · rcases hop with rfl | rfl <;> trivial
    · have hbool : ¬ (op = .and || op = .or) = true := by simpa using hop
      obtain rfl := valueTy_of_meaning hlt ha
      obtain rfl := valueTy_of_meaning hrt hb
      obtain ⟨hsound, hmeets⟩ := hl
      obtain ⟨hsound', hmeets'⟩ := hr
      rw [ha] at hsound hmeets
      rw [hb] at hsound' hmeets'
      rw [show evalExpr s.bindings lhs = _ from hsound, show evalExpr s.bindings rhs = _ from hsound', if_neg hbool,
        show s.outcome lhs = _ from hmeets, show s.outcome rhs = _ from hmeets'] at hmatches
      exact regularValues_of_matches (loweredTy_of_check hlt).2 (loweredTy_of_check hrt).2 hmatches
  · intro hop p hp hne hzero
    have hbool : (op = .and || op = .or) = true := by simpa using hop
    obtain ⟨hsound, hmeets⟩ := hl
    rw [hp] at hsound hmeets
    have hsound' := hr.1
    rw [hzero] at hsound'
    obtain ⟨err, heval, herr⟩ := hsound'
    rw [show evalExpr s.bindings lhs = _ from hsound, heval, if_pos hbool, show s.outcome lhs = _ from hmeets,
      Mir.Exec.bind_value, Mir.decide₂, if_neg hne] at hmatches
    rcases hmatches with h | h
    · rw [herr] at h
      cases h
    · cases h

theorem regular_of_agrees (h : s.check e = some t) (hagrees : ∀ p ∈ e.parts, s.Agrees p) : ∀ p ∈ e.parts, s.Regular p := by
  induction e generalizing t with
  | literal lit span =>
    rintro p hp
    obtain rfl := List.mem_singleton.1 hp
    cases lit with
    | int lit => exact regular_literal ((agrees_iff h).1 (hagrees _ hp))
    | str _ => trivial
    | bool _ => trivial
  | name n span =>
    rintro p hp
    obtain rfl := List.mem_singleton.1 hp
    trivial
  | binary op lhs rhs span ihl ihr =>
    have hparts := h
    simp only [check, Option.bind_eq_bind, Option.bind_eq_some_iff] at hparts
    obtain ⟨lt, hlt, rt, hrt, -⟩ := hparts
    have hl := ihl hlt fun p hp => hagrees p (List.mem_cons_of_mem _ (List.mem_append_left _ hp))
    have hr := ihr hrt fun p hp => hagrees p (List.mem_cons_of_mem _ (List.mem_append_right _ hp))
    rintro p hp
    rcases List.mem_cons.1 hp with rfl | hp
    · exact regular_binary h (holds_of_regular hlt hl) (holds_of_regular hrt hr) ((agrees_iff h).1 (hagrees _ hp))
    · rcases List.mem_append.1 hp with hp | hp
      · exact hl p hp
      · exact hr p hp
  | unary op operand span ih =>
    have hparts := h
    simp only [check, Option.bind_eq_bind, Option.bind_eq_some_iff] at hparts
    obtain ⟨ty, hty, -⟩ := hparts
    have ho := ih hty fun p hp => hagrees p (List.mem_cons_of_mem _ hp)
    rintro p hp
    rcases List.mem_cons.1 hp with rfl | hp
    · trivial
    · exact ho p hp

/-- A part of an expression that is checked is checked. -/
theorem check_part (h : s.check e = some t) {p : Expr} (hp : p ∈ e.parts) : ∃ t', s.check p = some t' := by
  induction e generalizing t with
  | literal lit span =>
    obtain rfl := List.mem_singleton.1 hp
    exact ⟨t, h⟩
  | name n span =>
    obtain rfl := List.mem_singleton.1 hp
    exact ⟨t, h⟩
  | binary op lhs rhs span ihl ihr =>
    rcases List.mem_cons.1 hp with rfl | hp
    · exact ⟨t, h⟩
    · simp only [check, Option.bind_eq_bind, Option.bind_eq_some_iff] at h
      obtain ⟨lt, hlt, rt, hrt, -⟩ := h
      rcases List.mem_append.1 hp with hp | hp
      · exact ihl hlt hp
      · exact ihr hrt hp
  | unary op operand span ih =>
    rcases List.mem_cons.1 hp with rfl | hp
    · exact ⟨t, h⟩
    · simp only [check, Option.bind_eq_bind, Option.bind_eq_some_iff] at h
      obtain ⟨ty, hty, -⟩ := h
      exact ih hty hp

theorem parts_of_part {p q : Expr} (hp : p ∈ e.parts) (hq : q ∈ p.parts) : q ∈ e.parts := by
  induction e with
  | literal lit span =>
    obtain rfl := List.mem_singleton.1 hp
    exact hq
  | name n span =>
    obtain rfl := List.mem_singleton.1 hp
    exact hq
  | binary op lhs rhs span ihl ihr =>
    rcases List.mem_cons.1 hp with rfl | hp
    · exact hq
    · refine List.mem_cons_of_mem _ (List.mem_append.2 ?_)
      exact (List.mem_append.1 hp).imp ihl ihr
  | unary op operand span ih =>
    rcases List.mem_cons.1 hp with rfl | hp
    · exact hq
    · exact List.mem_cons_of_mem _ (ih hp)

/-- The REPL and the compiler agree on an expression that the checker accepts, and on all its parts, exactly when all its
parts are regular. -/
theorem agrees_iff_regular (h : s.check e = some t) : (∀ p ∈ e.parts, s.Agrees p) ↔ ∀ p ∈ e.parts, s.Regular p := by
  refine ⟨regular_of_agrees h, fun hreg p hp => ?_⟩
  obtain ⟨t', ht'⟩ := check_part h hp
  have hholds := holds_of_regular ht' fun q hq => hreg q (parts_of_part hp hq)
  exact (agrees_iff ht').2 (hholds.1.matches hholds.2)

/-- A body with one block and no locals. -/
def emptyBody : Mir.BodyBuilder where
  defId := 0
  name := "_t"
  span := Span.synthetic
  locals := []
  blocks := [⟨0, [], .unreachable, Span.synthetic⟩]
  defToLocal := []
  curBlock := some 0
  loopStack := []
  returnLocal := 0
  paramCount := 0

/-- A session without bindings. -/
def empty : Session where
  ctx := .plain
  bindings := []
  resolve n := ⟨n, 0, .letBinding⟩
  builder := emptyBody
  frame _ := none
  opened := ⟨0, _, rfl, rfl, rfl⟩
  typed _ _ h := by cases h
  held _ _ h := by cases h
  noBuffers _ _ _ := rfl

/-- A literal of one digit. -/
def digit (c : Char) (h : c.isDigit = true) : Expr :=
  .literal (.int ⟨[c], .decimal fun d hd => by
    rw [List.mem_singleton.1 hd, Frontend.isDecimalChar, h]
    rfl⟩) Span.synthetic

/-- `7 % 3`. -/
theorem agrees_iff_regular_positive :
    empty.check (.binary .mod (digit '7' rfl) (digit '3' rfl) Span.synthetic) = some .int ∧
      ((∀ p ∈ (Expr.binary .mod (digit '7' rfl) (digit '3' rfl) Span.synthetic).parts, empty.Agrees p) ↔
        ∀ p ∈ (Expr.binary .mod (digit '7' rfl) (digit '3' rfl) Span.synthetic).parts, empty.Regular p) :=
  ⟨rfl, agrees_iff_regular rfl⟩

/-- `-7 % 3` is -1 in the REPL and 2 in the compiled program. -/
theorem remainder_disagrees :
    empty.check (.binary .mod (.unary .neg (digit '7' rfl) Span.synthetic) (digit '3' rfl) Span.synthetic) = some .int ∧
      evalExpr empty.bindings
          (.binary .mod (.unary .neg (digit '7' rfl) Span.synthetic) (digit '3' rfl) Span.synthetic) =
        .ok (.int (-1#64)) ∧
      ¬ empty.Agrees (.binary .mod (.unary .neg (digit '7' rfl) Span.synthetic) (digit '3' rfl) Span.synthetic) := by
  refine ⟨rfl, rfl, fun h => ?_⟩
  have hmatches := (agrees_iff (t := .int) rfl).1 h
  have houtcome : empty.outcome
      (.binary .mod (.unary .neg (digit '7' rfl) Span.synthetic) (digit '3' rfl) Span.synthetic) = .value (.int 2#64) := by
    rfl
  rw [houtcome] at hmatches
  have hsame : Outcome.value (.int 2#64) = .value (.int (-1#64)) := hmatches
  exact absurd hsame (by decide)

end Session

end Cobrust.Repl
