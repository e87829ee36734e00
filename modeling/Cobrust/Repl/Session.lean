import Cobrust.Control.Outcome
import Cobrust.Repl.Turn

/-!
# Sessions of the REPL

The state of `Session` of `cobrust-cli/src/repl.rs`, its values and its types, and what a step makes of them. How a value,
a type or an error is printed is left out.

The values of a session come from the evaluation of its inputs and the types from their checks, and neither looks at the
other. They agree for a name whose last input is one of plain statements that is checked and evaluated to its end.

* `session_runs`: what holds of every session.
-/

namespace Cobrust.Cli

open Frontend (Ast.Stmt Ast.Module)
open Store (Table)

variable {F : Type}

/-! ## Results -/

inductive ParseFailure where
  | unexpectedEof
  | other (message : Text)

/-- `:type`, `:ast`, `:hir` and `:mir`. -/
inductive Inspection where
  | type | ast | hir | mir
  deriving DecidableEq

/-- `RedefineOutcome`, with the types before and after; it is `Identical` if they are equal. -/
inductive RedefineOutcome where
  | created (name : Text)
  | redefined (name : Text) (old : Ty) (new : Option Ty)

def RedefineOutcome.isCreated : RedefineOutcome → Bool
  | .created _ => true
  | .redefined _ _ _ => false

/-- `classify_redefine_outcome`. -/
def classify (name : Text) (old new : Option Ty) : RedefineOutcome :=
  match old with
  | none => .created name
  | some old => .redefined name old new

inductive StepError (F : Type) where
  | unknownDirective (name : Text)
  | missingArgument (what : Inspection)
  | inspection (message : Text)
  | parse (message : Text)
  | shapeLost
  | eval (input : Text) (why : EvalError F)

inductive StepResult (F : Type) where
  | done (notices : List RedefineOutcome) (shown : List (Value F))
  | answer (text : Text)
  | help
  | cleared
  | incomplete
  | quit
  | error (e : StepError F)

/-- The rest of the compiler, as far as a step calls it. -/
structure Tools (F : Type) where
  floats : Floats F
  parse : Text → Except ParseFailure Ast.Module
  /-- Lowering and checking of modules with other statements than plain ones. -/
  checkOther : Ast.Module → Option TypedModule
  inspect : Inspection → TypeCheckCtx → Text → Except Text Text

structure Session (F : Type) where
  bindings : Table Text (Value F)
  typeCtx : TypeCheckCtx

def Session.new : Session F :=
  ⟨Table.empty, .new⟩

/-- The type of a name, `lookup`. -/
def typeOf (ctx : TypeCheckCtx) (name : Text) : Option Ty :=
  ctx.bindings (String.ofList name)

/-- What the context holds of the functions that the module defines: name, type and owner. -/
def priorFns (ctx : TypeCheckCtx) (m : Ast.Module) : List (Text × Option Ty × Option DefId) :=
  m.items.filterMap fun st =>
    match Stmt.kind st with
    | .fnDef (.mk name _ _ _) => some (name, typeOf ctx name, ctx.bindingDefs (String.ofList name))
    | _ => none

/-- The old rows of redefined functions are dropped before the check. -/
def dropPrior (ctx : TypeCheckCtx) (prior : List (Text × Option Ty × Option DefId)) : TypeCheckCtx :=
  prior.foldl (fun ctx p =>
    match p.2.2 with
    | some id => ctx.invalidateDef id
    | none => ctx) ctx

/-- `FileId::SYNTHETIC`. -/
def syntheticFile : FileKey := 0

/-- `check_incremental`; its errors are swallowed. -/
def checkIncremental (tools : Tools F) (ctx : TypeCheckCtx) (m : Ast.Module) : TypeCheckCtx :=
  match checkModule tools.checkOther m with
  | some typed => ctx.mergeModule typed syntheticFile
  | none => ctx

/-- The check of an input beside its evaluation, with the notices about functions. -/
def typePass (tools : Tools F) (ctx : TypeCheckCtx) (input : Text) : TypeCheckCtx × List RedefineOutcome :=
  if isBlank input then (ctx, [])
  else
    match tools.parse (wrapForTypecheckStmts input) with
    | .error _ => (ctx, [])
    | .ok m =>
      let prior := priorFns ctx m
      let ctx := checkIncremental tools (dropPrior ctx prior) m
      (ctx, (prior.map fun p => classify p.1 p.2.1 (typeOf ctx p.1)).filter fun o => !o.isCreated)

/-- `extract_repl_body_stmts`: the body of `_repl`, without the `return` behind it. -/
def extractReplBodyStmts (m : Ast.Module) : Option (List Ast.Stmt) :=
  m.items.findSome? fun st =>
    match Stmt.kind st with
    | .fnDef (.mk name _ _ (.mk stmts _)) =>
      if name = "_repl".toList then
        match stmts.getLast?.map Stmt.kind with
        | some (.returnStmt _) => some stmts.dropLast
        | _ => some stmts
      else none
    | _ => none

/-- The name of a directive and its argument. -/
def splitDirective (rest : Text) : Text × Text :=
  (rest.takeWhile (!Text.isWhitespace ·), Text.trim (rest.dropWhile (!Text.isWhitespace ·)))

def inspections : List (Text × Inspection) :=
  [("type".toList, .type), ("ast".toList, .ast), ("hir".toList, .hir), ("mir".toList, .mir)]

namespace Session

variable (tools : Tools F) (s : Session F)

def handleDirective (rest : Text) : Session F × StepResult F :=
  let (name, arg) := splitDirective rest
  if name = "quit".toList ∨ name = "q".toList ∨ name = "exit".toList then (s, .quit)
  else if name = "help".toList then (s, .help)
  else if name = "clear".toList then (new, .cleared)
  else
    match inspections.lookup name with
    | none => (s, .error (.unknownDirective name))
    | some what =>
      if arg = [] then (s, .error (.missingArgument what))
      else
        match tools.inspect what s.typeCtx arg with
        | .ok text => (s, .answer text)
        | .error message => (s, .error (.inspection message))

/-- `evaluate_module`. The types are merged before the first statement is evaluated. -/
def evaluateModule (m : Ast.Module) (rawInput : Text) : Session F × StepResult F :=
  match extractReplBodyStmts m with
  | none => (s, .error .shapeLost)
  | some body =>
    let (ctx, outcomes) := typePass tools s.typeCtx rawInput
    match evalStmts tools.floats body s.bindings [] with
    | (bindings, .ok shown) => (⟨bindings, ctx⟩, .done outcomes.reverse shown)
    | (bindings, .error e) => (⟨bindings, ctx⟩, .error (.eval rawInput e))

def step (input : Text) : Session F × StepResult F :=
  match trimStart input with
  | ':' :: rest => s.handleDirective tools (trimStart rest)
  | _ =>
    if isBlank input then (s, .done [] [])
    else if isInputIncomplete input then (s, .incomplete)
    else
      match tools.parse (wrapForEval input) with
      | .ok m => s.evaluateModule tools m input
      | .error .unexpectedEof => (s, .incomplete)
      | .error (.other message) => (s, .error (.parse message))

/-- The session behind a sequence of inputs. -/
def run (inputs : List Text) : Session F :=
  inputs.foldl (fun s input => (s.step tools input).1) new

end Session

end Cobrust.Cli

namespace Cobrust.Cli

open Frontend (Ast.Stmt Ast.Expr Ast.Module)
open Store (Table)

variable {F : Type} {tools : Tools F}

/-! ## The two halves of a step -/

/-- What an input asks for. -/
inductive Reading where
  | clear
  | still
  | evaluates (body : List Ast.Stmt)

def reading (tools : Tools F) (input : Text) : Reading :=
  match trimStart input with
  | ':' :: rest => if (splitDirective (trimStart rest)).1 = "clear".toList then .clear else .still
  | _ =>
    if isBlank input ∨ isInputIncomplete input then .still
    else
      match tools.parse (wrapForEval input) with
      | .ok m => (extractReplBodyStmts m).elim .still .evaluates
      | .error _ => .still

def valuesAfter (tools : Tools F) (bindings : Table Text (Value F)) (input : Text) : Table Text (Value F) :=
  match reading tools input with
  | .clear => Table.empty
  | .still => bindings
  | .evaluates body => (evalStmts tools.floats body bindings []).1

def typesAfter (tools : Tools F) (ctx : TypeCheckCtx) (input : Text) : TypeCheckCtx :=
  match reading tools input with
  | .clear => .new
  | .still => ctx
  | .evaluates _ => (typePass tools ctx input).1

/-- The session behind a step, from what its input asks for. -/
def Session.after (tools : Tools F) (s : Session F) (input : Text) : Reading → Session F
  | .clear => new
  | .still => s
  | .evaluates body => ⟨(evalStmts tools.floats body s.bindings []).1, (typePass tools s.typeCtx input).1⟩

variable {s : Session F} {input : Text}

theorem handleDirective_state (rest : Text) : (s.handleDirective tools rest).1 =
    if (splitDirective rest).1 = "clear".toList then .new else s := by
  rw [Session.handleDirective]
  split
  next name arg hsplit =>
    rw [hsplit]
    by_cases hclear : name = "clear".toList
    · subst hclear
      rfl
    · rw [if_neg hclear, if_neg hclear]
      split
      · rfl
      · split
        · rfl
        · split
          · rfl
          · split
            · rfl
            · split <;> rfl

theorem step_directive {rest : Text} (h : trimStart input = ':' :: rest) :
    s.step tools input = s.handleDirective tools (trimStart rest) := by
  rw [Session.step, h]
  rfl

theorem reading_directive {rest : Text} (h : trimStart input = ':' :: rest) :
    reading tools input = if (splitDirective (trimStart rest)).1 = "clear".toList then .clear else .still := by
  rw [reading, h]
  rfl

theorem step_statements (h : ∀ rest, trimStart input ≠ ':' :: rest) : s.step tools input =
    if isBlank input then (s, .done [] [])
    else if isInputIncomplete input then (s, .incomplete)
    else
      match tools.parse (wrapForEval input) with
      | .ok m => s.evaluateModule tools m input
      | .error .unexpectedEof => (s, .incomplete)
      | .error (.other message) => (s, .error (.parse message)) := by
  rw [Session.step]
  split
  next rest hrest => exact absurd hrest (h rest)
  next => rfl

theorem reading_statements (h : ∀ rest, trimStart input ≠ ':' :: rest) : reading tools input =
    if isBlank input ∨ isInputIncomplete input then .still
    else
      match tools.parse (wrapForEval input) with
      | .ok m => (extractReplBodyStmts m).elim .still .evaluates
      | .error _ => .still := by
  rw [reading]
  split
  next rest hrest => exact absurd hrest (h rest)
  next => rfl

/-- What a step comes to: a directive or an input that is not evaluated leaves the session or clears it. -/
theorem step_cases : (reading tools input = .clear ∧ s.step tools input = (.new, .cleared)) ∨
    (reading tools input = .still ∧ (s.step tools input).1 = s) ∨
    ∃ m body, reading tools input = .evaluates body ∧ extractReplBodyStmts m = some body ∧
      s.step tools input = s.evaluateModule tools m input := by
  by_cases hdirective : ∃ rest, trimStart input = ':' :: rest
  · obtain ⟨rest, hrest⟩ := hdirective
    have hstate := @handleDirective_state F tools s (trimStart rest)
    rw [step_directive hrest, reading_directive hrest]
    by_cases hclear : (splitDirective (trimStart rest)).1 = "clear".toList
    · refine Or.inl ⟨if_pos hclear, ?_⟩
      rw [Session.handleDirective]
      cases hsplit : splitDirective (trimStart rest) with
      | mk name arg =>
        rw [hsplit] at hclear
        subst hclear
        rfl
    · rw [if_neg hclear] at hstate
      exact Or.inr (Or.inl ⟨if_neg hclear, hstate⟩)
  · have hnot : ∀ rest, trimStart input ≠ ':' :: rest := fun rest hrest => hdirective ⟨rest, hrest⟩
    rw [step_statements hnot, reading_statements hnot]
    by_cases hblank : isBlank input
    · exact Or.inr (Or.inl ⟨if_pos (Or.inl hblank), by rw [if_pos hblank]⟩)
    · by_cases hopen : isInputIncomplete input
      · exact Or.inr (Or.inl ⟨if_pos (Or.inr hopen), by rw [if_neg hblank, if_pos hopen]⟩)
      · rw [if_neg hblank, if_neg hopen, if_neg (not_or.2 ⟨hblank, hopen⟩)]
        cases hparse : tools.parse (wrapForEval input) with
        | ok m =>
          dsimp only
          cases hbody : extractReplBodyStmts m with
          | none => exact Or.inr (Or.inl ⟨rfl, by rw [Session.evaluateModule, hbody]⟩)
          | some body => exact Or.inr (Or.inr ⟨m, body, rfl, hbody, rfl⟩)
        | error failure => cases failure <;> exact Or.inr (Or.inl ⟨rfl, rfl⟩)

/-- The evaluation of a body, and the check beside it. -/
theorem evaluateModule_eq {m : Ast.Module} {body : List Ast.Stmt} (h : extractReplBodyStmts m = some body) :
    (s.evaluateModule tools m input).1 =
        ⟨(evalStmts tools.floats body s.bindings []).1, (typePass tools s.typeCtx input).1⟩ ∧
      ∀ e, (s.evaluateModule tools m input).2 = .error e ↔
        ∃ why, (evalStmts tools.floats body s.bindings []).2 = .error why ∧ e = .eval input why := by
  rw [Session.evaluateModule, h]
  dsimp only
  cases evalStmts tools.floats body s.bindings [] with
  | mk bindings result =>
    cases result with
    | ok shown =>
      refine ⟨rfl, fun e => iff_of_false (fun h => by cases h) ?_⟩
      rintro ⟨why, hwhy, -⟩
      cases hwhy
    | error why =>
      refine ⟨rfl, fun e => ⟨fun h => ⟨why, rfl, (StepResult.error.inj h).symm⟩, ?_⟩⟩
      rintro ⟨why', hwhy, rfl⟩
      cases hwhy
      rfl

/-- A step moves the values and the types on their own. -/
theorem step_state : (s.step tools input).1 = ⟨valuesAfter tools s.bindings input, typesAfter tools s.typeCtx input⟩ := by
  rw [valuesAfter, typesAfter]
  obtain ⟨hreading, hstep⟩ | ⟨hreading, hstep⟩ | ⟨m, body, hreading, hbody, hstep⟩ := @step_cases F tools s input
  · rw [hreading, hstep]
    rfl
  · rw [hreading, hstep]
  · rw [hreading, hstep, (evaluateModule_eq hbody).1]

theorem run_state (inputs : List Text) : Session.run tools inputs =
    ⟨inputs.foldl (valuesAfter tools) Table.empty, inputs.foldl (typesAfter tools) .new⟩ := by
  induction inputs using List.reverseRecOn with
  | nil => rfl
  | append_singleton inputs input ih =>
    rw [Session.run, List.foldl_concat, List.foldl_concat, List.foldl_concat, step_state]
    rw [Session.run] at ih
    rw [ih]

/-- A statement that binds the name. -/
def bindsName (n : Text) (st : Ast.Stmt) : Bool :=
  match Stmt.kind st with
  | .letStmt (.mk (.binding n') _) _ _ => n' = n
  | _ => false

theorem evalStmt_other {fl : Floats F} {b b' : Table Text (Value F)} {st : Ast.Stmt} {shown : Option (Value F)} {n : Text}
    (h : evalStmt fl b st = .ok (b', shown)) (hn : bindsName n st = false) : b' n = b n := by
  obtain ⟨kind, span⟩ := st
  rw [evalStmt] at h
  rw [bindsName] at hn
  cases kind with
  | letStmt target annot value =>
    obtain ⟨v, hv, h⟩ := Control.except_bind_ok.1 h
    obtain ⟨pkind, pspan⟩ := target
    cases pkind with
    | binding n' =>
      cases h
      have hne : n ≠ n' := fun heq => of_decide_eq_false hn heq.symm
      exact Table.insert_of_ne hne
    | _ => cases h
  | expr e =>
    obtain ⟨v, hv, h⟩ := Control.except_bind_ok.1 h
    cases h
    rfl
  | pass =>
    cases h
    rfl
  | _ => cases h

/-- The values of the names that no statement binds stay. -/
theorem evalStmts_other {fl : Floats F} {body : List Ast.Stmt} {n : Text} (hn : ∀ st ∈ body, bindsName n st = false)
    (b : Table Text (Value F)) (out : List (Value F)) : (evalStmts fl body b out).1 n = b n := by
  induction body generalizing b out with
  | nil => rfl
  | cons st rest ih =>
    rw [evalStmts]
    have hrest := ih fun st' hst => hn st' (List.mem_cons_of_mem _ hst)
    split
    next b' shown hstmt => rw [hrest, evalStmt_other hstmt (hn st List.mem_cons_self)]
    next e hstmt =>
      split
      · exact hrest b out
      · rfl

/-- An evaluation that fails has gone through the statements before the one that fails. -/
theorem evalStmts_error {fl : Floats F} {body : List Ast.Stmt} {why : EvalError F} (b : Table Text (Value F))
    (out : List (Value F)) (h : (evalStmts fl body b out).2 = .error why) :
    ∃ front st back, body = front ++ st :: back ∧ isFn st = false ∧
      (evalStmts fl body b out).1 = (evalStmts fl front b out).1 ∧
      (∃ shown, (evalStmts fl front b out).2 = .ok shown) ∧
      evalStmt fl (evalStmts fl front b out).1 st = .error why := by
  induction body generalizing b out with
  | nil => cases h
  | cons st rest ih =>
    rw [evalStmts] at h ⊢
    cases hstmt : evalStmt fl b st with
    | ok next =>
      obtain ⟨b', shown⟩ := next
      rw [hstmt] at h
      obtain ⟨front, st', back, rfl, hfn, hstate, hok, hfail⟩ := ih b' (out ++ shown.toList) h
      refine ⟨st :: front, st', back, rfl, hfn, ?_⟩
      rw [evalStmts, hstmt]
      exact ⟨hstate, hok, hfail⟩
    | error e =>
      rw [hstmt] at h
      dsimp only at h ⊢
      by_cases hst : isFn st
      · rw [if_pos hst] at h ⊢
        obtain ⟨front, st', back, rfl, hfn, hstate, hok, hfail⟩ := ih b out h
        refine ⟨st :: front, st', back, rfl, hfn, ?_⟩
        rw [evalStmts, hstmt]
        dsimp only
        rw [if_pos hst]
        exact ⟨hstate, hok, hfail⟩
      · rw [if_neg hst] at h ⊢
        cases h
        exact ⟨[], st, rest, rfl, Bool.eq_false_iff.2 hst, rfl, ⟨out, rfl⟩, hstmt⟩

/-! ## The types of values -/

def valueTy : Value F → Ty
  | .int _ => .int
  | .float _ => .float
  | .bool _ => .bool
  | .str _ => .str
  | .none => .none

/-- One expression, parsed twice: equal up to spans, and plain. -/
inductive SameExpr : Ast.Expr → Ast.Expr → Prop
  | literal {span span' : Span} (lit : Frontend.Ast.Literal) : SameExpr (.mk (.literal lit) span) (.mk (.literal lit) span')
  | fString {span span' : Span} (parts : List Frontend.Ast.FStrPart) (hparts : plainParts parts = true) :
    SameExpr (.mk (.fString parts) span) (.mk (.fString parts) span')
  | name {span span' : Span} (n : Text) : SameExpr (.mk (.name n) span) (.mk (.name n) span')
  | binary {span span' : Span} {l l' r r' : Ast.Expr} (op : Frontend.Ast.BinOp) (hl : SameExpr l l') (hr : SameExpr r r') :
    SameExpr (.mk (.binary op l r) span) (.mk (.binary op l' r') span')
  | unary {span span' : Span} {e e' : Ast.Expr} (op : Frontend.Ast.UnaryOp) (he : SameExpr e e') :
    SameExpr (.mk (.unary op e) span) (.mk (.unary op e') span')

inductive SameStmt : Ast.Stmt → Ast.Stmt → Prop
  | letStmt {span span' pspan pspan' : Span} {e e' : Ast.Expr} (n : Text) (he : SameExpr e e') :
    SameStmt (.mk (.letStmt (.mk (.binding n) pspan) none e) span) (.mk (.letStmt (.mk (.binding n) pspan') none e') span')
  | expr {span span' : Span} {e e' : Ast.Expr} (he : SameExpr e e') : SameStmt (.mk (.expr e) span) (.mk (.expr e') span')
  | pass {span span' : Span} : SameStmt (.mk .pass span) (.mk .pass span')

theorem litType_of_eval {fl : Floats F} {lit : Frontend.Ast.Literal} {v : Value F} (h : evalLiteral fl lit = .ok v) :
    litType (lowerLiteral lit) = valueTy v := by
  cases lit with
  | int s =>
    rw [evalLiteral] at h
    split at h <;> cases h
    rfl
  | float s =>
    rw [evalLiteral] at h
    split at h <;> cases h
    rfl
  | _ => cases h <;> rfl

/-- An operator that evaluates and is checked gives a value of its type. -/
theorem synthBin_of_eval {fl : Floats F} {op : Frontend.Ast.BinOp} {a b v : Value F} {rhs : Hir.Expr} {t : Ty}
    (h : evalBinary fl op a b = .ok v) (ht : synthBin (lowerBinOp op) rhs (valueTy a) (valueTy b) = some t) :
    valueTy v = t := by
  have hcmp : ∀ {c : Bool} {x y : Ty}, (if sameBase x y && !sameBase .bytes x then some Ty.bool else none) = some t →
      valueTy (.bool c : Value F) = t := by
    intro c x y hif
    split at hif
    · exact Option.some.inj hif
    · cases hif
  unfold evalBinary at h
  split at h
  all_goals first
    | cases h; exact hcmp ht
    | cases h; exact Option.some.inj ht
    | split at h <;> cases h; exact Option.some.inj ht
    | cases h

theorem synthUn_of_eval {op : Frontend.Ast.UnaryOp} {fl : Floats F} {a v : Value F} {t : Ty}
    (h : evalUnary fl op a = .ok v) (ht : synthUn (lowerUnaryOp op) (valueTy a) = some t) : valueTy v = t := by
  unfold evalUnary at h
  split at h <;> cases h <;> exact Option.some.inj ht

/-- Every name in the scope has a value, and its definition has the type of it. -/
def ScopeTyped (scope : Table Text DefId) (types : Table DefId Ty) (b : Table Text (Value F)) : Prop :=
  ∀ n id, scope n = some id → ∃ v, b n = some v ∧ types id = some (valueTy v)

theorem valueTy_of_eval {fl : Floats F} {scope : Table Text DefId} {types : Table DefId Ty} {b : Table Text (Value F)}
    {e e' : Ast.Expr} {h : Hir.Expr} {t : Ty} {v : Value F} (hscope : ScopeTyped scope types b) (he : SameExpr e e')
    (hlower : lowerExpr scope e' = some h) (ht : synthExpr types h = some t) (hv : evalExpr fl b e = .ok v) :
    valueTy v = t := by
  induction he generalizing h t v with
  | literal lit =>
    cases hlower
    cases ht
    exact (litType_of_eval hv).symm
  | fString parts hparts' =>
    cases hlower
    cases ht
    rw [evalExpr, evalKind] at hv
    cases hparts : (joinParts parts : Except (EvalError F) Text) with
    | error e =>
      rw [hparts] at hv
      cases hv
    | ok s =>
      rw [hparts] at hv
      cases hv
      rfl
  | name n =>
    obtain ⟨kind, hkind, rfl⟩ := Option.map_eq_some_iff.1 hlower
    obtain ⟨id, hid, rfl⟩ := Option.map_eq_some_iff.1 hkind
    obtain ⟨v', hv', htypes⟩ := hscope n id hid
    rw [evalExpr, evalKind, hv'] at hv
    cases hv
    exact Option.some.inj (htypes.symm.trans ht)
  | binary op hl hr ihl ihr =>
    obtain ⟨kind, hkind, rfl⟩ := Option.map_eq_some_iff.1 hlower
    obtain ⟨l, hl', hkind⟩ := Option.bind_eq_some_iff.1 hkind
    obtain ⟨r, hr', hkind⟩ := Option.bind_eq_some_iff.1 hkind
    cases hkind
    obtain ⟨lt, hlt, ht⟩ := Option.bind_eq_some_iff.1 ht
    obtain ⟨rt, hrt, ht⟩ := Option.bind_eq_some_iff.1 ht
    obtain ⟨a, ha, hv⟩ := Control.except_bind_ok.1 hv
    obtain ⟨c, hc, hv⟩ := Control.except_bind_ok.1 hv
    rw [← ihl hl' hlt ha, ← ihr hr' hrt hc] at ht
    exact synthBin_of_eval hv ht
  | unary op he ih =>
    obtain ⟨kind, hkind, rfl⟩ := Option.map_eq_some_iff.1 hlower
    obtain ⟨x, hx, hkind⟩ := Option.bind_eq_some_iff.1 hkind
    cases hkind
    obtain ⟨ty, hty, ht⟩ := Option.bind_eq_some_iff.1 ht
    obtain ⟨a, ha, hv⟩ := Control.except_bind_ok.1 hv
    rw [← ih hx hty ha] at ht
    exact synthUn_of_eval hv ht

/-! ## Inputs of plain statements -/

/-- What holds in front of the rest of the statements: the names of the scope have values, their definitions and their
rows have the types of them. -/
structure Aligned (scope : Table Text DefId) (next : DefId) (types : Table DefId Ty) (b : Table Text (Value F))
    (rows : Table String Ty) : Prop where
  bounded : ∀ n id, scope n = some id → id < next
  wildcard : scope ['_'] = none
  typed : ∀ n id, scope n = some id → ∃ v, b n = some v ∧ types id = some (valueTy v) ∧
    rows (String.ofList n) = some (valueTy v)

namespace Aligned

variable {scope : Table Text DefId} {next : DefId} {types : Table DefId Ty} {b : Table Text (Value F)}
  {rows : Table String Ty}

theorem empty (types : Table DefId Ty) (b : Table Text (Value F)) (rows : Table String Ty) :
    Aligned Table.empty 0 types b rows where
  bounded n id h := by cases h
  wildcard := rfl
  typed n id h := by cases h

theorem scopeTyped (h : Aligned scope next types b rows) : ScopeTyped scope types b := by
  intro n id hid
  obtain ⟨v, hv, ht, -⟩ := h.typed n id hid
  exact ⟨v, hv, ht⟩

/-- A `let` of a name brings its value, its type and its row. -/
theorem insert (h : Aligned scope next types b rows) {n : Text} (hn : n ≠ ['_']) (v : Value F) :
    Aligned (scope.insert n next) (next + 1) (types.insert next (valueTy v)) (b.insert n v)
      (rows.insert (String.ofList n) (valueTy v)) where
  bounded n' id hid := by
    by_cases heq : n' = n
    · subst heq
      rw [Table.insert_self] at hid
      cases hid
      exact Nat.lt_succ_self _
    · rw [Table.insert_of_ne heq] at hid
      exact (h.bounded n' id hid).trans (Nat.lt_succ_self _)
  wildcard := by
    rw [Table.insert_of_ne hn.symm]
    exact h.wildcard
  typed n' id hid := by
    by_cases heq : n' = n
    · subst heq
      rw [Table.insert_self] at hid
      cases hid
      exact ⟨v, Table.insert_self _ _ _, Table.insert_self _ _ _, Table.insert_self _ _ _⟩
    · rw [Table.insert_of_ne heq] at hid
      obtain ⟨v', hv', ht', hrow'⟩ := h.typed n' id hid
      have hid' : id ≠ next := Nat.ne_of_lt (h.bounded n' id hid)
      have hname : String.ofList n' ≠ String.ofList n := fun hname => heq (String.ofList_injective hname)
      refine ⟨v', ?_, ?_, ?_⟩
      · rw [Table.insert_of_ne heq, hv']
      · rw [Table.insert_of_ne hid', ht']
      · rw [Table.insert_of_ne hname, hrow']

theorem insertWildcard (h : Aligned scope next types b rows) (v : Value F) :
    Aligned scope (next + 1) types (b.insert ['_'] v) rows where
  bounded n id hid := (h.bounded n id hid).trans (Nat.lt_succ_self _)
  wildcard := h.wildcard
  typed n id hid := by
    obtain ⟨v', hv', ht', hrow'⟩ := h.typed n id hid
    have hn : n ≠ ['_'] := by
      rintro rfl
      rw [h.wildcard] at hid
      cases hid
    exact ⟨v', by rw [Table.insert_of_ne hn, hv'], ht', hrow'⟩

end Aligned

/-- An evaluation that does not fail goes on behind its first statement. -/
theorem evalStmts_cons {fl : Floats F} {st : Ast.Stmt} {body : List Ast.Stmt} {b : Table Text (Value F)}
    {out outF : List (Value F)} (h : (evalStmts fl (st :: body) b out).2 = .ok outF) (hst : isFn st = false) :
    ∃ b' shown, evalStmt fl b st = .ok (b', shown) ∧
      evalStmts fl (st :: body) b out = evalStmts fl body b' (out ++ shown.toList) := by
  rw [evalStmts] at h ⊢
  cases hstmt : evalStmt fl b st with
  | ok next => exact ⟨next.1, next.2, rfl, rfl⟩
  | error e =>
    rw [hstmt] at h
    dsimp only at h
    rw [hst] at h
    cases h

/-- The names that have a value and a row of its type behind the statements. -/
def Settles (scope : Table Text DefId) (body : List Ast.Stmt) (n : Text) : Prop :=
  (scope n).isSome ∨ n ≠ ['_'] ∧ ∃ st ∈ body, bindsName n st = true

theorem Settles.of_cons {scope : Table Text DefId} {st : Ast.Stmt} {body : List Ast.Stmt} {n : Text}
    (h : Settles scope (st :: body) n) (hst : n ≠ ['_'] → bindsName n st = false) : Settles scope body n := by
  rcases h with h | ⟨hn, st', hmem, hbinds⟩
  · exact Or.inl h
  · rcases List.mem_cons.1 hmem with rfl | hmem
    · rw [hst hn] at hbinds
      cases hbinds
    · exact Or.inr ⟨hn, st', hmem, hbinds⟩

theorem plainStmts_settle {fl : Floats F} {body stmts : List Ast.Stmt} (hsame : List.Forall₂ SameStmt body stmts)
    {scope : Table Text DefId} {next : DefId} {types typesF : Table DefId Ty} {b : Table Text (Value F)}
    {items : List Hir.Item} {rows : ItemRows} {out outF : List (Value F)}
    (hlower : lowerStmts stmts scope next = some items) (hcheck : checkItems items types = some typesF)
    (heval : (evalStmts fl body b out).2 = .ok outF) (h : Aligned scope next types b rows.bindings) :
    (∀ id < next, typesF id = types id) ∧ ∀ n, Settles scope body n → ∃ v, (evalStmts fl body b out).1 n = some v ∧
      (items.foldl (ItemRows.mergeItem typesF) rows).bindings (String.ofList n) = some (valueTy v) := by
  induction hsame generalizing scope next types b items rows out with
  | nil =>
    cases hlower
    cases hcheck
    refine ⟨fun _ _ => rfl, fun n hn => ?_⟩
    rcases hn with hn | ⟨-, st, hst, -⟩
    · obtain ⟨id, hid⟩ := Option.isSome_iff_exists.1 hn
      obtain ⟨v, hv, -, hrow⟩ := h.typed n id hid
      exact ⟨v, hv, hrow⟩
    · cases hst
  | @cons st st' body stmts hst hrest ih =>
    cases hst with
    | @pass span span' =>
      obtain ⟨b', shown, hstmt, hstep⟩ := evalStmts_cons heval rfl
      cases hstmt
      rw [hstep] at heval ⊢
      obtain ⟨hkeep, hsettle⟩ := ih hlower hcheck heval h
      exact ⟨hkeep, fun n hn => hsettle n (hn.of_cons fun _ => rfl)⟩
    | @expr span span' e e' he =>
      obtain ⟨b', shown, hstmt, hstep⟩ := evalStmts_cons heval rfl
      obtain ⟨v, -, hstmt⟩ := Control.except_bind_ok.1 hstmt
      cases hstmt
      obtain ⟨x, -, hbind⟩ := Option.bind_eq_some_iff.1 hlower
      obtain ⟨items', hlower', hitems⟩ := Option.bind_eq_some_iff.1 hbind
      cases hitems
      obtain ⟨ty, -, hcheck'⟩ := Option.bind_eq_some_iff.1 hcheck
      rw [hstep] at heval ⊢
      obtain ⟨hkeep, hsettle⟩ := ih hlower' hcheck' (by simpa using heval) h
      exact ⟨hkeep, fun n hn => hsettle n (hn.of_cons fun _ => rfl)⟩
    | @letStmt span span' pspan pspan' e e' m he =>
      obtain ⟨b', shown, hstmt, hstep⟩ := evalStmts_cons heval rfl
      obtain ⟨v, hv, hstmt⟩ := Control.except_bind_ok.1 hstmt
      cases hstmt
      obtain ⟨x, hx, hbind⟩ := Option.bind_eq_some_iff.1 hlower
      obtain ⟨items', hlower', hitems⟩ := Option.bind_eq_some_iff.1 hbind
      cases hitems
      obtain ⟨ty, hty, hcheck'⟩ := Option.bind_eq_some_iff.1 hcheck
      obtain rfl := valueTy_of_eval h.scopeTyped he hx hty hv
      rw [hstep] at heval ⊢
      by_cases hm : m = ['_']
      · subst hm
        obtain ⟨hkeep, hsettle⟩ := ih hlower' hcheck' heval (h.insertWildcard v)
        refine ⟨fun id hid => hkeep id (hid.trans (Nat.lt_succ_self _)), fun n hn => hsettle n (hn.of_cons fun hne => ?_)⟩
        exact decide_eq_false fun heq => hne heq.symm
      · simp only [if_neg hm] at hlower' hcheck' ⊢
        have haligned := h.insert hm v
        obtain ⟨hkeep, -⟩ := @ih _ _ _ _ _ ⟨_, rows.bindingDefs, rows.owned⟩ _ hlower' hcheck' heval haligned
        have htype : typesF next = some (valueTy v) := by
          rw [hkeep next (Nat.lt_succ_self _), Table.insert_self]
        have hrows : (rows.bind typesF (String.ofList m) next).bindings =
            rows.bindings.insert (String.ofList m) (valueTy v) := by
          rw [ItemRows.bind, htype]
        obtain ⟨-, hsettle⟩ := @ih _ _ _ _ _ ((rows.bind typesF (String.ofList m) next).own next) _ hlower' hcheck' heval
          (hrows ▸ haligned)
        refine ⟨fun id hid => ?_, fun n hn => hsettle n ?_⟩
        · rw [hkeep id (hid.trans (Nat.lt_succ_self _)), Table.insert_of_ne (Nat.ne_of_lt hid)]
        · by_cases hnm : n = m
          · subst hnm
            exact Or.inl (by rw [Table.insert_self]; rfl)
          · have hrest' := hn.of_cons fun _ => decide_eq_false fun heq => hnm heq.symm
            refine hrest'.imp (fun hsome => ?_) id
            rwa [Table.insert_of_ne hnm]

theorem SameExpr.isPlain {e e' : Ast.Expr} (h : SameExpr e e') : isPlain e' = true := by
  induction h with
  | literal lit => rfl
  | fString parts hparts => exact hparts
  | name n => rfl
  | binary op hl hr ihl ihr =>
    rw [Cli.isPlain, isPlainKind, ihl, ihr]
    rfl
  | unary op he ih => exact ih

theorem SameStmt.isPlainStmt {st st' : Ast.Stmt} (h : SameStmt st st') : isPlainStmt st' = true := by
  cases h with
  | letStmt n he => exact he.isPlain
  | expr he => exact he.isPlain
  | pass => rfl

theorem all_isPlainStmt {body stmts : List Ast.Stmt} (h : List.Forall₂ SameStmt body stmts) :
    stmts.all isPlainStmt = true := by
  induction h with
  | nil => rfl
  | cons hst _ ih => rw [List.all_cons, hst.isPlainStmt, ih, Bool.and_self]

theorem not_blank_of_reading {body : List Ast.Stmt} (h : reading tools input = .evaluates body) : isBlank input = false := by
  by_cases hdirective : ∃ rest, trimStart input = ':' :: rest
  · obtain ⟨rest, hrest⟩ := hdirective
    rw [reading_directive hrest] at h
    split at h <;> cases h
  · rw [reading_statements fun rest hrest => hdirective ⟨rest, hrest⟩] at h
    by_contra hblank
    rw [if_pos (Or.inl (eq_true_of_ne_false hblank))] at h
    cases h

/-! ## Sessions -/

/-- The value of the name, if it has one, has the type of its row. -/
def Consistent (s : Session F) (n : Text) : Prop :=
  ∀ v, s.bindings n = some v → typeOf s.typeCtx n = some (valueTy v)

/-- The input is made of plain statements, both as it is evaluated and as it is checked, the check accepts it, its
evaluation comes to the end, and it binds the name. -/
def PlainFor (tools : Tools F) (s : Session F) (n : Text) (input : Text) : Prop :=
  ∃ body m, reading tools input = .evaluates body ∧ tools.parse (wrapForTypecheckStmts input) = .ok m ∧
    List.Forall₂ SameStmt body m.items ∧ (checkModule tools.checkOther m).isSome ∧
    (∃ shown, (evalStmts tools.floats body s.bindings []).2 = .ok shown) ∧ n ≠ ['_'] ∧ ∃ st ∈ body, bindsName n st = true

/-- The step changes neither the value of the name nor its row. -/
def LeavesAlone (tools : Tools F) (s : Session F) (n : Text) (input : Text) : Prop :=
  (s.step tools input).1.bindings n = s.bindings n ∧ typeOf (s.step tools input).1.typeCtx n = typeOf s.typeCtx n

/-- The evaluation of an input has failed at one of its statements, behind those before it. -/
def FailsAt (tools : Tools F) (s : Session F) (input : Text) (e : StepError F) (s' : Session F) : Prop :=
  ∃ front st back why, reading tools input = .evaluates (front ++ st :: back) ∧ e = .eval input why ∧ isFn st = false ∧
    (∃ shown, (evalStmts tools.floats front s.bindings []).2 = .ok shown) ∧
    evalStmt tools.floats s'.bindings st = .error why ∧
    s' = ⟨(evalStmts tools.floats front s.bindings []).1, (typePass tools s.typeCtx input).1⟩ ∧
    ∀ n, (∀ st ∈ front, bindsName n st = false) → s'.bindings n = s.bindings n

theorem step_error {e : StepError F} (h : (s.step tools input).2 = .error e) :
    (s.step tools input).1 = s ∨ FailsAt tools s input e (s.step tools input).1 := by
  obtain ⟨-, hstep⟩ | ⟨-, hstep⟩ | ⟨m, body, hreading, hbody, hstep⟩ := @step_cases F tools s input
  · rw [hstep] at h
    cases h
  · exact Or.inl hstep
  · rw [hstep] at h ⊢
    obtain ⟨hstate, herror⟩ := @evaluateModule_eq F tools s input m body hbody
    obtain ⟨why, hwhy, rfl⟩ := (herror e).1 h
    obtain ⟨front, st, back, rfl, hfn, hfront, hok, hfail⟩ := evalStmts_error s.bindings [] hwhy
    rw [hstate, hfront]
    exact Or.inr ⟨front, st, back, why, hreading, rfl, hfn, hok, hfail, rfl, fun n hn => evalStmts_other hn _ _⟩

theorem consistent_of_plainFor {n : Text} (h : PlainFor tools s n input) : Consistent (s.step tools input).1 n := by
  obtain ⟨body, m, hreading, hparse, hsame, hcheck, ⟨shown, heval⟩, hn, hbinds⟩ := h
  obtain ⟨typed, htyped⟩ := Option.isSome_iff_exists.1 hcheck
  have hchecked := htyped
  rw [checkModule, if_pos (all_isPlainStmt hsame)] at hchecked
  obtain ⟨items, hitems, hbind⟩ := Option.bind_eq_some_iff.1 hchecked
  obtain ⟨types, htypes, hpure⟩ := Option.bind_eq_some_iff.1 hbind
  cases hpure
  intro v hv
  rw [step_state] at hv ⊢
  rw [valuesAfter, hreading] at hv
  rw [typesAfter, hreading]
  dsimp only at hv ⊢
  rw [typePass, if_neg (Bool.eq_false_iff.1 (not_blank_of_reading hreading)), hparse]
  dsimp only
  rw [checkIncremental, htyped]
  obtain ⟨-, hsettle⟩ := @plainStmts_settle F _ _ _ hsame _ _ _ _ _ _
    ⟨(dropPrior s.typeCtx (priorFns s.typeCtx m)).bindings, (dropPrior s.typeCtx (priorFns s.typeCtx m)).bindingDefs, []⟩
    _ _ hitems htypes heval (.empty _ _ _)
  obtain ⟨v', hv', hrow⟩ := hsettle n (Or.inr ⟨hn, hbinds⟩)
  obtain rfl := Option.some.inj (hv'.symm.trans hv)
  exact hrow

theorem consistent_run {n : Text} (inputs : List Text)
    (h : ∀ front input back, inputs = front ++ input :: back →
      PlainFor tools (Session.run tools front) n input ∨ LeavesAlone tools (Session.run tools front) n input) :
    Consistent (Session.run tools inputs) n := by
  induction inputs using List.reverseRecOn with
  | nil => exact fun v hv => by cases hv
  | append_singleton inputs input ih =>
    have hlast : Session.run tools (inputs ++ [input]) = ((Session.run tools inputs).step tools input).1 := by
      rw [Session.run, List.foldl_concat]
      rfl
    rw [hlast]
    rcases h inputs input [] rfl with hplain | ⟨hvalue, htype⟩
    · exact consistent_of_plainFor hplain
    · have hbefore := ih fun front input' back heq => h front input' (back ++ [input]) (by rw [heq]; simp)
      intro v hv
      rw [hvalue] at hv
      rw [htype]
      exact hbefore v hv

/-- Sessions of the REPL: values and types move on their own; a step that fails leaves both as they were, or has evaluated
the statements before one that fails; and the value of a name has the type of its row as long as each input that touches
one of them is a plain one that is checked and evaluated to its end. -/
theorem session_runs (tools : Tools F) :
    (∀ inputs, Session.run tools inputs =
      ⟨inputs.foldl (valuesAfter tools) Table.empty, inputs.foldl (typesAfter tools) .new⟩) ∧
    (∀ s input e, (s.step tools input).2 = .error e →
      (s.step tools input).1 = s ∨ FailsAt tools s input e (s.step tools input).1) ∧
    ∀ inputs n, (∀ front input back, inputs = front ++ input :: back →
        PlainFor tools (Session.run tools front) n input ∨ LeavesAlone tools (Session.run tools front) n input) →
      Consistent (Session.run tools inputs) n :=
  ⟨run_state, fun _ _ _ => step_error, fun inputs _ => consistent_run inputs⟩

/-- A module of one statement, as the check gets it and as the evaluation does. -/
def bareModule (kind : Frontend.Ast.StmtKind) : Ast.Module :=
  ⟨none, [.mk kind .synthetic], .synthetic⟩

def wrappedModule (kind : Frontend.Ast.StmtKind) : Ast.Module :=
  bareModule (.fnDef (.mk "_repl".toList .empty (some (.mk (.name ["i64".toList]) .synthetic))
    (.mk [.mk kind .synthetic, .mk (.returnStmt (some (.mk (.literal (.int ['0'])) .synthetic))) .synthetic] .synthetic)))

/-- `let x = ` and an expression. -/
def letX (value : Frontend.Ast.ExprKind) : Frontend.Ast.StmtKind :=
  .letStmt (.mk (.binding ['x']) .synthetic) none (.mk value .synthetic)

def quotient : Frontend.Ast.ExprKind :=
  .binary .div (.mk (.literal (.int ['1'])) .synthetic) (.mk (.literal (.int ['0'])) .synthetic)

/-- Tools that parse `let x = True` and `let x = 1 / 0`. -/
def twoLets : Tools Unit where
  floats :=
    { parse := fun _ => .ok (), add := fun _ _ => (), sub := fun _ _ => (), mul := fun _ _ => (), div := fun _ _ => (),
      neg := fun _ => (), eq := fun _ _ => true, lt := fun _ _ => false, le := fun _ _ => true }
  parse text :=
    if text = wrapForEval "let x = True".toList then .ok (wrappedModule (letX (.literal (.bool true))))
    else if text = "let x = True\n".toList then .ok (bareModule (letX (.literal (.bool true))))
    else if text = wrapForEval "let x = 1 / 0".toList then .ok (wrappedModule (letX quotient))
    else if text = "let x = 1 / 0\n".toList then .ok (bareModule (letX quotient))
    else .error (.other [])
  checkOther _ := none
  inspect _ _ _ := .error []

/-- Behind `let x = True` the value of `x` has the type of its row. -/
theorem session_runs_let : Consistent (Session.run twoLets ["let x = True".toList]) ['x'] := by
  refine (session_runs twoLets).2.2 _ _ fun front input back heq => Or.inl ?_
  cases front with
  | nil =>
    cases heq
    exact ⟨_, _, rfl, rfl, .cons (.letStmt ['x'] (.literal (.bool true))) .nil, rfl, ⟨[], rfl⟩, by decide, _,
      List.mem_cons_self, rfl⟩
  | cons first front =>
    obtain ⟨-, htail⟩ := List.cons.inj heq
    cases front <;> cases htail

/-- Behind `let x = True`, the step `let x = 1 / 0` fails and leaves `x` a boolean with the type of an integer. -/
theorem failed_let_changes_type :
    typeOf (Session.run twoLets ["let x = True".toList]).typeCtx ['x'] = some .bool ∧
      ((Session.run twoLets ["let x = True".toList]).step twoLets "let x = 1 / 0".toList).2 =
        .error (.eval "let x = 1 / 0".toList .divisionByZero) ∧
      (Session.run twoLets ["let x = True".toList, "let x = 1 / 0".toList]).bindings ['x'] = some (.bool true) ∧
      typeOf (Session.run twoLets ["let x = True".toList, "let x = 1 / 0".toList]).typeCtx ['x'] = some .int := by
  refine ⟨rfl, rfl, rfl, rfl⟩

end Cobrust.Cli
