import Cobrust.Build.Intrinsics
import Cobrust.Control.Outcome
import Cobrust.Mir.Points

/-!
# Intrinsics and bindings

Which modules `rewrite_print` treats as their bindings say: the calls of prelude stubs change, and no others.

* `rewritePrint_respects_iff`: that is so exactly when no other body or called local has the name of a stub in a way that
  the rewrite takes for the stub, and stubs are only called.
* `own_len_removed`: a module with a function `len` of its own.
-/

namespace Cobrust.Build

open Mir
open Control
open List (Forall₂)

/-! ## Modules with the prelude -/

/-- The functions of the prelude, of which `range` is the only one that is no stub. -/
def preludeNames : List String :=
  ["print", "input", "input_no_prompt", "read_line", "argv", "parse_int", "str_len", "str_at", "str_eq",
    "str_eq_lit", "str_ord", "parse_int_tok", "count_toks", "list_set", "list_get", "list_len", "list_is_empty",
    "list_append", "list_pop", "dict_is_empty", "len", "list_new", "print_no_nl", "range", "min", "max", "sum",
    "sorted", "sqrt", "floor", "ceil", "round", "abs", "pow", "sin", "cos", "tan", "log", "exp", "llm_complete",
    "llm_dispatch", "llm_stream", "prompt_render", "prompt_format_few_shot", "prompt_format_system_user",
    "prompt_escape_braces", "llm_complete_structured", "tool_schema", "tool_registry_new", "tool_registry_register",
    "tool_invoke", "llm_complete_with_tools", "split", "join", "replace", "trim", "lstrip", "rstrip", "count", "find",
    "contains", "starts_with", "ends_with", "lower", "upper", "bytes_from_str", "bytes_decode", "bytes_hex", "clone",
    "read_file", "read_file_lines", "write_file", "append_file", "stdin_read_all", "stdout_write", "stderr_write",
    "json_dumps", "json_dumps_indent", "json_loads"]

def isStubName (name : String) : Bool :=
  (kindForName name).isSome

def stubIds (prelude : List Body) : List DefId :=
  (prelude.filter fun b => isStubName b.name).map Body.defId

/-- The bodies that are no stubs: `range` and the items of the user. -/
def kept (prelude items : List Body) : List Body :=
  (prelude.filter fun b => !isStubName b.name) ++ items

/-- A function as a value. -/
def fnRef (d : DefId) : Operand :=
  .constant (.fnRef d)

/-- The operands of a point, at any depth. -/
def refs (p : Point) : List Operand :=
  p.operands ++ p.nestedOperands

/-- The operands of a point other than a callee. -/
def passed : Point → List Operand
  | .term (.call func args place target unwind) => args ++ (Point.term (.call func args place target unwind)).nestedOperands
  | p => refs p

def Refers (b : Body) (d : DefId) : Prop :=
  ∃ block ∈ b.blocks, ∃ p ∈ block.points, fnRef d ∈ refs p

def Passes (b : Body) (d : DefId) : Prop :=
  ∃ block ∈ b.blocks, ∃ p ∈ block.points, fnRef d ∈ passed p

/-- A call of a stub becomes one of a runtime helper, with the same destination and targets; nothing else changes. -/
def TerminatorKept (stubs : List DefId) (t t' : Terminator) : Prop :=
  match t with
  | .call (.constant (.fnRef d)) _ destination target unwind =>
    if d ∈ stubs then ∃ symbol args, t' = .call (.constant (.str symbol)) args destination target unwind else t' = t
  | _ => t' = t

def BlockKept (stubs : List DefId) (b b' : BasicBlock) : Prop :=
  b' = { b with terminator := b'.terminator } ∧ TerminatorKept stubs b.terminator b'.terminator

def BodyKept (stubs : List DefId) (b b' : Body) : Prop :=
  b' = { b with blocks := b'.blocks } ∧ Forall₂ (BlockKept stubs) b.blocks b'.blocks

/-- The bodies that are left are those that are no stubs, with the calls of stubs rewritten, and every function that they
refer to still has its body. -/
structure Respects (prelude items bodies : List Body) : Prop where
  kept : Forall₂ (BodyKept (stubIds prelude)) (kept prelude items) bodies
  refs : ∀ b ∈ bodies, ∀ d, Refers b d → d ∈ (prelude ++ items).map Body.defId → d ∈ bodies.map Body.defId

/-- No other body is taken for a stub, no call goes through a local with the name of a stub, and stubs are only
called. -/
structure Clear (prelude items : List Body) : Prop where
  names : ∀ b ∈ Build.kept prelude items, b.defId ∉ stubIds prelude ∧
    ∀ k, kindForName b.name = some k → k.guarded = true
  locals : ∀ b ∈ Build.kept prelude items, ∀ block ∈ b.blocks, ∀ func args destination target unwind,
    block.terminator = .call func args destination target unwind → ∀ l, bareLocal func = some l →
      (localName b l).bind kindForName = none
  refs : ∀ b ∈ Build.kept prelude items, ∀ d, Passes b d → d ∉ stubIds prelude

/-- Calls of stubs have the arguments that the type checker asks for. -/
def WellCalled (prelude items : List Body) : Prop :=
  ∀ b ∈ kept prelude items, ∀ block ∈ b.blocks, ∀ d args destination target unwind,
    block.terminator = .call (fnRef d) args destination target unwind →
      ∀ s ∈ prelude, s.defId = d → ∀ k, kindForName s.name = some k → args.length = k.arity

/-! ## Names -/

theorem mem_all (k : Kind) : k ∈ Kind.all :=
  List.mem_of_getElem? (i := k.ctorIdx) (by cases k <;> rfl)

theorem nodup_preludeNames : preludeNames.Nodup := by
  decide +kernel

/-- The names of the stubs are those of the prelude but `range`, in another order. -/
theorem perm_preludeNames : (Kind.all.map Kind.name ++ ["range"]).Perm preludeNames := by
  have hnames : Kind.all.map Kind.name = preludeNames.take 23 ++ (preludeNames.drop 39).take 13 ++
      (preludeNames.drop 28).take 11 ++ (preludeNames.drop 24).take 4 ++ (preludeNames.drop 52).take 13 ++
      (preludeNames.drop 68).take 1 ++ (preludeNames.drop 65).take 3 ++ preludeNames.drop 69 := rfl
  have hprelude : preludeNames = preludeNames.take 23 ++ ["range"] ++ (preludeNames.drop 24).take 4 ++
      (preludeNames.drop 28).take 11 ++ (preludeNames.drop 39).take 13 ++ (preludeNames.drop 52).take 13 ++
      (preludeNames.drop 65).take 3 ++ (preludeNames.drop 68).take 1 ++ preludeNames.drop 69 := rfl
  rw [hnames, List.perm_iff_count]
  intro name
  have hcount := congrArg (List.count name) hprelude
  simp only [List.count_append] at hcount ⊢
  omega

theorem name_mem_preludeNames (k : Kind) : k.name ∈ preludeNames :=
  perm_preludeNames.mem_iff.1 (List.mem_append_left _ (List.mem_map_of_mem (mem_all k)))

theorem name_injective {k k' : Kind} (h : k.name = k'.name) : k = k' := by
  have hnodup := (perm_preludeNames.nodup_iff.2 nodup_preludeNames).of_append_left
  exact List.inj_on_of_nodup_map hnodup (mem_all k) (mem_all k') h

theorem kindForName_name (k : Kind) : kindForName k.name = some k := by
  unfold kindForName
  cases hfind : Kind.all.find? fun k' => k'.name == k.name with
  | none => exact absurd (beq_iff_eq.2 rfl) (List.find?_eq_none.1 hfind k (mem_all k))
  | some k' =>
    have hname := List.find?_some hfind
    rw [name_injective (beq_iff_eq.1 hname)]

theorem kindForName_eq_some {name : String} {k : Kind} : kindForName name = some k ↔ name = k.name := by
  constructor
  · intro h
    unfold kindForName at h
    have hname := List.find?_some h
    exact (beq_iff_eq.1 hname).symm
  · rintro rfl
    exact kindForName_name k

variable {prelude items : List Body} {d : DefId} {k : Kind}

theorem mem_stubIds : d ∈ stubIds prelude ↔ ∃ s ∈ prelude, s.defId = d ∧ ∃ k : Kind, s.name = k.name := by
  simp only [stubIds, List.mem_map, List.mem_filter, isStubName, Option.isSome_iff_exists, kindForName_eq_some]
  constructor
  · rintro ⟨s, ⟨hs, hk⟩, hd⟩
    exact ⟨s, hs, hd, hk⟩
  · rintro ⟨s, hs, hd, hk⟩
    exact ⟨s, ⟨hs, hk⟩, hd⟩

theorem length_named (hnames : prelude.map Body.name = preludeNames) (k : Kind) :
    (prelude.filter fun b => b.name == k.name).length = 1 := by
  have hcount : (prelude.map Body.name).count k.name = 1 := by
    rw [hnames]
    exact List.count_eq_one_of_mem nodup_preludeNames (name_mem_preludeNames k)
  rw [List.count_eq_countP, List.countP_map, List.countP_eq_length_filter] at hcount
  exact hcount

/-- A guarded name is collected from the prelude, another one from every body. -/
theorem mem_collectPrintDefIds (hnames : prelude.map Body.name = preludeNames) :
    d ∈ collectPrintDefIds (prelude ++ items) k ↔
      ∃ b, (b ∈ prelude ∨ k.guarded = false ∧ b ∈ items) ∧ b.name = k.name ∧ b.defId = d := by
  unfold collectPrintDefIds
  cases hk : k.guarded with
  | true =>
    have hlen : ((prelude.filter fun b => b.name == k.name).map Body.defId).length = 1 := by
      rw [List.length_map, length_named hnames k]
    rw [if_pos rfl, List.filter_append, List.map_append, List.take_append_of_le_length hlen.ge,
      List.take_of_length_le hlen.le]
    simp [and_assoc]
  | false => simp [and_assoc, or_and_right, exists_or]

theorem mem_allIds (hnames : prelude.map Body.name = preludeNames) :
    d ∈ allIds (prelude ++ items) ↔
      d ∈ stubIds prelude ∨ ∃ b ∈ items, b.defId = d ∧ ∃ k : Kind, b.name = k.name ∧ k.guarded = false := by
  rw [allIds, List.mem_flatMap, mem_stubIds]
  simp only [mem_collectPrintDefIds hnames, mem_all, true_and]
  constructor
  · rintro ⟨k, b, hb | ⟨hk, hb⟩, hname, hd⟩
    · exact .inl ⟨b, hb, hd, k, hname⟩
    · exact .inr ⟨b, hb, hd, k, hname, hk⟩
  · rintro (⟨b, hb, hd, k, hname⟩ | ⟨b, hb, hd, k, hname, hk⟩)
    · exact ⟨k, b, .inl hb, hname, hd⟩
    · exact ⟨k, b, .inr ⟨hk, hb⟩, hname, hd⟩

theorem kindForDefId_isSome {bodies : List Body} : (∃ k, kindForDefId bodies d = some k) ↔ d ∈ allIds bodies := by
  rw [← Option.isSome_iff_exists, kindForDefId, List.find?_isSome, allIds, List.mem_flatMap]
  simp only [List.contains_iff_mem]

theorem mem_of_kindForDefId {bodies : List Body} (h : kindForDefId bodies d = some k) :
    d ∈ collectPrintDefIds bodies k := by
  unfold kindForDefId at h
  have hmem := List.find?_some h
  exact List.contains_iff_mem.1 hmem

/-! ## One call -/

theorem moveToCopy_indexOperands (op : Operand) : (moveToCopy op).indexOperands = op.indexOperands := by
  cases op <;> rfl

theorem fnRef_eq_moveToCopy (op : Operand) : fnRef d = moveToCopy op ↔ fnRef d = op := by
  cases op <;> simp [moveToCopy, fnRef]

theorem mem_runtimeArgs (k : Kind) (args : List Operand) : fnRef d ∈ runtimeArgs k args ↔ fnRef d ∈ args := by
  have hmap : ∀ ops : List Operand, fnRef d ∈ ops.map moveToCopy ↔ fnRef d ∈ ops := by
    intro ops
    induction ops with
    | nil => rfl
    | cons op ops ih => rw [List.map_cons, List.mem_cons, List.mem_cons, fnRef_eq_moveToCopy, ih]
  unfold runtimeArgs
  split
  · simp [fnRef]
  all_goals first | exact hmap _ | rfl | skip
  · rw [List.mem_cons, List.mem_cons, fnRef_eq_moveToCopy]

theorem runtimeArgs_indexOperands (k : Kind) (args : List Operand) :
    (runtimeArgs k args).flatMap Operand.indexOperands = args.flatMap Operand.indexOperands := by
  have hmap : ∀ ops : List Operand,
      (ops.map moveToCopy).flatMap Operand.indexOperands = ops.flatMap Operand.indexOperands := by
    intro ops
    rw [List.flatMap_map]
    exact congrArg (fun f => ops.flatMap f) (funext moveToCopy_indexOperands)
  unfold runtimeArgs
  split
  · rfl
  all_goals first | exact hmap _ | rfl | skip
  · rw [List.flatMap_cons, List.flatMap_cons, moveToCopy_indexOperands]

section Terminators

variable {bodies : List Body} {body : Body} {func : Operand} {args : List Operand} {destination : Place}
  {target : BlockId} {unwind : Option BlockId} {t t' : Terminator} {l : LocalId}

theorem calleeKind_fnRef (bodies : List Body) : calleeKind bodies body (fnRef d) = kindForDefId bodies d :=
  rfl

theorem calleeKind_bareLocal (h : bareLocal func = some l) (bodies : List Body) :
    calleeKind bodies body func = (localName body l).bind kindForName := by
  unfold calleeKind
  split
  · cases h
  · rw [h]
    rfl

theorem terminatorKept_bareLocal {stubs : List DefId} (h : bareLocal func = some l) :
    TerminatorKept stubs (.call func args destination target unwind) t' ↔
      t' = .call func args destination target unwind := by
  unfold TerminatorKept
  split
  · rename_i heq
    cases heq
    cases h
  · rfl

/-- A callee that is taken for a stub is a function or a local. -/
theorem indexOperands_of_calleeKind (h : calleeKind bodies body func = some k) : func.indexOperands = [] := by
  unfold calleeKind at h
  split at h
  · rfl
  · obtain ⟨_, hlocal, -⟩ := Option.bind_eq_some_iff.1 h
    obtain ⟨l, hl, -⟩ := Option.bind_eq_some_iff.1 hlocal
    unfold bareLocal at hl
    split at hl
    · rfl
    · rfl
    · cases hl

theorem rewriteTerminator_of_kind (hk : calleeKind bodies body func = some k) (harity : args.length = k.arity) :
    rewriteTerminator bodies body (.call func args destination target unwind) =
      .ok (.call (.constant (.str (runtimeSymbol body args destination k))) (runtimeArgs k args) destination target
        unwind) := by
  rw [rewriteTerminator, hk]
  exact if_pos harity

theorem func_of_kind {func' : Operand} {args' : List Operand} {destination' : Place} {target' : BlockId}
    {unwind' : Option BlockId} (hk : calleeKind bodies body func = some k)
    (h : rewriteTerminator bodies body (.call func args destination target unwind) =
      .ok (.call func' args' destination' target' unwind')) :
    func' = .constant (.str (runtimeSymbol body args destination k)) := by
  rw [rewriteTerminator, hk] at h
  dsimp only at h
  split at h
  · exact (Terminator.call.inj (Except.ok.inj h)).1.symm
  · cases h

theorem rewriteTerminator_of_none (hk : calleeKind bodies body func = none) :
    rewriteTerminator bodies body (.call func args destination target unwind) =
      .ok (.call func args destination target unwind) := by
  rw [rewriteTerminator, hk]

/-- A terminator stays, or is a call that becomes one of a runtime helper. -/
theorem rewriteTerminator_cases (h : rewriteTerminator bodies body t = .ok t') :
    t' = t ∨ ∃ func args destination target unwind k, t = .call func args destination target unwind ∧
      calleeKind bodies body func = some k ∧
      t' = .call (.constant (.str (runtimeSymbol body args destination k))) (runtimeArgs k args) destination target
        unwind := by
  unfold rewriteTerminator at h
  split at h
  · split at h
    · cases h
      exact .inl rfl
    · rename_i k hk
      split at h
      · cases h
        exact .inr ⟨_, _, _, _, _, k, rfl, hk, rfl⟩
      · cases h
  · cases h
    exact .inl rfl

theorem mem_refs_call : fnRef d ∈ refs (.term (.call func args destination target unwind)) ↔
    func = fnRef d ∨ fnRef d ∈ passed (.term (.call func args destination target unwind)) := by
  rw [refs, passed, Point.operands, Terminator.operands, List.cons_append, List.mem_cons, eq_comm]

theorem passed_rewriteTerminator (h : rewriteTerminator bodies body t = .ok t') :
    fnRef d ∈ passed (.term t') ↔ fnRef d ∈ passed (.term t) := by
  rcases rewriteTerminator_cases h with rfl | ⟨func, args, destination, target, unwind, k, rfl, hk, rfl⟩
  · rfl
  · have hnested : ∀ (f : Operand) (ops : List Operand), f.indexOperands = [] →
        (Point.term (.call f ops destination target unwind)).nestedOperands =
          ops.flatMap Operand.indexOperands ++ destination.indexOperands := by
      intro f ops hf
      simp [Point.nestedOperands, Point.operands, Terminator.operands, Point.inspected, Point.destination,
        Point.dropped, hf]
    rw [passed, passed, List.mem_append, List.mem_append, mem_runtimeArgs, hnested _ _ rfl,
      hnested _ _ (indexOperands_of_calleeKind hk), runtimeArgs_indexOperands]

/-- What a rewritten terminator refers to was passed, or is the callee of a call that stayed. -/
theorem refs_rewriteTerminator {stubs : List DefId} (h : rewriteTerminator bodies body t = .ok t')
    (hkept : TerminatorKept stubs t t') (hd : fnRef d ∈ refs (.term t')) : fnRef d ∈ passed (.term t) ∨ d ∉ stubs := by
  rw [← passed_rewriteTerminator h]
  cases t' with
  | call func args destination target unwind =>
    rcases mem_refs_call.1 hd with rfl | hd
    · refine .inr fun hstub => ?_
      rcases rewriteTerminator_cases h with rfl | ⟨_, _, _, _, _, _, -, -, heq⟩
      · rw [fnRef, TerminatorKept, if_pos hstub] at hkept
        obtain ⟨_, _, heq⟩ := hkept
        cases heq
      · cases heq
    · exact .inl hd
  | _ => exact .inl hd

end Terminators

theorem rewriteBody_ok {bodies : List Body} {b b' : Body} (h : rewriteBody bodies b = .ok b') :
    b' = { b with blocks := b'.blocks } ∧ Forall₂ (fun block block' : BasicBlock =>
      block' = { block with terminator := block'.terminator } ∧
        rewriteTerminator bodies b block.terminator = .ok block'.terminator) b.blocks b'.blocks := by
  obtain ⟨blocks, hblocks, h⟩ := except_bind_ok.1 h
  cases h
  refine ⟨rfl, (except_mapM_iff.1 hblocks).imp fun block block' hblock => ?_⟩
  obtain ⟨terminator, hterminator, hblock⟩ := except_bind_ok.1 hblock
  cases hblock
  exact ⟨rfl, hterminator⟩

theorem passes_rewriteBody {bodies : List Body} {b b' : Body} (h : rewriteBody bodies b = .ok b') (hd : Passes b d) :
    Passes b' d := by
  obtain ⟨block, hblock, p, hp, hd⟩ := hd
  obtain ⟨block', hblock', hsame, hterminator⟩ := exists_right (rewriteBody_ok h).2 hblock
  rcases List.mem_append.1 hp with hp | hp
  · refine ⟨block', hblock', p, List.mem_append_left _ ?_, hd⟩
    rw [hsame]
    exact hp
  · obtain rfl := List.mem_singleton.1 hp
    exact ⟨block', hblock', _, List.mem_append_right _ List.mem_cons_self, (passed_rewriteTerminator hterminator).2 hd⟩

theorem refers_of_passes {b : Body} (h : Passes b d) : Refers b d := by
  obtain ⟨block, hblock, p, hp, hd⟩ := h
  refine ⟨block, hblock, p, hp, ?_⟩
  unfold passed at hd
  split at hd
  · exact mem_refs_call.2 (.inr hd)
  · exact hd

/-- What a rewritten body refers to was passed, or is no stub. -/
theorem refers_rewriteBody {bodies : List Body} {stubs : List DefId} {b b' : Body} (h : rewriteBody bodies b = .ok b')
    (hkept : BodyKept stubs b b') (hd : Refers b' d) : Passes b d ∨ d ∉ stubs := by
  obtain ⟨block', hblock', p, hp, hd⟩ := hd
  obtain ⟨block, hblock, ⟨hsame, hterminator⟩, -, hterm⟩ := exists_left (forall₂_and (rewriteBody_ok h).2 hkept.2) hblock'
  rcases List.mem_append.1 hp with hp | hp
  · refine .inl ⟨block, hblock, p, List.mem_append_left _ ?_, ?_⟩
    · rw [hsame] at hp
      exact hp
    · obtain ⟨stmt, -, rfl⟩ := List.mem_map.1 hp
      exact hd
  · obtain rfl := List.mem_singleton.1 hp
    rcases refs_rewriteTerminator hterminator hterm hd with hd | hd
    · exact .inl ⟨block, hblock, _, List.mem_append_right _ List.mem_cons_self, hd⟩
    · exact .inr hd

theorem Clear.mem_allIds (h : Clear prelude items) (hnames : prelude.map Body.name = preludeNames) :
    d ∈ allIds (prelude ++ items) ↔ d ∈ stubIds prelude := by
  rw [Build.mem_allIds hnames, or_iff_left]
  rintro ⟨b, hb, -, k, hname, hk⟩
  have hguarded := (h.names b (List.mem_append_right _ hb)).2 k (kindForName_eq_some.2 hname)
  rw [hk] at hguarded
  cases hguarded

theorem Clear.exists_rewrite (h : Clear prelude items) (hnames : prelude.map Body.name = preludeNames)
    (hcalls : WellCalled prelude items) {b : Body} (hb : b ∈ kept prelude items) {block : BasicBlock}
    (hblock : block ∈ b.blocks) : ∃ t', rewriteTerminator (prelude ++ items) b block.terminator = .ok t' ∧
      TerminatorKept (stubIds prelude) block.terminator t' := by
  have hcall := hcalls b hb block hblock
  have hlocal := h.locals b hb block hblock
  generalize block.terminator = t at hcall hlocal
  cases t with
  | call func args destination target unwind =>
    by_cases hfunc : ∃ d, func = fnRef d
    · obtain ⟨d, rfl⟩ := hfunc
      by_cases hd : d ∈ stubIds prelude
      · obtain ⟨k, hk⟩ := kindForDefId_isSome.2 ((h.mem_allIds hnames).2 hd)
        obtain ⟨s, hs | ⟨hunguarded, hs⟩, hname, hid⟩ := (mem_collectPrintDefIds hnames).1 (mem_of_kindForDefId hk)
        · have harity := hcall d args destination target unwind rfl s hs hid k (kindForName_eq_some.2 hname)
          refine ⟨_, rewriteTerminator_of_kind ((calleeKind_fnRef _).trans hk) harity, ?_⟩
          rw [fnRef, TerminatorKept, if_pos hd]
          exact ⟨_, _, rfl⟩
        · have hguarded := (h.names s (List.mem_append_right _ hs)).2 k (kindForName_eq_some.2 hname)
          rw [hunguarded] at hguarded
          cases hguarded
      · have hk : kindForDefId (prelude ++ items) d = none := by
          by_contra hne
          obtain ⟨k, hk⟩ := Option.ne_none_iff_exists'.1 hne
          exact hd ((h.mem_allIds hnames).1 (kindForDefId_isSome.1 ⟨k, hk⟩))
        refine ⟨_, rewriteTerminator_of_none ((calleeKind_fnRef _).trans hk), ?_⟩
        rw [fnRef, TerminatorKept, if_neg hd]
    · have hk : calleeKind (prelude ++ items) b func = none := by
        cases hbare : bareLocal func with
        | some l => rw [calleeKind_bareLocal hbare, hlocal _ _ _ _ _ rfl l hbare]
        | none =>
          unfold calleeKind
          split
          · exact absurd ⟨_, rfl⟩ hfunc
          · rw [hbare]
            rfl
      refine ⟨_, rewriteTerminator_of_none hk, ?_⟩
      unfold TerminatorKept
      split
      · rename_i heq
        cases heq
        exact absurd ⟨_, rfl⟩ hfunc
      · rfl
  | _ => exact ⟨_, rfl, rfl⟩

theorem Clear.exists_rewriteBody (h : Clear prelude items) (hnames : prelude.map Body.name = preludeNames)
    (hcalls : WellCalled prelude items) {b : Body} (hb : b ∈ kept prelude items) :
    ∃ b', rewriteBody (prelude ++ items) b = .ok b' ∧ BodyKept (stubIds prelude) b b' := by
  obtain ⟨blocks, hblocks⟩ := exists_except_mapM (f := fun block : BasicBlock => do
      let terminator ← rewriteTerminator (prelude ++ items) b block.terminator
      return { block with terminator }) fun block hblock => by
    obtain ⟨t', ht', -⟩ := h.exists_rewrite hnames hcalls hb hblock
    exact ⟨_, except_bind_ok.2 ⟨t', ht', rfl⟩⟩
  have hbody : rewriteBody (prelude ++ items) b = .ok { b with blocks } := except_bind_ok.2 ⟨blocks, hblocks, rfl⟩
  refine ⟨_, hbody, rfl, ?_⟩
  refine (List.forall₂_and_left _ _).2 ⟨fun _ hblock => hblock, (rewriteBody_ok hbody).2⟩ |>.imp ?_
  rintro block block' ⟨hblock, hsame, hterminator⟩
  obtain ⟨t', ht', hkept⟩ := h.exists_rewrite hnames hcalls hb hblock
  obtain rfl := Except.ok.inj (ht'.symm.trans hterminator)
  exact ⟨hsame, hkept⟩

/-! ## The module -/

theorem mem_kept {b : Body} (hb : b ∈ prelude ++ items) (hid : b.defId ∉ stubIds prelude) : b ∈ kept prelude items := by
  rcases List.mem_append.1 hb with hb | hb
  · refine List.mem_append_left _ (List.mem_filter.2 ⟨hb, ?_⟩)
    rw [Bool.not_eq_true', ← Bool.not_eq_true]
    exact fun hstub => hid (List.mem_map.2 ⟨b, List.mem_filter.2 ⟨hb, hstub⟩, rfl⟩)
  · exact List.mem_append_right _ hb

/-- Of the bodies whose ids are not collected, none is a stub. -/
theorem filter_eq (hnames : prelude.map Body.name = preludeNames) :
    (prelude ++ items).filter (fun b => !(allIds (prelude ++ items)).contains b.defId) =
      (kept prelude items).filter fun b => !(allIds (prelude ++ items)).contains b.defId := by
  rw [kept, List.filter_append, List.filter_append, List.filter_filter]
  refine congrArg (· ++ _) (List.filter_congr fun b hb => ?_)
  cases hstub : isStubName b.name with
  | false => simp
  | true =>
    have hid : b.defId ∈ allIds (prelude ++ items) :=
      (mem_allIds hnames).2 (.inl (List.mem_map.2 ⟨b, List.mem_filter.2 ⟨hb, hstub⟩, rfl⟩))
    simp [hid]

theorem allIds_ne_nil (hnames : prelude.map Body.name = preludeNames) : allIds (prelude ++ items) ≠ [] := by
  obtain ⟨b, hb, hname⟩ := List.mem_map.1 (hnames ▸ name_mem_preludeNames .print)
  exact List.ne_nil_of_mem ((mem_allIds hnames).2 (.inl (mem_stubIds.2 ⟨b, hb, rfl, .print, hname⟩)))

/-- The bodies that are not collected are rewritten and left. -/
theorem rewritePrint_ok (hnames : prelude.map Body.name = preludeNames) {m' : Module}
    (h : rewritePrint ⟨prelude ++ items⟩ = .ok m') :
    Forall₂ (fun b b' => rewriteBody (prelude ++ items) b = .ok b')
      ((kept prelude items).filter fun b => !(allIds (prelude ++ items)).contains b.defId) m'.bodies := by
  rw [rewritePrint, if_neg (by rw [List.isEmpty_iff]; exact allIds_ne_nil hnames)] at h
  obtain ⟨out, hout, h⟩ := except_bind_ok.1 h
  cases h
  rw [← filter_eq hnames]
  have hsteps := except_mapM_iff.1 hout
  have hfiltered := List.rel_filter (p := fun b => !(allIds (prelude ++ items)).contains b.defId)
    (q := fun b => !(allIds (prelude ++ items)).contains b.defId) (fun b b' hb => ?_) hsteps
  · refine ((List.forall₂_and_left _ _).2 ⟨fun b hb => (List.mem_filter.1 hb).2, hfiltered⟩).imp ?_
    rintro b b' ⟨hcollected, hb⟩
    rwa [if_neg (by simpa using hcollected)] at hb
  · split at hb
    · cases hb
      rfl
    · rw [(rewriteBody_ok hb).1]

theorem exists_rewritePrint (hnames : prelude.map Body.name = preludeNames) (hcalls : WellCalled prelude items)
    (h : Clear prelude items) : ∃ m', rewritePrint ⟨prelude ++ items⟩ = .ok m' := by
  have hstep : ∀ b ∈ prelude ++ items, ∃ b', (if (allIds (prelude ++ items)).contains b.defId then Except.ok b
      else rewriteBody (prelude ++ items) b) = .ok b' := by
    intro b hb
    split
    · exact ⟨b, rfl⟩
    · rename_i hcollected
      rw [List.contains_iff_mem, h.mem_allIds hnames] at hcollected
      obtain ⟨b', hb', -⟩ := h.exists_rewriteBody hnames hcalls (mem_kept hb hcollected)
      exact ⟨b', hb'⟩
  obtain ⟨out, hout⟩ := exists_except_mapM hstep
  refine ⟨⟨out.filter fun b => !(allIds (prelude ++ items)).contains b.defId⟩, ?_⟩
  rw [rewritePrint, if_neg (by rw [List.isEmpty_iff]; exact allIds_ne_nil hnames)]
  exact except_bind_ok.2 ⟨out, hout, rfl⟩

theorem respects_of_clear (hnames : prelude.map Body.name = preludeNames) (hcalls : WellCalled prelude items)
    (h : Clear prelude items) {m' : Module} (hok : rewritePrint ⟨prelude ++ items⟩ = .ok m') :
    Respects prelude items m'.bodies := by
  have hbodies := rewritePrint_ok hnames hok
  rw [List.filter_eq_self.2 fun b hb => by
    simpa [h.mem_allIds hnames] using (h.names b hb).1] at hbodies
  have hkept : Forall₂ (BodyKept (stubIds prelude)) (kept prelude items) m'.bodies := by
    refine ((List.forall₂_and_left _ _).2 ⟨fun _ hb => hb, hbodies⟩).imp ?_
    rintro b b' ⟨hb, hrewrite⟩
    obtain ⟨b'', hb'', hkept⟩ := h.exists_rewriteBody hnames hcalls hb
    obtain rfl := Except.ok.inj (hb''.symm.trans hrewrite)
    exact hkept
  refine ⟨hkept, fun b' hb' d hd hmem => ?_⟩
  obtain ⟨b, hb, hrewrite, hsame⟩ := exists_left (forall₂_and hbodies hkept) hb'
  have hstub : d ∉ stubIds prelude := by
    rcases refers_rewriteBody hrewrite hsame hd with hpasses | hstub
    · exact h.refs b hb d hpasses
    · exact hstub
  obtain ⟨owner, howner, rfl⟩ := List.mem_map.1 hmem
  obtain ⟨owner', howner', hrewrite⟩ := exists_right hbodies (mem_kept howner hstub)
  refine List.mem_map.2 ⟨owner', howner', ?_⟩
  rw [(rewriteBody_ok hrewrite).1]

theorem clear_of_respects (hnames : prelude.map Body.name = preludeNames) {m' : Module}
    (hok : rewritePrint ⟨prelude ++ items⟩ = .ok m') (h : Respects prelude items m'.bodies) : Clear prelude items := by
  have hbodies := rewritePrint_ok hnames hok
  have hcollected : ∀ b ∈ kept prelude items, b.defId ∉ allIds (prelude ++ items) := by
    have hlength := List.length_filter_eq_length_iff.1 (hbodies.length_eq.trans h.kept.length_eq.symm)
    intro b hb
    simpa using hlength b hb
  rw [List.filter_eq_self.2 fun b hb => by simpa using hcollected b hb] at hbodies
  refine ⟨fun b hb => ⟨fun hid => ?_, fun k hk => ?_⟩, ?_, fun b hb d hpasses hid => ?_⟩
  · exact hcollected b hb ((mem_allIds hnames).2 (.inl hid))
  · by_contra hguarded
    rcases List.mem_append.1 hb with hprelude | hitem
    · have hstub : isStubName b.name = true := Option.isSome_iff_exists.2 ⟨k, hk⟩
      simp [hstub] at hprelude
    · refine hcollected b hb ((mem_allIds hnames).2 (.inr ⟨b, hitem, rfl, k, kindForName_eq_some.1 hk, ?_⟩))
      exact Bool.eq_false_iff.2 hguarded
  · intro b hb block hblock func args destination target unwind hterm l hl
    obtain ⟨b', -, hrewrite, hsame⟩ := exists_right (forall₂_and hbodies h.kept) hb
    obtain ⟨block', -, ⟨-, hterminator⟩, -, hkept⟩ := exists_right (forall₂_and (rewriteBody_ok hrewrite).2 hsame.2) hblock
    by_contra hne
    obtain ⟨k, hk⟩ := Option.ne_none_iff_exists'.1 hne
    rw [← calleeKind_bareLocal hl (prelude ++ items)] at hk
    rw [hterm] at hterminator hkept
    rw [(terminatorKept_bareLocal hl).1 hkept] at hterminator
    have hfunc := func_of_kind hk hterminator
    rw [hfunc] at hl
    cases hl
  · obtain ⟨b', hb', hrewrite⟩ := exists_right hbodies hb
    obtain ⟨s, hs, hd, -⟩ := mem_stubIds.1 hid
    have hmem : d ∈ (prelude ++ items).map Body.defId := List.mem_map.2 ⟨s, List.mem_append_left _ hs, hd⟩
    obtain ⟨owner', howner', rfl⟩ :=
      List.mem_map.1 (h.refs b' hb' d (refers_of_passes (passes_rewriteBody hrewrite hpasses)) hmem)
    obtain ⟨owner, howner, hrewrite⟩ := exists_left hbodies howner'
    rw [(rewriteBody_ok hrewrite).1] at hid
    exact hcollected owner howner ((mem_allIds hnames).2 (.inl hid))

/-- A module with the prelude is rewritten as its bindings say exactly when it is clear. -/
theorem rewritePrint_respects_iff (hnames : prelude.map Body.name = preludeNames) (hcalls : WellCalled prelude items) :
    (∃ m', rewritePrint ⟨prelude ++ items⟩ = .ok m' ∧ Respects prelude items m'.bodies) ↔ Clear prelude items := by
  constructor
  · rintro ⟨m', hok, hrespects⟩
    exact clear_of_respects hnames hok hrespects
  · intro h
    obtain ⟨m', hok⟩ := exists_rewritePrint hnames hcalls h
    exact ⟨m', hok, respects_of_clear hnames hcalls h hok⟩

/-! ## Modules -/

def span : Span :=
  ⟨0, 0, 0⟩

/-- The bodies of the prelude, without their code. -/
def stubs : List Body :=
  preludeNames.zipIdx.map fun (name, i) => ⟨i, name, [], [⟨0, [], .ret, span⟩], 0, 0, span⟩

theorem names_stubs : stubs.map Body.name = preludeNames := by
  rw [stubs, List.map_map]
  exact List.zipIdx_map_fst 0 preludeNames

/-- A function of the user that calls the stub of `print`. -/
def greeting : Body :=
  ⟨100, "greeting", [⟨0, "_ret", .none, true, span, none⟩],
    [⟨0, [], .call (fnRef 0) [.constant (.str "hello")] (.mk 0 []) 1 none, span⟩, ⟨1, [], .ret, span⟩], 0, 0, span⟩

/-- A function of the user with the name of a stub. -/
def ownLen : Body :=
  ⟨101, "len", [⟨0, "_ret", .none, true, span, none⟩], [⟨0, [], .ret, span⟩], 0, 0, span⟩

theorem name_of_first {s : Body} (hs : s ∈ stubs) (hid : s.defId = 0) : s.name = Kind.name .print := by
  obtain ⟨⟨name, i⟩, hmem, rfl⟩ := List.mem_map.1 hs
  obtain rfl : i = 0 := hid
  have hfirst := List.mem_zipIdx_iff_getElem?.1 hmem
  exact (Option.some.inj hfirst).symm

theorem wellCalled_greeting : WellCalled stubs [greeting] := by
  intro b hb block hblock d args destination target unwind hcall s hs hid k hk
  rcases List.mem_append.1 hb with hb | hb
  · obtain ⟨⟨name, i⟩, -, rfl⟩ := List.mem_map.1 (List.mem_filter.1 hb).1
    rw [List.mem_singleton.1 hblock] at hcall
    cases hcall
  · rw [List.mem_singleton.1 hb] at hblock
    rcases List.mem_cons.1 hblock with rfl | hblock
    · obtain ⟨hd, rfl, -⟩ := Terminator.call.inj hcall
      cases hd
      rw [name_of_first hs hid, kindForName_name] at hk
      cases hk
      rfl
    · rw [List.mem_singleton.1 hblock] at hcall
      cases hcall

theorem greeting_respects_iff : (∃ m', rewritePrint ⟨stubs ++ [greeting]⟩ = .ok m' ∧
    Respects stubs [greeting] m'.bodies) ↔ Clear stubs [greeting] :=
  rewritePrint_respects_iff names_stubs wellCalled_greeting

theorem length_own_len : ((kept stubs [ownLen]).filter fun b =>
    !(allIds (stubs ++ [ownLen])).contains b.defId).length ≠ (kept stubs [ownLen]).length := by
  have hmem : ownLen.defId ∈ allIds (stubs ++ [ownLen]) := by
    refine List.mem_flatMap.2 ⟨.lenPoly, mem_all _, ?_⟩
    exact List.mem_map_of_mem (List.mem_filter.2 ⟨List.mem_append_right _ List.mem_cons_self, rfl⟩)
  refine Nat.ne_of_lt (List.length_filter_lt_length_iff_exists.2 ⟨ownLen, List.mem_append_right _ List.mem_cons_self, ?_⟩)
  rw [List.contains_iff_mem.2 hmem]
  decide

theorem own_len_removed : ¬ ∃ m', rewritePrint ⟨stubs ++ [ownLen]⟩ = .ok m' ∧
    Respects stubs [ownLen] m'.bodies := by
  rintro ⟨m', hok, hrespects⟩
  exact length_own_len ((rewritePrint_ok names_stubs hok).length_eq.trans hrespects.kept.length_eq.symm)

end Cobrust.Build
