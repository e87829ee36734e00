import Cobrust.Build.IntrinsicBinding

/-!
# The helpers of the polymorphic builtins

`rewrite_print` picks the helper of `print`, `len`, `append`, `pop`, `min`, `max`, `sum`, `sorted` and `abs` from the
declared types of MIR locals.

* `Accepted`, `variant`: the types that the checker accepts, and the helper that each has.
* `fits`: how the operands are spelled and declared where that helper is the one picked.
* `dispatched_iff`: a call of a rewritten module has the helper of its static type if and only if it fits.
-/

namespace Cobrust.Build

open Mir Control
open List (Forall₂)

/-- The owned types of `reject_owned_elem_mutate`. -/
def ownedElem : Ty → Bool
  | .str | .bytes | .list _ | .dict _ _ | .set _ => true
  | _ => false

/-- The checker accepts a call whose first argument has the type. -/
inductive Accepted : Kind → Ty → Prop where
  | print (σ : Ty) : Accepted .print σ
  | str {σ : Ty} : derefTy σ = .str → Accepted .lenPoly σ
  | bytes {σ : Ty} : derefTy σ = .bytes → Accepted .lenPoly σ
  | list {σ τ : Ty} : derefTy σ = .list τ → Accepted .lenPoly σ
  | dict {σ κ τ : Ty} : derefTy σ = .dict κ τ → Accepted .lenPoly σ
  | append {τ : Ty} : ownedElem τ = false → Accepted .listAppend (.list τ)
  | pop {τ : Ty} : ownedElem τ = false → Accepted .listPop (.list τ)
  | abs {σ : Ty} : derefTy σ = .int ∨ derefTy σ = .float → Accepted .mathAbs σ
  | reduce {k : Kind} {σ : Ty} : k = .min ∨ k = .max ∨ k = .sum →
      derefTy σ = .list .int ∨ derefTy σ = .list .float → Accepted k σ
  | sorted {σ : Ty} : derefTy σ = .list .int ∨ derefTy σ = .list .float ∨ derefTy σ = .list .str →
      Accepted .sorted σ

/-- The helper of a `float` element, or that of another one. -/
def byElem (float other : String) (σ : Ty) : Option String :=
  match derefTy σ with
  | .list .float => some float
  | .list _ => some other
  | _ => none

/-- The helper for a first argument of a static type; `literal` says whether it is a string literal. -/
def variant (literal : Bool) (k : Kind) (σ : Ty) : Option String :=
  match k with
  | .print =>
    match derefTy σ with
    | .int | .intN _ => some "__cobrust_println_int"
    | .bool => some "__cobrust_println_bool"
    | .float => some "__cobrust_println_float"
    | .str => some (if literal then "__cobrust_println" else "__cobrust_println_str_buf")
    | _ => none
  | .lenPoly =>
    match derefTy σ with
    | .str => some "__cobrust_str_char_count"
    | .bytes => some "__cobrust_bytes_len"
    | .list _ => some "__cobrust_list_len"
    | .dict _ _ => some "__cobrust_dict_len"
    | _ => none
  | .mathAbs =>
    match derefTy σ with
    | .int => some "__cobrust_int_abs"
    | .float => some "__cobrust_math_abs"
    | _ => none
  | .listAppend => byElem "__cobrust_list_append_float" "__cobrust_list_append" σ
  | .listPop => byElem "__cobrust_list_pop_float" "__cobrust_list_pop" σ
  | .min => byElem "__cobrust_min_float" "__cobrust_min_int" σ
  | .max => byElem "__cobrust_max_float" "__cobrust_max_int" σ
  | .sum => byElem "__cobrust_sum_float" "__cobrust_sum_int" σ
  | .sorted =>
    match derefTy σ with
    | .list .int => some "__cobrust_list_sort_int"
    | .list .float => some "__cobrust_list_sort_float"
    | .list .str => some "__cobrust_list_sort_str"
    | _ => none
  | _ => none

/-! ## Operands -/

/-- An operand is a literal of a kind, or a local without projections that is declared with a type of a kind. -/
def spelled (body : Body) (literal : Constant → Bool) (declared : Option Ty → Bool) : Operand → Bool
  | .constant c => literal c
  | op => (bareLocal op).any fun l => declared (localTy body l)

def isStrLit : Operand → Bool
  | .constant (.str _) => true
  | _ => false

/-- An integer literal, or a local that is declared as an `int` or without a type. -/
def intArg (body : Body) : Operand → Bool :=
  spelled body (· matches .int _) (· matches none | some .none | some .int)

def boolArg (body : Body) : Operand → Bool :=
  spelled body (· matches .bool _) (· matches some .bool)

def floatArg (body : Body) : Operand → Bool :=
  spelled body (· matches .float _) (· matches some .float)

/-- A `float` literal, or a local that is declared as a `float` or a reference to one. -/
def floatItem (body : Body) : Operand → Bool :=
  spelled body (· matches .float _) fun t => t.map derefTy matches some .float

def strArg (body : Body) : Operand → Bool :=
  spelled body (· matches .str _) fun t => t.map derefTy matches some .str

def bytesArg (body : Body) : Operand → Bool :=
  spelled body (· matches .bytes _) fun t => t.map derefTy matches some .bytes

def listArg (body : Body) : Operand → Bool :=
  spelled body (fun _ => false) fun t => t.map derefTy matches some (.list _)

/-- The local of the result is declared as an `int`, or an integer literal is the argument and it is not a `float`. -/
def intResult (body : Body) (arg : Operand) (destination : Place) : Bool :=
  match destTy body destination with
  | some .int => true
  | some .float => false
  | _ => arg matches .constant (.int _)

/-- The operand, or the local of the result, is spelled and declared as the helper of the static type needs it. -/
def fits (body : Body) (args : List Operand) (destination : Place) (k : Kind) (σ : Ty) : Bool :=
  match k with
  | .print =>
    match derefTy σ with
    | .int | .intN _ => intArg body (arg args 0)
    | .bool => boolArg body (arg args 0)
    | .float => floatArg body (arg args 0)
    | .str => !intArg body (arg args 0) && !boolArg body (arg args 0) && !floatArg body (arg args 0)
    | _ => false
  | .lenPoly =>
    match derefTy σ with
    | .str => strArg body (arg args 0)
    | .bytes => bytesArg body (arg args 0)
    | .list _ => listArg body (arg args 0)
    | .dict _ _ => !strArg body (arg args 0) && !bytesArg body (arg args 0) && !listArg body (arg args 0)
    | _ => false
  | .mathAbs =>
    match derefTy σ with
    | .int => intResult body (arg args 0) destination
    | .float => !intResult body (arg args 0) destination
    | _ => false
  | .listAppend =>
    match derefTy σ with
    | .list .float => floatItem body (arg args 1)
    | .list _ => !floatItem body (arg args 1)
    | _ => false
  | .listPop | .min | .max | .sum =>
    match derefTy σ with
    | .list .float => (destTy body destination matches some .float)
    | .list _ => !(destTy body destination matches some .float)
    | _ => false
  | .sorted =>
    match derefTy σ with
    | .list .float => (destTy body destination matches some (.list .float))
    | .list .str => (destTy body destination matches some (.list .str))
    | .list .int => !(destTy body destination matches some (.list .float) | some (.list .str))
    | _ => false
  | _ => false

/-! ## The helpers that are picked -/

section picked

variable (body : Body) (op : Operand)

theorem printSymbol_eq : printSymbol body op =
    bif intArg body op then "__cobrust_println_int"
    else bif boolArg body op then "__cobrust_println_bool"
    else bif floatArg body op then "__cobrust_println_float"
    else bif isStrLit op then "__cobrust_println" else "__cobrust_println_str_buf" := by
  rcases op with ⟨l, _ | ⟨proj, ps⟩⟩ | ⟨l, _ | ⟨proj, ps⟩⟩ | c
  case constant => cases c <;> rfl
  case copy.nil | move.nil =>
    simp only [printSymbol, intArg, boolArg, floatArg, spelled, bareLocal, isStrLit, Option.map_some, Option.any_some]
    generalize localTy body l = t
    rcases t with _ | t
    · rfl
    · cases t <;> rfl
  all_goals rfl

theorem lenSymbol_eq : lenSymbol body op =
    bif strArg body op then "__cobrust_str_char_count"
    else bif bytesArg body op then "__cobrust_bytes_len"
    else bif listArg body op then "__cobrust_list_len" else "__cobrust_dict_len" := by
  rcases op with ⟨l, _ | ⟨proj, ps⟩⟩ | ⟨l, _ | ⟨proj, ps⟩⟩ | c
  case constant => cases c <;> rfl
  case copy.nil | move.nil =>
    simp only [lenSymbol, strArg, bytesArg, listArg, spelled, bareLocal, argTy, Option.bind_some, Option.any_some]
    generalize (localTy body l).map derefTy = t
    rcases t with _ | t
    · rfl
    · cases t <;> rfl
  all_goals rfl

theorem appendSymbol_eq : appendSymbol body op =
    bif floatItem body op then "__cobrust_list_append_float" else "__cobrust_list_append" := by
  rcases op with ⟨l, _ | ⟨proj, ps⟩⟩ | ⟨l, _ | ⟨proj, ps⟩⟩ | c
  case constant => cases c <;> rfl
  case copy.nil | move.nil =>
    simp only [appendSymbol, floatItem, spelled, bareLocal, argTy, Option.bind_some, Option.any_some]
    generalize (localTy body l).map derefTy = t
    rcases t with _ | t
    · rfl
    · cases t <;> rfl
  all_goals rfl

theorem absSymbol_eq (destination : Place) : absSymbol body op destination =
    bif intResult body op destination then "__cobrust_int_abs" else "__cobrust_math_abs" := by
  unfold absSymbol intResult
  generalize destTy body destination = t
  rcases op with p | p | c
  case constant =>
    cases c <;> rcases t with _ | t <;> first | rfl | (cases t <;> rfl)
  all_goals
    rcases t with _ | t
    · rfl
    · cases t <;> rfl

theorem byDest_eq (destination : Place) (float other : String) : byDest body destination float other =
    bif destTy body destination matches some .float then float else other := by
  unfold byDest
  generalize destTy body destination = t
  rcases t with _ | t
  · rfl
  · cases t <;> rfl

variable {body op}

theorem spelled_disjoint {lit lit' : Constant → Bool} {declared declared' : Option Ty → Bool}
    (hlit : ∀ c, lit c = true → lit' c = false) (hdeclared : ∀ t, declared t = true → declared' t = false)
    (h : spelled body lit declared op = true) : spelled body lit' declared' op = false := by
  rcases op with ⟨l, _ | ⟨proj, ps⟩⟩ | ⟨l, _ | ⟨proj, ps⟩⟩ | c
  case constant => exact hlit c h
  case copy.nil | move.nil => exact hdeclared _ h
  all_goals rfl

theorem intArg_of_boolArg (h : boolArg body op = true) : intArg body op = false := by
  refine spelled_disjoint (fun c hc => ?_) (fun t ht => ?_) h
  · cases c <;> first | rfl | cases hc
  · rcases t with _ | ⟨_ | _⟩ <;> first | rfl | cases ht

theorem of_floatArg (h : floatArg body op = true) : intArg body op = false ∧ boolArg body op = false := by
  constructor
  all_goals
    refine spelled_disjoint (fun c hc => ?_) (fun t ht => ?_) h
    · cases c <;> first | rfl | cases hc
    · rcases t with _ | ⟨_ | _⟩ <;> first | rfl | cases ht

theorem strArg_of_bytesArg (h : bytesArg body op = true) : strArg body op = false := by
  refine spelled_disjoint (fun c hc => ?_) (fun t ht => ?_) h
  · cases c <;> first | rfl | cases hc
  · generalize t.map derefTy = t at ht ⊢
    rcases t with _ | ⟨_ | _⟩ <;> first | rfl | cases ht

theorem of_listArg (h : listArg body op = true) : strArg body op = false ∧ bytesArg body op = false := by
  constructor
  all_goals
    refine spelled_disjoint (fun c hc => by cases hc) (fun t ht => ?_) h
    generalize t.map derefTy = t at ht ⊢
    rcases t with _ | ⟨_ | _⟩ <;> first | rfl | cases ht

end picked

theorem variant_print_iff (body : Body) (args : List Operand) (destination : Place) (σ : Ty) :
    variant (isStrLit (arg args 0)) .print σ = some (runtimeSymbol body args destination .print) ↔
      fits body args destination .print σ = true := by
  have hbool := @intArg_of_boolArg body (arg args 0)
  have hfloat := @of_floatArg body (arg args 0)
  unfold variant runtimeSymbol fits
  simp only [printSymbol_eq]
  generalize arg args 0 = op at hbool hfloat ⊢
  generalize intArg body op = i at hbool hfloat ⊢
  generalize boolArg body op = b at hbool hfloat ⊢
  generalize floatArg body op = f at hfloat ⊢
  cases derefTy σ
  case int | intN => cases i <;> cases b <;> cases f <;> cases isStrLit op <;> simp
  case bool => cases b <;> cases i <;> cases f <;> cases isStrLit op <;> simp at hbool ⊢
  case float => cases f <;> cases i <;> cases b <;> cases isStrLit op <;> simp at hfloat ⊢
  case str => cases i <;> cases b <;> cases f <;> cases isStrLit op <;> simp
  all_goals simp

theorem variant_len_iff (body : Body) (args : List Operand) (destination : Place) (literal : Bool) (σ : Ty) :
    variant literal .lenPoly σ = some (runtimeSymbol body args destination .lenPoly) ↔
      fits body args destination .lenPoly σ = true := by
  have hbytes := @strArg_of_bytesArg body (arg args 0)
  have hlist := @of_listArg body (arg args 0)
  unfold variant runtimeSymbol fits
  simp only [lenSymbol_eq]
  generalize strArg body (arg args 0) = s at hbytes hlist ⊢
  generalize bytesArg body (arg args 0) = b at hbytes hlist ⊢
  generalize listArg body (arg args 0) = l at hlist ⊢
  cases derefTy σ
  case str => cases s <;> cases b <;> cases l <;> simp
  case bytes => cases b <;> cases s <;> cases l <;> simp at hbytes ⊢
  case list => cases l <;> cases s <;> cases b <;> simp at hlist ⊢
  case dict => cases s <;> cases b <;> cases l <;> simp
  all_goals simp

theorem byElem_iff {float other : String} (hne : float ≠ other) (b : Bool) (σ : Ty) :
    byElem float other σ = some (bif b then float else other) ↔
      (match derefTy σ with
        | .list .float => b
        | .list _ => !b
        | _ => false) = true := by
  unfold byElem
  split <;> cases b <;> simp [hne, hne.symm]

theorem variant_abs_iff (body : Body) (args : List Operand) (destination : Place) (literal : Bool) (σ : Ty) :
    variant literal .mathAbs σ = some (runtimeSymbol body args destination .mathAbs) ↔
      fits body args destination .mathAbs σ = true := by
  unfold variant runtimeSymbol fits
  simp only [absSymbol_eq]
  split <;> cases intResult body (arg args 0) destination <;> simp

theorem variant_sorted_iff (body : Body) (args : List Operand) (destination : Place) (literal : Bool) {σ : Ty}
    (h : Accepted .sorted σ) : variant literal .sorted σ = some (runtimeSymbol body args destination .sorted) ↔
      fits body args destination .sorted σ = true := by
  have hσ : derefTy σ = .list .int ∨ derefTy σ = .list .float ∨ derefTy σ = .list .str := by
    cases h with
    | reduce hk => simp at hk
    | sorted hσ => exact hσ
  unfold variant runtimeSymbol sortedSymbol fits
  dsimp only
  generalize destTy body destination = t
  rcases hσ with hσ | hσ | hσ
  all_goals
    rw [hσ]
    rcases t with _ | t
    · simp
    · cases t
      case list τ => cases τ <;> simp
      all_goals simp

/-- The helper that is picked is the one of the static type where the operands fit. -/
theorem variant_iff_fits (body : Body) (args : List Operand) (destination : Place) {k : Kind} {σ : Ty}
    (h : Accepted k σ) : variant (isStrLit (arg args 0)) k σ = some (runtimeSymbol body args destination k) ↔
      fits body args destination k σ = true := by
  cases h with
  | print => exact variant_print_iff body args destination σ
  | str | bytes | list | dict => exact variant_len_iff body args destination _ σ
  | @append τ =>
    unfold variant runtimeSymbol fits
    simp only [appendSymbol_eq]
    exact byElem_iff (by decide) _ _
  | @pop τ =>
    unfold variant runtimeSymbol fits
    simp only [byDest_eq]
    exact byElem_iff (by decide) _ _
  | abs => exact variant_abs_iff body args destination _ σ
  | reduce hk =>
    rcases hk with rfl | rfl | rfl
    all_goals
      unfold variant runtimeSymbol fits
      simp only [byDest_eq]
      exact byElem_iff (by decide) _ _
  | sorted hσ => exact variant_sorted_iff body args destination _ (.sorted hσ)

/-! ## Modules -/

/-- The call in a block of a body has become a call of the helper. -/
def Dispatched (m m' : Module) (body : Body) (i : Nat) (symbol : String) : Prop :=
  ∃ body' ∈ m'.bodies, rewriteBody m.bodies body = .ok body' ∧ ∃ block', body'.blocks[i]? = some block' ∧
    ∃ args destination target unwind,
      block'.terminator = .call (.constant (.str symbol)) args destination target unwind

theorem exists_rewriteBody {m m' : Module} (h : rewritePrint m = .ok m') (hstubs : allIds m.bodies ≠ [])
    {body : Body} (hbody : body ∈ m.bodies) (hid : body.defId ∉ allIds m.bodies) :
    ∃ body' ∈ m'.bodies, rewriteBody m.bodies body = .ok body' := by
  have hcollected : ¬ (allIds m.bodies).contains body.defId = true := by rwa [List.contains_iff_mem]
  rw [rewritePrint, if_neg (by rwa [List.isEmpty_iff])] at h
  obtain ⟨out, hout, h⟩ := except_bind_ok.1 h
  cases h
  obtain ⟨body', hmem, hstep⟩ := exists_right (except_mapM_iff.1 hout) hbody
  rw [if_neg hcollected] at hstep
  refine ⟨body', List.mem_filter.2 ⟨hmem, ?_⟩, hstep⟩
  rw [(rewriteBody_ok hstep).1]
  simpa using hcollected

theorem exists_block {bodies : List Body} {b b' : Body} (h : rewriteBody bodies b = .ok b') {i : Nat}
    {block : BasicBlock} (hblock : b.blocks[i]? = some block) : ∃ block', b'.blocks[i]? = some block' ∧
      rewriteTerminator bodies b block.terminator = .ok block'.terminator := by
  obtain ⟨hi, rfl⟩ := List.getElem?_eq_some_iff.1 hblock
  obtain ⟨-, hblocks⟩ := rewriteBody_ok h
  have hi' : i < b'.blocks.length := hblocks.length_eq ▸ hi
  exact ⟨b'.blocks[i], List.getElem?_eq_getElem hi', (hblocks.get hi hi').2⟩

theorem call_of_kind {bodies : List Body} {body : Body} {func : Operand} {args : List Operand} {destination : Place}
    {target : BlockId} {unwind : Option BlockId} {t : Terminator} {k : Kind} (hk : calleeKind bodies body func = some k)
    (h : rewriteTerminator bodies body (.call func args destination target unwind) = .ok t) :
    ∃ args' destination' target' unwind',
      t = .call (.constant (.str (runtimeSymbol body args destination k))) args' destination' target' unwind' := by
  rw [rewriteTerminator, hk] at h
  dsimp only at h
  split at h
  · cases h
    exact ⟨_, _, _, _, rfl⟩
  · cases h

section site

variable {m m' : Module} {body : Body} {i : Nat} {block : BasicBlock} {func : Operand} {args : List Operand}
  {destination : Place} {target : BlockId} {unwind : Option BlockId} {k : Kind}

theorem dispatched_eq (h : rewritePrint m = .ok m') (hstubs : allIds m.bodies ≠ []) (hbody : body ∈ m.bodies)
    (hid : body.defId ∉ allIds m.bodies) (hblock : body.blocks[i]? = some block)
    (hcall : block.terminator = .call func args destination target unwind)
    (hk : calleeKind m.bodies body func = some k) {symbol : String} :
    Dispatched m m' body i symbol ↔ symbol = runtimeSymbol body args destination k := by
  obtain ⟨body', hmem, hok⟩ := exists_rewriteBody h hstubs hbody hid
  obtain ⟨block', hblock', hterm⟩ := exists_block hok hblock
  rw [hcall] at hterm
  constructor
  · rintro ⟨b, -, hb, block'', hblock'', args', destination', target', unwind', hterm'⟩
    obtain rfl := Except.ok.inj (hok.symm.trans hb)
    obtain rfl := Option.some.inj (hblock'.symm.trans hblock'')
    rw [hterm'] at hterm
    exact Constant.str.inj (Operand.constant.inj (func_of_kind hk hterm))
  · rintro rfl
    exact ⟨body', hmem, hok, block', hblock', call_of_kind hk hterm⟩

/-- A call of a polymorphic builtin becomes a call of the helper of its argument's static type if and only if its
operands fit that type. -/
theorem dispatched_iff (h : rewritePrint m = .ok m') (hstubs : allIds m.bodies ≠ []) (hbody : body ∈ m.bodies)
    (hid : body.defId ∉ allIds m.bodies) (hblock : body.blocks[i]? = some block)
    (hcall : block.terminator = .call func args destination target unwind)
    (hk : calleeKind m.bodies body func = some k) {σ : Ty} (hσ : Accepted k σ) :
    (∃ symbol, Dispatched m m' body i symbol ∧ variant (isStrLit (arg args 0)) k σ = some symbol) ↔
      fits body args destination k σ = true := by
  rw [← variant_iff_fits body args destination hσ]
  constructor
  · rintro ⟨symbol, hd, hv⟩
    rw [hv, (dispatched_eq h hstubs hbody hid hblock hcall hk).1 hd]
  · intro hv
    exact ⟨_, (dispatched_eq h hstubs hbody hid hblock hcall hk).2 rfl, hv⟩

end site

namespace Sample

def span : Span :=
  ⟨0, 0, 0⟩

/-- The stub of `print`. -/
def printStub : Body :=
  ⟨0, "print", [], [⟨0, [], .ret, span⟩], 0, 0, span⟩

/-- `let x: i64 = 5`, `let r = &x`, `print(r)`. -/
def printRef : Body :=
  ⟨1, "main",
    [⟨0, "_return", .int, true, span, none⟩, ⟨1, "x", .int, false, span, none⟩, ⟨2, "r", .ref .int, false, span, none⟩,
      ⟨3, "_callret", .int, true, span, none⟩],
    [⟨0, [⟨.assign (.ofLocal 1) (.use (.constant (.int 5))), span⟩,
        ⟨.assign (.ofLocal 2) (.use (.copy (.ofLocal 1))), span⟩],
      .call (.constant (.fnRef 0)) [.copy (.ofLocal 2)] (.ofLocal 3) 1 none, span⟩,
      ⟨1, [⟨.assign (.ofLocal 0) (.use (.constant (.int 0))), span⟩], .ret, span⟩], 0, 0, span⟩

/-- `let x: i64 = 5`, `print(x)`. -/
def printInt : Body :=
  ⟨1, "main",
    [⟨0, "_return", .int, true, span, none⟩, ⟨1, "x", .int, false, span, none⟩, ⟨2, "_callret", .int, true, span, none⟩],
    [⟨0, [⟨.assign (.ofLocal 1) (.use (.constant (.int 5))), span⟩],
      .call (.constant (.fnRef 0)) [.copy (.ofLocal 1)] (.ofLocal 2) 1 none, span⟩,
      ⟨1, [⟨.assign (.ofLocal 0) (.use (.constant (.int 0))), span⟩], .ret, span⟩], 0, 0, span⟩

section Names

variable {b : Body}

theorem ne_name_of_kindForName {name : String} (h : kindForName name = none) (k : Kind) : name ≠ k.name := by
  rintro rfl
  rw [kindForName_name] at h
  cases h

theorem main_ne_name (k : Kind) : "main" ≠ k.name :=
  ne_name_of_kindForName (by decide +kernel) k

/-- Beside a function `main`, only the body of `print` is collected. -/
theorem collectPrintDefIds_main (hname : b.name = "main") (k : Kind) :
    collectPrintDefIds [printStub, b] k = if k = .print then [0] else [] := by
  have hmain : (b.name == k.name) = false := by
    rw [hname]
    exact beq_false_of_ne (main_ne_name k)
  have hstub : (printStub.name == k.name) = decide (k = .print) := by
    rw [beq_eq_decide, decide_eq_decide]
    exact ⟨fun h => (name_injective (k := .print) h).symm, fun h => h ▸ rfl⟩
  by_cases hk : k = .print
  · subst hk
    have hfilter : [printStub, b].filter (fun b => b.name == Kind.name .print) = [printStub] := by simp [hstub, hmain]
    rw [collectPrintDefIds, hfilter]
    rfl
  · have hfilter : [printStub, b].filter (fun b => b.name == k.name) = [] := by simp [hstub, hmain, hk]
    rw [collectPrintDefIds, hfilter, if_neg hk]
    cases k.guarded <;> rfl

theorem allIds_main (hname : b.name = "main") : allIds [printStub, b] = [0] := by
  have hcollect := funext (collectPrintDefIds_main hname)
  rw [allIds, hcollect]
  rfl

theorem kindForDefId_main (hname : b.name = "main") : kindForDefId [printStub, b] 0 = some .print := by
  have hcollect := funext (collectPrintDefIds_main hname)
  rw [kindForDefId, hcollect]
  rfl

theorem exists_rewritePrint_main (hname : b.name = "main") (hid : b.defId = 1)
    (hblocks : ∀ block ∈ b.blocks, ∃ t', rewriteTerminator [printStub, b] b block.terminator = .ok t') :
    ∃ m', rewritePrint ⟨[printStub, b]⟩ = .ok m' := by
  obtain ⟨blocks, hmap⟩ := exists_except_mapM (f := fun block : BasicBlock => do
      let terminator ← rewriteTerminator [printStub, b] b block.terminator
      return { block with terminator }) fun block hblock => by
    obtain ⟨t', ht'⟩ := hblocks block hblock
    exact ⟨_, except_bind_ok.2 ⟨t', ht', rfl⟩⟩
  have hbody : rewriteBody [printStub, b] b = .ok { b with blocks } := except_bind_ok.2 ⟨blocks, hmap, rfl⟩
  have hout : [printStub, b].mapM (fun body => if [0].contains body.defId then .ok body
      else rewriteBody [printStub, b] body) = .ok [printStub, { b with blocks }] := by
    refine except_mapM_iff.2 (.cons rfl (.cons ?_ .nil))
    rw [if_neg (by rw [hid]; decide), hbody]
  rw [rewritePrint, allIds_main hname]
  exact ⟨_, except_bind_ok.2 ⟨_, hout, rfl⟩⟩

theorem exists_rewriteTerminator_print (hname : b.name = "main") (arg : Operand) (destination : Place) :
    ∃ t', rewriteTerminator [printStub, b] b (.call (.constant (.fnRef 0)) [arg] destination 1 none) = .ok t' :=
  ⟨_, rewriteTerminator_of_kind (k := .print) (kindForDefId_main hname) rfl⟩

end Names

theorem rewritePrint_printRef : ∃ m', rewritePrint ⟨[printStub, printRef]⟩ = .ok m' := by
  refine exists_rewritePrint_main rfl rfl fun block hblock => ?_
  rcases List.mem_cons.1 hblock with rfl | hblock
  · exact exists_rewriteTerminator_print rfl _ _
  · rw [List.mem_singleton.1 hblock]
    exact ⟨_, rfl⟩

theorem rewritePrint_printInt : ∃ m', rewritePrint ⟨[printStub, printInt]⟩ = .ok m' := by
  refine exists_rewritePrint_main rfl rfl fun block hblock => ?_
  rcases List.mem_cons.1 hblock with rfl | hblock
  · exact exists_rewriteTerminator_print rfl _ _
  · rw [List.mem_singleton.1 hblock]
    exact ⟨_, rfl⟩

end Sample

open Sample in
theorem dispatched_printInt : ∃ m', rewritePrint ⟨[printStub, printInt]⟩ = .ok m' ∧
    ((∃ symbol, Dispatched ⟨[printStub, printInt]⟩ m' printInt 0 symbol ∧ variant false .print .int = some symbol) ↔
      fits printInt [.copy (.ofLocal 1)] (.ofLocal 2) .print .int = true) := by
  obtain ⟨m', hm⟩ := rewritePrint_printInt
  have hids : allIds [printStub, printInt] = [0] := allIds_main rfl
  have hk : calleeKind [printStub, printInt] printInt (.constant (.fnRef 0)) = some .print := kindForDefId_main rfl
  exact ⟨m', hm, dispatched_iff hm (by rw [hids]; decide) (List.mem_cons_of_mem _ List.mem_cons_self)
    (by rw [hids]; decide) rfl rfl hk (.print .int)⟩

open Sample in
/-- A local that is declared as a reference to an `int` is printed as a string buffer. -/
theorem print_ref_as_str : ∃ m', rewritePrint ⟨[printStub, printRef]⟩ = .ok m' ∧ Accepted .print (.ref .int) ∧
    ¬ ∃ symbol, Dispatched ⟨[printStub, printRef]⟩ m' printRef 0 symbol ∧
      variant false .print (.ref .int) = some symbol := by
  obtain ⟨m', hm⟩ := rewritePrint_printRef
  have hids : allIds [printStub, printRef] = [0] := allIds_main rfl
  have hk : calleeKind [printStub, printRef] printRef (.constant (.fnRef 0)) = some .print := kindForDefId_main rfl
  refine ⟨m', hm, .print _, ?_⟩
  rintro ⟨symbol, hd, hv⟩
  have hpicked := (dispatched_eq hm (by rw [hids]; decide) (List.mem_cons_of_mem _ List.mem_cons_self)
    (by rw [hids]; decide) rfl rfl hk).1 hd
  have hprinted : runtimeSymbol printRef [.copy (.ofLocal 2)] (.ofLocal 3) .print = "__cobrust_println_str_buf" := rfl
  rw [hpicked, hprinted] at hv
  exact absurd (Option.some.inj hv) (by decide)

end Cobrust.Build
