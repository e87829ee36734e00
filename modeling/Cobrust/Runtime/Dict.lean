import Cobrust.Build.Intrinsics
import Cobrust.Mir.LowerRunOperator
import Cobrust.Mir.Lower.Stmt
import Cobrust.Store.FirstSeen
import Cobrust.Text.Stream

/-!
# Dicts at runtime

The shims `__cobrust_dict_*` of `cobrust-stdlib/src/collections.rs`, and the calls that indexing, assignment, `in`,
`len` and `dict_is_empty` are lowered to. A dict comes from `__cobrust_dict_new`; a dict literal, for which the backend
puts a null pointer, is left out. Text is passed in buffers of its bytes.

* `Represents`: a dict that holds what was written last under every key, in the order of the first writes.
* `exec_step`: one call, against a Python dict.
* `refines_iff`: a run is that of Python dicts exactly when every key that is read has been written.
-/

namespace Cobrust.Runtime

open Store (IndexMap firsts lastWritten see)

/-! ## The shims -/

inductive KeyEnum where
  | i64 (k : Int64)
  | str (k : Text)
  deriving DecidableEq

inductive ValueEnum where
  | i64 (v : Int64)
  | str (v : Text)
  | opaquePtr (ptr : UInt64)

structure DictLayout where
  map : IndexMap KeyEnum ValueEnum
  kTag : Int64
  vTag : Int64

def TAG_I64 : Int64 := 0

def TAG_STR : Int64 := 1

/-- `normalize_k_tag` and `normalize_v_tag` -/
def normalizeTag (raw : Int64) : Int64 :=
  if raw = TAG_STR then TAG_STR else TAG_I64

/-- The bytes of a text, or the null pointer. -/
abbrev StrBuffer :=
  Option (List UInt8)

def readStrBuffer : StrBuffer → Text
  | none => []
  | some bytes => Text.fromUtf8Lossy bytes

def allocStrBuffer (payload : Text) : StrBuffer :=
  some (Text.utf8 payload)

/-- A pointer to a dict, or the null pointer. -/
abbrev DictPtr :=
  Option DictLayout

def cobrustDictNew (kSize vSize _len : Int64) : DictPtr :=
  some ⟨IndexMap.empty, normalizeTag kSize, normalizeTag vSize⟩

def cobrustDictLen : DictPtr → Int64
  | none => 0
  | some layout => Int64.ofNat layout.map.len

def cobrustDictIsEmpty : DictPtr → Int64
  | none => 1
  | some layout => if layout.map.isEmpty then 1 else 0

/-- What the shims that write have in common. -/
def dictSet (dict : DictPtr) (k : KeyEnum) (v : ValueEnum) : DictPtr :=
  dict.map fun layout => { layout with map := layout.map.insert k v }

/-- What the shims that read have in common: without a value of its own kind, a shim returns `missing`. -/
def dictGet {α : Type} (dict : DictPtr) (k : KeyEnum) (read : ValueEnum → Option α) (missing : α) : α :=
  match dict with
  | none => missing
  | some layout => ((layout.map.get k).bind read).getD missing

def dictContains (dict : DictPtr) (k : KeyEnum) : Int64 :=
  match dict with
  | none => 0
  | some layout => if layout.map.containsKey k then 1 else 0

def ValueEnum.asI64 : ValueEnum → Option Int64
  | i64 v => some v
  | _ => none

/-- A fresh buffer. -/
def ValueEnum.asStr : ValueEnum → Option StrBuffer
  | str s => some (allocStrBuffer s)
  | _ => none

def cobrustDictSetI64I64 (dict : DictPtr) (k v : Int64) : DictPtr :=
  dictSet dict (.i64 k) (.i64 v)

def cobrustDictGetI64I64 (dict : DictPtr) (k : Int64) : Int64 :=
  dictGet dict (.i64 k) ValueEnum.asI64 0

def cobrustDictContainsI64 (dict : DictPtr) (k : Int64) : Int64 :=
  dictContains dict (.i64 k)

def cobrustDictSetI64Str (dict : DictPtr) (k : Int64) (v : StrBuffer) : DictPtr :=
  dictSet dict (.i64 k) (.str (readStrBuffer v))

def cobrustDictGetI64Str (dict : DictPtr) (k : Int64) : StrBuffer :=
  dictGet dict (.i64 k) ValueEnum.asStr none

def cobrustDictSetStrI64 (dict : DictPtr) (k : StrBuffer) (v : Int64) : DictPtr :=
  dictSet dict (.str (readStrBuffer k)) (.i64 v)

def cobrustDictGetStrI64 (dict : DictPtr) (k : StrBuffer) : Int64 :=
  dictGet dict (.str (readStrBuffer k)) ValueEnum.asI64 0

def cobrustDictContainsStr (dict : DictPtr) (k : StrBuffer) : Int64 :=
  dictContains dict (.str (readStrBuffer k))

def cobrustDictSetStrStr (dict : DictPtr) (k v : StrBuffer) : DictPtr :=
  dictSet dict (.str (readStrBuffer k)) (.str (readStrBuffer v))

def cobrustDictGetStrStr (dict : DictPtr) (k : StrBuffer) : StrBuffer :=
  dictGet dict (.str (readStrBuffer k)) ValueEnum.asStr none

/-! ## The calls -/

/-- The types of keys and of values. -/
inductive Kind where
  | i64
  | str
  deriving DecidableEq, Repr

namespace Kind

def ty : Kind → Ty
  | i64 => .int
  | str => .str

def tag : Kind → Int64
  | i64 => TAG_I64
  | str => TAG_STR

/-- The values of the type. -/
abbrev Val : Kind → Type
  | i64 => Int64
  | str => Text

/-- What a call passes for a value. -/
abbrev Word : Kind → Type
  | i64 => Int64
  | str => StrBuffer

instance : (K : Kind) → DecidableEq K.Val
  | i64 => inferInstanceAs (DecidableEq Int64)
  | str => inferInstanceAs (DecidableEq Text)

def pass : (K : Kind) → K.Val → K.Word
  | i64, n => n
  | str, s => allocStrBuffer s

def key : (K : Kind) → K.Val → KeyEnum
  | i64, n => .i64 n
  | str, s => .str s

def value : (K : Kind) → K.Val → ValueEnum
  | i64, n => .i64 n
  | str, s => .str s

end Kind

/-- The shims, by the types of keys and values that they are for. -/
inductive Shim where
  | set (K V : Kind)
  | get (K V : Kind)
  | contains (K : Kind)
  | len
  | isEmpty

def Shim.symbol : Shim → String
  | set .i64 .i64 => "__cobrust_dict_set_i64_i64"
  | set .i64 .str => "__cobrust_dict_set_i64_str"
  | set .str .i64 => "__cobrust_dict_set_str_i64"
  | set .str .str => "__cobrust_dict_set_str_str"
  | get .i64 .i64 => "__cobrust_dict_get_i64_i64"
  | get .i64 .str => "__cobrust_dict_get_i64_str"
  | get .str .i64 => "__cobrust_dict_get_str_i64"
  | get .str .str => "__cobrust_dict_get_str_str"
  | contains .i64 => "__cobrust_dict_contains_i64"
  | contains .str => "__cobrust_dict_contains_str"
  | len => "__cobrust_dict_len"
  | isEmpty => "__cobrust_dict_is_empty"

def callSet : (K V : Kind) → DictPtr → K.Word → V.Word → DictPtr
  | .i64, .i64 => cobrustDictSetI64I64
  | .i64, .str => cobrustDictSetI64Str
  | .str, .i64 => cobrustDictSetStrI64
  | .str, .str => cobrustDictSetStrStr

def callGet : (K V : Kind) → DictPtr → K.Word → V.Word
  | .i64, .i64 => cobrustDictGetI64I64
  | .i64, .str => cobrustDictGetI64Str
  | .str, .i64 => cobrustDictGetStrI64
  | .str, .str => cobrustDictGetStrStr

def callContains : (K : Kind) → DictPtr → K.Word → Int64
  | .i64 => cobrustDictContainsI64
  | .str => cobrustDictContainsStr

section lowering

open Mir (BasicBlock BlockId BodyBuilder LowerCtx Operand Sub SubIndex lowerIndex)

variable {b b₁ b₂ b₃ : BodyBuilder} {c : BlockId} {block : BasicBlock} {op₁ op₂ op₃ : Operand}

/-- A read is one call; no membership is tested before. -/
theorem lowerDictIndex_eq (K V : Kind) {base : Sub} {index : SubIndex} (span : Span)
    (hbase : base.lower b = .ok (op₁, b₁)) (hindex : lowerIndex index b₁ = .ok (op₂, b₂)) (hopen : b₂.Open c block) :
    Mir.lowerDictIndex K.ty V.ty base index span b =
      .ok (if V.ty.isStr then .move (.ofLocal b₂.locals.length) else .copy (.ofLocal b₂.locals.length),
        b₂.callNew c "_didxget" V.ty span false (Shim.get K V).symbol [op₁, op₂]) := by
  have hsymbol : Mir.dictGetSymbol K.ty V.ty = (Shim.get K V).symbol := by
    cases K <;> cases V <;> rfl
  unfold Mir.lowerDictIndex
  rw [hsymbol]
  refine Control.bind_eq_ok.2 ⟨_, _, hbase, Control.bind_eq_ok.2 ⟨_, _, hindex, ?_⟩⟩
  refine Control.bind_eq_ok.2 ⟨_, _, Mir.declareLocal_eq _ _ _ _ _, ?_⟩
  exact Control.bind_eq_ok.2 ⟨(), _, Mir.callSymbol_eq hopen _ _ _ _ _ _, rfl⟩

theorem lowerSetItem_eq (K V : Kind) (ctx : LowerCtx) {base value : Hir.Expr} {index : Hir.IndexKind} (span : Span)
    (hbase : Mir.lowerExpr ctx base b = .ok (op₁, b₁)) (hindex : lowerIndex (Mir.subIndex ctx index) b₁ = .ok (op₂, b₂))
    (hvalue : Mir.lowerExpr ctx value b₂ = .ok (op₃, b₃)) (hopen : b₃.Open c block) :
    Mir.lowerSetItem ctx "_dsetret" (Mir.dictSetSymbol K.ty V.ty) (fun op => op) base index value span b =
      .ok ((), b₃.callNew c "_dsetret" .none span false (Shim.set K V).symbol [op₁, op₂, op₃]) := by
  have hsymbol : Mir.dictSetSymbol K.ty V.ty = (Shim.set K V).symbol := by
    cases K <;> cases V <;> rfl
  unfold Mir.lowerSetItem
  rw [hsymbol]
  refine Control.bind_eq_ok.2 ⟨_, _, hbase, Control.bind_eq_ok.2 ⟨_, _, hindex, ?_⟩⟩
  refine Control.bind_eq_ok.2 ⟨_, _, hvalue, Control.bind_eq_ok.2 ⟨_, _, Mir.declareLocal_eq _ _ _ _ _, ?_⟩⟩
  exact Mir.callSymbol_eq hopen _ _ _ _ _ _

/-- The key is lowered before the dict and passed behind it; what the call returns is compared with zero. -/
theorem lowerDictContains_eq (K : Kind) (negated : Bool) {lhs rhs : Sub} (span : Span)
    (hlhs : lhs.lower b = .ok (op₁, b₁)) (hrhs : rhs.lower b₁ = .ok (op₂, b₂)) (hopen : b₂.Open c block) :
    Mir.lowerDictContains K.ty negated lhs rhs span b =
      .ok (.copy (.ofLocal (b₂.callNew c "_dctn" .int span false (Shim.contains K).symbol [op₂, op₁]).locals.length),
        (b₂.callNew c "_dctn" .int span false (Shim.contains K).symbol [op₂, op₁]).assignNew b₂.blocks.length "_dctnb"
          .bool span false
          (.binaryOp (if negated then .eq else .notEq) (.copy (.ofLocal b₂.locals.length)) (.constant (.int 0)))) := by
  have hsymbol : (if K.ty.isStr then "__cobrust_dict_contains_str" else "__cobrust_dict_contains_i64") =
      (Shim.contains K).symbol := by
    cases K <;> rfl
  unfold Mir.lowerDictContains
  rw [hsymbol]
  refine Control.bind_eq_ok.2 ⟨_, _, hlhs, Control.bind_eq_ok.2 ⟨_, _, hrhs, ?_⟩⟩
  refine Control.bind_eq_ok.2 ⟨_, _, Mir.declareLocal_eq _ _ _ _ _, ?_⟩
  refine Control.bind_eq_ok.2 ⟨(), _, Mir.callSymbol_eq hopen _ _ _ _ _ _, ?_⟩
  exact Mir.assignTemp_eq (Mir.open_leave (Mir.open_addLocal hopen _ _ _ _) _) _ _ _ _

theorem lenSymbol_eq {body : Mir.Body} {op : Operand} {K V : Kind}
    (h : Build.argTy body op = some (.dict K.ty V.ty)) : Build.lenSymbol body op = Shim.len.symbol := by
  unfold Build.lenSymbol
  cases op with
  | constant k => cases h
  | copy place => simp only [h, Shim.symbol]
  | move place => simp only [h, Shim.symbol]

theorem runtimeSymbol_dictIsEmpty (body : Mir.Body) (args : List Operand) (destination : Mir.Place) :
    Build.runtimeSymbol body args destination .dictIsEmpty = Shim.isEmpty.symbol :=
  rfl

end lowering

/-! ## Runs -/

section runs

variable {ι : Type}

/-- The operations on dicts with keys and values of the types `Γ`. -/
inductive DictOp (Γ : ι → Kind × Kind) where
  | set (d : ι) (k : (Γ d).1.Val) (v : (Γ d).2.Val)
  | get (d : ι) (k : (Γ d).1.Val)
  | contains (d : ι) (k : (Γ d).1.Val)
  | len (d : ι)
  | isEmpty (d : ι)

/-- What a program gets to see. -/
inductive Answer where
  | done
  | int (n : Int64)
  | str (s : Text)
  | null
  | bool (b : Bool)
  deriving DecidableEq

/-- How a run ends: with all answers and a state, or aborted after some answers. -/
inductive Course (σ : Type) where
  | finished (answers : List Answer) (state : σ)
  | aborted (answers : List Answer)

def Course.cons {σ : Type} (a : Answer) : Course σ → Course σ
  | finished answers state => finished (a :: answers) state
  | aborted answers => aborted (a :: answers)

variable {Γ : ι → Kind × Kind} [DecidableEq ι]

/-- What a returned word is to the program. -/
def Kind.seen : (V : Kind) → V.Word → Answer
  | i64, n => .int n
  | str, none => .null
  | str, some bytes => .str (Text.fromUtf8Lossy bytes)

/-- One call; no shim aborts. -/
def exec (dicts : ι → DictPtr) : DictOp Γ → (ι → DictPtr) × Answer
  | .set d k v =>
    (Function.update dicts d (callSet (Γ d).1 (Γ d).2 (dicts d) ((Γ d).1.pass k) ((Γ d).2.pass v)), .done)
  | .get d k => (dicts, (Γ d).2.seen (callGet (Γ d).1 (Γ d).2 (dicts d) ((Γ d).1.pass k)))
  | .contains d k => (dicts, .bool (callContains (Γ d).1 (dicts d) ((Γ d).1.pass k) ≠ 0))
  | .len d => (dicts, .int (cobrustDictLen (dicts d)))
  | .isEmpty d => (dicts, .bool (cobrustDictIsEmpty (dicts d) ≠ 0))

def runFrom (dicts : ι → DictPtr) : List (DictOp Γ) → Course (ι → DictPtr)
  | [] => .finished [] dicts
  | op :: ops => (runFrom (exec dicts op).1 ops).cons (exec dicts op).2

/-- The run on new dicts. -/
def run (ops : List (DictOp Γ)) : Course (ι → DictPtr) :=
  runFrom (fun d => cobrustDictNew (Γ d).1.tag (Γ d).2.tag 0) ops

/-! ## Python dicts -/

/-- What was written to each dict, in order. -/
abbrev Histories (Γ : ι → Kind × Kind) :=
  (d : ι) → List ((Γ d).1.Val × (Γ d).2.Val)

def Kind.answer : (V : Kind) → V.Val → Answer
  | i64, n => .int n
  | str, s => .str s

/-- One operation on Python dicts; none where it raises a `KeyError`. -/
def pyExec (hist : Histories Γ) : DictOp Γ → Option (Histories Γ × Answer)
  | .set d k v => some (Function.update hist d (hist d ++ [(k, v)]), .done)
  | .get d k => (lastWritten (hist d) k).map fun v => (hist, (Γ d).2.answer v)
  | .contains d k => some (hist, .bool (k ∈ (hist d).map Prod.fst))
  | .len d => some (hist, .int (Int64.ofNat (firsts ((hist d).map Prod.fst)).length))
  | .isEmpty d => some (hist, .bool (hist d).isEmpty)

def pyRunFrom (hist : Histories Γ) : List (DictOp Γ) → Course (Histories Γ)
  | [] => .finished [] hist
  | op :: ops =>
    match pyExec hist op with
    | none => .aborted []
    | some (hist', a) => (pyRunFrom hist' ops).cons a

def pyRun (ops : List (DictOp Γ)) : Course (Histories Γ) :=
  pyRunFrom (fun _ => []) ops

/-- The dict has the keys in the order of their first writes, each with the value that was written last. -/
def Represents {K V : Kind} (dict : DictPtr) (hist : List (K.Val × V.Val)) : Prop :=
  ∃ layout, dict = some layout ∧ layout.map.keys = (firsts (hist.map Prod.fst)).map K.key ∧
    ∀ k, layout.map.get (K.key k) = (lastWritten hist k).map V.value

/-- The run is that of Python dicts: the answers, the abort and the dicts at the end. -/
inductive Refines : Course (ι → DictPtr) → Course (Histories Γ) → Prop where
  | finished {answers dicts hist} : (∀ d, Represents (dicts d) (hist d)) →
    Refines (.finished answers dicts) (.finished answers hist)
  | aborted {answers} : Refines (.aborted answers) (.aborted answers)

/-- Every key that is read has been written to the same dict before. -/
def ReadsWritten (ops : List (DictOp Γ)) : Prop :=
  ∀ before d k after, ops = before ++ .get d k :: after → ∃ v, .set d k v ∈ before

/-! ## One call -/

theorem readStrBuffer_alloc (s : Text) : readStrBuffer (allocStrBuffer s) = s :=
  Text.fromUtf8Lossy_utf8 s

theorem Kind.seen_pass (V : Kind) (v : V.Val) : V.seen (V.pass v) = V.answer v := by
  cases V with
  | i64 => rfl
  | str => exact congrArg Answer.str (readStrBuffer_alloc v)

theorem Kind.key_injective (K : Kind) : Function.Injective K.key := by
  intro k k' h
  cases K with
  | i64 => exact KeyEnum.i64.inj h
  | str => exact KeyEnum.str.inj h

def Kind.read : (V : Kind) → ValueEnum → Option V.Word
  | i64 => ValueEnum.asI64
  | str => ValueEnum.asStr

/-- What a shim returns that finds no value. -/
def Kind.absent : (V : Kind) → V.Word
  | i64 => (0 : Int64)
  | str => none

theorem Kind.read_value (V : Kind) (v : V.Val) : V.read (V.value v) = some (V.pass v) := by
  cases V <;> rfl

section call

variable {K V : Kind} {k : K.Val} {v : V.Val} {layout : DictLayout} {dict : DictPtr} {hist : List (K.Val × V.Val)}

theorem callSet_pass : callSet K V dict (K.pass k) (V.pass v) = dictSet dict (K.key k) (V.value v) := by
  have hread := readStrBuffer_alloc
  cases K <;> cases V
  · rfl
  · exact congrArg (fun s => dictSet dict _ (.str s)) (hread v)
  · exact congrArg (fun s => dictSet dict (.str s) _) (hread k)
  · exact congrArg₂ (fun s t => dictSet dict (.str s) (.str t)) (hread k) (hread v)

theorem callContains_pass : callContains K dict (K.pass k) = dictContains dict (K.key k) := by
  cases K with
  | i64 => rfl
  | str => exact congrArg (fun s => dictContains dict (.str s)) (readStrBuffer_alloc k)

theorem callGet_pass : callGet K V dict (K.pass k) = dictGet dict (K.key k) V.read V.absent := by
  have hread := readStrBuffer_alloc
  cases K <;> cases V
  · rfl
  · rfl
  · exact congrArg (fun s => dictGet dict (.str s) ValueEnum.asI64 0) (hread k)
  · exact congrArg (fun s => dictGet dict (.str s) ValueEnum.asStr none) (hread k)

theorem callGet_some (h : layout.map.get (K.key k) = some (V.value v)) :
    callGet K V (some layout) (K.pass k) = V.pass v := by
  rw [callGet_pass, dictGet, h, Option.bind_some, V.read_value, Option.getD_some]

theorem represents_new (K V : Kind) (len : Int64) :
    Represents (K := K) (V := V) (cobrustDictNew K.tag V.tag len) [] :=
  ⟨_, rfl, rfl, fun _ => rfl⟩

theorem Represents.dictSet (h : Represents dict hist) (k : K.Val) (v : V.Val) :
    Represents (dictSet dict (K.key k) (V.value v)) (hist ++ [(k, v)]) := by
  obtain ⟨layout, rfl, hkeys, hget⟩ := h
  refine ⟨_, rfl, ?_, fun k' => ?_⟩
  · rw [Store.IndexMap.keys_insert, hkeys, List.map_append, List.map_singleton, Store.firsts_concat,
      Store.see_map K.key_injective]
  · rw [Store.IndexMap.get_insert, hget, Store.lastWritten_concat]
    by_cases hk : k' = k
    · rw [if_pos hk, if_pos (congrArg K.key hk)]
      rfl
    · rw [if_neg hk, if_neg fun h => hk (K.key_injective h)]

theorem Represents.dictContains (h : Represents dict hist) (k : K.Val) :
    dictContains dict (K.key k) = if k ∈ hist.map Prod.fst then 1 else 0 := by
  obtain ⟨layout, rfl, hkeys, -⟩ := h
  have hmem : layout.map.containsKey (K.key k) = true ↔ k ∈ hist.map Prod.fst := by
    rw [Store.IndexMap.containsKey, decide_eq_true_iff, hkeys, List.mem_map_of_injective K.key_injective,
      Store.mem_firsts]
  exact if_congr hmem rfl rfl

theorem Represents.dictLen (h : Represents dict hist) :
    cobrustDictLen dict = Int64.ofNat (firsts (hist.map Prod.fst)).length := by
  obtain ⟨layout, rfl, hkeys, -⟩ := h
  rw [cobrustDictLen, Store.IndexMap.len_eq, hkeys, List.length_map]

theorem Represents.dictIsEmpty (h : Represents dict hist) :
    cobrustDictIsEmpty dict = if hist.isEmpty then 1 else 0 := by
  obtain ⟨layout, rfl, hkeys, -⟩ := h
  refine if_congr ?_ rfl rfl
  rw [Store.IndexMap.isEmpty, List.isEmpty_iff, List.isEmpty_iff]
  constructor
  · intro hentries
    rw [Store.IndexMap.keys, hentries] at hkeys
    refine List.eq_nil_iff_forall_not_mem.2 fun w hw => ?_
    have hfirst := Store.mem_firsts.2 (List.mem_map_of_mem (f := Prod.fst) hw)
    rw [List.map_eq_nil_iff.1 hkeys.symm] at hfirst
    cases hfirst
  · rintro rfl
    exact List.map_eq_nil_iff.1 hkeys

end call

theorem decide_ite_ne_zero (p : Prop) [Decidable p] : decide ((if p then 1 else 0 : Int64) ≠ 0) = decide p := by
  by_cases h : p
  · rw [if_pos h, decide_eq_true h]
    rfl
  · rw [if_neg h, decide_eq_false h]
    rfl

variable {dicts : ι → DictPtr} {hist hist' : Histories Γ} {op : DictOp Γ} {ops : List (DictOp Γ)} {a : Answer}

theorem exec_step (h : ∀ d, Represents (dicts d) (hist d)) (hop : pyExec hist op = some (hist', a)) :
    (exec dicts op).2 = a ∧ ∀ d, Represents ((exec dicts op).1 d) (hist' d) := by
  cases op with
  | set d k v =>
    cases hop
    refine ⟨rfl, fun d' => ?_⟩
    change Represents (Function.update dicts d _ d') _
    by_cases hd : d' = d
    · subst hd
      rw [Function.update_self, Function.update_self, callSet_pass]
      exact (h d').dictSet k v
    · rw [Function.update_of_ne hd, Function.update_of_ne hd]
      exact h d'
  | get d k =>
    obtain ⟨v, hv, he⟩ := Option.map_eq_some_iff.1 hop
    cases he
    refine ⟨?_, h⟩
    obtain ⟨layout, hlayout, -, hget⟩ := h d
    change (Γ d).2.seen (callGet (Γ d).1 (Γ d).2 (dicts d) ((Γ d).1.pass k)) = _
    have hstored := hget k
    rw [hv] at hstored
    rw [hlayout, callGet_some hstored, Kind.seen_pass]
  | contains d k =>
    cases hop
    refine ⟨congrArg Answer.bool ?_, h⟩
    rw [callContains_pass, (h d).dictContains k, decide_ite_ne_zero]
  | len d =>
    cases hop
    exact ⟨congrArg Answer.int (h d).dictLen, h⟩
  | isEmpty d =>
    cases hop
    refine ⟨congrArg Answer.bool ?_, h⟩
    rw [(h d).dictIsEmpty, decide_ite_ne_zero, Bool.decide_eq_true]

/-! ## Whole runs -/

/-- Without an abort in the run itself, all operations are gone through. -/
theorem runFrom_finished (dicts : ι → DictPtr) (ops : List (DictOp Γ)) :
    ∃ answers dicts', runFrom dicts ops = .finished answers dicts' := by
  induction ops generalizing dicts with
  | nil => exact ⟨[], dicts, rfl⟩
  | cons op ops ih =>
    obtain ⟨answers, dicts', h⟩ := ih (exec dicts op).1
    exact ⟨(exec dicts op).2 :: answers, dicts', by rw [runFrom, h]; rfl⟩

theorem Course.cons_eq_finished {σ : Type} {o : Course σ} {answers : List Answer} {state : σ} :
    o.cons a = .finished answers state ↔ ∃ rest, o = .finished rest state ∧ answers = a :: rest := by
  cases o with
  | finished rest state' =>
    constructor
    · intro h
      cases h
      exact ⟨rest, rfl, rfl⟩
    · rintro ⟨rest', h, rfl⟩
      cases h
      rfl
  | aborted rest => exact iff_of_false (by rintro ⟨⟩) (by rintro ⟨_, ⟨⟩, -⟩)

omit [DecidableEq ι] in
theorem Refines.cons {o : Course (ι → DictPtr)} {o' : Course (Histories Γ)} (h : Refines o o') (a : Answer) :
    Refines (o.cons a) (o'.cons a) := by
  cases h with
  | finished h => exact .finished h
  | aborted => exact .aborted

theorem refines_runFrom (h : ∀ d, Represents (dicts d) (hist d)) {answers : List Answer} {final : Histories Γ}
    (hpy : pyRunFrom hist ops = .finished answers final) : Refines (runFrom dicts ops) (pyRunFrom hist ops) := by
  induction ops generalizing dicts hist answers final with
  | nil => exact .finished h
  | cons op ops ih =>
    rw [pyRunFrom] at hpy ⊢
    cases hexec : pyExec hist op with
    | none =>
      rw [hexec] at hpy
      cases hpy
    | some next =>
      rw [hexec] at hpy
      obtain ⟨hanswer, hnext⟩ := exec_step h hexec
      obtain ⟨rest, hrest, -⟩ := Course.cons_eq_finished.1 hpy
      rw [runFrom, hanswer]
      exact (ih hnext hrest).cons next.2

/-- Every key that is read has been written, in what went before or in the run. -/
def ReadsFrom (hist : Histories Γ) (ops : List (DictOp Γ)) : Prop :=
  ∀ before d k after, ops = before ++ .get d k :: after →
    k ∈ (hist d).map Prod.fst ∨ ∃ v, .set d k v ∈ before

theorem pyExec_eq_none : pyExec hist op = none ↔ ∃ d k, op = .get d k ∧ k ∉ (hist d).map Prod.fst := by
  have hread (d : ι) (k : (Γ d).1.Val) : pyExec hist (.get d k) = none ↔ k ∉ (hist d).map Prod.fst := by
    rw [pyExec, Option.map_eq_none_iff, ← Store.isSome_lastWritten, Option.not_isSome_iff_eq_none]
  constructor
  · intro h
    cases op with
    | get d k => exact ⟨d, k, rfl, (hread d k).1 h⟩
    | set d k v => cases h
    | contains d k => cases h
    | len d => cases h
    | isEmpty d => cases h
  · rintro ⟨d, k, rfl, hk⟩
    exact (hread d k).2 hk

/-- What one operation adds to the keys that are written. -/
theorem mem_keys_pyExec (h : pyExec hist op = some (hist', a)) {d : ι} {k : (Γ d).1.Val} :
    k ∈ (hist' d).map Prod.fst ↔ k ∈ (hist d).map Prod.fst ∨ ∃ v, op = .set d k v := by
  cases op with
  | set d' k' v =>
    cases h
    by_cases hd : d = d'
    · subst hd
      rw [Function.update_self, List.map_append, List.mem_append, List.map_singleton, List.mem_singleton]
      refine or_congr_right ⟨fun hk => ⟨v, by rw [hk]⟩, ?_⟩
      rintro ⟨v', hv'⟩
      cases hv'
      rfl
    · rw [Function.update_of_ne hd]
      refine (or_iff_left ?_).symm
      rintro ⟨v', hv'⟩
      cases hv'
      exact hd rfl
  | get d' k' =>
    obtain ⟨v, -, he⟩ := Option.map_eq_some_iff.1 h
    cases he
    exact (or_iff_left (by rintro ⟨_, ⟨⟩⟩)).symm
  | contains d' k' =>
    cases h
    exact (or_iff_left (by rintro ⟨_, ⟨⟩⟩)).symm
  | len d' =>
    cases h
    exact (or_iff_left (by rintro ⟨_, ⟨⟩⟩)).symm
  | isEmpty d' =>
    cases h
    exact (or_iff_left (by rintro ⟨_, ⟨⟩⟩)).symm

theorem readsFrom_cons (h : pyExec hist op = some (hist', a)) : ReadsFrom hist (op :: ops) ↔ ReadsFrom hist' ops := by
  constructor
  · rintro hreads before d k after rfl
    rcases hreads (op :: before) d k after rfl with hk | ⟨v, hv⟩
    · exact .inl ((mem_keys_pyExec h).2 (.inl hk))
    · rcases List.mem_cons.1 hv with hv | hv
      · exact .inl ((mem_keys_pyExec h).2 (.inr ⟨v, hv.symm⟩))
      · exact .inr ⟨v, hv⟩
  · intro hreads before d k after hops
    cases before with
    | nil =>
      obtain ⟨rfl, rfl⟩ := List.cons.inj hops
      by_contra hk
      rw [pyExec_eq_none.2 ⟨d, k, rfl, fun hmem => hk (.inl hmem)⟩] at h
      cases h
    | cons op' before =>
      obtain ⟨rfl, rfl⟩ := List.cons.inj hops
      rcases hreads before d k after rfl with hk | ⟨v, hv⟩
      · rcases (mem_keys_pyExec h).1 hk with hk | ⟨v, rfl⟩
        · exact .inl hk
        · exact .inr ⟨v, List.mem_cons_self⟩
      · exact .inr ⟨v, List.mem_cons_of_mem _ hv⟩

theorem readsFrom_iff : ReadsFrom hist ops ↔ ∃ answers final, pyRunFrom hist ops = .finished answers final := by
  induction ops generalizing hist with
  | nil =>
    refine iff_of_true (fun before d k after h => ?_) ⟨[], hist, rfl⟩
    cases List.append_ne_nil_of_right_ne_nil before (List.cons_ne_nil _ after) h.symm
  | cons op ops ih =>
    rw [pyRunFrom]
    cases hexec : pyExec hist op with
    | none =>
      obtain ⟨d, k, rfl, hk⟩ := pyExec_eq_none.1 hexec
      refine iff_of_false (fun hreads => ?_) (by rintro ⟨_, _, ⟨⟩⟩)
      rcases hreads [] d k ops rfl with hmem | ⟨v, hv⟩
      · exact hk hmem
      · cases hv
    | some next =>
      rw [readsFrom_cons hexec, ih]
      constructor
      · rintro ⟨answers, final, h⟩
        exact ⟨_, final, Course.cons_eq_finished.2 ⟨answers, h, rfl⟩⟩
      · rintro ⟨answers, final, h⟩
        obtain ⟨rest, hrest, -⟩ := Course.cons_eq_finished.1 h
        exact ⟨rest, final, hrest⟩

omit [DecidableEq ι] in
theorem readsFrom_nil : ReadsFrom (fun _ => []) ops ↔ ReadsWritten ops := by
  refine forall_congr' fun before => forall_congr' fun d => forall_congr' fun k => forall_congr' fun after => ?_
  exact imp_congr_right fun _ => or_iff_right List.not_mem_nil

theorem refines_iff (ops : List (DictOp Γ)) : Refines (run ops) (pyRun ops) ↔ ReadsWritten ops := by
  rw [← readsFrom_nil, readsFrom_iff]
  constructor
  · intro h
    obtain ⟨answers, dicts, hrun⟩ := runFrom_finished (fun d => cobrustDictNew (Γ d).1.tag (Γ d).2.tag 0) ops
    rw [run, hrun] at h
    unfold pyRun at h
    generalize pyRunFrom (fun _ => []) ops = py at h ⊢
    cases h with
    | finished _ => exact ⟨_, _, rfl⟩
  · rintro ⟨answers, final, hpy⟩
    exact refines_runFrom (fun d => represents_new (Γ d).1 (Γ d).2 0) hpy

/-- A key that was never written reads as 0, and the program goes on. -/
theorem missing_key_zero :
    run [(.get () 5 : DictOp fun _ : Unit => (Kind.i64, Kind.i64)), .len ()] =
        .finished [.int 0, .int 0] (fun _ => cobrustDictNew 0 0 0) ∧
      pyRun [(.get () 5 : DictOp fun _ : Unit => (Kind.i64, Kind.i64)), .len ()] = .aborted [] ∧
      ¬∀ ops : List (DictOp fun _ : Unit => (Kind.i64, Kind.i64)), Refines (run ops) (pyRun ops) := by
  have hrun : run [(.get () 5 : DictOp fun _ : Unit => (Kind.i64, Kind.i64)), .len ()] =
      .finished [.int 0, .int 0] (fun _ => cobrustDictNew 0 0 0) := by rfl
  have hpy : pyRun [(.get () 5 : DictOp fun _ : Unit => (Kind.i64, Kind.i64)), .len ()] = .aborted [] := by rfl
  refine ⟨hrun, hpy, fun h => ?_⟩
  have hbad := h [.get () 5, .len ()]
  rw [hrun, hpy] at hbad
  cases hbad

end runs

end Cobrust.Runtime
