import Cobrust.Types.Ty

/-!
# The inference engine

`Subst`, `unify` and `finalize` of `cobrust-types/src/infer.rs`, with `free_vars` of `ty.rs`. A
substitution may be cyclic, and then `apply` does not return: the functions take fuel and give `none`
where it runs out.
-/

namespace Cobrust

inductive TypeError where
  | typeMismatch (expected actual : Ty) (span : Span) (suggestion : Option String)
  | arityMismatch (expected actual : Nat) (span : Span) (suggestion : Option String)
  | keywordArgMismatch (name : String) (span : Span) (suggestion : Option String)
  | occursCheck (var : Nat) (ty : Ty) (span : Span) (suggestion : Option String)
  | ambiguousType (span : Span) (suggestion : Option String)
  | nonExhaustiveMatch (uncovered : List String) (span : Span) (suggestion : Option String)
  | implicitTruthiness (actual : Ty) (span : Span) (suggestion : Option String)
  | mutableDefault (span : Span) (suggestion : Option String)
  | notCallable (actual : Ty) (span : Span) (suggestion : Option String)
  | notIterable (actual : Ty) (span : Span) (suggestion : Option String)
  | breakOutsideLoop (span : Span) (suggestion : Option String)
  | continueOutsideLoop (span : Span) (suggestion : Option String)
  | returnOutsideFn (span : Span) (suggestion : Option String)
  | notHashable (actual : Ty) (span : Span) (suggestion : Option String)
  deriving Repr

namespace Ty

mutual

/-- `collect_vars`: the variables in order of first occurrence, behind those of `out`. -/
def collectVars (out : List Nat) : Ty → List Nat
  | .var v => if v ∈ out then out else out ++ [v]
  | .tuple items => collectVarsList out items
  | .list t => collectVars out t
  | .set t => collectVars out t
  | .dict k v => collectVars (collectVars out k) v
  | .record fields => collectVarsFields out fields
  | .fn positional named varPositional varKeyword returnTy =>
    collectVars (collectVarsOption (collectVarsOption (collectVarsFields (collectVarsList out positional)
      named) varPositional) varKeyword) returnTy
  | .adt _ args => collectVarsList out args
  | .alias _ args => collectVarsList out args
  | .ref inner => collectVars out inner
  | .array elem _ => collectVars out elem
  | .bool | .int | .float | .imag | .str | .bytes | .none | .never | .generic _ | .intN _ => out

def collectVarsList (out : List Nat) : List Ty → List Nat
  | [] => out
  | t :: rest => collectVarsList (collectVars out t) rest

def collectVarsFields (out : List Nat) : List (String × Ty) → List Nat
  | [] => out
  | (_, t) :: rest => collectVarsFields (collectVars out t) rest

def collectVarsOption (out : List Nat) : Option Ty → List Nat
  | .none => out
  | .some t => collectVars out t

end

def freeVars (t : Ty) : List Nat :=
  t.collectVars []

mutual

/-- The recursion of `Subst::apply` through a type; `f` treats the inference variables. -/
def traverse (f : Nat → Option Ty) : Ty → Option Ty
  | .var v => f v
  | .tuple items => (traverseList f items).map .tuple
  | .list t => (traverse f t).map .list
  | .set t => (traverse f t).map .set
  | .dict k v => do
    let k ← traverse f k
    let v ← traverse f v
    return .dict k v
  | .record fields => (traverseFields f fields).map .record
  | .fn positional named varPositional varKeyword returnTy => do
    let positional ← traverseList f positional
    let named ← traverseFields f named
    let varPositional ← traverseOption f varPositional
    let varKeyword ← traverseOption f varKeyword
    let returnTy ← traverse f returnTy
    return .fn positional named varPositional varKeyword returnTy
  | .adt id args => (traverseList f args).map (.adt id)
  | .alias id args => (traverseList f args).map (.alias id)
  | .ref inner => (traverse f inner).map .ref
  | .array elem len => (traverse f elem).map fun elem => .array elem len
  | .bool => some .bool
  | .int => some .int
  | .float => some .float
  | .imag => some .imag
  | .str => some .str
  | .bytes => some .bytes
  | .none => some .none
  | .never => some .never
  | .generic id => some (.generic id)
  | .intN width => some (.intN width)

def traverseList (f : Nat → Option Ty) : List Ty → Option (List Ty)
  | [] => some []
  | t :: rest => do
    let t ← traverse f t
    let rest ← traverseList f rest
    return t :: rest

def traverseFields (f : Nat → Option Ty) : List (String × Ty) → Option (List (String × Ty))
  | [] => some []
  | (n, t) :: rest => do
    let t ← traverse f t
    let rest ← traverseFields f rest
    return (n, t) :: rest

def traverseOption (f : Nat → Option Ty) : Option Ty → Option (Option Ty)
  | .none => some .none
  | .some t => (traverse f t).map some

end

end Ty

/-- The map from inference variables to types, one entry for each key. -/
structure Subst where
  map : List (Nat × Ty)
  deriving Repr

namespace Subst

def new : Subst := ⟨[]⟩

def get (s : Subst) (v : Nat) : Option Ty :=
  (s.map.find? fun entry => entry.1 = v).map Prod.snd

def extend (s : Subst) (v : Nat) (t : Ty) : Subst :=
  ⟨(v, t) :: s.map.filter fun entry => entry.1 ≠ v⟩

/-- `apply` follows the bindings of the variables in `t`, and of those in the bindings. -/
def apply : Nat → Subst → Ty → Option Ty
  | 0, _, _ => none
  | fuel + 1, s, t =>
    t.traverse fun v =>
      match s.get v with
      | some inner => apply fuel s inner
      | none => some (.var v)

def fullyResolved (fuel : Nat) (s : Subst) (t : Ty) : Option Bool :=
  (s.apply fuel t).map fun resolved => resolved.freeVars.isEmpty

end Subst

/-! ## Unification -/

/-- A computation that changes the substitution in place, may fail with a type error and may run out of
fuel. What it has bound before an error stays bound. -/
abbrev InferM := ExceptT TypeError (StateT Subst Option)

def mismatchHint : Option String :=
  some "change the expression type or add `: <expected>` annotation"

def arityHint : Option String :=
  some "check the function signature; pass exactly the declared positional arity"

def mismatch (expected actual : Ty) (span : Span) : InferM Unit :=
  throw (.typeMismatch expected actual span mismatchHint)

/-- `subst.apply` of a computation. -/
def applyM (fuel : Nat) (t : Ty) : InferM Ty :=
  fun s => (s.apply fuel t).map fun r => (.ok r, s)

/-- The arm for a variable and another type: the occurs check, then the binding. -/
def bindVar (v : Nat) (other : Ty) (span : Span) : InferM Unit :=
  if v ∈ other.freeVars then
    throw (.occursCheck v other span
      (some "add a type annotation — recursive types must be explicit"))
  else modify fun s => s.extend v other

/-- The loop over two lists of components. -/
def unifyZip (unify : Ty → Ty → InferM Unit) : List Ty → List Ty → InferM Unit
  | x :: xs, y :: ys => do
    unify x y
    unifyZip unify xs ys
  | _, _ => return ()

/-- The loop over the named parameters of two functions. -/
def unifyNamed (unify : Ty → Ty → InferM Unit) (span : Span) :
    List (String × Ty) → List (String × Ty) → InferM Unit
  | (n₁, x) :: xs, (n₂, y) :: ys => do
    if n₁ ≠ n₂ then
      throw (.keywordArgMismatch n₁ span
        (some "remove or rename — the callee does not accept this keyword"))
    unify x y
    unifyNamed unify span xs ys
  | _, _ => return ()

/-- The arms of `unify`, on types to which the substitution has been applied; `unify` is the recursive
call. -/
def unifyArms (unify : Ty → Ty → InferM Unit) (span : Span) (t₁ t₂ : Ty) : InferM Unit :=
  match t₁, t₂ with
  | .never, _ => return ()
  | _, .never => return ()
  | .var v, .var w => if v = w then return () else bindVar v (.var w) span
  | .var v, other => bindVar v other span
  | other, .var v => bindVar v other span
  | .bool, .bool => return ()
  | .int, .int => return ()
  | .float, .float => return ()
  | .imag, .imag => return ()
  | .str, .str => return ()
  | .bytes, .bytes => return ()
  | .none, .none => return ()
  | .intN a, .intN b => if a = b then return () else mismatch t₁ t₂ span
  | .tuple a, .tuple b =>
    if a.length ≠ b.length then mismatch t₁ t₂ span else unifyZip unify a b
  | .list a, .list b => unify a b
  | .set a, .set b => unify a b
  | .ref a, .ref b => unify a b
  | .array a n₁, .array b n₂ =>
    if n₁ ≠ n₂ then
      throw (.typeMismatch t₁ t₂ span (some "array length mismatch — adjust the literal arity"))
    else unify a b
  | .dict ak av, .dict bk bv => do
    unify ak bk
    unify av bv
  | .record a, .record b =>
    if a.map Prod.fst ≠ b.map Prod.fst then mismatch t₁ t₂ span
    else unifyZip unify (a.map Prod.snd) (b.map Prod.snd)
  | .fn p₁ n₁ _ _ r₁, .fn p₂ n₂ _ _ r₂ => do
    if p₁.length ≠ p₂.length then
      throw (.arityMismatch p₁.length p₂.length span arityHint)
    if n₁.length ≠ n₂.length then
      throw (.arityMismatch n₁.length n₂.length span arityHint)
    unifyZip unify p₁ p₂
    unifyNamed unify span n₁ n₂
    unify r₁ r₂
  | .adt a args₁, .adt b args₂ =>
    if a = b then
      if args₁.length ≠ args₂.length then mismatch t₁ t₂ span else unifyZip unify args₁ args₂
    else mismatch t₁ t₂ span
  | .alias a args₁, .alias b args₂ =>
    if a = b then
      if args₁.length ≠ args₂.length then mismatch t₁ t₂ span else unifyZip unify args₁ args₂
    else mismatch t₁ t₂ span
  | .generic a, .generic b => if a = b then return () else mismatch t₁ t₂ span
  | _, _ => mismatch t₁ t₂ span

/-- `unify`. -/
def unify (span : Span) : Nat → Ty → Ty → InferM Unit
  | 0, _, _ => fun _ => none
  | fuel + 1, t₁, t₂ => do
    let t₁ ← applyM fuel t₁
    let t₂ ← applyM fuel t₂
    unifyArms (unify span fuel) span t₁ t₂

/-- `finalize`. -/
def finalize (fuel : Nat) (t : Ty) (s : Subst) (span : Span) : Option (Except TypeError Ty) :=
  (s.apply fuel t).map fun resolved =>
    if resolved.freeVars.isEmpty then .ok resolved
    else .error (.ambiguousType span (some "add an explicit type annotation, e.g. `let x: i64 = …`"))

end Cobrust
