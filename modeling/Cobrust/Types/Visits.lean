import Cobrust.Types.Annotations

/-!
# The order in which names are met

`prebind_item` and `check_item` of `cobrust-types/src/check.rs` go through a module twice: the first pass binds the
items and lowers the signatures of the functions, the second goes into the bodies. Here the two passes list the classes
and aliases that they bind and the type names that they look up; each name is kept with the scopes around it.

* `declared_of_resolve`: a class that a name resolves to is bound somewhere in the module.
-/

namespace Cobrust

open Hir

inductive TypeDecl where
  | ofClass (id : DefId)
  | ofAlias (id : DefId)
  deriving DecidableEq, Repr

/-- The types that one scope declares. -/
abbrev Frame :=
  List (String × TypeDecl)

/-- The innermost declaration. -/
def resolve (scopes : List Frame) (s : String) : Option TypeDecl :=
  scopes.findSome? (List.lookup s)

def itemDecl : Item → Frame
  | .mk (.class id name _ _) _ => [(name, .ofClass id)]
  | .mk (.typeAlias id name _ _) _ => [(name, .ofAlias id)]
  | .mk (.decorated _ inner) _ => itemDecl inner
  | .mk (.import _ _ _ _) _ | .mk (.fn _) _ | .mk (.let _) _ | .mk (.exprStmt _) _ => []

def frameOf (items : List Item) : Frame :=
  items.flatMap itemDecl

def stmtDecl : Stmt → Frame
  | .mk (.item it) _ => itemDecl it
  | _ => []

def blockFrame (stmts : List Stmt) : Frame :=
  stmts.flatMap stmtDecl

/-! ## Visits -/

inductive Visit where
  | declareClass (id : DefId) (name : String)
  | declareAlias (name : String) (value : TypeExpr)
  | lookUp (s : String) (scopes : List Frame)

mutual

/-- The names that `lower_type` looks up. -/
def typeNames : TypeExpr → List String
  | .name path _ => [".".intercalate path]
  | .generic _ args _ => typesNames args
  | .union [] _ => []
  | .union (t :: _) _ => typeNames t
  | .fn params returnType _ => typesNames params ++ typeNames returnType
  | .tuple items _ => typesNames items
  | .ref inner _ => typeNames inner
  | .array elem _ _ => typeNames elem

def typesNames : List TypeExpr → List String
  | [] => []
  | t :: rest => typeNames t ++ typesNames rest

end

def annotVisits (scopes : List Frame) (t : TypeExpr) : List Visit :=
  (typeNames t).map fun s => .lookUp s scopes

def annotsVisits (scopes : List Frame) (ts : List TypeExpr) : List Visit :=
  ts.flatMap (annotVisits scopes)

mutual

/-- The annotations in an expression are those of the parameters of lambdas. -/
def exprAnnots : Expr → List TypeExpr
  | .mk (.lit _) _ | .mk (.name _) _ => []
  | .mk (.format parts) _ => partsAnnots parts
  | .mk (.tuple items) _ | .mk (.list items) _ | .mk (.set items) _ => exprsAnnots items
  | .mk (.dict entries) _ => entriesAnnots entries
  | .mk (.comp _ element clauses _) _ => elemAnnots element ++ clausesAnnots clauses
  | .mk (.lambda params body _) _ => params.positional.filterMap (·.annot) ++ exprAnnots body
  | .mk (.call callee args) _ => exprAnnots callee ++ argsAnnots args
  | .mk (.attr base _) _ => exprAnnots base
  | .mk (.index base index) _ => exprAnnots base ++ indexAnnots index
  | .mk (.bin _ lhs rhs) _ => exprAnnots lhs ++ exprAnnots rhs
  | .mk (.un _ operand) _ => exprAnnots operand
  | .mk (.borrow inner) _ | .mk (.await inner) _ | .mk (.yieldFrom inner) _ => exprAnnots inner
  | .mk (.yield inner) _ => optAnnots inner
  | .mk (.cast expr _) _ => exprAnnots expr
  | .mk (.ifExpr cond thenBranch elseBranch) _ =>
    exprAnnots cond ++ exprAnnots thenBranch ++ exprAnnots elseBranch

def exprsAnnots : List Expr → List TypeExpr
  | [] => []
  | e :: rest => exprAnnots e ++ exprsAnnots rest

def optAnnots : Option Expr → List TypeExpr
  | none => []
  | some e => exprAnnots e

def partsAnnots : List FormatPart → List TypeExpr
  | [] => []
  | .lit _ :: rest => partsAnnots rest
  | .hole e _ _ :: rest => exprAnnots e ++ partsAnnots rest

def entriesAnnots : List DictEntry → List TypeExpr
  | [] => []
  | .pair key value :: rest => exprAnnots key ++ exprAnnots value ++ entriesAnnots rest
  | .spread e :: rest => exprAnnots e ++ entriesAnnots rest

def elemAnnots : CompElem → List TypeExpr
  | .single e => exprAnnots e
  | .keyValue key value => exprAnnots key ++ exprAnnots value

def clausesAnnots : List CompClause → List TypeExpr
  | [] => []
  | .mk _ _ iter guards :: rest => exprAnnots iter ++ exprsAnnots guards ++ clausesAnnots rest

def argsAnnots : List CallArg → List TypeExpr
  | [] => []
  | .positional e :: rest | .keyword _ e :: rest | .starArgs e :: rest | .starStarKwargs e :: rest =>
    exprAnnots e ++ argsAnnots rest

def indexAnnots : IndexKind → List TypeExpr
  | .expr e => exprAnnots e
  | .slice start stop step => optAnnots start ++ optAnnots stop ++ optAnnots step
  | .tuple items => indicesAnnots items

def indicesAnnots : List IndexKind → List TypeExpr
  | [] => []
  | i :: rest => indexAnnots i ++ indicesAnnots rest

end

def exprVisits (scopes : List Frame) (e : Expr) : List Visit :=
  annotsVisits scopes (exprAnnots e)

def letVisits (scopes : List Frame) (b : LetBody) : List Visit :=
  exprVisits scopes b.value ++ annotsVisits scopes b.annot.toList

/-! ## The two passes -/

/-- `fn_signature_type`. -/
def signatureVisits (scopes : List Frame) (params : Params) (returnType : Option TypeExpr) : List Visit :=
  annotsVisits scopes
    (params.positional.filterMap (·.annot) ++ params.keywordOnly.filterMap (·.annot) ++
      params.varPositional.toList.filterMap (·.annot) ++ params.varKeyword.toList.filterMap (·.annot) ++
      returnType.toList)

/-- The annotation of a field, or what its value mentions. -/
def fieldVisits (scopes : List Frame) : Item → List Visit
  | .mk (.let b) _ =>
    match b.pattern.kind, b.annot with
    | .binding _ _, some t => annotVisits scopes t
    | .binding _ _, none => exprVisits scopes b.value
    | _, _ => []
  | _ => []

/-- A field with the default that the parser gives where there is none of its type. -/
def isDefaultField : Item → Bool
  | .mk (.let b) _ =>
    match b.pattern.kind, b.value.kind with
    | .binding _ _, .lit .none => true
    | _, _ => false
  | _ => false

section Passes

variable (returnType : DefId → Option TypeExpr)

mutual

/-- `prebind_item`. -/
def prebindVisits (scopes : List Frame) : Item → List Visit
  | .mk (.fn (.mk id _ params _ _)) _ => signatureVisits scopes params (returnType id)
  | .mk (.class id name members _) _ =>
    .declareClass id name :: prebindAllVisits (frameOf members :: scopes) members
  | .mk (.typeAlias _ name value _) _ => annotVisits scopes value ++ [.declareAlias name value]
  | .mk (.decorated _ inner) _ => prebindVisits scopes inner
  | .mk (.import _ _ _ _) _ | .mk (.let _) _ | .mk (.exprStmt _) _ => []

def prebindAllVisits (scopes : List Frame) : List Item → List Visit
  | [] => []
  | it :: rest => prebindVisits scopes it ++ prebindAllVisits scopes rest

end

mutual

/-- `check_item`. -/
def checkVisits (scopes : List Frame) : Item → List Visit
  | .mk (.fn (.mk _ _ _ body _)) _ => blockVisits scopes body
  | .mk (.class _ _ members _) _ =>
    members.flatMap (fieldVisits (frameOf members :: scopes)) ++ membersVisits (frameOf members :: scopes) members
  | .mk (.decorated _ inner) _ => checkVisits scopes inner
  | .mk (.let b) _ => letVisits scopes b
  | .mk (.exprStmt e) _ => exprVisits scopes e
  | .mk (.import _ _ _ _) _ | .mk (.typeAlias _ _ _ _) _ => []

def membersVisits (scopes : List Frame) : List Item → List Visit
  | [] => []
  | m :: rest => (if isDefaultField m then [] else checkVisits scopes m) ++ membersVisits scopes rest

def blockVisits (scopes : List Frame) : Block → List Visit
  | .mk stmts _ => stmtsVisits (blockFrame stmts :: scopes) stmts

def stmtsVisits (scopes : List Frame) : List Stmt → List Visit
  | [] => []
  | s :: rest => stmtVisits scopes s ++ stmtsVisits scopes rest

def stmtVisits (scopes : List Frame) : Stmt → List Visit
  | .mk .pass _ | .mk .break _ | .mk .continue _ => []
  | .mk (.expr e) _ => exprVisits scopes e
  | .mk (.return value) _ => annotsVisits scopes (optAnnots value)
  | .mk (.raise exc cause) _ => annotsVisits scopes (optAnnots exc ++ optAnnots cause)
  | .mk (.let b) _ => letVisits scopes b
  | .mk (.assign target value) _ => exprVisits scopes target ++ exprVisits scopes value
  | .mk (.if arms elseBlock) _ => armsVisits scopes arms ++ elseVisits scopes elseBlock
  | .mk (.loop (.while cond body elseBlock _)) _ =>
    exprVisits scopes cond ++ blockVisits scopes body ++ elseVisits scopes elseBlock
  | .mk (.loop (.for _ _ iter body elseBlock _)) _ =>
    exprVisits scopes iter ++ blockVisits scopes body ++ elseVisits scopes elseBlock
  | .mk (.match scrutinee arms) _ => exprVisits scopes scrutinee ++ matchVisits scopes arms
  | .mk (.with item body) _ => exprVisits scopes item.context ++ blockVisits scopes body
  | .mk (.try body handlers elseBlock finallyBlock) _ =>
    blockVisits scopes body ++ handlersVisits scopes handlers ++ elseVisits scopes elseBlock ++
      elseVisits scopes finallyBlock
  | .mk (.item it) _ => prebindVisits returnType scopes it ++ checkVisits scopes it

def armsVisits (scopes : List Frame) : List (Expr × Block) → List Visit
  | [] => []
  | (cond, body) :: rest => exprVisits scopes cond ++ blockVisits scopes body ++ armsVisits scopes rest

def elseVisits (scopes : List Frame) : Option Block → List Visit
  | none => []
  | some b => blockVisits scopes b

def matchVisits (scopes : List Frame) : List MatchArm → List Visit
  | [] => []
  | .mk _ _ guard body _ :: rest =>
    annotsVisits scopes (optAnnots guard) ++ blockVisits scopes body ++ matchVisits scopes rest

def handlersVisits (scopes : List Frame) : List ExceptHandler → List Visit
  | [] => []
  | .mk excType _ body _ :: rest =>
    annotVisits scopes excType ++ blockVisits scopes body ++ handlersVisits scopes rest

end

def checkAllVisits (scopes : List Frame) (items : List Item) : List Visit :=
  items.flatMap (checkVisits returnType scopes)

/-- `check_module`. -/
def moduleVisits (m : Module) : List Visit :=
  prebindAllVisits returnType [frameOf m.items] m.items ++ checkAllVisits returnType [frameOf m.items] m.items

end Passes

/-! ## Scopes and visits -/

/-- The classes of these scopes are among `S`. -/
def Known (S : DefId → String → Prop) (scopes : List Frame) : Prop :=
  ∀ frame ∈ scopes, ∀ s id, (s, TypeDecl.ofClass id) ∈ frame → S id s

/-- The classes that are bound are among `S`. -/
def Declares (S : DefId → String → Prop) (vs : List Visit) : Prop :=
  ∀ id s, .declareClass id s ∈ vs → S id s

/-- So are those in the scopes around the names. -/
def Scoped (S : DefId → String → Prop) (vs : List Visit) : Prop :=
  ∀ s scopes, .lookUp s scopes ∈ vs → Known S scopes

section Scopes

variable {S : DefId → String → Prop} {scopes : List Frame} {frame : Frame} {vs ws : List Visit}

theorem known_cons (hframe : Known S [frame]) (hscopes : Known S scopes) : Known S (frame :: scopes) := by
  intro f hf s id hmem
  obtain rfl | hf := List.mem_cons.1 hf
  · exact hframe f (List.mem_singleton.2 rfl) s id hmem
  · exact hscopes f hf s id hmem

theorem declares_append : Declares S (vs ++ ws) ↔ Declares S vs ∧ Declares S ws := by
  constructor
  · intro h
    exact ⟨fun id s hmem => h id s (List.mem_append_left _ hmem),
      fun id s hmem => h id s (List.mem_append_right _ hmem)⟩
  · rintro ⟨hvs, hws⟩ id s hmem
    obtain hmem | hmem := List.mem_append.1 hmem
    · exact hvs id s hmem
    · exact hws id s hmem

theorem scoped_nil : Scoped S [] := by
  intro s scopes hmem
  cases hmem

theorem scoped_append (hvs : Scoped S vs) (hws : Scoped S ws) : Scoped S (vs ++ ws) := by
  intro s scopes hmem
  obtain hmem | hmem := List.mem_append.1 hmem
  · exact hvs s scopes hmem
  · exact hws s scopes hmem

theorem scoped_flatMap {α : Type} {f : α → List Visit} {l : List α} (h : ∀ a ∈ l, Scoped S (f a)) :
    Scoped S (l.flatMap f) := by
  intro s scopes hmem
  obtain ⟨a, ha, hmem⟩ := List.mem_flatMap.1 hmem
  exact h a ha s scopes hmem

theorem scoped_annot (h : Known S scopes) (t : TypeExpr) : Scoped S (annotVisits scopes t) := by
  intro s scopes' hmem
  obtain ⟨_, -, heq⟩ := List.mem_map.1 hmem
  cases heq
  exact h

theorem scoped_annots (h : Known S scopes) (ts : List TypeExpr) : Scoped S (annotsVisits scopes ts) :=
  scoped_flatMap fun t _ => scoped_annot h t

theorem scoped_expr (h : Known S scopes) (e : Expr) : Scoped S (exprVisits scopes e) :=
  scoped_annots h _

theorem scoped_let (h : Known S scopes) (b : LetBody) : Scoped S (letVisits scopes b) :=
  scoped_append (scoped_expr h _) (scoped_annots h _)

theorem scoped_field (h : Known S scopes) (m : Item) : Scoped S (fieldVisits scopes m) := by
  unfold fieldVisits
  split
  · split
    · exact scoped_annot h _
    · exact scoped_expr h _
    · exact scoped_nil
  · exact scoped_nil

variable {returnType : DefId → Option TypeExpr}

theorem known_itemDecl (it : Item) (h : Declares S (prebindVisits returnType scopes it)) : Known S [itemDecl it] := by
  induction it using itemDecl.induct with
  | case1 id name members _ _ =>
    intro frame hframe s id' hmem
    rw [List.mem_singleton.1 hframe, itemDecl] at hmem
    cases List.mem_singleton.1 hmem
    exact h id name (by simp [prebindVisits])
  | case3 _ inner _ ih => exact ih (by simpa only [prebindVisits] using h)
  | _ =>
    intro frame hframe s id hmem
    rw [List.mem_singleton.1 hframe, itemDecl] at hmem
    simp at hmem

theorem known_frameOf (items : List Item) (h : Declares S (prebindAllVisits returnType scopes items)) :
    Known S [frameOf items] := by
  induction items with
  | nil =>
    intro frame hframe s id hmem
    rw [List.mem_singleton.1 hframe] at hmem
    cases hmem
  | cons it rest ih =>
    rw [prebindAllVisits, declares_append] at h
    intro frame hframe s id hmem
    rw [List.mem_singleton.1 hframe, frameOf, List.flatMap_cons, List.mem_append] at hmem
    obtain hmem | hmem := hmem
    · exact known_itemDecl it h.1 _ (List.mem_singleton.2 rfl) s id hmem
    · exact ih h.2 _ (List.mem_singleton.2 rfl) s id hmem

theorem declares_prebind {it : Item} {items : List Item} (hit : it ∈ items)
    (h : Declares S (prebindAllVisits returnType scopes items)) : Declares S (prebindVisits returnType scopes it) := by
  induction items with
  | nil => cases hit
  | cons it' rest ih =>
    rw [prebindAllVisits, declares_append] at h
    obtain rfl | hit := List.mem_cons.1 hit
    · exact h.1
    · exact ih hit h.2

mutual

theorem scoped_prebind (scopes : List Frame) (hk : Known S scopes) (it : Item)
    (h : Declares S (prebindVisits returnType scopes it)) : Scoped S (prebindVisits returnType scopes it) := by
  match it with
  | .mk (.fn (.mk _ _ _ _ _)) _ => exact scoped_annots hk _
  | .mk (.class id name members _) _ =>
    have hmembers : Declares S (prebindAllVisits returnType (frameOf members :: scopes) members) :=
      fun id s hmem => h id s (List.mem_cons_of_mem _ hmem)
    have hall := scoped_prebindAll _ (known_cons (known_frameOf members hmembers) hk) members hmembers
    intro s scopes' hmem
    obtain heq | hmem := List.mem_cons.1 hmem
    · cases heq
    · exact hall s scopes' hmem
  | .mk (.typeAlias _ name value _) _ =>
    refine scoped_append (scoped_annot hk value) fun s scopes' hmem => ?_
    cases List.mem_singleton.1 hmem
  | .mk (.decorated _ inner) _ => exact scoped_prebind scopes hk inner h
  | .mk (.import _ _ _ _) _ | .mk (.let _) _ | .mk (.exprStmt _) _ => exact scoped_nil

theorem scoped_prebindAll (scopes : List Frame) (hk : Known S scopes) (items : List Item)
    (h : Declares S (prebindAllVisits returnType scopes items)) :
    Scoped S (prebindAllVisits returnType scopes items) := by
  match items with
  | [] => exact scoped_nil
  | it :: rest =>
    rw [prebindAllVisits, declares_append] at h
    exact scoped_append (scoped_prebind scopes hk it h.1) (scoped_prebindAll scopes hk rest h.2)

end

/-! ### The second pass -/

theorem known_stmtDecl (s : Stmt) (h : Declares S (stmtVisits returnType scopes s)) : Known S [stmtDecl s] := by
  unfold stmtDecl
  split
  · rw [stmtVisits, declares_append] at h
    exact known_itemDecl _ h.1
  · intro frame hframe s id hmem
    rw [List.mem_singleton.1 hframe] at hmem
    cases hmem

/-- The names of a block's own types are bound on the way through it. -/
theorem known_blockFrame (stmts : List Stmt) (h : Declares S (stmtsVisits returnType scopes stmts)) :
    Known S [blockFrame stmts] := by
  induction stmts with
  | nil =>
    intro frame hframe s id hmem
    rw [List.mem_singleton.1 hframe] at hmem
    cases hmem
  | cons s rest ih =>
    rw [stmtsVisits, declares_append] at h
    intro frame hframe n id hmem
    rw [List.mem_singleton.1 hframe, blockFrame, List.flatMap_cons, List.mem_append] at hmem
    obtain hmem | hmem := hmem
    · exact known_stmtDecl s h.1 _ (List.mem_singleton.2 rfl) n id hmem
    · exact ih h.2 _ (List.mem_singleton.2 rfl) n id hmem

mutual

theorem scoped_check (scopes : List Frame) (hk : Known S scopes) (it : Item)
    (hp : ∃ sc, Declares S (prebindVisits returnType sc it)) (h : Declares S (checkVisits returnType scopes it)) :
    Scoped S (checkVisits returnType scopes it) := by
  match it with
  | .mk (.fn (.mk _ _ _ body _)) _ => exact scoped_block scopes hk body h
  | .mk (.class id name members _) _ =>
    obtain ⟨sc, hp⟩ := hp
    have hmembers : Declares S (prebindAllVisits returnType (frameOf members :: sc) members) :=
      fun id s hmem => hp id s (List.mem_cons_of_mem _ hmem)
    have hk' := known_cons (known_frameOf members hmembers) hk
    rw [checkVisits, declares_append] at h
    rw [checkVisits]
    exact scoped_append (scoped_flatMap fun m _ => scoped_field hk' m)
      (scoped_members _ hk' members ⟨_, hmembers⟩ h.2)
  | .mk (.decorated _ inner) _ =>
    obtain ⟨sc, hp⟩ := hp
    exact scoped_check scopes hk inner ⟨sc, hp⟩ h
  | .mk (.let b) _ => exact scoped_let hk b
  | .mk (.exprStmt e) _ => exact scoped_expr hk e
  | .mk (.import _ _ _ _) _ | .mk (.typeAlias _ _ _ _) _ => exact scoped_nil

theorem scoped_members (scopes : List Frame) (hk : Known S scopes) (members : List Item)
    (hp : ∃ sc, Declares S (prebindAllVisits returnType sc members))
    (h : Declares S (membersVisits returnType scopes members)) :
    Scoped S (membersVisits returnType scopes members) := by
  match members with
  | [] => exact scoped_nil
  | m :: rest =>
    obtain ⟨sc, hp⟩ := hp
    rw [prebindAllVisits, declares_append] at hp
    rw [membersVisits, declares_append] at h
    refine scoped_append ?_ (scoped_members scopes hk rest ⟨sc, hp.2⟩ h.2)
    have hm := h.1
    split at hm
    · next hfield => rw [if_pos hfield]; exact scoped_nil
    · next hfield => rw [if_neg hfield]; exact scoped_check scopes hk m ⟨sc, hp.1⟩ hm

theorem scoped_block (scopes : List Frame) (hk : Known S scopes) (b : Block)
    (h : Declares S (blockVisits returnType scopes b)) : Scoped S (blockVisits returnType scopes b) := by
  match b with
  | .mk stmts _ => exact scoped_stmts _ (known_cons (known_blockFrame stmts h) hk) stmts h

theorem scoped_stmts (scopes : List Frame) (hk : Known S scopes) (stmts : List Stmt)
    (h : Declares S (stmtsVisits returnType scopes stmts)) : Scoped S (stmtsVisits returnType scopes stmts) := by
  match stmts with
  | [] => exact scoped_nil
  | s :: rest =>
    rw [stmtsVisits, declares_append] at h
    exact scoped_append (scoped_stmt scopes hk s h.1) (scoped_stmts scopes hk rest h.2)

theorem scoped_stmt (scopes : List Frame) (hk : Known S scopes) (s : Stmt)
    (h : Declares S (stmtVisits returnType scopes s)) : Scoped S (stmtVisits returnType scopes s) := by
  match s with
  | .mk .pass _ | .mk .break _ | .mk .continue _ => exact scoped_nil
  | .mk (.expr e) _ => exact scoped_expr hk e
  | .mk (.return value) _ => exact scoped_annots hk _
  | .mk (.raise exc cause) _ => exact scoped_annots hk _
  | .mk (.let b) _ => exact scoped_let hk b
  | .mk (.assign target value) _ => exact scoped_append (scoped_expr hk target) (scoped_expr hk value)
  | .mk (.if arms elseBlock) _ =>
    rw [stmtVisits, declares_append] at h
    exact scoped_append (scoped_arms scopes hk arms h.1) (scoped_else scopes hk elseBlock h.2)
  | .mk (.loop (.while cond body elseBlock _)) _ =>
    rw [stmtVisits, declares_append, declares_append] at h
    exact scoped_append (scoped_append (scoped_expr hk cond) (scoped_block scopes hk body h.1.2))
      (scoped_else scopes hk elseBlock h.2)
  | .mk (.loop (.for _ _ iter body elseBlock _)) _ =>
    rw [stmtVisits, declares_append, declares_append] at h
    exact scoped_append (scoped_append (scoped_expr hk iter) (scoped_block scopes hk body h.1.2))
      (scoped_else scopes hk elseBlock h.2)
  | .mk (.match scrutinee arms) _ =>
    rw [stmtVisits, declares_append] at h
    exact scoped_append (scoped_expr hk scrutinee) (scoped_match scopes hk arms h.2)
  | .mk (.with item body) _ =>
    rw [stmtVisits, declares_append] at h
    exact scoped_append (scoped_expr hk item.context) (scoped_block scopes hk body h.2)
  | .mk (.try body handlers elseBlock finallyBlock) _ =>
    rw [stmtVisits, declares_append, declares_append, declares_append] at h
    obtain ⟨⟨⟨hbody, hhandlers⟩, helse⟩, hfinally⟩ := h
    exact scoped_append (scoped_append (scoped_append (scoped_block scopes hk body hbody)
      (scoped_handlers scopes hk handlers hhandlers)) (scoped_else scopes hk elseBlock helse))
      (scoped_else scopes hk finallyBlock hfinally)
  | .mk (.item it) _ =>
    rw [stmtVisits, declares_append] at h
    exact scoped_append (scoped_prebind scopes hk it h.1) (scoped_check scopes hk it ⟨scopes, h.1⟩ h.2)

theorem scoped_arms (scopes : List Frame) (hk : Known S scopes) (arms : List (Expr × Block))
    (h : Declares S (armsVisits returnType scopes arms)) : Scoped S (armsVisits returnType scopes arms) := by
  match arms with
  | [] => exact scoped_nil
  | (cond, body) :: rest =>
    rw [armsVisits, declares_append, declares_append] at h
    exact scoped_append (scoped_append (scoped_expr hk cond) (scoped_block scopes hk body h.1.2))
      (scoped_arms scopes hk rest h.2)

theorem scoped_else (scopes : List Frame) (hk : Known S scopes) (b : Option Block)
    (h : Declares S (elseVisits returnType scopes b)) : Scoped S (elseVisits returnType scopes b) := by
  match b with
  | none => exact scoped_nil
  | some b => exact scoped_block scopes hk b h

theorem scoped_match (scopes : List Frame) (hk : Known S scopes) (arms : List MatchArm)
    (h : Declares S (matchVisits returnType scopes arms)) : Scoped S (matchVisits returnType scopes arms) := by
  match arms with
  | [] => exact scoped_nil
  | .mk _ _ guard body _ :: rest =>
    rw [matchVisits, declares_append, declares_append] at h
    exact scoped_append (scoped_append (scoped_annots hk _) (scoped_block scopes hk body h.1.2))
      (scoped_match scopes hk rest h.2)

theorem scoped_handlers (scopes : List Frame) (hk : Known S scopes) (handlers : List ExceptHandler)
    (h : Declares S (handlersVisits returnType scopes handlers)) :
    Scoped S (handlersVisits returnType scopes handlers) := by
  match handlers with
  | [] => exact scoped_nil
  | .mk excType _ body _ :: rest =>
    rw [handlersVisits, declares_append, declares_append] at h
    exact scoped_append (scoped_append (scoped_annot hk excType) (scoped_block scopes hk body h.1.2))
      (scoped_handlers scopes hk rest h.2)

end

/-- The names of a module are in scopes whose classes the module binds. -/
theorem scoped_module (m : Module) (h : Declares S (moduleVisits returnType m)) :
    Scoped S (moduleVisits returnType m) := by
  rw [moduleVisits, declares_append] at h
  have hk : Known S [frameOf m.items] := known_frameOf m.items h.1
  refine scoped_append (scoped_prebindAll _ hk m.items h.1) (scoped_flatMap fun it hit => ?_)
  refine scoped_check _ hk it ⟨_, declares_prebind hit h.1⟩ fun id s hmem => h.2 id s ?_
  exact List.mem_flatMap.2 ⟨it, hit, hmem⟩

end Scopes

/-- A class that a name of the module resolves to is bound in the module. -/
theorem declared_of_resolve {returnType : DefId → Option TypeExpr} {m : Module} {s : String} {scopes : List Frame}
    {id : DefId} (hmem : .lookUp s scopes ∈ moduleVisits returnType m) (h : resolve scopes s = some (.ofClass id)) :
    .declareClass id s ∈ moduleVisits returnType m := by
  have hscoped := scoped_module (S := fun id s => .declareClass id s ∈ moduleVisits returnType m) m
    fun id s hmem => hmem
  obtain ⟨frame, hframe, hlookup⟩ := List.exists_of_findSome?_eq_some h
  obtain ⟨l₁, l₂, rfl, -⟩ := List.lookup_eq_some_iff.1 hlookup
  exact hscoped s scopes hmem _ hframe s id (List.mem_append_right _ List.mem_cons_self)

end Cobrust
