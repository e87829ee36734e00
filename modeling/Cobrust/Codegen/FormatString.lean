import Cobrust.Codegen.Cast
import Cobrust.Text.Split

/-!
# F-strings

`lower_aggregate_format_string` of `cobrust-codegen/src/llvm_backend.rs` and the helpers of `cobrust-stdlib/src/fmt.rs`
that it calls. The format specification of a hole stands behind the hole as a string that starts with `FMTSPEC:`.

* `formatString_pieces`: the calls append the pieces in order, a specification counting on floats only, where no text of
  the program starts like a specification.
-/

namespace Cobrust.Codegen

open Control (except_ok_bind)
open Llvm (Val)
open Mir (Operand LocalId)

/-- How the standard library writes a double. -/
structure FloatText where
  /-- `x.fract() == 0.0 && x.is_finite()` -/
  isIntegral : BitVec 64 → Bool
  /-- `{x}` -/
  display : BitVec 64 → Text
  /-- `{x:.prec$}` -/
  fixed : Nat → BitVec 64 → Text
  /-- `{x:e}` -/
  scientific : BitVec 64 → Text

section Floats

variable (ft : FloatText)

def formatFloat (x : BitVec 64) : Text :=
  if ft.isIntegral x then ft.fixed 1 x else ft.display x

/-- `parse::<usize>()` -/
def parseUsize (s : Text) : Option Nat :=
  let digits := if s.head? = some '+' then s.tail else s
  (Text.parseDigits digits).bind fun n => if n < 2 ^ 64 then some n else none

def formatFloatWithSpec (x : BitVec 64) (spec : Text) : Text :=
  let spec := spec.dropWhile (· = '.')
  if spec.getLast? = some 'f' then
    let rest := spec.dropLast
    if rest = [] then ft.fixed 6 x
    else
      match parseUsize rest with
      | some prec => ft.fixed prec x
      | none => formatFloat ft x
  else if spec.getLast? = some 'e' then ft.scientific x
  else formatFloat ft x

end Floats

/-- A call of a helper that appends to the buffer. -/
inductive Append where
  | pushStatic (s : Text)
  | fmtStr (buffer : BitVec 64)
  | fmtFloat (x : BitVec 64)
  | fmtFloatPrec (x : BitVec 64) (spec : Text)
  | fmtBool (v : BitVec 64)
  | fmtInt (v : BitVec 64)
  | fmtRepr (address : BitVec 64) (typeId : Nat)
  deriving DecidableEq

/-- What a call appends; `strAt` is the text of the string buffer at an address. -/
def Append.text (ft : FloatText) (strAt : BitVec 64 → Text) : Append → Text
  | pushStatic s => s
  | fmtStr buffer => strAt buffer
  | fmtFloat x => formatFloat ft x
  | fmtFloatPrec x spec => if spec = [] then formatFloat ft x else formatFloatWithSpec ft x spec
  | fmtBool v => if v ≠ 0 then "True".toList else "False".toList
  | fmtInt v => Text.displayInt v.toInt
  | fmtRepr _ typeId => '<' :: Nat.toDigits 10 typeId ++ ['>']

def specMarker : Text :=
  "FMTSPEC:".toList

/-- The specification in the operand behind a hole. -/
def specOf : List Operand → Option Text
  | .constant (.str s) :: _ => s.toList.dropPrefix? specMarker
  | _ => none

def coerceValueToPtr : Val → BitVec 64
  | .int _ n => n.setWidth 64
  | .ptr a => a
  | _ => 0

section Lowering

variable (m : Machine) (localTy : LocalId → Option Ty)

/-- The declared type of the local of an operand. -/
def operandTy : Operand → Option Ty
  | .copy p => localTy p.localId
  | .move p => localTy p.localId
  | .constant _ => none

/-- The call for a hole, and whether it takes the operand behind the hole too. -/
def holeCall (ty : Option Ty) (v : Val) (spec : Option Text) : Except CodeFault (Append × Bool) :=
  match ty, v, spec with
  | some .str, v, _ => .ok (.fmtStr (coerceValueToPtr v), false)
  | _, .double x, some spec => .ok (.fmtFloatPrec x spec, true)
  | _, .double x, none => .ok (.fmtFloat x, false)
  | some .bool, .int _ n, _ => .ok (.fmtBool (n.setWidth 64), false)
  | _, .int .i1 n, _ => .ok (.fmtBool (n.setWidth 64), false)
  | _, .int _ n, _ => .ok (.fmtInt (n.signExtend 64), false)
  | some .bool, _, _ => .error .panic
  | _, v, _ => .ok (.fmtRepr (coerceValueToPtr v) 0, false)

/-- The calls for the operands in order; `skip` says that the first was taken with the hole before it. -/
def lowerFormatOperands : Bool → List Operand → Except CodeFault (List Append)
  | _, [] => .ok []
  | true, _ :: rest => lowerFormatOperands false rest
  | false, .constant (.str payload) :: rest =>
    if specMarker.isPrefixOf payload.toList then lowerFormatOperands false rest
    else if payload = "" then lowerFormatOperands false rest
    else do
      let calls ← lowerFormatOperands false rest
      return .pushStatic payload.toList :: calls
  | false, op :: rest => do
    let v ← emitted (m.operand op)
    let (call, taken) ← holeCall (operandTy localTy op) v (specOf rest)
    let calls ← lowerFormatOperands taken rest
    return call :: calls

/-- `lower_aggregate_format_string`. -/
def lowerAggregateFormatString (operands : List Operand) : Except CodeFault (List Append) :=
  lowerFormatOperands m localTy false operands

end Lowering

/-- A piece of an f-string, a hole with the operand that its expression was lowered to. -/
inductive Piece where
  | lit (s : String)
  | hole (op : Operand) (spec : Option String)

/-- The operands that a piece is lowered to. -/
def Piece.operands : Piece → List Operand
  | lit s => [.constant (.str s)]
  | hole op (some spec) => if spec = "" then [op] else [op, .constant (.str ("FMTSPEC:" ++ spec))]
  | hole op none => [op]

inductive SamePart : Mir.SubPart → Piece → Prop
  | lit (s : String) : SamePart (.lit s) (.lit s)
  | hole (e : Mir.Sub) (op : Operand) (spec : Option String) : SamePart (.hole e spec) (.hole op spec)

/-- The operands of an f-string are those of its pieces. -/
theorem lowerFormatParts_operands {parts : List Mir.SubPart} {b b' : Mir.BodyBuilder} {ops : List Operand}
    (h : Mir.lowerFormatParts parts b = .ok (ops, b')) :
    ∃ pieces, List.Forall₂ SamePart parts pieces ∧ ops = pieces.flatMap Piece.operands := by
  induction parts generalizing b ops with
  | nil =>
    cases h
    exact ⟨[], .nil, rfl⟩
  | cons part parts ih =>
    cases part with
    | lit s =>
      rw [Mir.lowerFormatParts] at h
      obtain ⟨⟨rest, b₁⟩, hrest, h⟩ := Control.except_bind_ok.1 h
      cases h
      obtain ⟨pieces, hsame, rfl⟩ := ih hrest
      exact ⟨.lit s :: pieces, .cons (.lit s) hsame, rfl⟩
    | hole e spec =>
      unfold Mir.lowerFormatParts at h
      obtain ⟨⟨op, b₁⟩, -, h⟩ := Control.except_bind_ok.1 h
      obtain ⟨⟨rest, b₂⟩, hrest, h⟩ := Control.except_bind_ok.1 h
      cases h
      obtain ⟨pieces, hsame, rfl⟩ := ih hrest
      refine ⟨.hole op spec :: pieces, .cons (.hole e op spec) hsame, ?_⟩
      cases spec with
      | none => rfl
      | some spec =>
        by_cases hspec : spec = ""
        · simp [Piece.operands, hspec]
        · simp [Piece.operands, hspec]

inductive HoleValue where
  | int (n : Int)
  | bool (b : Bool)
  | float (x : BitVec 64)
  | str (s : Text)
  | list (address : BitVec 64)

/-- A value as text. Only floats heed a specification; a list is given by a placeholder. -/
def HoleValue.text (ft : FloatText) : HoleValue → Option String → Text
  | int n, _ => Text.displayInt n
  | bool b, _ => if b then "True".toList else "False".toList
  | float x, some spec => if spec = "" then formatFloat ft x else formatFloatWithSpec ft x spec.toList
  | float x, none => formatFloat ft x
  | str s, _ => s
  | list _, _ => "<0>".toList

section Pieces

variable (m : Machine) (localTy : LocalId → Option Ty) (ft : FloatText) (strAt : BitVec 64 → Text)

def NoStrLiteral (op : Operand) : Prop :=
  ∀ s, op ≠ .constant (.str s)

/-- An operand holds a value: a constant, or a local of the type of the value. -/
inductive Holds : Operand → HoleValue → Prop
  | literal (s : String) : Holds (.constant (.str s)) (.str s.toList)
  | str (op : Operand) (a : BitVec 64) (hlit : NoStrLiteral op) (hty : operandTy localTy op = some .str)
      (hop : m.operand op = .ok (.ptr a)) : Holds op (.str (strAt a))
  | int (op : Operand) (w : Llvm.Width) (n : BitVec w.bits) (hlit : NoStrLiteral op)
      (hty : operandTy localTy op = none ∨ operandTy localTy op = some .int ∨
        ∃ width, operandTy localTy op = some (.intN width))
      (hw : w ≠ .i1) (hop : m.operand op = .ok (.int w n)) : Holds op (.int n.toInt)
  | bool (op : Operand) (b : Bool) (hlit : NoStrLiteral op)
      (hty : operandTy localTy op = none ∨ operandTy localTy op = some .bool)
      (hop : m.operand op = .ok (.int .i1 (BitVec.ofBool b))) : Holds op (.bool b)
  | float (op : Operand) (x : BitVec 64) (hlit : NoStrLiteral op)
      (hty : operandTy localTy op = none ∨ operandTy localTy op = some .float)
      (hop : m.operand op = .ok (.double x)) : Holds op (.float x)
  | list (op : Operand) (a : BitVec 64) (elem : Ty) (hlit : NoStrLiteral op)
      (hty : operandTy localTy op = some (.list elem)) (hop : m.operand op = .ok (.ptr a)) : Holds op (.list a)

/-- The text of a piece. -/
inductive PieceText : Piece → Text → Prop
  | lit (s : String) : PieceText (.lit s) s.toList
  | hole (op : Operand) (spec : Option String) (v : HoleValue) (h : Holds m localTy strAt op v) :
      PieceText (.hole op spec) (v.text ft spec)

end Pieces

def NoMarker (s : String) : Prop :=
  ¬ specMarker <+: s.toList

/-- A piece has no text that reads as a specification. -/
def Piece.Clean : Piece → Prop
  | lit s => NoMarker s
  | hole op _ => ∀ s, op = .constant (.str s) → NoMarker s

/-! ## Proof -/

section Specs

variable {op : Operand} {rest : List Operand}

theorem specOf_marker (spec : String) (rest : List Operand) :
    specOf (.constant (.str ("FMTSPEC:" ++ spec)) :: rest) = some spec.toList := by
  rw [specOf, String.toList_append]
  exact List.dropPrefix?_append_of_beq _ (beq_self_eq_true specMarker)

theorem specOf_cons (h : ∀ s, op = .constant (.str s) → NoMarker s) : specOf (op :: rest) = none := by
  unfold specOf
  split
  · next s _ heq =>
    obtain ⟨rfl, -⟩ := List.cons.inj heq
    refine Option.eq_none_iff_forall_ne_some.2 fun spec hspec => h s rfl ?_
    obtain ⟨marker, htext, hmarker⟩ := List.dropPrefix?_eq_some_iff.1 hspec
    rw [htext, eq_of_beq hmarker]
    exact List.prefix_append _ _
  · rfl

/-- No specification stands at the start of clean pieces. -/
theorem specOf_operands {pieces : List Piece} (h : ∀ p ∈ pieces, p.Clean) :
    specOf (pieces.flatMap Piece.operands) = none := by
  cases pieces with
  | nil => rfl
  | cons piece pieces =>
    have hclean := h piece List.mem_cons_self
    rw [List.flatMap_cons]
    cases piece with
    | lit s =>
      exact specOf_cons fun s' hs => by
        cases hs
        exact hclean
    | hole op spec =>
      cases spec with
      | none => exact specOf_cons hclean
      | some spec =>
        rw [Piece.operands]
        split
        · exact specOf_cons hclean
        · exact specOf_cons hclean

end Specs

section Calls

variable {m : Machine} {localTy : LocalId → Option Ty} {ft : FloatText} {strAt : BitVec 64 → Text} {op : Operand}
  {rest : List Operand} {calls : List Append}

theorem lowerFormat_lit {s : String} (h : NoMarker s) (hrest : lowerFormatOperands m localTy false rest = .ok calls) :
    lowerFormatOperands m localTy false (.constant (.str s) :: rest) =
      .ok (if s = "" then calls else .pushStatic s.toList :: calls) := by
  rw [lowerFormatOperands, if_neg fun hp => h (List.isPrefixOf_iff_prefix.1 hp), hrest]
  split <;> rfl

/-- A specification that nothing has taken is passed over. -/
theorem lowerFormat_spec (spec : String) (taken : Bool) :
    lowerFormatOperands m localTy taken (.constant (.str ("FMTSPEC:" ++ spec)) :: rest) =
      lowerFormatOperands m localTy false rest := by
  cases taken with
  | true => rw [lowerFormatOperands]
  | false =>
    have hprefix : specMarker <+: ("FMTSPEC:" ++ spec).toList := by
      rw [String.toList_append]
      exact List.prefix_append _ _
    rw [lowerFormatOperands, if_pos (List.isPrefixOf_iff_prefix.2 hprefix)]

theorem lowerFormat_hole {v : Val} {call : Append} {taken : Bool} (hlit : NoStrLiteral op) (hop : m.operand op = .ok v)
    (hcall : holeCall (operandTy localTy op) v (specOf rest) = .ok (call, taken))
    (hrest : lowerFormatOperands m localTy taken rest = .ok calls) :
    lowerFormatOperands m localTy false (op :: rest) = .ok (call :: calls) := by
  rw [lowerFormatOperands, hop, emitted_ok, except_ok_bind, hcall, except_ok_bind]
  · dsimp only
    rw [hrest]
    rfl
  · exact hlit

theorem text_empty (v : HoleValue) : v.text ft (some "") = v.text ft none := by
  cases v <;> rfl

variable (ft) in
/-- The call for a value that is no literal, by the specification behind it. -/
theorem exists_call {v : HoleValue} (h : Holds m localTy strAt op v) (hlit : NoStrLiteral op) (spec : Option String)
    (hspec : spec ≠ some "") :
    ∃ val call taken, m.operand op = .ok val ∧
      holeCall (operandTy localTy op) val (spec.map String.toList) = .ok (call, taken) ∧
      call.text ft strAt = v.text ft spec ∧ (spec = none → taken = false) := by
  cases h with
  | literal s => exact absurd rfl (hlit s)
  | str _ a _ hty hop =>
    rw [hty]
    exact ⟨_, .fmtStr a, false, hop, rfl, rfl, fun _ => rfl⟩
  | int _ w n _ hty hw hop =>
    have hext : (n.signExtend 64).toInt = n.toInt := BitVec.toInt_signExtend_of_le w.bits_le
    refine ⟨_, .fmtInt (n.signExtend 64), false, hop, ?_, ?_, fun _ => rfl⟩
    · rcases hty with hty | hty | ⟨width, hty⟩
      all_goals
        rw [hty]
        cases w with
        | i1 => exact absurd rfl hw
        | _ => rfl
    · rw [Append.text, hext]
      rfl
  | bool _ b _ hty hop =>
    refine ⟨_, .fmtBool ((BitVec.ofBool b).setWidth 64), false, hop, ?_, ?_, fun _ => rfl⟩
    · rcases hty with hty | hty
      all_goals
        rw [hty]
        rfl
    · cases b <;> rfl
  | float _ x _ hty hop =>
    cases spec with
    | none =>
      refine ⟨_, .fmtFloat x, false, hop, ?_, rfl, fun _ => rfl⟩
      rcases hty with hty | hty
      all_goals
        rw [hty]
        rfl
    | some spec =>
      have hne : spec ≠ "" := fun h => hspec (congrArg some h)
      refine ⟨_, .fmtFloatPrec x spec.toList, true, hop, ?_, ?_, fun h => by cases h⟩
      · rcases hty with hty | hty
        all_goals
          rw [hty]
          rfl
      · rw [Append.text, if_neg fun h => hne (String.toList_eq_nil_iff.1 h), HoleValue.text, if_neg hne]
  | list _ a elem _ hty hop =>
    rw [hty]
    exact ⟨_, .fmtRepr a 0, false, hop, rfl, rfl, fun _ => rfl⟩

theorem exists_calls {piece : Piece} {text : Text} (hpiece : PieceText m localTy ft strAt piece text)
    (hclean : piece.Clean) (hspec : specOf rest = none) (hrest : lowerFormatOperands m localTy false rest = .ok calls) :
    ∃ own, lowerFormatOperands m localTy false (piece.operands ++ rest) = .ok (own ++ calls) ∧
      own.flatMap (Append.text ft strAt) = text := by
  have hliteral {s : String} {rest : List Operand} (hs : NoMarker s)
      (hrest : lowerFormatOperands m localTy false rest = .ok calls) :
      ∃ own, lowerFormatOperands m localTy false (.constant (.str s) :: rest) = .ok (own ++ calls) ∧
        own.flatMap (Append.text ft strAt) = s.toList := by
    rw [lowerFormat_lit hs hrest]
    by_cases hs : s = ""
    · exact ⟨[], by rw [if_pos hs]; rfl, by rw [hs]; rfl⟩
    · exact ⟨[.pushStatic s.toList], by rw [if_neg hs]; rfl, List.flatMap_singleton _ _⟩
  cases hpiece with
  | lit s => exact hliteral hclean hrest
  | hole op spec v hv =>
    -- The operand alone, and with a specification behind it.
    have hbare {rest : List Operand} (hspec : specOf rest = none)
        (hrest : lowerFormatOperands m localTy false rest = .ok calls) :
        ∃ own, lowerFormatOperands m localTy false (op :: rest) = .ok (own ++ calls) ∧
          own.flatMap (Append.text ft strAt) = v.text ft none := by
      by_cases hlit : NoStrLiteral op
      · obtain ⟨val, call, taken, hop, hcall, htext, htaken⟩ := exists_call ft hv hlit none (by simp)
        rw [htaken rfl, Option.map_none, ← hspec] at hcall
        exact ⟨[call], lowerFormat_hole hlit hop hcall hrest, by rw [List.flatMap_singleton, htext]⟩
      · cases hv with
        | literal s => exact hliteral (hclean s rfl) hrest
        | _ => contradiction
    cases spec with
    | none => exact hbare hspec hrest
    | some spec =>
      by_cases hne : spec = ""
      · rw [Piece.operands, if_pos hne, hne, text_empty]
        exact hbare hspec hrest
      · rw [Piece.operands, if_neg hne]
        change ∃ own, lowerFormatOperands m localTy false (op :: .constant (.str ("FMTSPEC:" ++ spec)) :: rest) = _ ∧ _
        by_cases hlit : NoStrLiteral op
        · obtain ⟨val, call, taken, hop, hcall, htext, -⟩ :=
            exists_call ft hv hlit (some spec) fun h => hne (Option.some.inj h)
          rw [Option.map_some, ← specOf_marker spec rest] at hcall
          have hrest' := (lowerFormat_spec spec taken).trans hrest
          exact ⟨[call], lowerFormat_hole hlit hop hcall hrest', by rw [List.flatMap_singleton, htext]⟩
        · cases hv with
          | literal s => exact hliteral (hclean s rfl) ((lowerFormat_spec spec false).trans hrest)
          | _ => contradiction

theorem exists_lowerFormat {pieces : List Piece} {texts : List Text} (hclean : ∀ p ∈ pieces, p.Clean)
    (h : List.Forall₂ (PieceText m localTy ft strAt) pieces texts) :
    ∃ calls, lowerFormatOperands m localTy false (pieces.flatMap Piece.operands) = .ok calls ∧
      calls.flatMap (Append.text ft strAt) = texts.flatten := by
  induction h with
  | nil => exact ⟨[], rfl, rfl⟩
  | cons hpiece _ ih =>
    obtain ⟨hfirst, hrest⟩ := List.forall_mem_cons.1 hclean
    obtain ⟨calls, hcalls, htexts⟩ := ih hrest
    obtain ⟨own, hown, htext⟩ := exists_calls hpiece hfirst (specOf_operands hrest) hcalls
    rw [List.flatMap_cons, List.flatten_cons]
    exact ⟨own ++ calls, hown, by rw [List.flatMap_append, htext, htexts]⟩

end Calls

/-- The calls for an f-string append its pieces, each once and in order. -/
theorem formatString_pieces (ft : FloatText) {parts : List Mir.SubPart} {b b' : Mir.BodyBuilder} {ops : List Operand}
    (h : Mir.lowerFormatParts parts b = .ok (ops, b')) :
    ∃ pieces, List.Forall₂ SamePart parts pieces ∧ ops = pieces.flatMap Piece.operands ∧
      ∀ (m : Machine) (localTy : LocalId → Option Ty) (strAt : BitVec 64 → Text) (texts : List Text),
        (∀ p ∈ pieces, p.Clean) → List.Forall₂ (PieceText m localTy ft strAt) pieces texts →
          ∃ calls, lowerAggregateFormatString m localTy ops = .ok calls ∧
            calls.flatMap (Append.text ft strAt) = texts.flatten := by
  obtain ⟨pieces, hsame, rfl⟩ := lowerFormatParts_operands h
  exact ⟨pieces, hsame, rfl, fun m localTy strAt texts hclean htexts => exists_lowerFormat hclean htexts⟩

/-- Floats that are all written alike. -/
def zeros : FloatText where
  isIntegral _ := true
  display _ := ['0']
  fixed _ _ := ['0']
  scientific _ := ['0']

def five : Mir.Sub :=
  ⟨.mk (.lit (.int "5")) default, fun b => .ok (.constant (.int 5), b)⟩

/-- `f"n={5}"`. -/
theorem formatString_pieces_int :
    ∃ calls, lowerAggregateFormatString (constant (.int .i64 5)) (fun _ => none)
        [.constant (.str "n="), .constant (.int 5)] = .ok calls ∧
      calls.flatMap (Append.text zeros fun _ => []) = "n=5".toList := by
  have hrun : Mir.lowerFormatParts [.lit "n=", .hole five none] (Mir.BodyBuilder.new 0 "f" default) =
      .ok ([.constant (.str "n="), .constant (.int 5)], Mir.BodyBuilder.new 0 "f" default) := rfl
  obtain ⟨pieces, hsame, hops, h⟩ := formatString_pieces zeros hrun
  rcases hsame with _ | ⟨⟨⟩, _ | ⟨⟨⟩, ⟨⟩⟩⟩
  cases hops
  refine h _ _ _ ["n=".toList, "5".toList] ?_ ?_
  · intro p hp
    rcases List.mem_pair.1 hp with rfl | rfl
    · exact fun h => absurd h (by decide)
    · exact fun s hs => by cases hs
  · refine .cons (.lit "n=") (.cons ?_ .nil)
    exact .hole _ none _ (.int _ .i64 5 (fun s hs => by cases hs) (.inl rfl) (fun h => by cases h) rfl)

/-- A list is not written out, an integer heeds no specification, and a text like a specification is lost. -/
theorem holes_not_formatted :
    (∃ calls, lowerAggregateFormatString (constant (.ptr 4096)) (fun _ => some (.list .int)) [.copy (.ofLocal 0)] =
        .ok calls ∧ calls.flatMap (Append.text zeros fun _ => []) = "<0>".toList) ∧
      lowerAggregateFormatString (constant (.int .i64 5)) (fun _ => none)
          [.constant (.int 5), .constant (.str "FMTSPEC:.2f")] = .ok [.fmtInt 5] ∧
      lowerAggregateFormatString (constant (.int .i64 5)) (fun _ => none) [.constant (.str "FMTSPEC:a")] = .ok [] :=
  ⟨⟨[.fmtRepr 4096 0], rfl, by decide⟩, rfl, rfl⟩

end Cobrust.Codegen
