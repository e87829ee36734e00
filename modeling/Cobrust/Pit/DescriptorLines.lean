import Cobrust.Mir.Lower.Schema
import Cobrust.Pit.Descriptor

/-!
# The lines of a schema descriptor

What the parser of the web runtime makes of a line that the compiler has written. A payload reads back as
the specification of its shape (`parse_shapePayload`), and a line as a step of `pushed`
(`pushLine_renderLine`).
-/

namespace Cobrust

open Pit (FieldSpec FieldSpecOf FieldKind parseFieldPayload parseSuffix splitPayload pushLine attach
  headerName)

/-! ## The payload of a field -/

section Payload

variable {F : Type} [F64 F]

theorem splitPayload_kind {kind : Text} (h : ':' ∉ kind) : splitPayload kind = (kind, none) := by
  rw [splitPayload, Text.splitOnce_eq_none h]

theorem splitPayload_suffix {kind suffix : Text} (h : ':' ∉ kind) :
    splitPayload (kind ++ ':' :: suffix) = (kind, some suffix) := by
  rw [splitPayload, Text.splitOnce_append h]

theorem parseSuffix_boundSuffix {α : Type} {parse : Text → Option α} {display : α → Text}
    {lo hi : Option α} (hnil : parse [] = none)
    (hx : ∀ x, lo = some x ∨ hi = some x → parse (display x) = some x ∧ ':' ∉ display x) :
    parseSuffix parse (some (lo.elim [] display ++ ':' :: hi.elim [] display)) = (lo, hi) := by
  have hcolon (o : Option α) (ho : ∀ x, o = some x → ':' ∉ display x) : ':' ∉ o.elim [] display := by
    cases o with
    | none => exact List.not_mem_nil
    | some x => exact ho x rfl
  have hparse (o : Option α) (ho : ∀ x, o = some x → parse (display x) = some x) :
      parse (o.elim [] display) = o := by
    cases o with
    | none => exact hnil
    | some x => exact ho x rfl
  have hlo := hcolon lo fun x h => (hx x (.inl h)).2
  have hhi := hcolon hi fun x h => (hx x (.inr h)).2
  rw [parseSuffix, List.splitOn_append_cons_self_of_not_mem hlo, List.splitOn_eq_singleton hhi]
  exact Prod.ext (hparse lo fun x h => (hx x (.inl h)).1) (hparse hi fun x h => (hx x (.inr h)).1)

/-- The suffix behind a kind token reads back as the bounds, or as no bounds where there is none. -/
theorem parse_bounds {α : Type} {parse : Text → Option α} {display : α → Text} {kind : Text}
    (b : Option (Bounds α)) (hkind : ':' ∉ kind) (hnil : parse [] = none)
    (hx : ∀ c, b = some c → ∀ x, c.lo = some x ∨ c.hi = some x →
      parse (display x) = some x ∧ ':' ∉ display x) :
    ∃ suffix, splitPayload (kind ++ b.elim [] fun b => boundSuffix display b.lo b.hi) = (kind, suffix) ∧
      parseSuffix parse suffix = (b.bind Bounds.lo, b.bind Bounds.hi) := by
  cases b with
  | none =>
    rw [Option.elim_none, List.append_nil, splitPayload_kind hkind]
    exact ⟨none, rfl, rfl⟩
  | some b =>
    rw [Option.elim_some, boundSuffix, splitPayload_suffix hkind]
    exact ⟨_, rfl, parseSuffix_boundSuffix hnil (hx b rfl)⟩

theorem parse_intBounds (b : Option (Bounds Int64)) {kind : Text} (hkind : ':' ∉ kind) :
    ∃ suffix, splitPayload (kind ++ b.elim [] fun b => intSuffix b.lo b.hi) = (kind, suffix) ∧
      Pit.parseNumericSuffix suffix = (b.bind Bounds.lo, b.bind Bounds.hi) :=
  parse_bounds b hkind rfl fun _ _ x _ =>
    ⟨Text.parseInt64_displayInt64 x, Text.not_mem_displayInt (by decide) (by decide) x.toInt⟩

theorem parse_floatBounds [LawfulF64 F] (b : Option (Bounds F)) {kind : Text} (hkind : ':' ∉ kind)
    (hb : ∀ c, b = some c → ∀ x, c.lo = some x ∨ c.hi = some x → F64.isFinite x) :
    ∃ suffix, splitPayload (kind ++ b.elim [] fun b => floatSuffix b.lo b.hi) = (kind, suffix) ∧
      Pit.parseFloatSuffix suffix = (b.bind Bounds.lo, b.bind Bounds.hi) := by
  refine parse_bounds b hkind LawfulF64.parse_nil fun c hc x hx => ?_
  have hfin := hb c hc x hx
  refine ⟨LawfulF64.parse_display x hfin, fun hm => ?_⟩
  rcases LawfulF64.display_chars x hfin ':' hm with h | h | h
  · exact absurd h (by decide)
  · exact absurd h (by decide)
  · exact absurd h (by decide)

end Payload

namespace ClassTable

section Specs

variable {F : Type} [F64 F] (g : ClassTable F)

omit [F64 F] in
def elemSpec (name : Text) : Elem → FieldSpec F
  | .str => .plain name .str
  | .i64 => .plain name .i64
  | .f64 => .plain name .f64
  | .bool => .plain name .bool
  | .cls id => .plain name (.obj (g.nameOf id))

omit [F64 F] in
/-- The specification that a shape stands for. -/
def specOf (name : Text) : Shape F → FieldSpec F
  | .str length => ⟨name, .str, length.bind Bounds.lo, length.bind Bounds.hi, none, none, none⟩
  | .pattern regex => ⟨name, .pat, none, none, none, none, some regex⟩
  | .i64 range => ⟨name, .i64, range.bind Bounds.lo, range.bind Bounds.hi, none, none, none⟩
  | .f64 range => ⟨name, .f64, none, none, range.bind Bounds.lo, range.bind Bounds.hi, none⟩
  | .bool => .plain name .bool
  | .cls id => .plain name (.obj (g.nameOf id))
  | .list elem => .plain name (.list (g.elemSpec name elem))
  | .any => .plain name .any

omit [F64 F] in
/-- The specification that is read from the payload of a shape: an empty pattern is dropped. -/
def readSpec (name : Text) (shape : Shape F) : FieldSpec F :=
  match shape with
  | .pattern regex => ⟨name, .pat, none, none, none, none, (some regex).filter fun s => !s.isEmpty⟩
  | shape => g.specOf name shape

/-- What the characters of the payload of a shape rest on. -/
def ShapeOk : Shape F → Prop
  | .f64 range => ∀ c, range = some c → ∀ x, c.lo = some x ∨ c.hi = some x → F64.isFinite x
  | .cls id => IsIdentifier (g.nameOf id)
  | .list (.cls id) => IsIdentifier (g.nameOf id)
  | _ => True

variable {g}

theorem parse_elemPayload (name : Text) (elem : Elem) :
    parseFieldPayload name (g.elemPayload elem) = g.elemSpec name elem := by
  cases elem with
  | cls id =>
    have hs : splitPayload (g.elemPayload (.cls id)) = ("obj".toList, some (g.nameOf id)) :=
      splitPayload_suffix (by decide : ':' ∉ "obj".toList)
    unfold parseFieldPayload
    rw [hs]
    rfl
  | _ =>
    unfold parseFieldPayload
    rfl

theorem parse_shapePayload [LawfulF64 F] (name : Text) {shape : Shape F} (h : g.ShapeOk shape) :
    parseFieldPayload name (g.shapePayload shape) = g.readSpec name shape := by
  cases shape with
  | str length =>
    obtain ⟨suffix, hs, hb⟩ := parse_intBounds length (by decide : ':' ∉ "str".toList)
    unfold parseFieldPayload shapePayload
    rw [hs]
    exact congrArg (fun b : Option Int64 × Option Int64 =>
      (⟨name, .str, b.1, b.2, none, none, none⟩ : FieldSpec F)) hb
  | i64 range =>
    obtain ⟨suffix, hs, hb⟩ := parse_intBounds range (by decide : ':' ∉ "i64".toList)
    unfold parseFieldPayload shapePayload
    rw [hs]
    exact congrArg (fun b : Option Int64 × Option Int64 =>
      (⟨name, .i64, b.1, b.2, none, none, none⟩ : FieldSpec F)) hb
  | f64 range =>
    obtain ⟨suffix, hs, hb⟩ := parse_floatBounds range (by decide : ':' ∉ "f64".toList) h
    unfold parseFieldPayload shapePayload
    rw [hs]
    exact congrArg (fun b : Option F × Option F =>
      (⟨name, .f64, none, none, b.1, b.2, none⟩ : FieldSpec F)) hb
  | pattern regex =>
    have hs : splitPayload (g.shapePayload (.pattern (F := F) regex)) = ("pat".toList, some regex) :=
      splitPayload_suffix (by decide : ':' ∉ "pat".toList)
    unfold parseFieldPayload
    rw [hs]
    rfl
  | cls id =>
    have hs : splitPayload (g.shapePayload (.cls (F := F) id)) = ("obj".toList, some (g.nameOf id)) :=
      splitPayload_suffix (by decide : ':' ∉ "obj".toList)
    unfold parseFieldPayload
    rw [hs]
    rfl
  | list elem =>
    have hs : splitPayload (g.shapePayload (.list (F := F) elem)) =
        ("list".toList, some (g.elemPayload elem)) :=
      splitPayload_suffix (by decide : ':' ∉ "list".toList)
    unfold parseFieldPayload
    rw [hs]
    exact congrArg (fun spec => FieldSpecOf.plain name (FieldKind.list spec)) (parse_elemPayload name elem)
  | bool =>
    unfold parseFieldPayload
    rfl
  | any =>
    unfold parseFieldPayload
    rfl

end Specs

/-! ## The lines of a descriptor -/

section Lines

variable {F : Type} [F64 F] {g : ClassTable F}

theorem not_mem_identifier {name : Text} (h : IsIdentifier name) {c : Char}
    (hc : Text.isWhitespace c) : c ∉ name :=
  fun hm => by simp [(h.2 c hm).1] at hc

def Line.regex : Line F → Option Text
  | .field _ (.pattern regex) => some regex
  | _ => none

/-- A line without the carriage return at its end, which is the end of a pattern. -/
def Line.strip : Line F → Line F
  | .field name (.pattern regex) => .field name (.pattern (Text.stripCr regex))
  | line => line

variable (g) in
/-- What the line parser does with a line. -/
def pushed (blocks : List (Text × List (FieldSpec F))) : Line F → List (Text × List (FieldSpec F))
  | .header name => blocks ++ [(name, [])]
  | .field name shape => attach blocks (g.readSpec name shape)

variable (g) in
def LineOk : Line F → Prop
  | .header name => IsIdentifier name
  | .field name shape => IsIdentifier name ∧ g.ShapeOk shape

theorem not_mem_boundSuffix {α : Type} {display : α → Text} {b : Option (Bounds α)} {c : Char}
    (hc : c ≠ ':') (hd : ∀ e, b = some e → ∀ x, e.lo = some x ∨ e.hi = some x → c ∉ display x) :
    c ∉ b.elim [] fun b => boundSuffix display b.lo b.hi := by
  have hpart (o : Option α) (ho : ∀ x, o = some x → c ∉ display x) : c ∉ o.elim [] display := by
    cases o with
    | none => exact List.not_mem_nil
    | some x => exact ho x rfl
  cases b with
  | none => exact List.not_mem_nil
  | some b =>
    have hlo := hpart b.lo fun x h => hd b rfl x (.inl h)
    have hhi := hpart b.hi fun x h => hd b rfl x (.inr h)
    simp [boundSuffix, hc, hlo, hhi]

theorem regex_of_mem_shapePayload [LawfulF64 F] {shape : Shape F} {c : Char} (h : g.ShapeOk shape)
    (hc : c = '\n' ∨ c = '\r') (hm : c ∈ g.shapePayload shape) :
    ∃ regex, shape = .pattern regex ∧ c ∈ regex := by
  have hws : Text.isWhitespace c := by rcases hc with rfl | rfl <;> decide
  have hcolon : c ≠ ':' := by rcases hc with rfl | rfl <;> decide
  have hdigit : c.isDigit = false := by rcases hc with rfl | rfl <;> decide
  have hminus : c ≠ '-' := by rcases hc with rfl | rfl <;> decide
  have hdot : c ≠ '.' := by rcases hc with rfl | rfl <;> decide
  have hint (b : Option (Bounds Int64)) : c ∉ b.elim [] fun b => intSuffix b.lo b.hi :=
    not_mem_boundSuffix hcolon fun _ _ x _ => Text.not_mem_displayInt hdigit hminus x.toInt
  have hlit (token : Text) (hn : '\n' ∉ token) (hr : '\r' ∉ token) : c ∉ token := by
    rcases hc with rfl | rfl
    · exact hn
    · exact hr
  have hname {id : AdtId} (hid : IsIdentifier (g.nameOf id)) : c ∉ "obj:".toList ++ g.nameOf id :=
    fun hm => (List.mem_append.1 hm).elim (hlit _ (by decide) (by decide)) (not_mem_identifier hid hws)
  cases shape with
  | str length =>
    exact absurd hm fun hm => (List.mem_append.1 hm).elim (hlit _ (by decide) (by decide)) (hint length)
  | i64 range =>
    exact absurd hm fun hm => (List.mem_append.1 hm).elim (hlit _ (by decide) (by decide)) (hint range)
  | f64 range =>
    refine absurd hm fun hm => (List.mem_append.1 hm).elim (hlit _ (by decide) (by decide)) ?_
    refine not_mem_boundSuffix hcolon fun e he x hx hd => ?_
    rcases LawfulF64.display_chars x (h e he x hx) c hd with hd | hd | hd
    · simp [hdigit] at hd
    · exact hminus hd
    · exact hdot hd
  | pattern regex =>
    exact ⟨regex, rfl, (List.mem_append.1 hm).resolve_left (hlit _ (by decide) (by decide))⟩
  | cls id => exact absurd hm (hname h)
  | list elem =>
    refine absurd hm fun hm => (List.mem_append.1 hm).elim (hlit _ (by decide) (by decide)) ?_
    cases elem with
    | str => exact hlit "str".toList (by decide) (by decide)
    | i64 => exact hlit "i64".toList (by decide) (by decide)
    | f64 => exact hlit "f64".toList (by decide) (by decide)
    | bool => exact hlit "bool".toList (by decide) (by decide)
    | cls id => exact hname h
  | bool => exact absurd hm (hlit "bool".toList (by decide) (by decide))
  | any => exact absurd hm (hlit "any".toList (by decide) (by decide))

theorem not_mem_renderLine [LawfulF64 F] {l : Line F} (h : g.LineOk l)
    (hfeed : ∀ regex, l.regex = some regex → '\n' ∉ regex) : '\n' ∉ g.renderLine l := by
  intro hm
  cases l with
  | header name =>
    rcases List.mem_append.1 hm with hm | hm
    · exact absurd hm (by decide)
    · exact not_mem_identifier h (by decide) hm
  | field name shape =>
    rcases List.mem_append.1 hm with hm | hm
    · exact not_mem_identifier h.1 (by decide) hm
    · rcases List.mem_cons.1 hm with hm | hm
      · exact absurd hm (by decide)
      · obtain ⟨regex, rfl, hr⟩ := regex_of_mem_shapePayload h.2 (.inl rfl) hm
        exact hfeed regex rfl hr

theorem stripCr_renderLine [LawfulF64 F] {l : Line F} (h : g.LineOk l) :
    Text.stripCr (g.renderLine l) = g.renderLine l.strip := by
  cases l with
  | header name =>
    refine Text.stripCr_of_not_mem fun hm => ?_
    rcases List.mem_append.1 hm with hm | hm
    · exact absurd hm (by decide)
    · exact not_mem_identifier h (by decide) hm
  | field name shape =>
    have hkeep (hm : '\r' ∉ g.shapePayload shape) :
        Text.stripCr (g.renderLine (.field name shape)) = g.renderLine (.field name shape) := by
      refine Text.stripCr_of_not_mem fun hm' => ?_
      rcases List.mem_append.1 hm' with hm' | hm'
      · exact not_mem_identifier h.1 (by decide) hm'
      · rcases List.mem_cons.1 hm' with hm' | hm'
        · exact absurd hm' (by decide)
        · exact hm hm'
    cases shape with
    | pattern regex =>
      have hrender (r : Text) : g.renderLine (.field name (.pattern r)) =
          (name ++ '\t' :: "pat:".toList) ++ r :=
        (List.append_assoc name ('\t' :: "pat:".toList) r).symm
      rw [hrender, Text.stripCr_append]
      · exact (hrender _).symm
      · rw [List.getLast?_append_of_ne_nil _ (by simp)]
        decide
    | _ =>
      refine hkeep fun hm => ?_
      obtain ⟨regex, he, -⟩ := regex_of_mem_shapePayload h.2 (.inr rfl) hm
      cases he

theorem LineOk.strip {l : Line F} (h : g.LineOk l) : g.LineOk l.strip := by
  cases l with
  | header name => exact h
  | field name shape =>
    cases shape with
    | pattern regex => exact ⟨h.1, trivial⟩
    | _ => exact h

theorem renderLine_ne_nil (l : Line F) : g.renderLine l ≠ [] := by
  cases l with
  | header name => simp [renderLine]
  | field name shape => simp [renderLine]

theorem headerName_header {name : Text} (h : IsIdentifier name) :
    headerName ("# ".toList ++ name) = some name := by
  have hne : (!name.isEmpty) = true := by simpa using h.1
  rw [headerName, List.dropPrefix?_append_of_beq name (beq_self_eq_true _), Option.map_some,
    Text.trim_eq_self fun c hc => (h.2 c hc).1, Option.filter_some, if_pos hne]

theorem headerName_field {name : Text} (h : IsIdentifier name) (rest : Text) :
    headerName (name ++ rest) = none := by
  have hnone : (name ++ rest).dropPrefix? "# ".toList = none := by
    obtain ⟨hne, hchars⟩ := h
    cases name with
    | nil => exact absurd rfl hne
    | cons c cs =>
      have hc : (c == '#') = false := by simpa using (hchars c (by simp)).2
      change (if (c == '#') = true then _ else none) = _
      rw [hc, if_neg Bool.false_ne_true]
  rw [headerName, hnone]
  rfl

theorem pushLine_renderLine [LawfulF64 F] {l : Line F} (h : g.LineOk l)
    (blocks : List (Text × List (FieldSpec F))) :
    pushLine blocks (g.renderLine l) = g.pushed blocks l := by
  rw [pushLine, if_neg (renderLine_ne_nil l)]
  cases l with
  | header name =>
    rw [renderLine, headerName_header h]
    rfl
  | field name shape =>
    have ht : '\t' ∉ name := not_mem_identifier h.1 (by decide)
    rw [renderLine, headerName_field h.1, Pit.pushField, Pit.parseFieldLine, Text.splitOnce_append ht,
      Option.map_some, parse_shapePayload name h.2]
    rfl

theorem foldl_pushLine [LawfulF64 F] {ls : List (Line F)} (h : ∀ l ∈ ls, g.LineOk l)
    (blocks : List (Text × List (FieldSpec F))) :
    (ls.map g.renderLine).foldl pushLine blocks = ls.foldl g.pushed blocks := by
  induction ls generalizing blocks with
  | nil => rfl
  | cons l rest ih =>
    obtain ⟨hl, hrest⟩ := List.forall_mem_cons.1 h
    rw [List.map_cons, List.foldl_cons, List.foldl_cons, pushLine_renderLine hl, ih hrest]

end Lines

end ClassTable

end Cobrust
