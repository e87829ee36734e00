import Cobrust.Pit.DescriptorLines

/-!
# The descriptor round trip

What the compiler writes about a graph of validated classes, the web runtime reads back: one block for
each class, in the order of their discovery, with the fields of the class. The lines carry no escapes, so
this fails for a pattern with a line feed in it, for an empty pattern, and for a pattern with a carriage
return at the end of a line that is not the last one.
-/

namespace Cobrust

open Pit (FieldSpec FieldSpecOf FieldKind parseFieldPayload splitPayload pushLine attach
  parseSchemaBlocks SchemaBlocks)

namespace ClassTable

section Blocks

variable {F : Type} {g : ClassTable F}

def Line.headerOf : Line F → Option Text
  | .header name => some name
  | .field _ _ => none

/-- The specification that `spec` makes of a field line. -/
def Line.specWith (spec : Text → Shape F → FieldSpec F) : Line F → Option (FieldSpec F)
  | .header _ => none
  | .field name shape => some (spec name shape)

theorem attach_concat (blocks : List (Text × List (FieldSpec F))) (name : Text)
    (specs : List (FieldSpec F)) (spec : FieldSpec F) :
    attach (blocks ++ [(name, specs)]) spec = blocks ++ [(name, specs ++ [spec])] := by
  simp [attach]

/-- The names and the fields of the blocks are those of the lines. -/
theorem foldl_pushed (ls : List (Line F)) {blocks : List (Text × List (FieldSpec F))}
    (hne : blocks ≠ []) :
    (ls.foldl g.pushed blocks).map Prod.fst = blocks.map Prod.fst ++ ls.filterMap Line.headerOf ∧
      (ls.foldl g.pushed blocks).flatMap Prod.snd =
        blocks.flatMap Prod.snd ++ ls.filterMap (Line.specWith g.readSpec) := by
  induction ls generalizing blocks with
  | nil => simp
  | cons l rest ih =>
    rw [List.foldl_cons]
    cases l with
    | header name =>
      obtain ⟨hn, hs⟩ := @ih (g.pushed blocks (.header name)) (by simp [pushed])
      rw [hn, hs]
      simp [pushed, Line.headerOf, Line.specWith, List.filterMap_cons]
    | field name shape =>
      obtain ⟨before, ⟨n, specs⟩, rfl⟩ := List.eq_nil_or_concat' blocks |>.resolve_left hne
      have he : g.pushed (before ++ [(n, specs)]) (.field name shape) =
          before ++ [(n, specs ++ [g.readSpec name shape])] :=
        attach_concat before n specs _
      obtain ⟨hn, hs⟩ := @ih (g.pushed (before ++ [(n, specs)]) (.field name shape)) (by simp [he])
      rw [hn, hs, he]
      simp [Line.headerOf, Line.specWith, List.filterMap_cons]

theorem foldl_fields (fields : List (Text × Shape F)) (blocks : List (Text × List (FieldSpec F)))
    (name : Text) (specs : List (FieldSpec F)) :
    (fields.map fun field => Line.field field.1 field.2).foldl g.pushed (blocks ++ [(name, specs)]) =
      blocks ++ [(name, specs ++ fields.map fun field => g.readSpec field.1 field.2)] := by
  induction fields generalizing specs with
  | nil => simp
  | cons field rest ih =>
    rw [List.map_cons, List.foldl_cons, pushed, attach_concat, ih]
    simp

/-- The blocks that are read from the lines of some classes. -/
theorem foldl_blockLines (ids : List AdtId) (blocks : List (Text × List (FieldSpec F))) :
    (ids.flatMap g.blockLines).foldl g.pushed blocks =
      blocks ++ ids.map fun id =>
        (g.nameOf id, (g.shapes id).map fun field => g.readSpec field.1 field.2) := by
  induction ids generalizing blocks with
  | nil => simp
  | cons id rest ih =>
    rw [List.flatMap_cons, List.foldl_append, blockLines, List.foldl_cons, pushed,
      foldl_fields, ih]
    simp

end Blocks

/-! ## The round trip -/

section RoundTrip

variable {F : Type} [F64 F]

omit [F64 F] in
/-- The block of a class, with exactly its fields. -/
def specBlock (g : ClassTable F) (id : AdtId) : Text × List (FieldSpec F) :=
  (g.nameOf id, (g.shapes id).map fun field => g.specOf field.1 field.2)

omit [F64 F] in
/-- The blocks are those of the classes that can be reached from the body class, the body class first and
each class once. -/
def RoundTrips (g : ClassTable F) (root : AdtId) (s : SchemaBlocks F) : Prop :=
  ∃ ids : List AdtId, ids.head? = some root ∧ ids.Nodup ∧ (∀ id, id ∈ ids ↔ g.Reachable root id) ∧
    s.blocks = ids.map g.specBlock

omit [F64 F] in
/-- No pattern is empty or has a line feed in it, and none ends with a carriage return, unless it is the
end of the descriptor. -/
structure PatternsSurvive (g : ClassTable F) (root : AdtId) : Prop where
  plain : ∀ l ∈ g.lines root, ∀ regex, l.regex = some regex → regex ≠ [] ∧ '\n' ∉ regex
  returns : ∀ l ∈ (g.lines root).dropLast, ∀ regex, l.regex = some regex →
    regex.getLast? ≠ some '\r'

variable {g : ClassTable F} {root : AdtId}

omit [F64 F] in
/-- The bounds of a float field are those of its refinement. -/
theorem floatRange_of_shapeOf {id : AdtId} {field : Text} {ty : Ty} {b : Bounds F}
    (h : g.shapeOf id field ty = .f64 (some b)) :
    g.adtRefinements id field = some (.floatRange b.lo b.hi) := by
  unfold shapeOf at h
  split at h
  · split at h <;> cases h
  · split at h <;> cases h
  · split at h
    · rename_i hr
      cases h
      exact hr
    · cases h
  · cases h
  · split at h <;> cases h
  · rename_i elem
    cases he : g.elemOf elem <;> rw [he] at h <;> cases h
  · cases h

theorem shapeOk (hg : g.WellFormed) {id : AdtId} {field : Text × Shape F} (h : field ∈ g.shapes id) :
    IsIdentifier field.1 ∧ g.ShapeOk field.2 := by
  obtain ⟨⟨name, ty⟩, hd, rfl⟩ := List.mem_map.1 h
  cases hf : g.fieldsOf id with
  | none => simp [hf] at hd
  | some fields =>
    rw [hf, Option.getD_some] at hd
    refine ⟨(hg.field id fields hf).2 _ hd, ?_⟩
    have hname : ∀ n ∈ (g.shapeOf id name ty).classes, IsIdentifier (g.nameOf n) :=
      fun n hn => hg.name n (isClass_of_mem_classes hn)
    have hfin : ∀ b, g.shapeOf id name ty = .f64 (some b) → ∀ x, b.lo = some x ∨ b.hi = some x →
        F64.isFinite x :=
      fun b hb => (hg.attachable id fields hf _ hd _ (floatRange_of_shapeOf hb)).2
    revert hname hfin
    cases g.shapeOf id name ty with
    | f64 range => exact fun _ hfin b hb => hfin b (congrArg Shape.f64 hb)
    | cls n => exact fun hname _ => hname n (List.mem_singleton_self n)
    | list elem =>
      cases elem with
      | cls n => exact fun hname _ => hname n (List.mem_singleton_self n)
      | _ => exact fun _ _ => trivial
    | _ => exact fun _ _ => trivial

theorem lineOk (hg : g.WellFormed) (hroot : g.IsClass root) {l : Line F} (h : l ∈ g.lines root) :
    g.LineOk l := by
  obtain ⟨id, hid, hl⟩ := List.mem_flatMap.1 h
  rcases List.mem_cons.1 hl with rfl | hl
  · exact hg.name id (isClass_of_mem_order hroot hid)
  · obtain ⟨field, hf, rfl⟩ := List.mem_map.1 hl
    exact shapeOk hg hf

/-- What is read from a descriptor without line feeds in its patterns: every line but the last loses the
carriage return at its end. -/
theorem parse_schemaOf [LawfulF64 F] (hg : g.WellFormed) (hroot : g.IsClass root)
    {before : List (Line F)} {last : Line F} (hlines : g.lines root = before ++ [last])
    (hfeed : ∀ l ∈ g.lines root, ∀ regex, l.regex = some regex → '\n' ∉ regex) :
    (parseSchemaBlocks (g.schemaOf root)).blocks =
      (before.map Line.strip ++ [last]).foldl g.pushed [] := by
  have hok : ∀ l ∈ before ++ [last], g.LineOk l := fun l hl => lineOk hg hroot (hlines ▸ hl)
  obtain ⟨hbefore, hlast⟩ := List.forall_mem_append.1 hok
  have hno : ∀ l ∈ before ++ [last], '\n' ∉ g.renderLine l :=
    fun l hl => not_mem_renderLine (hok l hl) (hfeed l (hlines ▸ hl))
  obtain ⟨hnb, hnl⟩ := List.forall_mem_append.1 hno
  have hstrip : (before.map g.renderLine).map Text.stripCr = (before.map Line.strip).map g.renderLine := by
    rw [List.map_map, List.map_map]
    exact List.map_congr_left fun l hl => stripCr_renderLine (hbefore l hl)
  rw [parseSchemaBlocks, schemaOf_eq hg hroot, hlines, List.map_append, List.map_singleton,
    Text.lines_intercalate (List.forall_mem_map.2 hnb) (hnl last (by simp)) (renderLine_ne_nil last),
    hstrip, ← List.map_singleton, ← List.map_append, foldl_pushLine]
  refine List.forall_mem_append.2 ⟨List.forall_mem_map.2 fun l hl => ?_, hlast⟩
  exact (hbefore l hl).strip

omit [F64 F] in
theorem readSpec_eq_specOf (name : Text) {shape : Shape F}
    (h : ∀ regex, shape = .pattern regex → regex ≠ []) : g.readSpec name shape = g.specOf name shape := by
  cases shape with
  | pattern regex =>
    have hne : (!regex.isEmpty) = true := by simpa using h regex rfl
    rw [readSpec, Option.filter_some, if_pos hne, specOf]
  | _ => rfl

omit [F64 F] in
theorem lines_concat (hroot : g.IsClass root) : ∃ before last, g.lines root = before ++ [last] := by
  have hne : g.lines root ≠ [] := by
    obtain ⟨hhead, -⟩ := order_spec hroot
    obtain ⟨rest, he⟩ := List.head?_eq_some_iff.1 hhead
    rw [lines, he, List.flatMap_cons, blockLines]
    exact List.cons_ne_nil _ _
  obtain ⟨before, last, he⟩ := (List.eq_nil_or_concat' (g.lines root)).resolve_left hne
  exact ⟨before, last, he⟩

/-- The pattern of a field is what stands behind the first colon of its payload. -/
theorem mem_of_pattern_parseFieldPayload {name rest regex : Text} {c : Char}
    (h : (parseFieldPayload (F := F) name rest).pattern = some regex) (hc : c ∈ regex) : c ∈ rest := by
  rw [parseFieldPayload] at h
  split at h
  · cases h
  · split at h
    · cases h
    · split at h
      · obtain ⟨hs, -⟩ := Option.filter_eq_some_iff.1 h
        unfold splitPayload at hs
        split at hs
        · rename_i he
          cases hs
          rw [Text.eq_append_of_splitOnce he]
          simp [hc]
        · cases hs
      · cases h
      · cases h

/-- No pattern of these blocks has a line feed in it. -/
def FeedFree (blocks : List (Text × List (FieldSpec F))) : Prop :=
  ∀ block ∈ blocks, ∀ spec ∈ block.2, ∀ regex, spec.pattern = some regex → '\n' ∉ regex

omit [F64 F] in
theorem FeedFree.attach {blocks : List (Text × List (FieldSpec F))} (h : FeedFree blocks)
    {spec : FieldSpec F} (hs : ∀ regex, spec.pattern = some regex → '\n' ∉ regex) :
    FeedFree (attach blocks spec) := by
  rcases List.eq_nil_or_concat' blocks with rfl | ⟨before, ⟨name, specs⟩, rfl⟩
  · intro block hb spec' hs'
    obtain rfl := List.mem_singleton.1 hb
    obtain rfl := List.mem_singleton.1 hs'
    exact hs
  · obtain ⟨hbefore, hlast⟩ := List.forall_mem_append.1 h
    rw [attach_concat]
    refine List.forall_mem_append.2 ⟨hbefore, List.forall_mem_singleton.2 ?_⟩
    exact List.forall_mem_append.2
      ⟨hlast (name, specs) (List.mem_singleton_self _), List.forall_mem_singleton.2 hs⟩

theorem FeedFree.pushLine {blocks : List (Text × List (FieldSpec F))} (h : FeedFree blocks)
    {line : Text} (hl : '\n' ∉ line) : FeedFree (pushLine blocks line) := by
  unfold Pit.pushLine
  split
  · exact h
  · split
    · refine List.forall_mem_append.2 ⟨h, List.forall_mem_singleton.2 ?_⟩
      exact fun spec hs => absurd hs List.not_mem_nil
    · unfold Pit.pushField
      split
      · rename_i spec hspec
        refine h.attach fun regex hr hm => hl ?_
        obtain ⟨⟨name, rest⟩, hsplit, rfl⟩ := Option.map_eq_some_iff.1 hspec
        rw [Text.eq_append_of_splitOnce hsplit]
        simp [mem_of_pattern_parseFieldPayload hr hm]
      · exact h

theorem feedFree_parseSchemaBlocks (schema : Text) :
    FeedFree (parseSchemaBlocks (F := F) schema).blocks := by
  have hrun (ls : List Text) (hls : ∀ l ∈ ls, '\n' ∉ l) (blocks : List (Text × List (FieldSpec F)))
      (h : FeedFree blocks) : FeedFree (ls.foldl Pit.pushLine blocks) := by
    induction ls generalizing blocks with
    | nil => exact h
    | cons l rest ih =>
      obtain ⟨hl, hrest⟩ := List.forall_mem_cons.1 hls
      exact ih hrest _ (h.pushLine hl)
  exact hrun _ (fun l => Text.not_mem_of_mem_lines) [] fun _ hb => absurd hb List.not_mem_nil

omit [F64 F] in
theorem mem_lines_field {id : AdtId} {field : Text × Shape F} (hid : id ∈ g.order root)
    (hf : field ∈ g.shapes id) : Line.field field.1 field.2 ∈ g.lines root :=
  List.mem_flatMap.2 ⟨id, hid, List.mem_cons_of_mem _ (List.mem_map.2 ⟨field, hf, rfl⟩)⟩

theorem roundTrips_of_patternsSurvive [LawfulF64 F] (hg : g.WellFormed) (hroot : g.IsClass root)
    (h : g.PatternsSurvive root) : g.RoundTrips root (parseSchemaBlocks (g.schemaOf root)) := by
  obtain ⟨hhead, hnodup, hmem⟩ := order_spec hroot
  obtain ⟨before, last, hlines⟩ := lines_concat hroot
  refine ⟨g.order root, hhead, hnodup, hmem, ?_⟩
  have hstrip : before.map Line.strip = before := by
    refine (List.map_congr_left fun l hl => ?_).trans (List.map_id before)
    cases l with
    | header name => rfl
    | field name shape =>
      cases shape with
      | pattern regex =>
        have hl' : Line.field name (.pattern regex) ∈ (g.lines root).dropLast := by
          rwa [hlines, List.dropLast_concat]
        rw [Line.strip, Text.stripCr_eq_self.2 (h.returns _ hl' regex rfl)]
        rfl
      | _ => rfl
  rw [parse_schemaOf hg hroot hlines fun l hl regex hr => (h.plain l hl regex hr).2, hstrip, ← hlines,
    lines, foldl_blockLines, List.nil_append]
  refine List.map_congr_left fun id hid => Prod.ext rfl (List.map_congr_left fun field hf => ?_)
  refine readSpec_eq_specOf field.1 fun regex hr => ?_
  exact (h.plain _ (mem_lines_field hid hf) regex (by rw [hr]; rfl)).1

omit [F64 F] in
/-- Blocks that are read from lines with a header at the front. -/
theorem foldl_pushed_header {ls : List (Line F)} (h : ∃ name, ls.head? = some (.header name)) :
    (ls.foldl g.pushed []).map Prod.fst = ls.filterMap Line.headerOf ∧
      (ls.foldl g.pushed []).flatMap Prod.snd = ls.filterMap (Line.specWith g.readSpec) := by
  obtain ⟨name, hname⟩ := h
  obtain ⟨rest, rfl⟩ := List.head?_eq_some_iff.1 hname
  obtain ⟨hn, hs⟩ := foldl_pushed (g := g) rest (List.cons_ne_nil (name, []) [])
  exact ⟨hn, hs⟩

omit [F64 F] in
theorem filterMap_lines {α : Type} (f : Line F → Option α) :
    (g.lines root).filterMap f = (g.order root).flatMap fun id => (g.blockLines id).filterMap f := by
  rw [lines, List.filterMap_flatMap]

theorem eq_of_filterMap_eq {α β : Type} {p q : α → Option β} {l : List α}
    (hsome : ∀ a ∈ l, (p a).isSome = (q a).isSome) (h : l.filterMap p = l.filterMap q) :
    ∀ a ∈ l, p a = q a := by
  induction l with
  | nil => exact fun a ha => absurd ha List.not_mem_nil
  | cons a rest ih =>
    obtain ⟨ha, hrest⟩ := List.forall_mem_cons.1 hsome
    cases hp : p a with
    | none =>
      have hq : q a = none := by simpa [hp] using ha.symm
      rw [List.filterMap_cons_none hp, List.filterMap_cons_none hq] at h
      exact List.forall_mem_cons.2 ⟨by rw [hp, hq], ih hrest h⟩
    | some b =>
      obtain ⟨c, hq⟩ := Option.isSome_iff_exists.1 (show (q a).isSome by rw [← ha, hp]; rfl)
      rw [List.filterMap_cons_some hp, List.filterMap_cons_some hq] at h
      obtain ⟨hbc, hrests⟩ := List.cons.inj h
      exact List.forall_mem_cons.2 ⟨by rw [hp, hq, hbc], ih hrest hrests⟩

theorem eq_of_map_eq {α β : Type} {f : α → β} {l l' : List α}
    (hinj : ∀ a ∈ l, ∀ b ∈ l', f a = f b → a = b) (h : l.map f = l'.map f) : l = l' := by
  induction l generalizing l' with
  | nil => exact (List.map_eq_nil_iff.1 h.symm).symm
  | cons a rest ih =>
    cases l' with
    | nil => cases h
    | cons b rest' =>
      obtain ⟨hab, hrest⟩ := List.cons.inj h
      obtain rfl := hinj a (by simp) b (by simp) hab
      exact congrArg _ (ih (fun x hx y hy => hinj x (by simp [hx]) y (by simp [hy])) hrest)

omit [F64 F] in
theorem filterMap_headerOf (id : AdtId) : (g.blockLines id).filterMap Line.headerOf = [g.nameOf id] := by
  simp [blockLines, Line.headerOf, List.filterMap_map, Function.comp_def]

omit [F64 F] in
theorem filterMap_specWith (spec : Text → Shape F → FieldSpec F) (id : AdtId) :
    (g.blockLines id).filterMap (Line.specWith spec) =
      (g.shapes id).map fun field => spec field.1 field.2 := by
  simp [blockLines, Line.specWith, List.filterMap_cons, List.filterMap_map, Function.comp_def]

omit [F64 F] in
theorem headerOf_strip (l : Line F) : l.strip.headerOf = l.headerOf := by
  cases l with
  | header name => rfl
  | field name shape => cases shape <;> rfl

omit [F64 F] in
theorem head_strip (hroot : g.IsClass root) {before : List (Line F)} {last : Line F}
    (hlines : g.lines root = before ++ [last]) :
    ∃ name, (before.map Line.strip ++ [last]).head? = some (.header name) := by
  obtain ⟨hhead, -⟩ := order_spec hroot
  obtain ⟨rest, he⟩ := List.head?_eq_some_iff.1 hhead
  refine ⟨g.nameOf root, ?_⟩
  have hfirst : (before ++ [last]).head? = some (.header (g.nameOf root)) := by
    rw [← hlines, lines, he, List.flatMap_cons, blockLines]
    rfl
  cases before with
  | nil => exact hfirst
  | cons l rest =>
    obtain rfl := Option.some.inj hfirst
    rfl

/-- The lines of the encoder, each with the line that is read in its place, have the same fields where the
blocks are those of the graph. -/
theorem spec_eq_of_roundTrips (hg : g.WellFormed) (hroot : g.IsClass root) {ids : List AdtId}
    (hids : ∀ id, id ∈ ids ↔ g.Reachable root id) {before : List (Line F)} {last : Line F}
    (hlines : g.lines root = before ++ [last])
    (h : (before.map Line.strip ++ [last]).foldl g.pushed [] = ids.map g.specBlock) :
    (∀ l ∈ before, l.specWith g.specOf = l.strip.specWith g.readSpec) ∧
      last.specWith g.specOf = last.specWith g.readSpec := by
  obtain ⟨hnames, hspecs⟩ := foldl_pushed_header (head_strip hroot hlines)
  rw [h] at hnames hspecs
  -- The blocks have the names of the classes in the order of discovery, so they are those classes.
  have hheaders : (before.map Line.strip ++ [last]).filterMap Line.headerOf =
      (g.order root).map g.nameOf := by
    have hstrip : (before.map Line.strip ++ [last]).filterMap Line.headerOf =
        (g.lines root).filterMap Line.headerOf := by
      rw [hlines, List.filterMap_append, List.filterMap_append, List.filterMap_map]
      exact congrArg (· ++ _) (List.filterMap_congr fun l _ => headerOf_strip l)
    rw [hstrip, filterMap_lines, List.map_eq_flatMap]
    exact List.flatMap_congr fun id _ => filterMap_headerOf id
  obtain rfl : ids = g.order root := by
    refine eq_of_map_eq (fun id hid id' hid' hn => ?_) ?_ (f := g.nameOf)
    · exact hg.distinct id id' (((hids id).1 hid).isClass hroot) (isClass_of_mem_order hroot hid') hn
    · rw [← hheaders, ← hnames, List.map_map]
      rfl
  have hall : ((g.order root).map g.specBlock).flatMap Prod.snd =
      (g.lines root).filterMap (Line.specWith g.specOf) := by
    rw [filterMap_lines, List.flatMap_map]
    exact List.flatMap_congr fun id _ => (filterMap_specWith g.specOf id).symm
  have hsome (l : Line F) : (l.specWith g.specOf).isSome = (l.strip.specWith g.readSpec).isSome := by
    cases l with
    | header name => rfl
    | field name shape => cases shape <;> rfl
  have hpairs := eq_of_filterMap_eq (l := before.map (fun l => (l, l.strip)) ++ [(last, last)])
    (p := fun pair => pair.1.specWith g.specOf) (q := fun pair => pair.2.specWith g.readSpec) ?_ ?_
  · obtain ⟨hb, hl⟩ := List.forall_mem_append.1 hpairs
    exact ⟨List.forall_mem_map.1 hb, hl (last, last) (List.mem_singleton_self _)⟩
  · refine List.forall_mem_append.2 ⟨List.forall_mem_map.2 fun l _ => hsome l, ?_⟩
    refine List.forall_mem_singleton.2 ?_
    cases last <;> rfl
  · rw [hspecs, hlines] at hall
    rw [List.filterMap_append, List.filterMap_append, List.filterMap_map, List.filterMap_map]
    rw [List.filterMap_append, List.filterMap_append, List.filterMap_map] at hall
    exact hall.symm

theorem patternsSurvive_of_roundTrips [LawfulF64 F] (hg : g.WellFormed) (hroot : g.IsClass root)
    (h : g.RoundTrips root (parseSchemaBlocks (g.schemaOf root))) : g.PatternsSurvive root := by
  obtain ⟨ids, -, -, hids, hblocks⟩ := h
  obtain ⟨before, last, hlines⟩ := lines_concat hroot
  -- A pattern that is read has no line feed in it, and every pattern of the graph is read.
  have hfeed : ∀ l ∈ g.lines root, ∀ regex, l.regex = some regex → '\n' ∉ regex := by
    intro l hl regex hr
    obtain ⟨id, hid, hl⟩ := List.mem_flatMap.1 hl
    rcases List.mem_cons.1 hl with rfl | hl
    · cases hr
    · obtain ⟨⟨name, shape⟩, hf, rfl⟩ := List.mem_map.1 hl
      cases shape with
      | pattern regex' =>
        cases hr
        have hblock : g.specBlock id ∈ (parseSchemaBlocks (g.schemaOf root)).blocks := by
          rw [hblocks]
          exact List.mem_map_of_mem ((hids id).2 (((order_spec hroot).2.2 id).1 hid))
        exact feedFree_parseSchemaBlocks _ _ hblock _ (List.mem_map_of_mem hf) regex rfl
      | _ => cases hr
  rw [parse_schemaOf hg hroot hlines hfeed] at hblocks
  obtain ⟨hbefore, hlast⟩ := spec_eq_of_roundTrips hg hroot hids hlines hblocks
  have hkeep : ∀ l ∈ before, ∀ regex, l.regex = some regex →
      some regex = (some (Text.stripCr regex)).filter fun s => !s.isEmpty := by
    intro l hl regex hr
    cases l with
    | header name => cases hr
    | field name shape =>
      cases shape with
      | pattern regex' =>
        cases hr
        exact congrArg FieldSpecOf.pattern (Option.some.inj (hbefore _ hl))
      | _ => cases hr
  have hend : ∀ regex, last.regex = some regex →
      some regex = (some regex).filter fun s => !s.isEmpty := by
    intro regex hr
    cases last with
    | header name => cases hr
    | field name shape =>
      cases shape with
      | pattern regex' =>
        cases hr
        exact congrArg FieldSpecOf.pattern (Option.some.inj hlast)
      | _ => cases hr
  refine ⟨fun l hl regex hr => ⟨?_, hfeed l hl regex hr⟩, fun l hl regex hr => ?_⟩
  · rintro rfl
    rw [hlines] at hl
    rcases List.mem_append.1 hl with hl | hl
    · cases hkeep l hl [] hr
    · obtain rfl := List.mem_singleton.1 hl
      cases hend [] hr
  · rw [hlines, List.dropLast_concat] at hl
    obtain ⟨hs, -⟩ := Option.filter_eq_some_iff.1 (hkeep l hl regex hr).symm
    exact Text.stripCr_eq_self.1 (Option.some.inj hs)

theorem isClass_of_bodyClass (hg : g.WellFormed) {lookupTy : DefId → Ty} {posArgs : List Hir.Expr}
    (h : g.bodyClass lookupTy posArgs = some root) : g.IsClass root := by
  have hf : (g.fieldsOf root).isSome := by
    unfold bodyClass at h
    split at h
    · split at h
      · split at h
        · split at h
          · rename_i hf
            obtain rfl := Option.some.inj h
            exact hf
          · cases h
        · cases h
      · cases h
    · cases h
  exact ⟨hf, hg.named root hf⟩

theorem descriptor_round_trip_iff [LawfulF64 F] (hg : g.WellFormed) {lookupTy : DefId → Ty}
    {posArgs : List Hir.Expr} (hbody : g.bodyClass lookupTy posArgs = some root) :
    g.RoundTrips root (parseSchemaBlocks (g.validatedBodySchemaForHandler lookupTy posArgs)) ↔
      g.PatternsSurvive root := by
  have hroot := isClass_of_bodyClass hg hbody
  rw [validatedBodySchemaForHandler, hbody, Option.map_some, Option.getD_some]
  exact ⟨patternsSurvive_of_roundTrips hg hroot, roundTrips_of_patternsSurvive hg hroot⟩

/-- The whole numbers among the floats. -/
def Whole := Int

instance : F64 Whole where
  display := Text.displayInt
  parse := Text.parseInt
  lt := fun (a b : Int) => decide (a < b)
  isFinite _ := true
  ofInt n := n

instance : LawfulF64 Whole where
  parse_display x _ := Text.parseInt_displayInt x
  parse_nil := rfl
  display_chars _ _ _ hc := (Text.mem_displayInt hc).imp_right .inl

/-- A class `Node` with a label, a list of further nodes and a score. -/
def nodeTable (regex : Text) : ClassTable Whole where
  adtFields := [(0, [("label".toList, .str), ("next".toList, .list (.adt 0 [])),
    ("score".toList, .float)])]
  adtNames id := if id = 0 then some "Node".toList else none
  adtRefinements _ field :=
    if field = "label".toList then some (.pattern regex)
    else if field = "score".toList then some (.floatRange (some (0 : Int)) (some (100 : Int)))
    else none

theorem isClass_nodeTable {regex : Text} {id : AdtId} (h : (nodeTable regex).IsClass id) : id = 0 := by
  by_contra hne
  have hlookup : (nodeTable regex).adtFields.lookup id = none :=
    List.lookup_eq_none_iff.2 fun p hp => by
      rw [List.mem_singleton.1 hp]
      exact bne_iff_ne.2 hne
  obtain ⟨hfields, -⟩ := h
  rw [fieldsOf, hlookup] at hfields
  cases hfields

theorem fieldsOf_nodeTable {regex : Text} {id : AdtId} {fields : List (Text × Ty)}
    (h : (nodeTable regex).fieldsOf id = some fields) :
    id = 0 ∧ fields = [("label".toList, .str), ("next".toList, .list (.adt 0 [])),
      ("score".toList, .float)] := by
  obtain ⟨before, after, he, -⟩ := List.lookup_eq_some_iff.1 h
  cases before with
  | nil =>
    cases he
    exact ⟨rfl, rfl⟩
  | cons row before => cases (List.append_eq_nil_iff.1 (List.cons.inj he).2.symm).2

theorem wellFormed_nodeTable (regex : Text) : (nodeTable regex).WellFormed where
  named id h := by
    obtain ⟨fields, hf⟩ := Option.isSome_iff_exists.1 h
    obtain ⟨rfl, -⟩ := fieldsOf_nodeTable hf
    rfl
  name id h := by
    obtain rfl := isClass_nodeTable h
    change IsIdentifier "Node".toList
    exact ⟨by decide, by simp [Text.isWhitespace]⟩
  distinct id id' h h' _ := (isClass_nodeTable h).trans (isClass_nodeTable h').symm
  field id fields h := by
    obtain ⟨rfl, rfl⟩ := fieldsOf_nodeTable h
    exact ⟨by decide, by simp [IsIdentifier, Text.isWhitespace]⟩
  attachable id fields h field hf r hr := by
    obtain ⟨rfl, rfl⟩ := fieldsOf_nodeTable h
    simp only [List.mem_cons, List.not_mem_nil, or_false] at hf
    rcases hf with rfl | rfl | rfl
    · cases hr
      rfl
    · cases hr
    · cases hr
      exact ⟨rfl, fun _ _ => rfl⟩
  adt id fields h field hf n args ha := by
    obtain ⟨rfl, rfl⟩ := fieldsOf_nodeTable h
    simp only [List.mem_cons, List.not_mem_nil, or_false] at hf
    rcases hf with rfl | rfl | rfl <;> cases ha

/-- `app.route_validated(method, path, handler)`, with a handler whose second parameter is a node. -/
def nodeArgs : List Hir.Expr :=
  let arg (kind : Hir.ExprKind) : Hir.Expr := .mk kind (Span.point 0 0)
  [arg (.lit (.str "POST")), arg (.lit (.str "/nodes")), arg (.name ⟨"handler", 7, .fn⟩)]

def nodeHandlerTy (_ : DefId) : Ty :=
  .fn [.none, .adt 0 []] [] none none .none

theorem nodeTable_round_trip :
    (nodeTable "a:\t# b".toList).RoundTrips 0 (parseSchemaBlocks
      ((nodeTable "a:\t# b".toList).validatedBodySchemaForHandler nodeHandlerTy nodeArgs)) := by
  have hlines : (nodeTable "a:\t# b".toList).lines 0 = [.header "Node".toList,
      .field "label".toList (.pattern "a:\t# b".toList), .field "next".toList (.list (.cls 0)),
      .field "score".toList (.f64 (some ⟨some (0 : Int), some (100 : Int)⟩))] := rfl
  refine (descriptor_round_trip_iff (wellFormed_nodeTable _) rfl).2 ⟨?_, ?_⟩
  · rw [hlines]
    simp [Line.regex]
  · rw [hlines]
    simp [Line.regex]

/-- The pattern `a<line feed>b`: what is read back is not the graph. -/
theorem nodeTable_loses_pattern :
    (nodeTable "a\nb".toList).WellFormed ∧
    (nodeTable "a\nb".toList).bodyClass nodeHandlerTy nodeArgs = some 0 ∧
    ¬ (nodeTable "a\nb".toList).RoundTrips 0 (parseSchemaBlocks
      ((nodeTable "a\nb".toList).validatedBodySchemaForHandler nodeHandlerTy nodeArgs)) := by
  refine ⟨wellFormed_nodeTable _, rfl, fun h => ?_⟩
  have hs := patternsSurvive_of_roundTrips (wellFormed_nodeTable _) (by decide) h
  have hline : Line.field "label".toList (.pattern "a\nb".toList) ∈ (nodeTable "a\nb".toList).lines 0 :=
    .tail _ (.head _)
  exact absurd (hs.plain _ hline _ rfl).2 (by decide)

end RoundTrip

end ClassTable

end Cobrust
