import Cobrust.Pkg.ManifestRead

/-!
# The canonical text of a manifest as a document

* `canonicalToml_toList`: the canonical text is the text of a document, whose strings are written as they are
  or with `quoteEncoder`.
* `decodes_document`: the strings of the document are written as they should be if the manifest is `Plain`.
-/

namespace Cobrust.Pkg

open Cobrust.Store (SortedRows)
open Cobrust.Toml

variable {Req : Type} (c : Crates Req)

def quoteEncoder : Encoder where
  encode d := if d = '\\' then ['\\', '\\'] else if d = '"' then ['\\', '"'] else [d]
  lawful d := by
    split_ifs with hbackslash hquote
    · subst hbackslash
      exact .inr ⟨['\\'], rfl, .backslash⟩
    · subst hquote
      exact .inr ⟨['"'], rfl, .quote⟩
    · exact .inl ⟨rfl, hquote, hbackslash⟩

theorem toList_replaceChar (s : String) (d : Char) (r : String) :
    (replaceChar s d r).toList = s.toList.flatMap fun e => if e = d then r.toList else [e] := by
  rw [replaceChar, String.toList_ofList]

theorem toList_escapeQuotes (s : String) : (escapeQuotes s).toList = quoteEncoder.write s.toList := by
  rw [escapeQuotes, toList_replaceChar, toList_replaceChar, List.flatMap_assoc, Encoder.write]
  refine congrArg (List.flatMap · s.toList) (funext fun d => ?_)
  by_cases hbackslash : d = '\\'
  · subst hbackslash
    decide
  · by_cases hquote : d = '"'
    · subst hquote
      decide
    · simp [quoteEncoder, hbackslash, hquote]

def PackageTable.rows (p : PackageTable) : List (String × Entry) :=
  [("name", .string (.plain p.name)), ("version", .string (.plain p.version)),
    ("cobrust-version", .string (.plain p.cobrustVersion))] ++
  (if p.authors.isEmpty then [] else [("authors", .strings (p.authors.map quoteEncoder.written))]) ++
  (p.license.toList.map fun license => ("license", .string (.plain license))) ++
  p.description.toList.map fun description => ("description", .string (quoteEncoder.written description))

def DependencySpec.entry : DependencySpec Req → Entry
  | .version req => .string (.plain (c.displayReq req))
  | .path p => .inline [("path", .plain p)]
  | .git url rev => .inline [("git", .plain url), ("rev", .plain rev)]
  | .registry req r => .inline [("version", .plain (c.displayReq req)), ("registry", .plain r)]

def dependencySection (name : String) (rows : List (String × Dependency Req)) : List Section :=
  if rows.isEmpty then [] else [.table true name (rows.map fun row => (row.1, row.2.spec.entry c))]

def TargetTable.rows (t : TargetTable) : List (String × Entry) :=
  [("name", .string (.plain t.name)), ("path", .string (.plain t.path))]

def targetSection (name : String) (t : Option TargetTable) : List Section :=
  t.toList.map fun t => .table true name t.rows

def Manifest.document (m : Manifest Req) : Document where
  comments := []
  sections := [.table false "package" m.package.rows] ++ dependencySection c "dependencies" m.dependencies ++
    dependencySection c "dev-dependencies" m.devDependencies ++ targetSection "bin" m.bin ++
    targetSection "lib" m.lib ++ [.tables "test" (m.tests.map TargetTable.rows)]

/-! ## Its text -/

variable {path : List Step}

theorem chars_string (w : Written) : chars [.string path w] = '"' :: (w.raw ++ ['"']) := by
  simp [chars, Piece.chars]

theorem chars_quotedRow (key text : String) (w : Written) (hraw : w.raw = text.toList) :
    chars (rowPieces path (key, .string w)) = (quotedRow key text).toList := by
  rw [rowPieces, chars_append, chars_append, chars_text, chars_text, Entry.pieces, chars_string, hraw, quotedRow]
  simp

theorem chars_items {enc : Encoder} {escape : String → String} (h : ∀ a, (escape a).toList = enc.write a.toList)
    (i : Nat) (texts : List String) :
    chars (itemPieces path i (texts.map enc.written)) =
      (commaSeparated (texts.map fun a => "\"" ++ escape a ++ "\"")).toList := by
  induction texts generalizing i with
  | nil => rfl
  | cons a texts ih =>
    cases texts with
    | nil =>
      rw [List.map_cons, List.map_nil, itemPieces, chars_string]
      simp [commaSeparated, h, Encoder.written]
    | cons a' texts =>
      have hrest := ih (i + 1)
      rw [List.map_cons, List.map_cons] at hrest
      rw [List.map_cons, List.map_cons, itemPieces, List.map_cons, List.map_cons, commaSeparated]
      change chars ([_] ++ ([_] ++ itemPieces path (i + 1) _)) = _
      rw [chars_append, chars_append, hrest, chars_string, chars_text]
      simp [h, Encoder.written]

theorem chars_authors (authors : List String) :
    chars (tablePieces path (if authors.isEmpty then [] else [("authors", .strings (authors.map quoteEncoder.written))])) =
      (authorsRow authors).toList := by
  rw [authorsRow]
  split_ifs
  · rfl
  · rw [tablePieces, List.flatMap_singleton, rowPieces, Entry.pieces, chars_append, chars_append, chars_append,
      chars_append, chars_items toList_escapeQuotes]
    simp [chars_text]

theorem chars_package (p : PackageTable) :
    chars (tablePieces path p.rows) = (quotedRow "name" p.name ++ quotedRow "version" p.version ++
      quotedRow "cobrust-version" p.cobrustVersion ++ authorsRow p.authors ++ p.license.elim "" (quotedRow "license") ++
      p.description.elim "" fun d => quotedRow "description" (escapeQuotes d)).toList := by
  have hlicense : chars (tablePieces path (p.license.toList.map fun l => ("license", .string (.plain l)))) =
      (p.license.elim "" (quotedRow "license")).toList := by
    cases p.license with
    | none => rfl
    | some l => exact (congrArg chars (List.flatMap_singleton _ _)).trans (chars_quotedRow _ _ _ rfl)
  have hdescription : chars (tablePieces path
      (p.description.toList.map fun d => ("description", .string (quoteEncoder.written d)))) =
      (p.description.elim "" fun d => quotedRow "description" (escapeQuotes d)).toList := by
    cases p.description with
    | none => rfl
    | some d =>
      refine (congrArg chars (List.flatMap_singleton _ _)).trans (chars_quotedRow _ _ _ ?_)
      exact (toList_escapeQuotes d).symm
  have htable (a b : List (String × Entry)) : chars (tablePieces path (a ++ b)) =
      chars (tablePieces path a) ++ chars (tablePieces path b) := by
    rw [tablePieces, List.flatMap_append, chars_append]
    rfl
  rw [PackageTable.rows, htable, htable, htable, hlicense, hdescription, chars_authors]
  have hfixed : chars (tablePieces path [("name", .string (.plain p.name)), ("version", .string (.plain p.version)),
      ("cobrust-version", .string (.plain p.cobrustVersion))]) =
      (quotedRow "name" p.name ++ quotedRow "version" p.version ++ quotedRow "cobrust-version" p.cobrustVersion).toList := by
    change chars (rowPieces path _ ++ (rowPieces path _ ++ (rowPieces path _ ++ []))) = _
    rw [chars_append, chars_append, chars_append, chars_quotedRow _ _ _ rfl, chars_quotedRow _ _ _ rfl,
      chars_quotedRow _ _ _ rfl]
    simp [chars]
  rw [hfixed]
  simp only [String.toList_append]

theorem chars_spec (spec : DependencySpec Req) :
    chars ((spec.entry c).pieces path) = (spec.toCanonical c).toList := by
  unfold DependencySpec.toCanonical
  cases spec with
  | version req => simp [DependencySpec.entry, Entry.pieces, chars_string, Written.plain]
  | path p => simp [DependencySpec.entry, Entry.pieces, inlinePieces, chars, Piece.chars, Written.plain]
  | git url rev => simp [DependencySpec.entry, Entry.pieces, inlinePieces, chars, Piece.chars, Written.plain]
  | registry req r => simp [DependencySpec.entry, Entry.pieces, inlinePieces, chars, Piece.chars, Written.plain]

theorem chars_dependencies {name header : String} (h : header.toList = '[' :: (name.toList ++ [']']))
    (rows : List (String × Dependency Req)) :
    chars ((dependencySection c name rows).flatMap Section.pieces) = (dependenciesText c header rows).toList := by
  rw [dependencySection, dependenciesText]
  split_ifs
  · rfl
  · have hrows : chars (tablePieces [.key name] (rows.map fun row => (row.1, row.2.spec.entry c))) =
        (String.join (rows.map (dependencyRow c))).toList := by
      rw [String.toList_join, tablePieces, chars, List.flatMap_assoc, List.flatMap_map, List.flatMap_map]
      refine congrArg (List.flatMap · rows) (funext fun row => ?_)
      change chars (rowPieces _ _) = _
      rw [rowPieces, chars_append, chars_append, chars_spec, chars_text, chars_text, dependencyRow]
      simp
    rw [List.flatMap_singleton, Section.pieces, chars_append, chars_text, hrows]
    simp [h]

theorem chars_target (t : TargetTable) :
    chars (tablePieces path t.rows) = (quotedRow "name" t.name ++ quotedRow "path" t.path).toList := by
  change chars (rowPieces path _ ++ (rowPieces path _ ++ [])) = _
  rw [chars_append, chars_append, chars_quotedRow _ _ _ rfl, chars_quotedRow _ _ _ rfl]
  simp [chars]

theorem chars_targetSection {name header : String} (h : header.toList = '[' :: (name.toList ++ [']']))
    (t : Option TargetTable) :
    chars ((targetSection name t).flatMap Section.pieces) = (t.elim "" (TargetTable.text header)).toList := by
  cases t with
  | none => rfl
  | some t =>
    rw [targetSection, Option.toList_some, List.map_singleton, List.flatMap_singleton, Section.pieces, chars_append,
      chars_text, chars_target, Option.elim, TargetTable.text]
    simp [h]

theorem chars_tests (i : Nat) (tests : List TargetTable) :
    chars (elementPieces "test" i (tests.map TargetTable.rows)) =
      (String.join (tests.map (TargetTable.text "[[test]]"))).toList := by
  induction tests generalizing i with
  | nil => simp [chars, elementPieces]
  | cons t tests ih =>
    rw [List.map_cons, List.map_cons, elementPieces, chars_append, chars_append, chars_text, chars_target, ih (i + 1),
      String.join_cons, TargetTable.text]
    simp

/-- The canonical text of a manifest is the text of its document. -/
theorem canonicalToml_toList (m : Manifest Req) : (m.canonicalToml c).toList = (m.document c).chars := by
  have hsections (a b : List Section) : chars ((a ++ b).flatMap Section.pieces) =
      chars (a.flatMap Section.pieces) ++ chars (b.flatMap Section.pieces) := by
    rw [List.flatMap_append, chars_append]
  have hpackage : chars ([Section.table false "package" m.package.rows].flatMap Section.pieces) =
      ("[package]\n" ++ (quotedRow "name" m.package.name ++ quotedRow "version" m.package.version ++
        quotedRow "cobrust-version" m.package.cobrustVersion ++ authorsRow m.package.authors ++
        m.package.license.elim "" (quotedRow "license") ++
        m.package.description.elim "" fun d => quotedRow "description" (escapeQuotes d))).toList := by
    rw [List.flatMap_singleton, Section.pieces, chars_append, chars_text, chars_package, String.toList_append]
    simp
  have htests : chars ([Section.tables "test" (m.tests.map TargetTable.rows)].flatMap Section.pieces) =
      (String.join (m.tests.map (TargetTable.text "[[test]]"))).toList := by
    rw [List.flatMap_singleton, Section.pieces, chars_tests]
  have hdeps : ("[dependencies]" : String).toList = '[' :: ("dependencies".toList ++ [']']) := by simp
  have hdev : ("[dev-dependencies]" : String).toList = '[' :: ("dev-dependencies".toList ++ [']']) := by simp
  have hbin : ("[bin]" : String).toList = '[' :: ("bin".toList ++ [']']) := by simp
  have hlib : ("[lib]" : String).toList = '[' :: ("lib".toList ++ [']']) := by simp
  have hchars : (m.document c).chars = chars ((m.document c).sections.flatMap Section.pieces) := rfl
  rw [hchars, Manifest.document, hsections, hsections, hsections, hsections, hsections, hpackage, htests,
    chars_dependencies c hdeps, chars_dependencies c hdev, chars_targetSection hbin, chars_targetSection hlib]
  unfold Manifest.canonicalToml
  simp only [String.toList_append, List.append_assoc]

/-! ## When it is written as it should be -/

/-- A text without control characters other than tabs. -/
def IsPrintable (text : String) : Prop :=
  ∀ d ∈ text.toList, d = '"' ∨ d = '\\' ∨ unescaped d = true

def DependencySpec.Plain : DependencySpec Req → Prop
  | .version _ => True
  | .path p => IsPlain p
  | .git url rev => IsPlain url ∧ IsPlain rev
  | .registry _ r => IsPlain r

def TargetTable.Plain (t : TargetTable) : Prop :=
  IsPlain t.name ∧ IsPlain t.path

instance : DecidablePred IsPrintable :=
  fun text => List.decidableBAll (fun d => d = '"' ∨ d = '\\' ∨ unescaped d = true) text.toList

instance : DecidablePred (DependencySpec.Plain : DependencySpec Req → Prop)
  | .version _ => inferInstanceAs (Decidable True)
  | .path p => inferInstanceAs (Decidable (IsPlain p))
  | .git url rev => inferInstanceAs (Decidable (IsPlain url ∧ IsPlain rev))
  | .registry _ r => inferInstanceAs (Decidable (IsPlain r))

instance : DecidablePred TargetTable.Plain :=
  fun t => inferInstanceAs (Decidable (IsPlain t.name ∧ IsPlain t.path))

/-- No text of the manifest needs an escape that it is not written with. -/
structure Manifest.Plain (m : Manifest Req) : Prop where
  authors : ∀ author ∈ m.package.authors, IsPrintable author
  license : ∀ license ∈ m.package.license, IsPlain license
  description : ∀ description ∈ m.package.description, IsPrintable description
  dependencies : ∀ row ∈ m.dependencies, row.2.spec.Plain
  devDependencies : ∀ row ∈ m.devDependencies, row.2.spec.Plain
  bin : ∀ t ∈ m.bin, t.Plain
  lib : ∀ t ∈ m.lib, t.Plain
  tests : ∀ t ∈ m.tests, t.Plain

theorem covers_quoteEncoder {text : String} : quoteEncoder.Covers text.toList ↔ IsPrintable text := by
  refine forall₂_congr fun d _ => ?_
  by_cases hbackslash : d = '\\'
  · simp [quoteEncoder, hbackslash]
  · by_cases hquote : d = '"'
    · simp [quoteEncoder, hquote]
    · simp [quoteEncoder, hbackslash, hquote]

theorem decodes_quoted {text : String} : (quoteEncoder.written text).Decodes ↔ IsPrintable text :=
  decodes_written.trans covers_quoteEncoder

theorem decodes_package {p : PackageTable} :
    (Section.table false "package" p.rows).All Written.Decodes ↔
      (IsPlain p.name ∧ IsPlain p.version ∧ IsPlain p.cobrustVersion) ∧
      (∀ author ∈ p.authors, IsPrintable author) ∧ (∀ license ∈ p.license, IsPlain license) ∧
      ∀ description ∈ p.description, IsPrintable description := by
  have hauthors : (∀ row ∈ (if p.authors.isEmpty then [] else
      [("authors", Entry.strings (p.authors.map quoteEncoder.written))]), row.2.All Written.Decodes) ↔
      ∀ author ∈ p.authors, IsPrintable author := by
    split_ifs with h
    · simp [List.isEmpty_iff.1 h]
    · simp [Entry.All, decodes_quoted]
  rw [Section.All, PackageTable.rows]
  simp only [List.forall_mem_append, hauthors]
  simp [Entry.All, decodes_plain, decodes_quoted, and_assoc]

theorem decodes_spec {spec : DependencySpec Req} (h : ∀ req, spec.req? = some req → IsPlain (c.displayReq req)) :
    (spec.entry c).All Written.Decodes ↔ spec.Plain := by
  cases spec with
  | version req => simpa [DependencySpec.entry, Entry.All, DependencySpec.Plain, decodes_plain] using h req rfl
  | path p => simp [DependencySpec.entry, Entry.All, DependencySpec.Plain, decodes_plain]
  | git url rev => simp [DependencySpec.entry, Entry.All, DependencySpec.Plain, decodes_plain]
  | registry req r =>
    have hreq := h req rfl
    simp [DependencySpec.entry, Entry.All, DependencySpec.Plain, decodes_plain, hreq]

theorem decodes_dependencies {name : String} {rows : List (String × Dependency Req)}
    (h : ∀ row ∈ rows, ∀ req, row.2.spec.req? = some req → IsPlain (c.displayReq req)) :
    (∀ s ∈ dependencySection c name rows, s.All Written.Decodes) ↔ ∀ row ∈ rows, row.2.spec.Plain := by
  rw [dependencySection]
  split_ifs with hempty
  · simp [List.isEmpty_iff.1 hempty]
  · rw [List.forall_mem_singleton, Section.All, List.forall_mem_map]
    exact forall₂_congr fun row hrow => decodes_spec c (h row hrow)

theorem decodes_target {t : TargetTable} : (∀ row ∈ t.rows, row.2.All Written.Decodes) ↔ t.Plain := by
  simp [TargetTable.rows, Entry.All, decodes_plain, TargetTable.Plain]

theorem decodes_targetSection {name : String} {t : Option TargetTable} :
    (∀ s ∈ targetSection name t, s.All Written.Decodes) ↔ ∀ t' ∈ t, t'.Plain := by
  cases t with
  | none => simp [targetSection]
  | some t =>
    rw [targetSection, Option.toList_some, List.map_singleton, List.forall_mem_singleton, Section.All,
      decodes_target]
    simp

theorem decodes_tests {tests : List TargetTable} :
    (Section.tables "test" (tests.map TargetTable.rows)).All Written.Decodes ↔ ∀ t ∈ tests, t.Plain := by
  rw [Section.All, List.forall_mem_map]
  exact forall₂_congr fun t _ => decodes_target

/-- The strings of the document are written as they should be if no text of the manifest needs an escape that
it is not written with. -/
theorem decodes_document (hlaws : c.Laws) {m : Manifest Req} (h : m.Valid c) : (m.document c).Decodes ↔ m.Plain := by
  have hreq {rows : List (String × Dependency Req)} (hrows : ∀ row ∈ rows, ValidRow c row) :
      ∀ row ∈ rows, ∀ req, row.2.spec.req? = some req → IsPlain (c.displayReq req) := by
    intro row hrow req hsome
    obtain ⟨s, hs⟩ := (hrows row hrow).2.2 req hsome
    exact hlaws.req_plain s req hs
  have hfixed : IsPlain m.package.name ∧ IsPlain m.package.version ∧ IsPlain m.package.cobrustVersion :=
    ⟨plain_of_bare (bare_of_validateName h.name), hlaws.version_plain _ h.version, hlaws.version_plain _ h.cobrustVersion⟩
  rw [decodes_iff, Manifest.document]
  simp only [List.forall_mem_append, List.forall_mem_singleton, decodes_package, decodes_tests, decodes_targetSection,
    decodes_dependencies c (hreq h.dependencies), decodes_dependencies c (hreq h.devDependencies)]
  constructor
  · rintro ⟨⟨⟨⟨⟨⟨-, hauthors, hlicense, hdescription⟩, hdeps⟩, hdev⟩, hbin⟩, hlib⟩, htests⟩
    exact ⟨hauthors, hlicense, hdescription, hdeps, hdev, hbin, hlib, htests⟩
  · rintro ⟨hauthors, hlicense, hdescription, hdeps, hdev, hbin, hlib, htests⟩
    exact ⟨⟨⟨⟨⟨⟨hfixed, hauthors, hlicense, hdescription⟩, hdeps⟩, hdev⟩, hbin⟩, hlib⟩, htests⟩

theorem wellFormed_package (p : PackageTable) : RowsWellFormed p.rows := by
  have hrows : p.rows.map Prod.fst = ["name", "version", "cobrust-version"] ++
      (if p.authors.isEmpty then [] else ["authors"]) ++ (p.license.toList.map fun _ => "license") ++
      p.description.toList.map fun _ => "description" := by
    rw [PackageTable.rows]
    split_ifs <;> simp [Function.comp_def]
  have hauthors : (if p.authors.isEmpty then [] else ["authors"]).Sublist ["authors"] := by
    split_ifs <;> simp
  have hlicense : (p.license.toList.map fun _ => "license").Sublist ["license"] := by
    cases p.license <;> simp
  have hdescription : (p.description.toList.map fun _ => "description").Sublist ["description"] := by
    cases p.description <;> simp
  have hsub := (((List.Sublist.refl ["name", "version", "cobrust-version"]).append hauthors).append hlicense).append
    hdescription
  rw [← hrows] at hsub
  refine ⟨keys_of_sublist hsub (by decide) (by decide), ?_⟩
  rw [PackageTable.rows]
  simp only [List.forall_mem_append, List.forall_mem_cons, List.forall_mem_map]
  refine ⟨⟨⟨⟨trivial, trivial, trivial, fun _ h => absurd h List.not_mem_nil⟩, ?_⟩, fun _ _ => trivial⟩, fun _ _ => trivial⟩
  split_ifs
  · exact fun _ h => absurd h List.not_mem_nil
  · exact List.forall_mem_singleton.2 trivial

theorem wellFormed_target (t : TargetTable) : RowsWellFormed t.rows :=
  ⟨keys_of_sublist (List.Sublist.refl ["name", "path"]) (by decide) (by decide),
    List.forall_mem_cons.2 ⟨trivial, List.forall_mem_singleton.2 trivial⟩⟩

theorem wellFormed_spec (spec : DependencySpec Req) : (spec.entry c).WellFormed := by
  cases spec with
  | version req => trivial
  | path p => exact keys_of_sublist (List.Sublist.refl ["path"]) (by decide) (by decide)
  | git url rev => exact keys_of_sublist (List.Sublist.refl ["git", "rev"]) (by decide) (by decide)
  | registry req r => exact keys_of_sublist (List.Sublist.refl ["version", "registry"]) (by decide) (by decide)

theorem wellFormed_dependencies {rows : List (String × Dependency Req)} (hsorted : SortedRows rows)
    (hrows : ∀ row ∈ rows, ValidRow c row) : RowsWellFormed (rows.map fun row => (row.1, row.2.spec.entry c)) := by
  refine ⟨⟨?_, ?_⟩, ?_⟩
  · rw [List.map_map]
    exact hsorted.imp fun hlt => hlt.ne
  · exact List.forall_mem_map.2 fun row hrow => bare_of_validateName (hrows row hrow).2.1
  · exact List.forall_mem_map.2 fun row _ => wellFormed_spec c row.2.spec

theorem name_dependencySection (name : String) (rows : List (String × Dependency Req)) :
    ((dependencySection c name rows).map Section.name).Sublist [name] := by
  rw [dependencySection]
  split_ifs
  · exact List.nil_sublist _
  · exact List.Sublist.refl _

theorem name_targetSection (name : String) (t : Option TargetTable) :
    ((targetSection name t).map Section.name).Sublist [name] := by
  cases t with
  | none => exact List.nil_sublist _
  | some t => exact List.Sublist.refl _

/-- The document of a valid manifest keeps to TOML, but for what its strings hold. -/
theorem wellFormed_document {m : Manifest Req} (h : m.Valid c) : (m.document c).WellFormed where
  comments := fun _ hmem => absurd hmem List.not_mem_nil
  names := by
    have hsub := ((((((List.Sublist.refl ["package"]).append (name_dependencySection c "dependencies" m.dependencies)).append
      (name_dependencySection c "dev-dependencies" m.devDependencies)).append (name_targetSection "bin" m.bin)).append
      (name_targetSection "lib" m.lib)).append (List.Sublist.refl ["test"]))
    rw [Manifest.document]
    simp only [List.map_append]
    exact hsub.nodup (by decide)
  sections := by
    have hdeps {name : String} {rows : List (String × Dependency Req)} (hbare : isBareKey name = true)
        (hwf : RowsWellFormed (rows.map fun row => (row.1, row.2.spec.entry c))) :
        ∀ s ∈ dependencySection c name rows, s.WellFormed := by
      rw [dependencySection]
      split_ifs
      · exact fun _ hmem => absurd hmem List.not_mem_nil
      · exact List.forall_mem_singleton.2 ⟨hbare, hwf⟩
    have htarget {name : String} (hbare : isBareKey name = true) (t : Option TargetTable) :
        ∀ s ∈ targetSection name t, s.WellFormed :=
      List.forall_mem_map.2 fun t _ => ⟨hbare, wellFormed_target t⟩
    rw [Manifest.document]
    simp only [List.forall_mem_append, List.forall_mem_singleton]
    exact ⟨⟨⟨⟨⟨⟨by decide, wellFormed_package m.package⟩,
      hdeps (by decide) (wellFormed_dependencies c h.sorted h.dependencies)⟩,
      hdeps (by decide) (wellFormed_dependencies c h.devSorted h.devDependencies)⟩, htarget (by decide) m.bin⟩,
      htarget (by decide) m.lib⟩, by decide, List.forall_mem_map.2 fun t _ => wellFormed_target t⟩

end Cobrust.Pkg
