import Cobrust.Pkg.Lockfile
import Cobrust.Pkg.ManifestRoundTrip

/-!
# The round trip of lockfiles

* `toCanonicalToml_toList`: the canonical text of a lockfile is the text of a document.
* `lockfile_roundTrip_iff`: the canonical text of a sorted lockfile is parsed to it if and only if the lockfile is
  plain.
-/

namespace Cobrust.Pkg

open Cobrust.Store (sortRows)
open Cobrust.Toml

variable {Req : Type} {c : Crates Req}

theorem hexDigit_digitChar : ∀ d < 16, hexDigit (Nat.digitChar d) = some d := by
  decide

theorem hexValue_hex4 {n : Nat} (h : n < 65536) : hexValue 0 (hex4 n) = some n := by
  have hdigit (m : Nat) : hexDigit (Nat.digitChar (m % 16)) = some (m % 16) :=
    hexDigit_digitChar _ (Nat.mod_lt _ (by decide))
  simp only [hex4, List.map_cons, List.map_nil, hexValue, hdigit, Option.bind_some, Option.some.injEq]
  omega

def lockEncoder : Encoder where
  encode := escapeChar
  lawful d := by
    unfold escapeChar
    split
    · exact .inr ⟨['\\'], rfl, .backslash⟩
    · exact .inr ⟨['"'], rfl, .quote⟩
    · exact .inr ⟨['n'], rfl, .newline⟩
    · exact .inr ⟨['r'], rfl, .carriageReturn⟩
    · exact .inr ⟨['t'], rfl, .tab⟩
    · split_ifs with hlow
      · exact .inr ⟨'u' :: hex4 d.toNat, rfl, .short rfl (hexValue_hex4 (by omega))⟩
      · exact .inl ⟨rfl, ‹_›, ‹_›⟩

theorem toList_escapeStr (s : String) : (escapeStr s).toList = lockEncoder.write s.toList := by
  rw [escapeStr, String.toList_ofList]
  rfl

/-- All characters are written as they should be but U+007F. -/
theorem covers_lockEncoder {text : String} : lockEncoder.Covers text.toList ↔ '\x7f' ∉ text.toList := by
  constructor
  · intro h hmem
    exact absurd (h _ hmem (by decide)) (by decide)
  · intro h d hd hself
    have hd7f : d.toNat ≠ 0x7f := by
      intro heq
      have hchar : d = '\x7f' := Char.toNat_inj.1 heq
      exact h (hchar ▸ hd)
    change escapeChar d = [d] at hself
    unfold escapeChar at hself
    split at hself
    · cases hself
    · cases hself
    · cases hself
    · cases hself
    · cases hself
    · split_ifs at hself with hlow
      · cases hself
      · have hquote : d ≠ '"' := ‹_›
        have hbackslash : d ≠ '\\' := ‹_›
        simp [unescaped, hquote, hbackslash, hd7f, Nat.le_of_not_lt hlow]

/-! ## The document -/

def LockfileMetadata.rows (m : LockfileMetadata) : List (String × Entry) :=
  [("manifest_hash", .string (.plain m.manifestHash)), ("lockfile_version", .integer m.lockfileVersion.toNat)]

def LockfilePackage.rows (p : LockfilePackage) : List (String × Entry) :=
  [("name", .string (lockEncoder.written p.name)), ("version", .string (lockEncoder.written p.version)),
    ("source", .string (lockEncoder.written p.source)), ("hash", .string (lockEncoder.written p.hash))] ++
  (p.provenanceHash.toList.map fun h => ("provenance_hash", .string (lockEncoder.written h))) ++
  [("dependencies", .strings ((sortTexts p.dependencies).map lockEncoder.written))]

def lockComments : List String :=
  [" cobrust.lock — auto-generated by `cobrust build`. Do not edit.", " Determinism contract: ADR-0026 §C."]

def Lockfile.document (lock : Lockfile) : Document where
  comments := lockComments
  sections := [.table true "metadata" lock.metadata.rows, .tables "package" (lock.packages.map LockfilePackage.rows)]

variable {path : List Step}

theorem chars_escaped (key text : String) :
    chars (rowPieces path (key, .string (lockEncoder.written text))) = (quotedRow key (escapeStr text)).toList :=
  chars_quotedRow _ _ _ (toList_escapeStr text).symm

theorem chars_table (a b : List (String × Entry)) :
    chars (tablePieces path (a ++ b)) = chars (tablePieces path a) ++ chars (tablePieces path b) := by
  rw [tablePieces, List.flatMap_append, chars_append]
  rfl

theorem chars_lockPackage (path : List Step) (p : LockfilePackage) :
    "\n[[package]]\n".toList ++ chars (tablePieces path p.rows) = p.text.toList := by
  have hfixed : chars (tablePieces path [("name", .string (lockEncoder.written p.name)),
      ("version", .string (lockEncoder.written p.version)), ("source", .string (lockEncoder.written p.source)),
      ("hash", .string (lockEncoder.written p.hash))]) =
      (quotedRow "name" (escapeStr p.name) ++ quotedRow "version" (escapeStr p.version) ++
        quotedRow "source" (escapeStr p.source) ++ quotedRow "hash" (escapeStr p.hash)).toList := by
    change chars (rowPieces path _ ++ (rowPieces path _ ++ (rowPieces path _ ++ (rowPieces path _ ++ [])))) = _
    rw [chars_append, chars_append, chars_append, chars_append, chars_escaped, chars_escaped, chars_escaped, chars_escaped]
    simp [chars]
  have hprovenance : chars (tablePieces path
      (p.provenanceHash.toList.map fun h => ("provenance_hash", .string (lockEncoder.written h)))) =
      (p.provenanceHash.elim "" fun h => quotedRow "provenance_hash" (escapeStr h)).toList := by
    cases p.provenanceHash with
    | none => rfl
    | some h => exact (congrArg chars (List.flatMap_singleton _ _)).trans (chars_escaped _ _)
  have hdeps : chars (tablePieces path [("dependencies", .strings ((sortTexts p.dependencies).map lockEncoder.written))]) =
      ("dependencies = [" ++ commaSeparated ((sortTexts p.dependencies).map fun d => "\"" ++ escapeStr d ++ "\"") ++
        "]\n").toList := by
    rw [tablePieces, List.flatMap_singleton, rowPieces, Entry.pieces, chars_append, chars_append, chars_append,
      chars_append, chars_items toList_escapeStr]
    simp [chars_text]
  rw [LockfilePackage.rows, chars_table, chars_table, hfixed, hprovenance, hdeps]
  unfold LockfilePackage.text
  simp only [String.toList_append, List.append_assoc]

theorem chars_lockPackages (i : Nat) (packages : List LockfilePackage) :
    chars (elementPieces "package" i (packages.map LockfilePackage.rows)) =
      (String.join (packages.map LockfilePackage.text)).toList := by
  induction packages generalizing i with
  | nil => simp [chars, elementPieces]
  | cons p packages ih =>
    have hpackage := chars_lockPackage [.key "package", .index i] p
    rw [List.map_cons, List.map_cons, elementPieces, chars_append, chars_append, chars_text, ih (i + 1), String.join_cons]
    simp only [String.toList_append, ← hpackage]
    simp

/-- The canonical text of a lockfile is the text of its document. -/
theorem toCanonicalToml_toList (lock : Lockfile) : lock.toCanonicalToml.toList = lock.document.chars := by
  have hmetadata : chars (tablePieces [.key "metadata"] lock.metadata.rows) =
      (quotedRow "manifest_hash" lock.metadata.manifestHash ++ "lockfile_version = " ++
        toString lock.metadata.lockfileVersion.toNat ++ "\n").toList := by
    change chars (rowPieces _ _ ++ (rowPieces _ _ ++ [])) = _
    rw [chars_append, chars_append, chars_quotedRow _ _ _ rfl, rowPieces, Entry.pieces, chars_append, chars_append,
      chars_text, chars_text, chars_text]
    simp [chars]
  have hpackages : chars ((Section.tables "package" (lock.packages.map LockfilePackage.rows)).pieces) =
      (String.join (lock.packages.map LockfilePackage.text)).toList := chars_lockPackages 0 lock.packages
  have hcomments : chars (lock.document.comments.map fun c => Piece.text ("#" ++ c ++ "\n")) =
      ("# cobrust.lock — auto-generated by `cobrust build`. Do not edit.\n" ++
        "# Determinism contract: ADR-0026 §C.\n").toList := by
    have hfirst : "#" ++ " cobrust.lock — auto-generated by `cobrust build`. Do not edit." ++ "\n" =
        "# cobrust.lock — auto-generated by `cobrust build`. Do not edit.\n" := rfl
    have hsecond : "#" ++ " Determinism contract: ADR-0026 §C." ++ "\n" = "# Determinism contract: ADR-0026 §C.\n" := rfl
    rw [String.toList_append, Lockfile.document, lockComments, List.map_cons, List.map_cons, hfirst, hsecond]
    exact congrArg (_ ++ ·) (List.append_nil _)
  have htable : (if true then "\n[" else "[") ++ "metadata" ++ "]\n" = "\n[metadata]\n" := rfl
  have hheader : "# Determinism contract: ADR-0026 §C.\n\n" ++ "[metadata]\n" =
      "# Determinism contract: ADR-0026 §C.\n" ++ "\n[metadata]\n" := rfl
  have hbreak (tail : String) : "# Determinism contract: ADR-0026 §C.\n\n" ++ ("[metadata]\n" ++ tail) =
      "# Determinism contract: ADR-0026 §C.\n" ++ ("\n[metadata]\n" ++ tail) := by
    rw [← String.append_assoc, hheader, String.append_assoc]
  rw [Document.chars, Document.pieces, chars_append, hcomments, Lockfile.document, List.flatMap_cons, List.flatMap_singleton,
    chars_append, hpackages, Section.pieces, chars_append, chars_text, hmetadata, htable]
  unfold Lockfile.toCanonicalToml
  simp only [String.append_assoc, hbreak, String.toList_append, List.append_assoc]

/-! ## Sorted and plain lockfiles -/

/-- The packages, and the dependencies of each of them, are in order. -/
structure Lockfile.Sorted (lock : Lockfile) : Prop where
  packages : lock.packages.Pairwise fun a b => a.key ≤ b.key
  dependencies : ∀ p ∈ lock.packages, p.dependencies.Pairwise (· ≤ ·)

/-- A text without U+007F. -/
def NoDelete (text : String) : Prop :=
  '\x7f' ∉ text.toList

structure LockfilePackage.Plain (p : LockfilePackage) : Prop where
  name : NoDelete p.name
  version : NoDelete p.version
  source : NoDelete p.source
  hash : NoDelete p.hash
  provenanceHash : ∀ h ∈ p.provenanceHash, NoDelete h
  dependencies : ∀ d ∈ p.dependencies, NoDelete d

/-- No text of the lockfile needs an escape that it is not written with, and the reader knows its version. -/
structure Lockfile.Plain (lock : Lockfile) : Prop where
  version : lock.metadata.lockfileVersion = currentVersion
  manifestHash : IsPlain lock.metadata.manifestHash
  packages : ∀ p ∈ lock.packages, p.Plain

theorem sortTexts_of_sorted {texts : List String} (h : texts.Pairwise (· ≤ ·)) : sortTexts texts = texts :=
  h.insertionSort_eq

theorem decodes_lockWritten {text : String} : (lockEncoder.written text).Decodes ↔ NoDelete text :=
  decodes_written.trans covers_lockEncoder

theorem decodes_lockPackage {p : LockfilePackage} : (∀ row ∈ p.rows, row.2.All Written.Decodes) ↔ p.Plain := by
  have hdeps : (∀ d ∈ sortTexts p.dependencies, NoDelete d) ↔ ∀ d ∈ p.dependencies, NoDelete d :=
    forall_congr' fun d => imp_congr_left ((List.perm_insertionSort _ _).mem_iff)
  rw [LockfilePackage.rows]
  simp only [List.forall_mem_append, List.forall_mem_cons, List.forall_mem_map, Entry.All, decodes_lockWritten, hdeps]
  constructor
  · rintro ⟨⟨⟨hname, hversion, hsource, hhash, -⟩, hprovenance⟩, hdeps, -⟩
    exact ⟨hname, hversion, hsource, hhash, fun h hmem => hprovenance h (Option.mem_toList.2 hmem), hdeps⟩
  · intro h
    refine ⟨⟨⟨h.name, h.version, h.source, h.hash, fun _ hmem => absurd hmem List.not_mem_nil⟩, ?_⟩, h.dependencies,
      fun _ hmem => absurd hmem List.not_mem_nil⟩
    exact fun hash hmem => h.provenanceHash hash (Option.mem_toList.1 hmem)

theorem decodes_lockDocument {lock : Lockfile} (hversion : lock.metadata.lockfileVersion = currentVersion) :
    lock.document.Decodes ↔ lock.Plain := by
  have hmetadata : (Section.table true "metadata" lock.metadata.rows).All Written.Decodes ↔
      IsPlain lock.metadata.manifestHash := by
    rw [Section.All, LockfileMetadata.rows]
    simp [Entry.All, decodes_plain]
  have hpackages : (Section.tables "package" (lock.packages.map LockfilePackage.rows)).All Written.Decodes ↔
      ∀ p ∈ lock.packages, p.Plain := by
    rw [Section.All, List.forall_mem_map]
    exact forall₂_congr fun p _ => decodes_lockPackage
  rw [decodes_iff, Lockfile.document]
  simp only [List.forall_mem_cons, hmetadata, hpackages]
  constructor
  · rintro ⟨hhash, hpackages, -⟩
    exact ⟨hversion, hhash, hpackages⟩
  · exact fun h => ⟨h.manifestHash, h.packages, fun _ hmem => absurd hmem List.not_mem_nil⟩

theorem wellFormed_lockPackage (p : LockfilePackage) : RowsWellFormed p.rows := by
  have hprovenance : (p.provenanceHash.toList.map fun _ => "provenance_hash").Sublist ["provenance_hash"] := by
    cases p.provenanceHash <;> simp
  have hsub := ((List.Sublist.refl ["name", "version", "source", "hash"]).append hprovenance).append
    (List.Sublist.refl ["dependencies"])
  have hrows : p.rows.map Prod.fst = ["name", "version", "source", "hash"] ++
      (p.provenanceHash.toList.map fun _ => "provenance_hash") ++ ["dependencies"] := by
    simp [LockfilePackage.rows, Function.comp_def]
  rw [← hrows] at hsub
  refine ⟨keys_of_sublist hsub (by decide) (by decide), ?_⟩
  rw [LockfilePackage.rows]
  simp only [List.forall_mem_append, List.forall_mem_cons, List.forall_mem_map]
  exact ⟨⟨⟨trivial, trivial, trivial, trivial, fun _ hmem => absurd hmem List.not_mem_nil⟩, fun _ _ => trivial⟩, trivial,
    fun _ hmem => absurd hmem List.not_mem_nil⟩

theorem wellFormed_lockDocument (lock : Lockfile) : lock.document.WellFormed where
  comments := by
    have hcomment : lockComments.all (fun comment => comment.toList.all fun c =>
        c == '\t' || (0x20 ≤ c.toNat && c.toNat != 0x7f)) = true := by
      decide
    intro comment hcomment' d hd
    have h := List.all_eq_true.1 (List.all_eq_true.1 hcomment comment hcomment') d hd
    simpa using h
  names := by
    change ["metadata", "package"].Nodup
    decide
  sections := by
    rw [Lockfile.document]
    refine List.forall_mem_cons.2 ⟨⟨by decide, ?_⟩, List.forall_mem_singleton.2 ⟨by decide, ?_⟩⟩
    · exact ⟨keys_of_sublist (List.Sublist.refl ["manifest_hash", "lockfile_version"]) (by decide) (by decide),
        List.forall_mem_cons.2 ⟨trivial, List.forall_mem_singleton.2 trivial⟩⟩
    · exact List.forall_mem_map.2 fun p _ => wellFormed_lockPackage p

section Resolved

variable {Version : Type} {blake3Hex : String → String} {displayVersion : Version → String} {manifest : Manifest Req}
  {root : ResolvedPackage Version} {rows : List (String × ResolvedPackage Version)}

theorem sorted_fromResolution : (Lockfile.fromResolution c blake3Hex displayVersion manifest root rows).Sorted where
  packages := List.pairwise_insertionSort _ _
  dependencies := by
    intro p hp
    have hmem := (List.perm_insertionSort _ _).mem_iff.1 hp
    rcases List.mem_cons.1 hmem with rfl | hmem
    · exact List.pairwise_insertionSort _ _
    · obtain ⟨row, -, rfl⟩ := List.mem_map.1 hmem
      exact List.pairwise_insertionSort _ _

theorem sorted_rewriteDepStrings {lock : Lockfile} (h : lock.Sorted) : (rewriteDepStrings lock).Sorted where
  packages := List.pairwise_map.2 h.packages
  dependencies := List.forall_mem_map.2 fun _ _ => List.pairwise_insertionSort _ _

end Resolved

theorem readU32_toNat (n : UInt32) : readU32 (.integer n.toNat) = some n := by
  have hlt := n.toNat_lt
  rw [readU32, if_pos ⟨Int.natCast_nonneg _, by exact_mod_cast hlt⟩, Int.toNat_natCast, UInt32.ofNat_toNat]

theorem read_lockMetadata (m : LockfileMetadata) : LockfileMetadata.read (tableValue m.rows) = some m := by
  have hhash : m.rows.lookup "manifest_hash" = some (.string (.plain m.manifestHash)) := rfl
  have hversion : m.rows.lookup "lockfile_version" = some (.integer m.lockfileVersion.toNat) := rfl
  have hread : requiredAt readU32 (some (Entry.integer m.lockfileVersion.toNat).value) = some m.lockfileVersion := by
    rw [requiredAt, Option.bind_some, Entry.value, readU32_toNat]
  rw [LockfileMetadata.read, tableValue, Value.field, Option.bind_eq_bind, Option.bind_some]
  simp only [lookup_value]
  rw [hhash, hversion, Option.map_some, Option.map_some, hread]
  rfl

theorem read_lockPackage {p : LockfilePackage} (h : p.dependencies.Pairwise (· ≤ ·)) :
    LockfilePackage.read (tableValue p.rows) = some p := by
  have hdeps : readArray readString (Entry.strings ((sortTexts p.dependencies).map lockEncoder.written)).value =
      some p.dependencies := by
    rw [Entry.value, List.map_map, sortTexts_of_sorted h]
    exact readStrings_array p.dependencies
  obtain ⟨name, version, source, hash, provenanceHash, dependencies⟩ := p
  rw [tableValue, LockfilePackage.read, Value.field, Option.bind_eq_bind, Option.bind_some]
  simp only [lookup_value]
  have hrows : List.lookup "dependencies" (LockfilePackage.rows ⟨name, version, source, hash, provenanceHash, dependencies⟩) =
      some (.strings ((sortTexts dependencies).map lockEncoder.written)) := by
    cases provenanceHash <;> rfl
  rw [hrows, Option.map_some, defaultAt, hdeps]
  cases provenanceHash <;> rfl

theorem read_lockDocument {lock : Lockfile} (h : lock.Sorted) :
    ∃ raw, RawLockfile.read lock.document.value = some raw ∧ raw.metadata = lock.metadata ∧
      raw.package.getD [] = lock.packages := by
  obtain ⟨metadata, packages⟩ := lock
  have hmetadata := read_lockMetadata metadata
  have hlookup (packages : List LockfilePackage) :
      (Lockfile.document ⟨metadata, packages⟩).value.lookup "metadata" = some (tableValue metadata.rows) := by
    cases packages <;> rfl
  cases packages with
  | nil =>
    refine ⟨⟨metadata, none⟩, ?_, rfl, rfl⟩
    have hpackage : (Lockfile.document ⟨metadata, []⟩).value.lookup "package" = none := rfl
    rw [RawLockfile.read, hlookup, hpackage, requiredAt, Option.bind_some, hmetadata]
    rfl
  | cons p packages =>
    have hpackages : readArray LockfilePackage.read (.array (((p :: packages).map LockfilePackage.rows).map tableValue)) =
        some (p :: packages) := by
      rw [readArray, mapM_eq_some, List.map_map, List.forall₂_map_left_iff, List.forall₂_same]
      exact fun q hq => read_lockPackage (h.dependencies q hq)
    refine ⟨⟨metadata, some (p :: packages)⟩, ?_, rfl, rfl⟩
    have hpackage : (Lockfile.document ⟨metadata, p :: packages⟩).value.lookup "package" =
        some (.array (((p :: packages).map LockfilePackage.rows).map tableValue)) := rfl
    rw [RawLockfile.read, hlookup, hpackage, requiredAt, Option.bind_some, hmetadata, optionalAt, hpackages]
    rfl

/-- A lockfile that is returned was read from the document, and sorted. -/
theorem parseLock_ok {contents : String} {lock : Lockfile} :
    Lockfile.parseStr c contents = .ok lock ↔ ∃ root raw, c.parseToml contents.toList = .ok root ∧
      RawLockfile.read root = some raw ∧ raw.metadata.lockfileVersion = currentVersion ∧ raw.metadata = lock.metadata ∧
      sortPackages (raw.package.getD []) = lock.packages := by
  rw [Lockfile.parseStr]
  cases hparse : c.parseToml contents.toList with
  | error e => simp
  | ok root =>
    cases hread : RawLockfile.read root with
    | none => simp [hread]
    | some raw =>
      by_cases hversion : raw.metadata.lockfileVersion = currentVersion
      · constructor
        · intro h
          dsimp only at h
          rw [hread] at h
          dsimp only at h
          rw [if_pos hversion] at h
          cases h
          exact ⟨root, raw, rfl, hread, hversion, rfl, rfl⟩
        · rintro ⟨root', raw', hroot, hread', -, hmetadata, hpackages⟩
          cases hroot
          rw [hread] at hread'
          cases hread'
          dsimp only
          rw [hread]
          dsimp only
          rw [if_pos hversion, hmetadata, hpackages]
      · simp [hread, hversion]

/-! ## The round trip -/

variable {lock : Lockfile}

/-- A string of a package is read back only if its escapes are enough, whatever it is read as. -/
theorem decodes_of_package {p : List Step} {w : Written} {tail value : List Char}
    (hslot : (Section.tables "package" (lock.packages.map LockfilePackage.rows)).Slot p w) (hguard : Guarded tail)
    (hread : ReadsString ('"' :: (w.raw ++ '"' :: tail)) value) : w.Decodes := by
  have hwritten : (Section.tables "package" (lock.packages.map LockfilePackage.rows)).All
      fun w => ∃ text, w = lockEncoder.written text := by
    rw [Section.All, List.forall_mem_map]
    intro p _
    rw [LockfilePackage.rows]
    simp only [List.forall_mem_append, List.forall_mem_cons, List.forall_mem_map, Entry.All]
    exact ⟨⟨⟨⟨_, rfl⟩, ⟨_, rfl⟩, ⟨_, rfl⟩, ⟨_, rfl⟩, fun _ hmem => absurd hmem List.not_mem_nil⟩, fun _ _ => ⟨_, rfl⟩⟩,
      fun _ _ => ⟨_, rfl⟩, fun _ hmem => absurd hmem List.not_mem_nil⟩
  obtain ⟨text, rfl⟩ := Section.all_iff.1 hwritten p w hslot
  exact decodes_written.2 (covers_of_readsString hread hguard)

/-- The canonical text of a sorted lockfile is parsed to it if and only if its version is the current one, the hash
of the manifest needs no escape, and no text of a package has U+007F. -/
theorem lockfile_roundTrip_iff (h : lock.Sorted) (hfollows : Follows c.parseToml lock.document) :
    Lockfile.parseStr c lock.toCanonicalToml = .ok lock ↔ lock.Plain := by
  have hwf := wellFormed_lockDocument lock
  rw [parseLock_ok, toCanonicalToml_toList]
  constructor
  · rintro ⟨root, raw, hroot, hread, hversion, hmetadata, -⟩
    have hcurrent : lock.metadata.lockfileVersion = currentVersion := hmetadata ▸ hversion
    refine (decodes_lockDocument hcurrent).1 <|
      decodes_of_parse hfollows hwf hroot fun p w tail s hmem hguard hstring hget => ?_
    obtain ⟨sec, hsec, hslot⟩ := mem_pieces.1 hmem
    rcases List.mem_cons.1 hsec with rfl | hsec
    · -- the hash of the manifest is what stands in the document
      obtain ⟨row, hrow, hslot⟩ := hslot
      rcases List.mem_cons.1 hrow with rfl | hrow
      · obtain ⟨rfl, rfl⟩ := hslot
        obtain ⟨v, hv, hget⟩ := get_root hget
        obtain ⟨metadata, hmeta, hraw⟩ := Option.bind_eq_some_iff.1 hread
        obtain ⟨package, -, hraw⟩ := Option.bind_eq_some_iff.1 hraw
        cases hraw
        rw [requiredAt, hv, Option.bind_some] at hmeta
        obtain ⟨field, hfield, hmeta⟩ := Option.bind_eq_some_iff.1 hmeta
        obtain ⟨manifestHash, hhash, hmeta⟩ := Option.bind_eq_some_iff.1 hmeta
        obtain ⟨version, -, hmeta⟩ := Option.bind_eq_some_iff.1 hmeta
        cases hmeta
        have htext := required_text hfield hhash hget
        rw [htext, ← show lock.metadata.manifestHash = manifestHash by rw [← hmetadata]] at hstring
        exact honest_plain _ tail hguard hstring
      · rw [List.mem_singleton] at hrow
        subst hrow
        exact hslot.elim
    · rw [List.mem_singleton] at hsec
      subst hsec
      exact decodes_of_package hslot hguard hstring
  · intro hplain
    obtain ⟨raw, hread, hmetadata, hpackages⟩ := read_lockDocument h
    refine ⟨_, raw, hfollows.accepts hwf ((decodes_lockDocument hplain.version).2 hplain), hread, ?_, hmetadata, ?_⟩
    · rw [hmetadata]
      exact hplain.version
    · rw [hpackages]
      exact h.packages.insertionSort_eq

/-- The canonical text of a lockfile is parsed to it if and only if the lockfile is plain; and the text of the
lockfile of a resolution does not depend on the order in which packages and dependencies were supplied, before and
after the dependencies got their versions. -/
theorem parseStr_toCanonicalToml {Version : Type} (c : Crates Req) (blake3Hex : String → String)
    (displayVersion : Version → String) :
    (∀ lock : Lockfile, lock.Sorted → Follows c.parseToml lock.document →
      (Lockfile.parseStr c lock.toCanonicalToml = .ok lock ↔ lock.Plain)) ∧
    ∀ (manifest : Manifest Req) (root root' : ResolvedPackage Version)
      (rows rows' : List (String × ResolvedPackage Version)), SamePackage root root' → (rows.map Prod.fst).Nodup →
      SamePackages rows rows' →
      (Lockfile.fromResolution c blake3Hex displayVersion manifest root (sortRows rows)).toCanonicalToml =
        (Lockfile.fromResolution c blake3Hex displayVersion manifest root' (sortRows rows')).toCanonicalToml ∧
      (rewriteDepStrings (Lockfile.fromResolution c blake3Hex displayVersion manifest root (sortRows rows))).toCanonicalToml =
        (rewriteDepStrings
          (Lockfile.fromResolution c blake3Hex displayVersion manifest root' (sortRows rows'))).toCanonicalToml := by
  refine ⟨fun lock h hfollows => lockfile_roundTrip_iff h hfollows, ?_⟩
  intro manifest root root' rows rows' hroot hnodup hrows
  rw [fromResolution_of_samePackages hroot hnodup hrows]
  exact ⟨rfl, rfl⟩

namespace Sample

/-- A lockfile of one package with a source and a dependency. -/
def lockfile (source : String) : Lockfile where
  metadata := ⟨"blake3:beef", currentVersion⟩
  packages := [⟨"nest", "0.1.0", source, "blake3:aaa", some "blake3:bbb", ["serde 1.2.0"]⟩]

theorem lockfile_sorted (source : String) : (lockfile source).Sorted where
  packages := List.pairwise_singleton _ _
  dependencies := List.forall_mem_singleton.2 (List.pairwise_singleton _ _)

theorem lockfile_plain : (lockfile "path+file:///a \"b\"").Plain where
  version := rfl
  manifestHash := (by decide : IsPlain "blake3:beef")
  packages := List.forall_mem_singleton.2 {
    name := (by decide : '\x7f' ∉ "nest".toList)
    version := (by decide : '\x7f' ∉ "0.1.0".toList)
    source := (by decide : '\x7f' ∉ "path+file:///a \"b\"".toList)
    hash := (by decide : '\x7f' ∉ "blake3:aaa".toList)
    provenanceHash := by
      rintro _ ⟨⟩
      exact (by decide : '\x7f' ∉ "blake3:bbb".toList)
    dependencies := List.forall_mem_singleton.2 (by decide : '\x7f' ∉ "serde 1.2.0".toList) }

def package (name : String) (dependencyNames : List String) : ResolvedPackage String where
  name := name
  version := "0.1.0"
  sourceUrl := "path+file:///" ++ name
  hash := "blake3:aaa"
  provenanceHash := none
  dependencyNames := dependencyNames
  localPath := "/" ++ name
  place := none

theorem follows_lockfile (source : String) (h : (lockfile source).Plain) :
    Follows (crates [(lockfile source).toCanonicalToml] (lockfile source).document.value).parseToml
      (lockfile source).document := by
  have hdecodes : (lockfile source).document.Decodes := (decodes_lockDocument rfl).2 h
  have hmem : (lockfile source).document.chars ∈ [(lockfile source).toCanonicalToml].map String.toList := by
    rw [List.map_singleton, ← toCanonicalToml_toList]
    exact List.mem_cons_self
  exact follows_of_decodes hdecodes (parse_known _ hmem)

end Sample

open Sample in
theorem parseStr_toCanonicalToml_sample :
    Lockfile.parseStr
      (crates [(lockfile "path+file:///a \"b\"").toCanonicalToml] (lockfile "path+file:///a \"b\"").document.value)
        (lockfile "path+file:///a \"b\"").toCanonicalToml = .ok (lockfile "path+file:///a \"b\"") ∧
      (Lockfile.fromResolution (crates [] []) id id (manifest "MIT") (package "app" ["z", "m"])
        (sortRows [("z", package "z" []), ("m", package "m" ["z"])])).toCanonicalToml =
      (Lockfile.fromResolution (crates [] []) id id (manifest "MIT") (package "app" ["m", "z"])
        (sortRows [("m", package "m" ["z"]), ("z", package "z" [])])).toCanonicalToml := by
  constructor
  · exact ((parseStr_toCanonicalToml _ id (id : String → String)).1 _ (lockfile_sorted _)
      (follows_lockfile _ lockfile_plain)).2 lockfile_plain
  · refine ((parseStr_toCanonicalToml _ id id).2 _ _ _ _ _ ⟨List.Perm.swap _ _ _, rfl⟩ (by decide) ?_).1
    exact ⟨_, List.Perm.swap _ _ _, .cons ⟨rfl, .refl _, rfl⟩ (.cons ⟨rfl, .refl _, rfl⟩ .nil)⟩

open Sample in
/-- No parser that keeps to TOML reads back a lockfile whose package has U+007F in its source. -/
theorem parseStr_toCanonicalToml_delete :
    (lockfile "path+file:///a\x7fb").Sorted ∧
      (∃ c : Crates Unit, Follows c.parseToml (lockfile "path+file:///a\x7fb").document) ∧
      ¬ ∃ c : Crates Unit, Follows c.parseToml (lockfile "path+file:///a\x7fb").document ∧
        Lockfile.parseStr c (lockfile "path+file:///a\x7fb").toCanonicalToml = .ok (lockfile "path+file:///a\x7fb") := by
  have hnot : ¬ (lockfile "path+file:///a\x7fb").Plain := by
    intro h
    exact (h.packages _ List.mem_cons_self).source (by decide)
  refine ⟨lockfile_sorted _,
    ⟨⟨fun _ => .error "invalid basic string", fun _ => "", fun _ => false, fun _ => .error "", fun _ => ""⟩,
    follows_of_error (mt (decodes_lockDocument rfl).1 hnot) rfl⟩, ?_⟩
  rintro ⟨c, hfollows, hparse⟩
  exact hnot ((lockfile_roundTrip_iff (lockfile_sorted _) hfollows).1 hparse)

end Cobrust.Pkg
