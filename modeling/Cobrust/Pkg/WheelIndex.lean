import Cobrust.Text.Stream
import Mathlib.Data.List.TakeWhile
import Mathlib.Logic.Function.Basic

/-!
# Generated wheel indexes

The generator of `cobrust-registry` reads the names of the assets of a release. It takes the level behind the last dash
and the triple behind the third one, and it never looks at the package and the version that it is asked for.

* `parseWheelAsset_eq_some`: the names that are read, and as what.
* `generateIndex_exact`: an index lists the wheels it is asked for exactly when every name that is read belongs to one
  of them and the package and the version have one dash together.
-/

namespace Text

/-! ## Cutting at separators -/

/-- `str::strip_suffix` -/
def stripSuffix (suffix s : Text) : Option Text :=
  (stripPrefix suffix.reverse s.reverse).map List.reverse

/-- `str::rsplit_once` -/
def rsplitOnce (sep : Char) (s : Text) : Option (Text × Text) :=
  (splitOnce sep s.reverse).map fun parts => (parts.2.reverse, parts.1.reverse)

/-- `str::splitn` -/
def splitn (sep : Char) : Nat → Text → List Text
  | 0, _ => []
  | 1, s => [s]
  | n + 2, s =>
    match splitOnce sep s with
    | none => [s]
    | some (part, rest) => part :: splitn sep (n + 1) rest

theorem stripPrefix_eq_some {p s t : Text} : stripPrefix p s = some t ↔ s = p ++ t := by
  induction p generalizing s with
  | nil => exact Option.some_inj
  | cons c p ih =>
    cases s with
    | nil => simp [stripPrefix]
    | cons d s =>
      rw [stripPrefix]
      split
      · next h => simp [ih, h]
      · next h => simp [h]

theorem stripSuffix_eq_some {p s t : Text} : stripSuffix p s = some t ↔ s = t ++ p := by
  rw [stripSuffix, Option.map_eq_some_iff]
  constructor
  · rintro ⟨r, hr, rfl⟩
    simpa using congrArg List.reverse (stripPrefix_eq_some.1 hr)
  · rintro rfl
    exact ⟨t.reverse, stripPrefix_eq_some.2 List.reverse_append, List.reverse_reverse t⟩

variable {sep : Char}

theorem splitOnce_eq_some {s a b : Text} : splitOnce sep s = some (a, b) ↔ s = a ++ sep :: b ∧ sep ∉ a := by
  constructor
  · intro h
    refine ⟨eq_append_of_splitOnce h, ?_⟩
    induction s generalizing a with
    | nil => cases h
    | cons c s ih =>
      rw [splitOnce] at h
      split at h
      · cases h
        exact List.not_mem_nil
      · next hc =>
        obtain ⟨⟨a', b'⟩, hparts, he⟩ := Option.map_eq_some_iff.1 h
        cases he
        exact List.not_mem_cons_of_ne_of_not_mem (Ne.symm hc) (ih hparts)
  · rintro ⟨rfl, h⟩
    exact splitOnce_append h

theorem rsplitOnce_eq_some {s a b : Text} : rsplitOnce sep s = some (a, b) ↔ s = a ++ sep :: b ∧ sep ∉ b := by
  rw [rsplitOnce, Option.map_eq_some_iff]
  constructor
  · rintro ⟨⟨b', a'⟩, h, he⟩
    cases he
    obtain ⟨hs, hb⟩ := splitOnce_eq_some.1 h
    exact ⟨by simpa using congrArg List.reverse hs, by simpa using hb⟩
  · rintro ⟨rfl, h⟩
    exact ⟨(b.reverse, a.reverse), splitOnce_eq_some.2 ⟨by simp, by simpa using h⟩, by simp⟩

/-- The last of the parts is what stands behind as many separators as there are parts before it. -/
theorem getElem?_splitn {n : Nat} {s t : Text} : (splitn sep (n + 1) s)[n]? = some t ↔
    (n = 0 ∧ s = t) ∨ ∃ a, s = a ++ sep :: t ∧ a.count sep + 1 = n := by
  induction n generalizing s with
  | zero => simp [splitn]
  | succ n ih =>
    rw [splitn]
    cases hsplit : splitOnce sep s with
    | none =>
      have hsep : sep ∉ s := fun hs => by
        obtain ⟨a, b, rfl, ha⟩ := List.eq_append_cons_of_mem hs
        rw [splitOnce_append ha] at hsplit
        cases hsplit
      refine iff_of_false (by simp) ?_
      rintro (⟨h, -⟩ | ⟨a, rfl, -⟩)
      · cases h
      · exact hsep (by simp)
    | some parts =>
      obtain ⟨rfl, hpart⟩ := splitOnce_eq_some.1 (hsplit.trans (congrArg some (Prod.eta parts).symm))
      rw [List.getElem?_cons_succ, ih]
      constructor
      · rintro (⟨rfl, rfl⟩ | ⟨a, h, hcount⟩)
        · exact .inr ⟨parts.1, rfl, by rw [List.count_eq_zero.2 hpart]⟩
        · refine .inr ⟨parts.1 ++ sep :: a, by simp [h], ?_⟩
          rw [List.count_append, List.count_cons_self, List.count_eq_zero.2 hpart]
          omega
      · rintro (⟨h, -⟩ | ⟨a, h, hcount⟩)
        · cases h
        rcases List.append_eq_append_iff.1 h with ⟨c, rfl, hc⟩ | ⟨c, hparts, hc⟩
        · cases c with
          | nil =>
            obtain ⟨-, rfl⟩ := List.cons.inj hc
            rw [List.append_nil, List.count_eq_zero.2 hpart] at hcount
            exact .inl ⟨by omega, rfl⟩
          | cons d c =>
            obtain ⟨rfl, hrest⟩ := List.cons.inj hc
            rw [List.count_append, List.count_cons_self, List.count_eq_zero.2 hpart] at hcount
            exact .inr ⟨c, hrest, by omega⟩
        · cases c with
          | nil =>
            obtain ⟨-, rfl⟩ := List.cons.inj hc
            rw [List.append_nil] at hparts
            rw [← hparts, List.count_eq_zero.2 hpart] at hcount
            exact .inl ⟨by omega, rfl⟩
          | cons d c =>
            obtain ⟨rfl, -⟩ := List.cons.inj hc
            exact absurd (by simp [hparts]) hpart

theorem exists_eq_append_of_lt_count {n : Nat} {s : Text} (h : n < s.count sep) :
    ∃ a t, s = a ++ sep :: t ∧ a.count sep = n := by
  induction n generalizing s with
  | zero =>
    obtain ⟨a, t, hs, ha⟩ := List.eq_append_cons_of_mem (List.count_pos_iff.1 h)
    exact ⟨a, t, hs, List.count_eq_zero.2 ha⟩
  | succ n ih =>
    obtain ⟨a, t, rfl, ha⟩ := List.eq_append_cons_of_mem (List.count_pos_iff.1 (Nat.zero_lt_of_lt h))
    rw [List.count_append, List.count_cons_self, List.count_eq_zero.2 ha] at h
    obtain ⟨b, t, rfl, hb⟩ := ih (s := t) (by omega)
    refine ⟨a ++ sep :: b, t, by simp, ?_⟩
    rw [List.count_append, List.count_cons_self, List.count_eq_zero.2 ha, hb, Nat.zero_add]

/-- What stands behind the third separator, as the last of three parts and behind its first separator. -/
theorem splitn_three_eq_some {s t : Text} :
    ((splitn sep 3 s)[2]?.bind fun part => (splitOnce sep part).map Prod.snd) = some t ↔
      ∃ a, s = a ++ sep :: t ∧ a.count sep = 2 := by
  rw [Option.bind_eq_some_iff]
  constructor
  · rintro ⟨part, hpart, h⟩
    obtain ⟨⟨b, t⟩, hsplit, rfl⟩ := Option.map_eq_some_iff.1 h
    obtain ⟨rfl, hb⟩ := splitOnce_eq_some.1 hsplit
    obtain ⟨h, -⟩ | ⟨a, rfl, ha⟩ := getElem?_splitn.1 hpart
    · cases h
    · refine ⟨a ++ sep :: b, by simp, ?_⟩
      rw [List.count_append, List.count_cons_self, List.count_eq_zero.2 hb]
      omega
  · rintro ⟨c, rfl, hc⟩
    obtain ⟨a, b, rfl, ha⟩ := exists_eq_append_of_lt_count (n := 1) (hc ▸ Nat.one_lt_two)
    rw [List.count_append, List.count_cons_self, ha] at hc
    have hb : sep ∉ b := List.count_eq_zero.1 (by omega)
    refine ⟨b ++ sep :: t, getElem?_splitn.2 (.inr ⟨a, by simp, by rw [ha]⟩), ?_⟩
    rw [splitOnce_append hb, Option.map_some]

end Text

namespace Cobrust.Pkg

open Text (bytes isWhitespace lines rsplitOnce splitOnce splitn stripPrefix stripSuffix trim)

/-! ## The generator -/

def GENERATOR_ABI_VERSION : Nat := 1

structure ReleaseAsset where
  name : Text
  browserDownloadUrl : Text
  size : UInt64

structure WheelEntry where
  triple : Text
  cpuLevel : Text
  sha256 : Text
  url : Text
  size : UInt64
  cobrustAbiVersion : Nat
  experimental : Bool

structure Index where
  name : Text
  version : Text
  wheels : List WheelEntry

/-- The file name and the hash that a line is read as. -/
def sumOfLine (line : Text) : Option (Text × Text) :=
  match line.dropWhile fun c => !isWhitespace c with
  | [] => none
  | _ :: filename =>
    let hex := line.takeWhile fun c => !isWhitespace c
    if (bytes hex).length = 64 then some (trim filename, hex.map Char.toLower) else none

/-- A later line overrides. -/
def insertSum (map : Text → Option Text) (line : Text) : Text → Option Text :=
  match sumOfLine line with
  | none => map
  | some (filename, hex) => Function.update map filename (some hex)

/-- The hash for each file name. -/
def parseSha256sumsText (text : Text) : Text → Option Text :=
  (lines text).foldl insertSum fun _ => none

def CPU_LEVELS : List Text :=
  ["neon".toList, "sve".toList, "m1".toList, "m2".toList, "v1".toList, "v3".toList, "v4".toList]

def parseWheelAsset (assetName : Text) : Option (Text × Text) :=
  (stripPrefix "cobrust-".toList assetName).bind fun rest =>
    (stripSuffix ".tar.gz".toList rest).bind fun stem =>
      (rsplitOnce '-' stem).bind fun parts =>
        if CPU_LEVELS.contains parts.2 then
          ((splitn '-' 3 parts.1)[2]?.bind fun afterPkg => (splitOnce '-' afterPkg).map Prod.snd).bind fun triple =>
            if '-' ∈ triple then some (triple, parts.2) else none
        else none

def wheelEntry (sha256Map : Text → Option Text) (a : ReleaseAsset) : Option WheelEntry :=
  (parseWheelAsset a.name).map fun wheel =>
    { triple := wheel.1
      cpuLevel := wheel.2
      sha256 := (sha256Map a.name).getD []
      url := a.browserDownloadUrl
      size := a.size
      cobrustAbiVersion := GENERATOR_ABI_VERSION
      experimental := wheel.2 = "sve".toList }

def generateIndex (pkg version : Text) (assets : List ReleaseAsset) (sha256Map : Text → Option Text) : Index where
  name := pkg
  version := version
  wheels := assets.filterMap (wheelEntry sha256Map)

/-- What a wheel is built for. -/
structure Wheel where
  triple : Text
  cpuLevel : Text
  dashes : 2 ≤ triple.count '-'
  known : cpuLevel ∈ CPU_LEVELS

def wheelName (pkg ver : Text) (w : Wheel) : Text :=
  "cobrust-".toList ++ (pkg ++ '-' :: ver ++ '-' :: w.triple ++ '-' :: w.cpuLevel ++ ".tar.gz".toList)

/-- The line is a hash of 64 bytes, white space and the name of a file. -/
def Lists (line filename hash : Text) : Prop :=
  ∃ hex blank rest, line = hex ++ blank :: rest ∧ (∀ c ∈ hex, isWhitespace c = false) ∧
    isWhitespace blank = true ∧ (bytes hex).length = 64 ∧ hash = hex.map Char.toLower ∧ filename = trim rest

/-- The hash in the last of the lines that list the file, and no text without such a line. -/
inductive ListedHash (filename : Text) (ls : List Text) : Text → Prop where
  | listed {before after line hash} : ls = before ++ line :: after → Lists line filename hash →
    (∀ l ∈ after, ∀ h, ¬Lists l filename h) → ListedHash filename ls hash
  | unlisted : (∀ l ∈ ls, ∀ h, ¬Lists l filename h) → ListedHash filename ls []

/-- The entry of a wheel that is an asset of the release. -/
structure Describes (pkg version sums : Text) (w : Wheel) (a : ReleaseAsset) (e : WheelEntry) : Prop where
  name : a.name = wheelName pkg version w
  triple : e.triple = w.triple
  cpuLevel : e.cpuLevel = w.cpuLevel
  sha256 : ListedHash a.name (lines sums) e.sha256
  url : e.url = a.browserDownloadUrl
  size : e.size = a.size

/-- The entries are those of the assets that are wheels of the package and version, in order. -/
inductive Indexes (pkg version sums : Text) : List ReleaseAsset → List WheelEntry → Prop where
  | nil : Indexes pkg version sums [] []
  | wheel {w a e assets entries} : Describes pkg version sums w a e → Indexes pkg version sums assets entries →
    Indexes pkg version sums (a :: assets) (e :: entries)
  | other {a assets entries} : (∀ w, a.name ≠ wheelName pkg version w) → Indexes pkg version sums assets entries →
    Indexes pkg version sums (a :: assets) entries

/-- The name has the form of a wheel's: a known level behind the last dash and four dashes before that one. -/
def HasWheelForm (name : Text) : Prop :=
  ∃ body, 4 ≤ body.count '-' ∧ ∃ cpuLevel ∈ CPU_LEVELS,
    name = "cobrust-".toList ++ (body ++ '-' :: cpuLevel ++ ".tar.gz".toList)

theorem dash_not_mem {cpuLevel : Text} (h : cpuLevel ∈ CPU_LEVELS) : '-' ∉ cpuLevel := by
  have hall : ∀ l ∈ CPU_LEVELS, '-' ∉ l := by decide
  exact hall cpuLevel h

theorem parseWheelAsset_eq_some {name t l : Text} : parseWheelAsset name = some (t, l) ↔
    l ∈ CPU_LEVELS ∧ '-' ∈ t ∧ ∃ a, a.count '-' = 2 ∧
      name = "cobrust-".toList ++ (a ++ '-' :: t ++ '-' :: l ++ ".tar.gz".toList) := by
  unfold parseWheelAsset
  constructor
  · intro h
    obtain ⟨rest, hrest, h⟩ := Option.bind_eq_some_iff.1 h
    obtain ⟨stem, hstem, h⟩ := Option.bind_eq_some_iff.1 h
    obtain ⟨⟨p, level⟩, hparts, h⟩ := Option.bind_eq_some_iff.1 h
    split at h
    · next hlevel =>
      obtain ⟨triple, htriple, h⟩ := Option.bind_eq_some_iff.1 h
      split at h
      · next hdash =>
        cases h
        obtain ⟨a, hp, ha⟩ := Text.splitn_three_eq_some.1 htriple
        refine ⟨List.contains_iff_mem.1 hlevel, hdash, a, ha, ?_⟩
        rw [Text.stripPrefix_eq_some.1 hrest, Text.stripSuffix_eq_some.1 hstem, (Text.rsplitOnce_eq_some.1 hparts).1]
        exact congrArg (fun p => _ ++ (p ++ '-' :: level ++ _)) hp
      · cases h
    · cases h
  · rintro ⟨hlevel, hdash, a, ha, rfl⟩
    refine Option.bind_eq_some_iff.2 ⟨_, Text.stripPrefix_eq_some.2 rfl, ?_⟩
    refine Option.bind_eq_some_iff.2 ⟨_, Text.stripSuffix_eq_some.2 rfl, ?_⟩
    refine Option.bind_eq_some_iff.2 ⟨_, Text.rsplitOnce_eq_some.2 ⟨rfl, dash_not_mem hlevel⟩, ?_⟩
    rw [if_pos (List.contains_iff_mem.2 hlevel)]
    refine Option.bind_eq_some_iff.2 ⟨t, Text.splitn_three_eq_some.2 ⟨a, rfl, ha⟩, ?_⟩
    rw [if_pos hdash]

theorem level_inj {a b l m : Text} (hl : l ∈ CPU_LEVELS) (hm : m ∈ CPU_LEVELS)
    (h : "cobrust-".toList ++ (a ++ '-' :: l ++ ".tar.gz".toList) =
      "cobrust-".toList ++ (b ++ '-' :: m ++ ".tar.gz".toList)) : a = b ∧ l = m := by
  have hbody := List.append_cancel_right (List.append_cancel_left h)
  have ha : Text.rsplitOnce '-' (b ++ '-' :: m) = some (a, l) :=
    Text.rsplitOnce_eq_some.2 ⟨hbody.symm, dash_not_mem hl⟩
  have hb : Text.rsplitOnce '-' (b ++ '-' :: m) = some (b, m) :=
    Text.rsplitOnce_eq_some.2 ⟨rfl, dash_not_mem hm⟩
  cases ha.symm.trans hb
  exact ⟨rfl, rfl⟩

theorem parseWheelAsset_wheelName (pkg version : Text) (w : Wheel) :
    parseWheelAsset (wheelName pkg version w) = some (w.triple, w.cpuLevel) ↔
      pkg.count '-' + version.count '-' = 1 := by
  have hcount : (pkg ++ '-' :: version).count '-' = 2 ↔ pkg.count '-' + version.count '-' = 1 := by
    rw [List.count_append, List.count_cons_self]
    omega
  rw [parseWheelAsset_eq_some, ← hcount]
  constructor
  · rintro ⟨-, -, a, ha, hname⟩
    obtain ⟨hbody, -⟩ := level_inj w.known w.known hname
    exact (List.append_cancel_right hbody) ▸ ha
  · intro h
    exact ⟨w.known, List.count_pos_iff.1 (Nat.zero_lt_of_lt w.dashes), pkg ++ '-' :: version, h, rfl⟩

theorem isSome_parseWheelAsset {name : Text} : (parseWheelAsset name).isSome ↔ HasWheelForm name := by
  rw [Option.isSome_iff_exists]
  constructor
  · rintro ⟨⟨t, l⟩, h⟩
    obtain ⟨hlevel, hdash, a, ha, rfl⟩ := parseWheelAsset_eq_some.1 h
    refine ⟨a ++ '-' :: t, ?_, l, hlevel, rfl⟩
    have hpos : 0 < t.count '-' := List.count_pos_iff.2 hdash
    rw [List.count_append, List.count_cons_self]
    omega
  · rintro ⟨body, hbody, l, hlevel, rfl⟩
    obtain ⟨a, t, rfl, ha⟩ := Text.exists_eq_append_of_lt_count (Nat.lt_of_lt_of_le (by decide : 2 < 4) hbody)
    rw [List.count_append, List.count_cons_self] at hbody
    have hdash : '-' ∈ t := List.count_pos_iff.1 (by omega)
    exact ⟨(t, l), parseWheelAsset_eq_some.2 ⟨hlevel, hdash, a, ha, rfl⟩⟩

theorem hasWheelForm_wheelName (pkg version : Text) (w : Wheel) : HasWheelForm (wheelName pkg version w) := by
  refine ⟨pkg ++ '-' :: version ++ '-' :: w.triple, ?_, w.cpuLevel, w.known, rfl⟩
  have hdashes := w.dashes
  rw [List.count_append, List.count_append, List.count_cons_self, List.count_cons_self]
  omega

theorem sumOfLine_eq_some {line filename hash : Text} :
    sumOfLine line = some (filename, hash) ↔ Lists line filename hash := by
  constructor
  · intro h
    unfold sumOfLine at h
    split at h
    · cases h
    · next blank rest hdrop =>
      simp only at h
      split at h
      · next hlen =>
        cases h
        have hblank := List.head_dropWhile_not (p := fun c => !isWhitespace c) (l := line) (by simp [hdrop])
        refine ⟨_, blank, rest, ?_, ?_, ?_, hlen, rfl, rfl⟩
        · rw [← hdrop, List.takeWhile_append_dropWhile]
        · intro c hc
          simpa using List.mem_takeWhile_imp hc
        · simpa [hdrop] using hblank
      · cases h
  · rintro ⟨hex, blank, rest, rfl, hhex, hblank, hlen, rfl, rfl⟩
    have hall : ∀ c ∈ hex, (!isWhitespace c) = true := fun c hc => by rw [hhex c hc]; rfl
    have hneg : ¬(fun c => !isWhitespace c) blank = true := by simp [hblank]
    unfold sumOfLine
    rw [List.dropWhile_append_of_pos hall, List.dropWhile_cons_of_neg (p := fun c => !isWhitespace c) hneg]
    simp only [List.takeWhile_append_of_pos hall, List.takeWhile_cons_of_neg (p := fun c => !isWhitespace c) hneg,
      List.append_nil]
    exact if_pos hlen

theorem insertSum_of_none {map : Text → Option Text} {line : Text} (h : sumOfLine line = none) :
    insertSum map line = map := by
  rw [insertSum, h]

theorem insertSum_of_some {map : Text → Option Text} {line filename hex : Text}
    (h : sumOfLine line = some (filename, hex)) : insertSum map line = Function.update map filename (some hex) := by
  rw [insertSum, h]

theorem ListedHash.skip {filename line hash : Text} {ls : List Text} (h : ListedHash filename ls hash)
    (hline : ∀ h, ¬Lists line filename h) : ListedHash filename (ls ++ [line]) hash := by
  cases h with
  | @listed before after l hash hls hl hafter =>
    have hcons : ls ++ [line] = before ++ l :: (after ++ [line]) := by rw [hls]; simp
    exact .listed hcons hl (List.forall_mem_append.2 ⟨hafter, List.forall_mem_singleton.2 hline⟩)
  | unlisted hls => exact .unlisted (List.forall_mem_append.2 ⟨hls, List.forall_mem_singleton.2 hline⟩)

theorem listedHash_foldl (filename : Text) (ls : List Text) :
    ListedHash filename ls ((ls.foldl insertSum (fun _ => none) filename).getD []) := by
  induction ls using List.reverseRecOn with
  | nil => exact .unlisted (List.forall_mem_nil _)
  | append_singleton ls line ih =>
    rw [List.foldl_concat]
    cases hsum : sumOfLine line with
    | none =>
      rw [insertSum_of_none hsum]
      exact ih.skip fun h hl => by rw [sumOfLine_eq_some.2 hl] at hsum; cases hsum
    | some sum =>
      rw [insertSum_of_some hsum]
      by_cases hname : sum.1 = filename
      · subst hname
        rw [Function.update_self]
        exact .listed rfl (sumOfLine_eq_some.1 hsum) (List.forall_mem_nil _)
      · rw [Function.update_of_ne (Ne.symm hname)]
        refine ih.skip fun h hl => hname ?_
        rw [sumOfLine_eq_some.2 hl] at hsum
        cases hsum
        rfl

/-! ## The index -/

section index

variable {pkg version sums : Text}

theorem wheelEntry_eq_some {map : Text → Option Text} {a : ReleaseAsset} {e : WheelEntry} :
    wheelEntry map a = some e ↔ ∃ t l, parseWheelAsset a.name = some (t, l) ∧
      e = ⟨t, l, (map a.name).getD [], a.browserDownloadUrl, a.size, GENERATOR_ABI_VERSION, l = "sve".toList⟩ := by
  rw [wheelEntry, Option.map_eq_some_iff]
  constructor
  · rintro ⟨⟨t, l⟩, h, rfl⟩
    exact ⟨t, l, h, rfl⟩
  · rintro ⟨t, l, h, rfl⟩
    exact ⟨(t, l), h, rfl⟩

theorem isSome_wheelEntry (map : Text → Option Text) {a : ReleaseAsset} :
    (wheelEntry map a).isSome ↔ HasWheelForm a.name := by
  rw [wheelEntry, Option.isSome_map, isSome_parseWheelAsset]

/-- Every name that the generator reads is that of a wheel of the package and version, which have one dash together. -/
def OnlyWheelsOf (pkg version : Text) (assets : List ReleaseAsset) : Prop :=
  ∀ a ∈ assets, HasWheelForm a.name →
    (∃ w, a.name = wheelName pkg version w) ∧ pkg.count '-' + version.count '-' = 1

theorem indexes_of_onlyWheelsOf {assets : List ReleaseAsset} (h : OnlyWheelsOf pkg version assets) :
    Indexes pkg version sums assets (assets.filterMap (wheelEntry (parseSha256sumsText sums))) := by
  induction assets with
  | nil => exact .nil
  | cons a assets ih =>
    obtain ⟨ha, hassets⟩ := List.forall_mem_cons.1 h
    by_cases hform : HasWheelForm a.name
    · obtain ⟨⟨w, hw⟩, hcount⟩ := ha hform
      have hparse : parseWheelAsset a.name = some (w.triple, w.cpuLevel) :=
        hw ▸ (parseWheelAsset_wheelName pkg version w).2 hcount
      rw [List.filterMap_cons_some (wheelEntry_eq_some.2 ⟨_, _, hparse, rfl⟩)]
      exact .wheel ⟨hw, rfl, rfl, listedHash_foldl a.name (lines sums), rfl, rfl⟩ (ih hassets)
    · rw [List.filterMap_cons_none (Option.not_isSome_iff_eq_none.1 fun he => hform ((isSome_wheelEntry _).1 he))]
      exact .other (fun w hw => hform (hw ▸ hasWheelForm_wheelName pkg version w)) (ih hassets)

/-- The generator reads every wheel of the package and version, so no index has more entries. -/
theorem Indexes.length_le (map : Text → Option Text) {assets : List ReleaseAsset} {entries : List WheelEntry}
    (h : Indexes pkg version sums assets entries) : entries.length ≤ (assets.filterMap (wheelEntry map)).length := by
  induction h with
  | nil => exact Nat.le_refl 0
  | @wheel w a e assets entries hw _ ih =>
    have hform : HasWheelForm a.name := hw.name ▸ hasWheelForm_wheelName pkg version w
    obtain ⟨e', he⟩ := Option.isSome_iff_exists.1 ((isSome_wheelEntry map).2 hform)
    rw [List.filterMap_cons_some he]
    exact Nat.succ_le_succ ih
  | @other a assets entries _ _ ih =>
    rw [List.filterMap_cons]
    split
    · exact ih
    · exact Nat.le_succ_of_le ih

theorem onlyWheelsOf_of_indexes {assets : List ReleaseAsset}
    (h : Indexes pkg version sums assets (assets.filterMap (wheelEntry (parseSha256sumsText sums)))) :
    OnlyWheelsOf pkg version assets := by
  induction assets with
  | nil => exact List.forall_mem_nil _
  | cons a assets ih =>
    have hform := isSome_wheelEntry (parseSha256sumsText sums) (a := a)
    cases hentry : wheelEntry (parseSha256sumsText sums) a with
    | none =>
      rw [hentry] at hform
      have ha : ¬HasWheelForm a.name := fun hf => Bool.false_ne_true (hform.2 hf)
      rw [List.filterMap_cons_none hentry] at h
      refine List.forall_mem_cons.2 ⟨fun hf => absurd hf ha, ?_⟩
      generalize hentries : assets.filterMap _ = entries at h
      cases h with
      | wheel hw _ => exact absurd (hw.name ▸ hasWheelForm_wheelName pkg version _) ha
      | other _ hrest => exact ih (hentries ▸ hrest)
    | some e =>
      rw [List.filterMap_cons_some hentry] at h
      cases h with
      | @wheel w _ _ _ _ hw hrest =>
        obtain ⟨t, l, hparse, rfl⟩ := wheelEntry_eq_some.1 hentry
        have hright : parseWheelAsset (wheelName pkg version w) = some (w.triple, w.cpuLevel) := by
          rw [← hw.name, hparse, ← hw.triple, ← hw.cpuLevel]
        have hcount := (parseWheelAsset_wheelName pkg version w).1 hright
        exact List.forall_mem_cons.2 ⟨fun _ => ⟨⟨w, hw.name⟩, hcount⟩, ih hrest⟩
      | other _ hrest =>
        -- An entry for an asset that is no wheel would make the index longer than what is left to list.
        exact absurd (hrest.length_le (parseSha256sumsText sums)) (Nat.not_succ_le_self _)

end index

theorem generateIndex_exact (pkg version : Text) :
    (∀ w, parseWheelAsset (wheelName pkg version w) = some (w.triple, w.cpuLevel) ↔
      pkg.count '-' + version.count '-' = 1) ∧
    ∀ assets sums, Indexes pkg version sums assets
        (generateIndex pkg version assets (parseSha256sumsText sums)).wheels ↔
      OnlyWheelsOf pkg version assets :=
  ⟨parseWheelAsset_wheelName pkg version, fun _ _ => ⟨onlyWheelsOf_of_indexes, indexes_of_onlyWheelsOf⟩⟩

def linuxWheel : Wheel where
  triple := "x86_64-unknown-linux-gnu".toList
  cpuLevel := "v3".toList
  dashes := by decide
  known := by decide

/-- Without a dash in its name, a package loses the head of its triples. -/
theorem numpy_triple : parseWheelAsset (wheelName "numpy".toList "0.1.0".toList linuxWheel) =
      some ("unknown-linux-gnu".toList, "v3".toList) ∧
    ¬∀ pkg version w, parseWheelAsset (wheelName pkg version w) = some (w.triple, w.cpuLevel) := by
  refine ⟨by rfl, fun h => ?_⟩
  have hright := h "numpy".toList "0.1.0".toList linuxWheel
  exact absurd ((parseWheelAsset_wheelName _ _ _).1 hright) (by decide)

end Cobrust.Pkg
