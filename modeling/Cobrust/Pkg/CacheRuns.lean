import Cobrust.Pkg.Cache
import Mathlib.Data.List.Nodup

/-!
# What a cache entry holds

Two calls for the same hash share one staging directory.

* `dest_complete`: in a run in which no step takes an entry away that another call counts on, every
  directory of the cache holds its whole tarball, and so does the one that a successful call returns.
* `dest_partial`: without that, a call returns a directory that lacks a file.
-/

namespace Cobrust.Pkg

open Store (Table)

namespace Disk

variable {root : String} {archives : String → Archive} {s s' : Disk} {c d : Nat} {hex other : String}

/-- The tree has everything that is in the archive. -/
def Holds (tree : Tree) (archive : Archive) : Prop :=
  ∀ entry ∈ archive.entries, tree.find entry.path = some entry.kind

/-- Every directory of the cache is whole. -/
def Complete (archives : String → Archive) (s : Disk) : Prop :=
  ∀ hex tree, s.dest hex = some tree → Holds tree (archives hex)

/-- The call has created the entry, and has neither renamed the directory nor given up. -/
def CountsOn (archives : String → Archive) (s : Disk) (c : Nat) (hex : String) (entry : TarEntry) : Prop :=
  ∃ rest, s.calls c = some ⟨hex, .unpacking rest⟩ ∧ entry ∈ (archives hex).entries ∧ entry ∉ rest

/-- No step changes what another call counts on, as long as the directory of the cache is missing.
- A tarball lists no path twice.
- A removal starts when no other call counts on an entry of the directory.
- A write is cut short when no other call counts on the entry. -/
def Undisturbed (archives : String → Archive) (s : Disk) : Action → Prop
  | .insert _ hex => ((archives hex).entries.map TarEntry.path).Nodup
  | .clear c _ =>
    ∀ hex phase, s.calls c = some ⟨hex, phase⟩ → s.dest hex = none →
      ∀ d, d ≠ c → ∀ entry, ¬ s.CountsOn archives d hex entry
  | .fail c torn _ =>
    ∀ hex phase entry n, s.calls c = some ⟨hex, phase⟩ → s.dest hex = none → torn = some (entry, n) →
      ∀ d, d ≠ c → ¬ s.CountsOn archives d hex entry
  | .stop c torn =>
    ∀ hex phase entry n, s.calls c = some ⟨hex, phase⟩ → s.dest hex = none → torn = some (entry, n) →
      ∀ d, d ≠ c → ¬ s.CountsOn archives d hex entry
  | _ => True

/-- All steps of a run are undisturbed. -/
def UndisturbedRun (root : String) (archives : String → Archive) : Disk → List Action → Prop
  | _, [] => True
  | s, a :: actions =>
    s.Undisturbed archives a ∧ ∀ s', s.step root archives a = some s' → UndisturbedRun root archives s' actions

/-- The staging directory has the entry. -/
def Staged (s : Disk) (hex : String) (entry : TarEntry) : Prop :=
  ∃ tree, s.staging hex = some tree ∧ tree.find entry.path = some entry.kind

/-- What every call has done so far. -/
structure Inv (root : String) (archives : String → Archive) (s : Disk) : Prop where
  complete : s.Complete archives
  distinct : ∀ c hex phase, s.calls c = some ⟨hex, phase⟩ →
    ((archives hex).entries.map TarEntry.path).Nodup
  /-- What is still to be created is part of the archive. -/
  pending : ∀ c hex rest, s.calls c = some ⟨hex, .unpacking rest⟩ → ∀ entry ∈ rest, entry ∈ (archives hex).entries
  /-- What is created is there until some call has renamed the directory. -/
  created : ∀ c hex entry, s.CountsOn archives c hex entry → s.dest hex = none → s.Staged hex entry
  returned : ∀ c hex e, s.calls c = some ⟨hex, .returned (.ok e)⟩ →
    e = entry root hex ∧ (s.dest hex).isSome

theorem setCall_calls_self (phase : Phase) : (s.setCall c hex phase).calls c = some ⟨hex, phase⟩ :=
  Function.update_self ..

theorem setCall_calls_of_ne (phase : Phase) (h : d ≠ c) : (s.setCall c hex phase).calls d = s.calls d :=
  Function.update_of_ne h ..

/-- A new row keeps the others, and those of the same path if they are equal. -/
theorem staged_write {path : EntryPath} {kind : TarKind} {entry : TarEntry} (h : s.Staged other entry)
    (hsame : other = hex → entry.path = path → entry.kind = kind) : (s.write hex path kind).Staged other entry := by
  obtain ⟨tree, htree, hfind⟩ := h
  by_cases hhex : other = hex
  · subst hhex
    refine ⟨tree.put path kind, by simp [write, Table.insert, htree], ?_⟩
    rw [Tree.find, Tree.put, List.lookup_cons]
    by_cases hpath : entry.path = path
    · rw [hsame rfl hpath]
      simp [hpath]
    · have hne : (entry.path == path) = false := by simpa using hpath
      rw [hne]
      exact hfind
  · exact ⟨tree, by simp [write, Table.insert, hhex, htree], hfind⟩

theorem staged_write_self (entry : TarEntry) : (s.write hex entry.path entry.kind).Staged hex entry := by
  refine ⟨((s.staging hex).getD []).put entry.path entry.kind, by simp [write, Table.insert], ?_⟩
  rw [Tree.find, Tree.put, List.lookup_cons]
  simp

theorem tear_dest (torn : Option (TarEntry × Nat)) : (s.tear hex torn).dest = s.dest := by
  unfold tear
  split <;> rfl

theorem tear_calls (torn : Option (TarEntry × Nat)) : (s.tear hex torn).calls = s.calls := by
  unfold tear
  split <;> rfl

/-- Two entries of an archive with the same path are the same. -/
theorem entry_eq_of_path {archive : Archive} {a b : TarEntry} (h : (archive.entries.map TarEntry.path).Nodup)
    (ha : a ∈ archive.entries) (hb : b ∈ archive.entries) (hpath : a.path = b.path) : a = b :=
  List.inj_on_of_nodup_map h ha hb hpath

/-! ## One step -/

/-- A step of one call: what it must leave to the other calls, and what its new phase says. -/
theorem inv_setCall {phase : Phase} {s₁ : Disk} (h : Inv root archives s)
    (hdistinct : ((archives hex).entries.map TarEntry.path).Nodup) (hcalls : s₁.calls = s.calls)
    (hcomplete : s₁.Complete archives) (hdest : ∀ hex, s₁.dest hex = none → s.dest hex = none)
    (hothers : ∀ d, d ≠ c → ∀ hex entry, s.CountsOn archives d hex entry → s₁.dest hex = none →
      s.Staged hex entry → s₁.Staged hex entry)
    (hpending : ∀ rest, phase = .unpacking rest → ∀ entry ∈ rest, entry ∈ (archives hex).entries)
    (hself : ∀ rest, phase = .unpacking rest → ∀ entry ∈ (archives hex).entries, entry ∉ rest →
      s₁.dest hex = none → s₁.Staged hex entry)
    (hreturned : ∀ e, phase = .returned (.ok e) → e = entry root hex ∧ (s₁.dest hex).isSome) :
    Inv root archives (s₁.setCall c hex phase) := by
  have hne : ∀ {d}, d ≠ c → (s₁.setCall c hex phase).calls d = s.calls d := by
    intro d hd
    rw [setCall_calls_of_ne phase hd, hcalls]
  refine ⟨hcomplete, ?_, ?_, ?_, ?_⟩
  · intro d hex' phase' hd
    by_cases hdc : d = c
    · subst hdc
      rw [setCall_calls_self] at hd
      cases hd
      exact hdistinct
    · exact h.distinct d hex' phase' ((hne hdc).symm.trans hd)
  · intro d hex' rest hd
    by_cases hdc : d = c
    · subst hdc
      rw [setCall_calls_self] at hd
      cases hd
      exact hpending rest rfl
    · exact h.pending d hex' rest ((hne hdc).symm.trans hd)
  · rintro d hex' entry ⟨rest, hd, hmem, hrest⟩ hnone
    by_cases hdc : d = c
    · subst hdc
      rw [setCall_calls_self] at hd
      cases hd
      exact hself rest rfl entry hmem hrest hnone
    · have hcounts : s.CountsOn archives d hex' entry := ⟨rest, (hne hdc).symm.trans hd, hmem, hrest⟩
      exact hothers d hdc hex' entry hcounts hnone (h.created d hex' entry hcounts (hdest hex' hnone))
  · intro d hex' e hd
    by_cases hdc : d = c
    · subst hdc
      rw [setCall_calls_self] at hd
      cases hd
      exact hreturned e rfl
    · obtain ⟨he, hsome⟩ := h.returned d hex' e ((hne hdc).symm.trans hd)
      refine ⟨he, ?_⟩
      show (s₁.dest hex').isSome
      by_contra hnone
      have hs := hdest hex' (Option.isNone_iff_eq_none.1 (by simpa using hnone))
      rw [hs] at hsome
      cases hsome

/-- A call that changes nothing on the disk, and creates nothing in its new phase. -/
theorem inv_phase {phase : Phase} (h : Inv root archives s)
    (hdistinct : ((archives hex).entries.map TarEntry.path).Nodup)
    (hphase : ∀ rest, phase ≠ .unpacking rest)
    (hreturned : ∀ e, phase = .returned (.ok e) → e = entry root hex ∧ (s.dest hex).isSome) :
    Inv root archives (s.setCall c hex phase) :=
  inv_setCall h hdistinct rfl h.complete (fun _ hnone => hnone) (fun _ _ _ _ _ _ hs => hs)
    (fun rest hrest => absurd hrest (hphase rest)) (fun rest hrest => absurd hrest (hphase rest)) hreturned

theorem unpacking_of_mayTear {phase : Phase} {entry : TarEntry} {n : Nat} (h : mayTear phase (some (entry, n))) :
    ∃ rest, phase = .unpacking rest ∧ entry ∈ rest := by
  cases phase with
  | unpacking rest => exact ⟨rest, rfl, List.contains_iff_mem.1 h⟩
  | looking => cases h
  | clearing => cases h
  | staging => cases h
  | returned result => cases h
  | stopped => cases h

/-- A call that gives up, with a write that is cut short or without. -/
theorem inv_tear {phase phase' : Phase} {torn : Option (TarEntry × Nat)} (h : Inv root archives s)
    (hc : s.calls c = some ⟨hex, phase⟩) (htorn : mayTear phase torn)
    (hsafe : ∀ entry n, s.dest hex = none → torn = some (entry, n) →
      ∀ d, d ≠ c → ¬ s.CountsOn archives d hex entry)
    (hphase : ∀ rest, phase' ≠ .unpacking rest) (hreturned : ∀ e, phase' ≠ .returned (.ok e)) :
    Inv root archives ((s.tear hex torn).setCall c hex phase') := by
  have hcomplete : (s.tear hex torn).Complete archives := by
    unfold Complete
    rw [tear_dest]
    exact h.complete
  refine inv_setCall h (h.distinct c hex phase hc) (tear_calls torn) hcomplete ?_ ?_
    (fun rest hrest => absurd hrest (hphase rest)) (fun rest hrest => absurd hrest (hphase rest))
    (fun e he => absurd he (hreturned e))
  · intro hex' hnone
    rwa [tear_dest] at hnone
  · intro d hd hex' entry hcounts hnone hstaged
    rw [tear_dest] at hnone
    unfold tear
    split
    · next path bytes n =>
      refine staged_write hstaged ?_
      rintro rfl hpath
      -- the torn file is one of the archive, so it is the entry the other call counts on
      exfalso
      have hmem : (⟨path, .file bytes⟩ : TarEntry) ∈ (archives hex').entries := by
        obtain ⟨rest, rfl, hrest⟩ := unpacking_of_mayTear htorn
        exact h.pending c hex' rest hc _ hrest
      obtain ⟨rest, hrest⟩ := hcounts
      obtain rfl := entry_eq_of_path (h.distinct c hex' phase hc) hrest.2.1 hmem hpath
      exact hsafe _ n hnone rfl d hd ⟨rest, hrest⟩
    · exact hstaged

theorem inv_clear {left : Option (List EntryPath)} (h : Inv root archives s)
    (hc : s.calls c = some ⟨hex, .clearing⟩) (hsafe : s.Undisturbed archives (.clear c left)) :
    Inv root archives ({ s with
      staging := Function.update s.staging hex (cleared (s.staging hex) left) }.setCall c hex .staging) := by
  refine inv_setCall h (h.distinct c hex _ hc) rfl h.complete (fun _ hnone => hnone) ?_
    (fun rest hrest => by cases hrest) (fun rest hrest => by cases hrest) (fun e he => by cases he)
  intro d hd hex' entry hcounts hnone hstaged
  by_cases hhex : hex' = hex
  · subst hhex
    exact absurd hcounts (hsafe hex' _ hc hnone d hd entry)
  · obtain ⟨tree, htree, hfind⟩ := hstaged
    exact ⟨tree, (Function.update_of_ne hhex ..).trans htree, hfind⟩

theorem inv_mkdir {phase : Phase} (h : Inv root archives s) (hc : s.calls c = some ⟨hex, .staging⟩)
    (hphase : phase = .unpacking (archives hex).entries ∨ ∃ e, phase = .returned (.error e)) :
    Inv root archives ({ s with
      staging := s.staging.insert hex ((s.staging hex).getD []) }.setCall c hex phase) := by
  refine inv_setCall h (h.distinct c hex _ hc) rfl h.complete (fun _ hnone => hnone) ?_ ?_ ?_ ?_
  · rintro d hd hex' entry hcounts hnone ⟨tree, htree, hfind⟩
    refine ⟨tree, ?_, hfind⟩
    by_cases hhex : hex' = hex
    · subst hhex
      simp [Table.insert, htree]
    · simp [Table.insert, hhex, htree]
  · rintro rest rfl entry hmem
    rcases hphase with heq | ⟨e, heq⟩
    · cases heq
      exact hmem
    · cases heq
  · rintro rest rfl entry hmem hrest
    rcases hphase with heq | ⟨e, heq⟩
    · cases heq
      exact absurd hmem hrest
    · cases heq
  · rintro e rfl
    rcases hphase with heq | ⟨e, heq⟩ <;> cases heq

theorem inv_unpack {rest : List TarEntry} {entry : TarEntry} (h : Inv root archives s)
    (hc : s.calls c = some ⟨hex, .unpacking rest⟩) (hentry : entry ∈ rest) :
    Inv root archives ((s.write hex entry.path entry.kind).setCall c hex (.unpacking (rest.erase entry))) := by
  have hdistinct := h.distinct c hex _ hc
  have hmem := h.pending c hex rest hc entry hentry
  have hkept : ∀ {other}, other ∈ (archives hex).entries → s.Staged hex other →
      (s.write hex entry.path entry.kind).Staged hex other := by
    intro other hother hstaged
    refine staged_write hstaged fun _ hpath => ?_
    rw [entry_eq_of_path hdistinct hother hmem hpath]
  refine inv_setCall h hdistinct rfl h.complete (fun _ hnone => hnone) ?_ ?_ ?_ (fun e he => by cases he)
  · intro d hd hex' other hcounts hnone hstaged
    by_cases hhex : hex' = hex
    · subst hhex
      obtain ⟨-, -, hother, -⟩ := hcounts
      exact hkept hother hstaged
    · exact staged_write hstaged fun heq => absurd heq hhex
  · rintro _ heq other hother
    cases heq
    exact h.pending c hex rest hc other (List.mem_of_mem_erase hother)
  · rintro _ heq other hother hrest hnone
    cases heq
    by_cases hne : other = entry
    · subst hne
      exact staged_write_self other
    · have hrest' : other ∉ rest := fun hin => hrest ((List.mem_erase_of_ne hne).2 hin)
      exact hkept hother (h.created c hex other ⟨rest, hc, hother, hrest'⟩ hnone)

theorem inv_rename {tree : Tree} (h : Inv root archives s) (hc : s.calls c = some ⟨hex, .unpacking []⟩)
    (hmoves : s.moves hex = some tree) :
    Inv root archives ({ s with
      dest := s.dest.insert hex tree
      staging := Function.update s.staging hex none }.setCall c hex (.returned (.ok (entry root hex)))) := by
  have hholds : Holds tree (archives hex) := by
    unfold moves at hmoves
    split at hmoves
    · next hstaging hdest =>
      cases hmoves
      intro entry hentry
      have hcounts : s.CountsOn archives c hex entry := ⟨[], hc, hentry, List.not_mem_nil⟩
      obtain ⟨tree', htree', hfind⟩ := h.created c hex entry hcounts hdest
      rw [hstaging] at htree'
      cases htree'
      exact hfind
    · next hstaging hdest =>
      -- an empty directory is whole only for an archive without entries
      intro entry hentry
      have hfind := h.complete hex [] hdest entry hentry
      cases hfind
    · cases hmoves
  refine inv_setCall h (h.distinct c hex _ hc) rfl ?_ ?_ ?_ (fun rest hrest => by cases hrest)
    (fun rest hrest => by cases hrest) ?_
  · intro hex' tree' htree'
    by_cases hhex : hex' = hex
    · subst hhex
      simp only [Table.insert, Function.update_self, Option.some.injEq] at htree'
      rw [← htree']
      exact hholds
    · simp only [Table.insert, Function.update_of_ne hhex] at htree'
      exact h.complete hex' tree' htree'
  · intro hex' hnone
    by_cases hhex : hex' = hex
    · subst hhex
      simp [Table.insert] at hnone
    · simpa [Table.insert, hhex] using hnone
  · rintro d hd hex' entry hcounts hnone ⟨tree', htree', hfind⟩
    by_cases hhex : hex' = hex
    · subst hhex
      simp [Table.insert] at hnone
    · exact ⟨tree', (Function.update_of_ne hhex ..).trans htree', hfind⟩
  · rintro e heq
    cases heq
    exact ⟨rfl, by simp [Table.insert]⟩

theorem inv_step {a : Action} (h : Inv root archives s) (hsafe : s.Undisturbed archives a)
    (hstep : s.step root archives a = some s') : Inv root archives s' := by
  cases a with
  | insert c hex =>
    simp only [step] at hstep
    split at hstep
    · cases hstep
      exact inv_phase h hsafe (fun _ heq => by cases heq) (fun _ heq => by cases heq)
    · cases hstep
  | look c =>
    simp only [step] at hstep
    split at hstep
    · next hex hc =>
      split at hstep
      · next tree hdest =>
        cases hstep
        refine inv_phase h (h.distinct c hex _ hc) (fun _ heq => by cases heq) fun e heq => ?_
        cases heq
        exact ⟨rfl, by rw [hdest]; rfl⟩
      · cases hstep
        exact inv_phase h (h.distinct c hex _ hc) (fun _ heq => by cases heq) (fun _ heq => by cases heq)
    · cases hstep
  | lookFails c =>
    simp only [step] at hstep
    split at hstep
    · next hex hc =>
      cases hstep
      exact inv_phase h (h.distinct c hex _ hc) (fun _ heq => by cases heq) (fun _ heq => by cases heq)
    · cases hstep
  | clear c left =>
    simp only [step] at hstep
    split at hstep
    · next hex hc =>
      cases hstep
      exact inv_clear h hc hsafe
    · cases hstep
  | mkdir c =>
    simp only [step] at hstep
    split at hstep
    · next hex hc =>
      split at hstep
      · next entries hvalid =>
        cases hstep
        exact inv_mkdir h hc (.inl (by rw [entries_of_validate hvalid]))
      · next e hvalid =>
        cases hstep
        exact inv_mkdir h hc (.inr ⟨_, rfl⟩)
    · cases hstep
  | unpack c entry =>
    simp only [step] at hstep
    split at hstep
    · next hex rest hc =>
      split at hstep
      · next hentry =>
        cases hstep
        exact inv_unpack h hc (List.contains_iff_mem.1 hentry)
      · cases hstep
    · cases hstep
  | rename c =>
    simp only [step] at hstep
    split at hstep
    · next hex hc =>
      split at hstep
      · next tree hmoves =>
        cases hstep
        exact inv_rename h hc hmoves
      · cases hstep
        exact inv_phase h (h.distinct c hex _ hc) (fun _ heq => by cases heq) (fun _ heq => by cases heq)
    · cases hstep
  | fail c torn message =>
    simp only [step] at hstep
    split at hstep
    · next hex hc =>
      split at hstep
      · cases hstep
        exact inv_phase h (h.distinct c hex _ hc) (fun _ heq => by cases heq) (fun _ heq => by cases heq)
      · cases hstep
    · next hex rest hc =>
      split at hstep
      · next htorn =>
        cases hstep
        exact inv_tear h hc htorn (fun entry n hnone htorn => hsafe hex _ entry n hc hnone htorn)
          (fun _ heq => by cases heq) (fun _ heq => by cases heq)
      · cases hstep
    · cases hstep
  | stop c torn =>
    simp only [step] at hstep
    split at hstep
    · cases hstep
    · next hex phase hreturned hc =>
      split at hstep
      · next htorn =>
        cases hstep
        exact inv_tear h hc htorn (fun entry n hnone htorn => hsafe hex _ entry n hc hnone htorn)
          (fun _ heq => by cases heq) (fun _ heq => by cases heq)
      · cases hstep
    · cases hstep

/-! ## Runs -/

theorem inv_run {actions : List Action} (h : Inv root archives s) (hsafe : UndisturbedRun root archives s actions)
    (hrun : s.run root archives actions = some s') : Inv root archives s' := by
  induction actions generalizing s with
  | nil =>
    cases hrun
    exact h
  | cons a actions ih =>
    rw [run, List.foldlM_cons] at hrun
    obtain ⟨s₁, hstep, hrun⟩ := Option.bind_eq_some_iff.1 hrun
    exact ih (inv_step h hsafe.1 hstep) (hsafe.2 s₁ hstep) hrun

theorem inv_of_idle (hcomplete : s.Complete archives) (hidle : ∀ c, s.calls c = none) : Inv root archives s := by
  refine ⟨hcomplete, ?_, ?_, ?_, ?_⟩
  · intro c hex phase hc
    rw [hidle c] at hc
    cases hc
  · intro c hex rest hc
    rw [hidle c] at hc
    cases hc
  · rintro c hex entry ⟨rest, hc, -⟩
    rw [hidle c] at hc
    cases hc
  · intro c hex e hc
    rw [hidle c] at hc
    cases hc

/-- In an undisturbed run from a whole cache, whatever the staging directories hold, every directory of the
cache is whole in every state, and a call that returns an entry returns one of those. -/
theorem dest_complete {actions : List Action} (hcomplete : s.Complete archives) (hidle : ∀ c, s.calls c = none)
    (hsafe : UndisturbedRun root archives s actions) (hrun : s.run root archives actions = some s') :
    s'.Complete archives ∧
      ∀ c hex e, s'.calls c = some ⟨hex, .returned (.ok e)⟩ →
        e = entry root hex ∧ ∃ tree, s'.dest hex = some tree ∧ Holds tree (archives hex) := by
  have h := inv_run (inv_of_idle hcomplete hidle) hsafe hrun
  refine ⟨h.complete, fun c hex e hc => ?_⟩
  obtain ⟨he, hsome⟩ := h.returned c hex e hc
  obtain ⟨tree, htree⟩ := Option.isSome_iff_exists.1 hsome
  exact ⟨he, tree, htree, h.complete hex tree htree⟩

/-- A cache without packages. -/
def fresh : Disk :=
  ⟨Table.empty, Table.empty, Table.empty⟩

def manifestFile : TarEntry :=
  ⟨[.normal "cobrust.toml"], .file [91]⟩

def mainFile : TarEntry :=
  ⟨[.normal "src", .normal "main.cb"], .file [35]⟩

/-- Every package has a manifest and a source file. -/
def twoFiles : String → Archive :=
  fun _ => [.ok manifestFile, .ok mainFile]

theorem fresh_complete : fresh.Complete twoFiles :=
  fun _ _ h => by cases h

/-- One call, alone. -/
def soloRun : List Action :=
  [.insert 0 "c0ffee", .look 0, .clear 0 none, .mkdir 0, .unpack 0 manifestFile, .unpack 0 mainFile, .rename 0]

theorem soloRun_undisturbed : UndisturbedRun "~" twoFiles fresh soloRun := by
  have hdistinct : ((twoFiles "c0ffee").entries.map TarEntry.path).Nodup := by decide
  refine ⟨hdistinct, ?_⟩
  rintro _ ⟨⟩
  refine ⟨trivial, ?_⟩
  rintro _ ⟨⟩
  refine ⟨?_, ?_⟩
  · rintro hex phase - - d hd entry ⟨rest, hrest, -⟩
    have hnone : (fresh.setCall 0 "c0ffee" .looking).calls d = none := setCall_calls_of_ne _ hd
    rw [setCall_calls_of_ne _ hd, hnone] at hrest
    cases hrest
  rintro _ ⟨⟩
  refine ⟨trivial, ?_⟩
  rintro _ ⟨⟩
  refine ⟨trivial, ?_⟩
  rintro _ ⟨⟩
  refine ⟨trivial, ?_⟩
  rintro _ ⟨⟩
  exact ⟨trivial, fun _ _ => trivial⟩

theorem dest_complete_solo :
    ∃ s, fresh.run "~" twoFiles soloRun = some s ∧ s.Complete twoFiles ∧
      ∃ tree, s.dest "c0ffee" = some tree ∧ Holds tree (twoFiles "c0ffee") := by
  refine ⟨_, rfl, ?_⟩
  obtain ⟨hcomplete, hreturned⟩ := dest_complete fresh_complete (fun _ => rfl) soloRun_undisturbed rfl
  exact ⟨hcomplete, (hreturned 0 "c0ffee" _ rfl).2⟩

/-- The second call clears the directory while the first one fills it. -/
def sharedRun : List Action :=
  [.insert 0 "c0ffee", .look 0, .insert 1 "c0ffee", .look 1, .clear 0 none, .mkdir 0, .unpack 0 manifestFile,
    .clear 1 none, .mkdir 1, .unpack 0 mainFile, .rename 0]

/-- The first call returns a directory without the manifest. -/
theorem dest_partial :
    ∃ s, fresh.run "~" twoFiles sharedRun = some s ∧
      (s.calls 0).map Call.phase = some (.returned (.ok (entry "~" "c0ffee"))) ∧
      s.dest "c0ffee" = some [(mainFile.path, mainFile.kind)] ∧ ¬ s.Complete twoFiles := by
  refine ⟨_, rfl, rfl, rfl, fun h => ?_⟩
  have hfind := h "c0ffee" _ rfl manifestFile (by simp [twoFiles, Archive.entries, Except.toOption])
  revert hfind
  decide

end Disk

end Cobrust.Pkg
