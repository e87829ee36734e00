import Cobrust.Router.Cache

/-!
# Cache entries are whole

The puts of a key share one temporary file.

* `inv_step`: a step keeps the invariant unless a put opens the temporary file of another one that runs.
* `cache_atomic`: in runs of such steps every get reads what one put wrote, and no put misses its file; where a put
  does open the file of another one, the other one can be made to fail.
-/

namespace Cobrust.Router

open Store (Table)
open Store.Table (insert_self insert_of_ne)

variable {F : Type} {toVec : CacheEntry F → Bytes} {s s' : Disk F} {c d : Nat} {p q : Put F} {key key' : String}
  {file : Inode} {bytes : Bytes}

/-- The put has created the temporary file and not yet renamed it. -/
def PutPhase.HasTemp : PutPhase → Prop
  | .writing _ _ => True
  | .setting_permissions => True
  | .moving => True
  | _ => False

/-- A put opens the temporary file when no other put of the key, still running, has it. -/
def Alone (s : Disk F) : Action F → Prop
  | .create c _ => ∀ p d q, s.puts c = some p → s.puts d = some q → d ≠ c → q.key = p.key → ¬ q.phase.HasTemp
  | _ => True

/-- A put of the key that succeeded wrote these bytes. -/
def Disk.Wrote (toVec : CacheEntry F → Bytes) (s : Disk F) (key : String) (bytes : Bytes) : Prop :=
  ∃ c p, s.puts c = some p ∧ p.key = key ∧ p.phase = .returned (.ok ()) ∧ bytes = toVec p.entry

/-- What every get that found a file has read was written by one put of its key, and no put missed its temporary
file. -/
structure Disk.Atomic (toVec : CacheEntry F → Bytes) (s : Disk F) : Prop where
  found : ∀ g key bytes, s.gets g = some ⟨key, .returned (some bytes)⟩ → s.Wrote toVec key bytes
  present : ∀ c p, s.puts c = some p → p.phase ≠ .returned (.error .NotFound)

/-- A file that no put writes any more, with what one put wrote. -/
def Disk.Complete (toVec : CacheEntry F → Bytes) (s : Disk F) (key : String) (file : Inode) : Prop :=
  (∀ key', s.tmp key' ≠ some file) ∧ ∃ bytes, s.files file = some bytes ∧ s.Wrote toVec key bytes

/-- How far a put is with its temporary file. -/
def Put.Written (toVec : CacheEntry F → Bytes) (p : Put F) (file : Inode) (content : Bytes) : Prop :=
  match p.phase with
  | .writing file' k => file' = file ∧ k ≤ (toVec p.entry).length ∧ content = (toVec p.entry).take k
  | _ => content = toVec p.entry

/-- The temporary file of a put is as the put left it. -/
def Disk.Owns (toVec : CacheEntry F → Bytes) (s : Disk F) (p : Put F) : Prop :=
  ∃ file content, s.tmp p.key = some file ∧ s.files file = some content ∧ p.Written toVec file content

structure Disk.Inv (toVec : CacheEntry F → Bytes) (s : Disk F) : Prop where
  owns : ∀ c p, s.puts c = some p → p.phase.HasTemp → s.Owns toVec p
  exclusive : ∀ c d p q, s.puts c = some p → s.puts d = some q → c ≠ d → p.phase.HasTemp → q.phase.HasTemp → p.key ≠ q.key
  exists_tmp : ∀ key file, s.tmp key = some file → (s.files file).isSome
  tmp_injective : ∀ key key' file, s.tmp key = some file → s.tmp key' = some file → key = key'
  complete : ∀ key file, s.json key = some file → s.Complete toVec key file
  reading : ∀ g key file bytes, s.gets g = some ⟨key, .reading file bytes⟩ →
    s.Complete toVec key file ∧ ∀ content, s.files file = some content → bytes <+: content
  atomic : s.Atomic toVec

/-! ## Steps of puts -/

/-- What a step of a put leaves to the others: files without a temporary name, and the temporary files of other
keys. -/
structure PutFrame (s s₁ : Disk F) (p : Put F) : Prop where
  puts : s₁.puts = s.puts
  gets : s₁.gets = s.gets
  tmp : ∀ key, key ≠ p.key → s₁.tmp key = s.tmp key
  files : ∀ file, (∀ key, s.tmp key ≠ some file) → (s.files file).isSome → s₁.files file = s.files file
  /-- A new temporary file has no other name. -/
  fresh : ∀ key file, s₁.tmp key = some file → s.tmp key = some file ∨ s.files file = none
  others : ∀ key file, key ≠ p.key → s.tmp key = some file → s₁.files file = s.files file

theorem PutFrame.refl (s : Disk F) (p : Put F) : PutFrame s s p :=
  ⟨rfl, rfl, fun _ _ => rfl, fun _ _ _ => rfl, fun _ _ h => .inl h, fun _ _ _ _ => rfl⟩

theorem wrote_setPut {s₁ : Disk F} {phase : PutPhase} (hputs : s₁.puts = s.puts) (hc : s.puts c = some p)
    (hlive : p.phase.Live) (h : s.Wrote toVec key bytes) : (s₁.setPut c p phase).Wrote toVec key bytes := by
  obtain ⟨d, q, hd, hkey, hphase, hbytes⟩ := h
  refine ⟨d, q, ?_, hkey, hphase, hbytes⟩
  have hne : d ≠ c := by
    intro heq
    rw [heq, hc] at hd
    cases hd
    rw [hphase] at hlive
    exact hlive
  rw [Disk.setPut, hputs]
  exact (insert_of_ne hne).trans hd

theorem complete_setPut {s₁ : Disk F} {phase : PutPhase} (hframe : PutFrame s s₁ p) (hc : s.puts c = some p)
    (hlive : p.phase.Live) (h : s.Complete toVec key file) :
    (s₁.setPut c p phase).Complete toVec key file ∧ s₁.files file = s.files file := by
  obtain ⟨htmp, bytes, hbytes, hwrote⟩ := h
  have hsame := hframe.files file htmp (by rw [hbytes]; rfl)
  refine ⟨⟨fun key' hkey' => ?_, bytes, hsame.trans hbytes, wrote_setPut hframe.puts hc hlive hwrote⟩, hsame⟩
  rcases hframe.fresh key' file hkey' with h | h
  · exact htmp key' h
  · rw [h] at hbytes
    cases hbytes

theorem inv_setPut {s₁ : Disk F} {phase : PutPhase} (h : s.Inv toVec) (hc : s.puts c = some p) (hlive : p.phase.Live)
    (hframe : PutFrame s s₁ p) (hexists : ∀ key file, s₁.tmp key = some file → (s₁.files file).isSome)
    (howns : phase.HasTemp → s₁.Owns toVec { p with phase })
    (halone : phase.HasTemp → ∀ d q, s.puts d = some q → d ≠ c → q.key = p.key → ¬ q.phase.HasTemp)
    (hothers : ¬ phase.HasTemp → s₁.tmp p.key = s.tmp p.key ∧ s₁.files = s.files ∨
      ∀ d q, s.puts d = some q → d ≠ c → q.key = p.key → ¬ q.phase.HasTemp)
    (hjson : ∀ key file, s₁.json key = some file → s.json key = some file ∨ (s₁.setPut c p phase).Complete toVec key file)
    (hphase : phase ≠ .returned (.error .NotFound)) : (s₁.setPut c p phase).Inv toVec := by
  have hcomplete {key : String} {file : Inode} (hfile : s.Complete toVec key file) :
      (s₁.setPut c p phase).Complete toVec key file ∧ s₁.files file = s.files file :=
    complete_setPut hframe hc hlive hfile
  have hne {d : Nat} (hd : d ≠ c) : (s₁.setPut c p phase).puts d = s.puts d := by
    rw [Disk.setPut, hframe.puts]
    exact insert_of_ne hd
  have hself {q : Put F} (hq : (s₁.setPut c p phase).puts c = some q) : q = { p with phase } := by
    rw [Disk.setPut] at hq
    exact (Option.some.inj ((insert_self ..).symm.trans hq)).symm
  refine ⟨?_, ?_, hexists, ?_, ?_, ?_, ⟨?_, ?_⟩⟩
  · intro d q hd htemp
    by_cases hdc : d = c
    · subst hdc
      cases hself hd
      exact howns htemp
    · rw [hne hdc] at hd
      obtain ⟨file, content, hfile, hcontent, hwritten⟩ := h.owns d q hd htemp
      by_cases hkey : q.key = p.key
      · by_cases hphase : phase.HasTemp
        · exact absurd htemp (halone hphase d q hd hdc hkey)
        · rcases hothers hphase with ⟨htmp, hfiles⟩ | hno
          · refine ⟨file, content, ?_, (congrFun hfiles file).trans hcontent, hwritten⟩
            rw [hkey] at hfile ⊢
            exact htmp.trans hfile
          · exact absurd htemp (hno d q hd hdc hkey)
      · exact ⟨file, content, (hframe.tmp q.key hkey).trans hfile,
          (hframe.others q.key file hkey hfile).trans hcontent, hwritten⟩
  · intro d e q r hd he hde hq hr
    by_cases hdc : d = c
    · subst hdc
      cases hself hd
      rw [hne hde.symm] at he
      exact fun hkey => halone hq e r he hde.symm hkey.symm hr
    · rw [hne hdc] at hd
      by_cases hec : e = c
      · subst hec
        cases hself he
        exact fun hkey => halone hr d q hd hdc hkey hq
      · rw [hne hec] at he
        exact h.exclusive d e q r hd he hde hq hr
  · intro key key' file hkey hkey'
    rcases hframe.fresh key file hkey with hold | hnew
    · rcases hframe.fresh key' file hkey' with hold' | hnew'
      · exact h.tmp_injective key key' file hold hold'
      · have := h.exists_tmp key file hold
        rw [hnew'] at this
        cases this
    · -- both names are new, and a step names one file
      by_cases hp : key = p.key
      · by_cases hp' : key' = p.key
        · exact hp.trans hp'.symm
        · have := h.exists_tmp key' file ((hframe.tmp key' hp').symm.trans hkey')
          rw [hnew] at this
          cases this
      · have := h.exists_tmp key file ((hframe.tmp key hp).symm.trans hkey)
        rw [hnew] at this
        cases this
  · intro key file hfile
    rcases hjson key file hfile with hold | hnew
    · exact (hcomplete (h.complete key file hold)).1
    · exact hnew
  · intro g key file bytes hg
    have hg : s.gets g = some ⟨key, .reading file bytes⟩ := (congrFun hframe.gets g).symm.trans hg
    obtain ⟨hfile, hread⟩ := h.reading g key file bytes hg
    obtain ⟨hfile', hsame⟩ := hcomplete hfile
    exact ⟨hfile', fun content hcontent => hread content (hsame.symm.trans hcontent)⟩
  · intro g key bytes hg
    exact wrote_setPut hframe.puts hc hlive (h.atomic.found g key bytes ((congrFun hframe.gets g).symm.trans hg))
  · intro d q hd
    by_cases hdc : d = c
    · subst hdc
      rw [hself hd]
      exact hphase
    · rw [hne hdc] at hd
      exact h.atomic.present d q hd

theorem inv_phase {phase : PutPhase} (h : s.Inv toVec) (hc : s.puts c = some p) (hlive : p.phase.Live)
    (htemp : phase.HasTemp → p.phase.HasTemp ∧ s.Owns toVec { p with phase })
    (hphase : phase ≠ .returned (.error .NotFound)) : (s.setPut c p phase).Inv toVec :=
  inv_setPut h hc hlive (.refl s p) h.exists_tmp (fun hnew => (htemp hnew).2)
    (fun hnew d q hd hne hkey hq => h.exclusive c d p q hc hd hne.symm (htemp hnew).1 hq hkey.symm)
    (fun _ => .inl ⟨rfl, rfl⟩) (fun _ _ hfile => .inl hfile) hphase

theorem inv_create {new : Inode} (h : s.Inv toVec) (hc : s.puts c = some p) (hphase : p.phase = .creating)
    (hnew : s.files new = none) (halone : Alone s (.create c new)) :
    ({ s with
      tmp := s.tmp.insert p.key ((s.tmp p.key).getD new)
      files := s.files.insert ((s.tmp p.key).getD new) [] }.setPut c p (.writing ((s.tmp p.key).getD new) 0)).Inv toVec := by
  generalize hfile : (s.tmp p.key).getD new = file
  have hkeep (key : String) (hkey : s.tmp key = some file) : key = p.key := by
    cases htmp : s.tmp p.key with
    | none =>
      rw [htmp, Option.getD_none] at hfile
      have := h.exists_tmp key file hkey
      rw [← hfile, hnew] at this
      cases this
    | some old =>
      rw [htmp, Option.getD_some] at hfile
      exact h.tmp_injective key p.key file hkey (hfile ▸ htmp)
  have hor : s.tmp p.key = some file ∨ s.files file = none := by
    cases htmp : s.tmp p.key with
    | none =>
      rw [htmp, Option.getD_none] at hfile
      exact .inr (hfile ▸ hnew)
    | some old =>
      rw [htmp, Option.getD_some] at hfile
      exact .inl (congrArg some hfile)
  refine inv_setPut h hc (by rw [hphase]; trivial) ⟨rfl, rfl, fun key hne => insert_of_ne hne, ?_, ?_, ?_⟩ ?_ ?_ ?_ ?_
    (fun _ _ hjson => .inl hjson) (fun heq => by cases heq)
  · intro file' hnames hsome
    refine insert_of_ne fun heq => ?_
    subst heq
    rcases hor with hold | hnone
    · exact hnames p.key hold
    · rw [hnone] at hsome
      cases hsome
  · intro key file' hkey
    by_cases hne : key = p.key
    · subst hne
      cases (insert_self ..).symm.trans hkey
      exact hor
    · exact .inl ((insert_of_ne hne).symm.trans hkey)
  · intro key file' hne hkey
    refine insert_of_ne fun heq => hne (hkeep key (heq ▸ hkey))
  · intro key file' hkey
    by_cases heq : file' = file
    · subst heq
      exact Option.isSome_iff_exists.2 ⟨_, insert_self ..⟩
    · have hne : key ≠ p.key := by
        rintro rfl
        exact heq (Option.some.inj ((insert_self ..).symm.trans hkey)).symm
      have hold := h.exists_tmp key file' ((insert_of_ne hne).symm.trans hkey)
      exact (congrArg Option.isSome (insert_of_ne heq)).trans hold
  · exact fun _ => ⟨file, [], insert_self .., insert_self .., rfl, Nat.zero_le _, rfl⟩
  · exact fun _ d q hd hne hkey => halone p d q hc hd hne hkey
  · exact fun hno => absurd trivial hno

theorem overwrite_take {content : Bytes} {k n : Nat} (hn : k + n ≤ content.length) :
    overwrite (content.take k) k ((content.drop k).take n) = content.take (k + n) := by
  have hpiece : ((content.drop k).take n).length = n := by
    rw [List.length_take, List.length_drop]
    omega
  have htail : (content.take k).drop (k + n) = [] := List.drop_eq_nil_of_le (by rw [List.length_take]; omega)
  rw [overwrite, hpiece, htail, List.append_nil, List.length_take, Nat.min_eq_left (by omega), Nat.sub_self,
    List.replicate_zero, List.append_nil, List.take_take, Nat.min_self, List.take_add]

theorem inv_write {k n : Nat} (h : s.Inv toVec) (hc : s.puts c = some p) (hphase : p.phase = .writing file k)
    (hn : k + n ≤ (toVec p.entry).length) :
    ({ s with files := s.files.insert file (overwrite ((s.files file).getD []) k (((toVec p.entry).drop k).take n)) }.setPut
      c p (.writing file (k + n))).Inv toVec := by
  have htemp : p.phase.HasTemp := by rw [hphase]; trivial
  obtain ⟨file', content, htmp, hcontent, hwritten⟩ := h.owns c p hc htemp
  rw [Put.Written, hphase] at hwritten
  obtain ⟨rfl, -, rfl⟩ := hwritten
  refine inv_setPut h hc (by rw [hphase]; trivial) ⟨rfl, rfl, fun _ _ => rfl, ?_, fun _ _ hkey => .inl hkey, ?_⟩ ?_ ?_ ?_
    (fun hno => absurd trivial hno) (fun _ _ hjson => .inl hjson) (fun heq => by cases heq)
  · intro other hnames _
    refine insert_of_ne fun heq => hnames p.key (heq ▸ htmp)
  · intro key other hne hkey
    refine insert_of_ne fun heq => hne (h.tmp_injective key p.key other hkey (heq ▸ htmp))
  · intro key other hkey
    by_cases heq : other = file
    · subst heq
      exact Option.isSome_iff_exists.2 ⟨_, insert_self ..⟩
    · exact (congrArg Option.isSome (insert_of_ne heq)).trans (h.exists_tmp key other hkey)
  · intro _
    refine ⟨file, _, htmp, insert_self .., rfl, hn, ?_⟩
    rw [hcontent, Option.getD_some, overwrite_take hn]
  · exact fun _ d q hd hne hkey hq => h.exclusive c d p q hc hd hne.symm htemp hq hkey.symm

theorem inv_rename (h : s.Inv toVec) (hc : s.puts c = some p) (hphase : p.phase = .moving)
    (htmp : s.tmp p.key = some file) :
    ({ s with
      json := s.json.insert p.key file
      tmp := Function.update s.tmp p.key none }.setPut c p (.returned (.ok ()))).Inv toVec := by
  have htemp : p.phase.HasTemp := by rw [hphase]; trivial
  obtain ⟨file', content, htmp', hcontent, hwritten⟩ := h.owns c p hc htemp
  rw [Put.Written, hphase] at hwritten
  cases htmp.symm.trans htmp'
  have hkept (key : String) (other : Inode) (hkey : Function.update s.tmp p.key none key = some other) :
      key ≠ p.key ∧ s.tmp key = some other := by
    by_cases heq : key = p.key
    · subst heq
      rw [Function.update_self] at hkey
      cases hkey
    · exact ⟨heq, (Function.update_of_ne heq ..).symm.trans hkey⟩
  refine inv_setPut h hc (by rw [hphase]; trivial) ⟨rfl, rfl, fun _ hne => Function.update_of_ne hne .., fun _ _ _ => rfl,
    fun key other hkey => .inl (hkept key other hkey).2, fun _ _ _ _ => rfl⟩ ?_ (fun hno => absurd hno id)
    (fun hno => absurd hno id) ?_ ?_ (fun heq => by cases heq)
  · exact fun key other hkey => h.exists_tmp key other (hkept key other hkey).2
  · exact fun _ => .inr fun d q hd hne hkey hq => h.exclusive c d p q hc hd hne.symm htemp hq hkey.symm
  · intro key other hjson
    by_cases heq : key = p.key
    · subst heq
      cases (insert_self ..).symm.trans hjson
      refine .inr ⟨fun key' hkey' => ?_, content, hcontent, c, _, insert_self .., rfl, rfl, hwritten⟩
      obtain ⟨hne, hold⟩ := hkept key' file hkey'
      exact hne (h.tmp_injective key' p.key file hold htmp)
    · exact .inl ((insert_of_ne heq).symm.trans hjson)

theorem inv_setGet {g : Nat} {phase : GetPhase} (h : s.Inv toVec)
    (hreading : ∀ file bytes, phase = .reading file bytes →
      s.Complete toVec key file ∧ ∀ content, s.files file = some content → bytes <+: content)
    (hfound : ∀ bytes, phase = .returned (some bytes) → s.Wrote toVec key bytes) : (s.setGet g key phase).Inv toVec := by
  refine ⟨h.owns, h.exclusive, h.exists_tmp, h.tmp_injective, h.complete, ?_, ⟨?_, h.atomic.present⟩⟩
  · intro g' key' file bytes hg
    by_cases heq : g' = g
    · subst heq
      cases (insert_self ..).symm.trans hg
      exact hreading file bytes rfl
    · exact h.reading g' key' file bytes ((insert_of_ne heq).symm.trans hg)
  · intro g' key' bytes hg
    by_cases heq : g' = g
    · subst heq
      cases (insert_self ..).symm.trans hg
      exact hfound bytes rfl
    · exact h.atomic.found g' key' bytes ((insert_of_ne heq).symm.trans hg)

theorem prefix_read {content : Bytes} (n : Nat) (h : bytes <+: content) :
    bytes ++ (content.drop bytes.length).take n <+: content := by
  obtain ⟨rest, rfl⟩ := h
  rw [List.drop_left]
  exact List.prefix_append_right_inj bytes |>.2 (List.take_prefix n rest)

/-! ## Runs -/

theorem inv_step {a : Action F} (h : s.Inv toVec) (halone : Alone s a) (hstep : Step toVec s a s') : s'.Inv toVec := by
  cases hstep with
  | put c key entry hc =>
    have hne {d : Nat} {q : Put F} (hd : s.puts d = some q) : d ≠ c := by
      rintro rfl
      rw [hc] at hd
      cases hd
    have hold {d : Nat} {q : Put F} (hd : (s.setPut c ⟨key, entry, .creating⟩ .creating).puts d = some q) :
        q.phase = .creating ∨ s.puts d = some q := by
      by_cases heq : d = c
      · subst heq
        cases (insert_self ..).symm.trans hd
        exact .inl rfl
      · exact .inr ((insert_of_ne heq).symm.trans hd)
    have hwrote {key' : String} {bytes : Bytes} (hw : s.Wrote toVec key' bytes) :
        (s.setPut c ⟨key, entry, .creating⟩ .creating).Wrote toVec key' bytes := by
      obtain ⟨d, q, hd, hq⟩ := hw
      exact ⟨d, q, (insert_of_ne (hne hd)).trans hd, hq⟩
    have hcomplete {key' : String} {file : Inode} (hf : s.Complete toVec key' file) :
        (s.setPut c ⟨key, entry, .creating⟩ .creating).Complete toVec key' file := by
      obtain ⟨htmp, bytes, hbytes, hw⟩ := hf
      exact ⟨htmp, bytes, hbytes, hwrote hw⟩
    refine ⟨?_, ?_, h.exists_tmp, h.tmp_injective, fun key' file hj => hcomplete (h.complete key' file hj), ?_, ⟨?_, ?_⟩⟩
    · intro d q hd htemp
      rcases hold hd with hphase | hd
      · rw [hphase] at htemp
        exact absurd htemp id
      · exact h.owns d q hd htemp
    · intro d e q r hd he hde hq hr
      rcases hold hd with hphase | hd
      · rw [hphase] at hq
        exact absurd hq id
      · rcases hold he with hphase | he
        · rw [hphase] at hr
          exact absurd hr id
        · exact h.exclusive d e q r hd he hde hq hr
    · intro g key' file bytes hg
      obtain ⟨hf, hread⟩ := h.reading g key' file bytes hg
      exact ⟨hcomplete hf, hread⟩
    · exact fun g key' bytes hg => hwrote (h.atomic.found g key' bytes hg)
    · intro d q hd
      rcases hold hd with hphase | hd
      · rw [hphase]
        intro heq
        cases heq
      · exact h.atomic.present d q hd
  | create c p new hc hphase hnew => exact inv_create h hc hphase hnew halone
  | write c n p file k hc hphase hn => exact inv_write h hc hphase hn
  | close c p file hc hphase =>
    have htemp : p.phase.HasTemp := by rw [hphase]; trivial
    refine inv_phase h hc (by rw [hphase]; trivial) (fun _ => ⟨htemp, ?_⟩) (fun heq => by cases heq)
    obtain ⟨file', content, htmp, hcontent, hwritten⟩ := h.owns c p hc htemp
    rw [Put.Written, hphase] at hwritten
    exact ⟨file', content, htmp, hcontent, hwritten.2.2.trans (List.take_length)⟩
  | set_permissions c p hc hphase =>
    have htemp : p.phase.HasTemp := by rw [hphase]; trivial
    obtain ⟨file, content, htmp, hcontent, hwritten⟩ := h.owns c p hc htemp
    rw [htmp, Option.isSome_some, if_pos rfl]
    rw [Put.Written, hphase] at hwritten
    exact inv_phase h hc (by rw [hphase]; trivial) (fun _ => ⟨htemp, file, content, htmp, hcontent, hwritten⟩)
      (fun heq => by cases heq)
  | rename c p file hc hphase htmp => exact inv_rename h hc hphase htmp
  | rename_missing c p hc hphase htmp =>
    obtain ⟨file, content, hfile, -⟩ := h.owns c p hc (by rw [hphase]; trivial)
    rw [htmp] at hfile
    cases hfile
  | fail c p hc hphase => exact inv_phase h hc hphase (fun hno => absurd hno id) (fun heq => by cases heq)
  | stop c p hc hphase => exact inv_phase h hc hphase (fun hno => absurd hno id) (fun heq => by cases heq)
  | get g key hg => exact inv_setGet h (fun _ _ heq => by cases heq) (fun _ heq => by cases heq)
  | open_json g key hg =>
    cases hjson : s.json key with
    | none => exact inv_setGet h (fun _ _ heq => by cases heq) (fun _ heq => by cases heq)
    | some file =>
      refine inv_setGet h (fun file' bytes heq => ?_) (fun _ heq => by cases heq)
      cases heq
      exact ⟨h.complete key file hjson, fun content _ => List.nil_prefix⟩
  | read g n key file bytes content hg hfile =>
    obtain ⟨hcomplete, hread⟩ := h.reading g key file bytes hg
    refine inv_setGet h (fun file' bytes' heq => ?_) (fun _ heq => by cases heq)
    cases heq
    refine ⟨hcomplete, fun content' hcontent' => ?_⟩
    cases hfile.symm.trans hcontent'
    exact prefix_read n (hread content hfile)
  | finish g key file bytes content hg hfile hend =>
    obtain ⟨⟨-, bytes', hbytes', hwrote⟩, hread⟩ := h.reading g key file bytes hg
    cases hfile.symm.trans hbytes'
    refine inv_setGet h (fun _ _ heq => by cases heq) (fun bytes'' heq => ?_)
    cases heq
    rw [(hread content hfile).eq_of_length_le hend]
    exact hwrote
  | get_stop g key phase hg => exact inv_setGet h (fun _ _ heq => by cases heq) (fun _ heq => by cases heq)

theorem inv_empty : (Disk.empty : Disk F).Inv toVec where
  owns := fun c p hc => by cases hc
  exclusive := fun c d p q hc => by cases hc
  exists_tmp := fun key file hfile => by cases hfile
  tmp_injective := fun key key' file hfile => by cases hfile
  complete := fun key file hfile => by cases hfile
  reading := fun g key file bytes hg => by cases hg
  atomic := by
    refine ⟨fun g key bytes hg => ?_, fun c p hc => ?_⟩
    · cases hg
    · cases hc

theorem Run.inv (h : Run toVec Alone s) : s.Inv toVec := by
  induction h with
  | empty => exact inv_empty
  | step _ hstep ha ih => exact inv_step ih ha hstep

theorem setPut_self (s : Disk F) (c : Nat) (p : Put F) (phase : PutPhase) :
    (s.setPut c p phase).puts c = some { p with phase } :=
  insert_self ..

/-- A put that has just opened its temporary file can go on until it has renamed it. -/
theorem finish_put (toVec : CacheEntry F → Bytes) (hd : s.puts d = some q) (hphase : q.phase = .writing file 0)
    (htmp : s.tmp q.key = some file) :
    ∃ s', Steps toVec s s' ∧ s'.tmp q.key = none ∧ ∀ c, c ≠ d → s'.puts c = s.puts c := by
  have hwrite : Step toVec s (.write d (toVec q.entry).length) _ :=
    .write d _ q file 0 hd hphase (Nat.le_of_eq (Nat.zero_add _))
  refine ⟨_, .step hwrite (.step (.close d _ file (setPut_self ..) (congrArg (PutPhase.writing file) (Nat.zero_add _)))
    (.step (.set_permissions d _ (setPut_self ..) rfl)
    (.step (.rename d _ file (setPut_self ..) (if_pos (congrArg Option.isSome htmp)) htmp) (.refl _)))), ?_, ?_⟩
  · exact Function.update_self ..
  · intro c hc
    exact (insert_of_ne hc).trans ((insert_of_ne hc).trans ((insert_of_ne hc).trans (insert_of_ne hc)))

/-- A put whose temporary file is gone can go on until it misses it. -/
theorem miss_put (hc : s.puts c = some p) (htemp : p.phase.HasTemp)
    (hwritten : ∀ file k, p.phase = .writing file k → k ≤ (toVec p.entry).length) (htmp : s.tmp p.key = none) :
    ∃ s', Steps toVec s s' ∧ ¬ s'.Atomic toVec := by
  have hnone : ¬ (s.tmp p.key).isSome = true := by
    rw [htmp]
    exact Bool.false_ne_true
  cases hphase : p.phase with
  | writing file k =>
    have hk := hwritten file k hphase
    have hlen : k + ((toVec p.entry).length - k) = (toVec p.entry).length := by omega
    have hwrite : Step toVec s (.write c ((toVec p.entry).length - k)) _ := .write c _ p file k hc hphase (Nat.le_of_eq hlen)
    refine ⟨_, .step hwrite (.step (.close c _ file (setPut_self ..) (congrArg (PutPhase.writing file) hlen))
      (.step (.set_permissions c _ (setPut_self ..) rfl) (.refl _))), fun h => ?_⟩
    exact h.present c _ (setPut_self ..) (if_neg hnone)
  | setting_permissions =>
    exact ⟨_, .step (.set_permissions c p hc hphase) (.refl _), fun h => h.present c _ (setPut_self ..) (if_neg hnone)⟩
  | moving =>
    exact ⟨_, .step (.rename_missing c p hc hphase htmp) (.refl _), fun h => h.present c _ (setPut_self ..) rfl⟩
  | creating =>
    rw [hphase] at htemp
    exact absurd htemp id
  | returned result =>
    rw [hphase] at htemp
    exact absurd htemp id
  | stopped =>
    rw [hphase] at htemp
    exact absurd htemp id

theorem Steps.trans {s s' s'' : Disk F} (h : Steps toVec s s') (h' : Steps toVec s' s'') : Steps toVec s s'' := by
  induction h with
  | refl => exact h'
  | step hstep _ ih => exact .step hstep (ih h')

/-- Once two puts have one temporary file, one of them can be made to miss it. -/
theorem overlap_fails {new : Inode} (h : s.Inv toVec) (hstep : Step toVec s (.create d new) s')
    (hover : ¬ Alone s (.create d new)) : ∃ s'', Steps toVec s' s'' ∧ ¬ s''.Atomic toVec := by
  cases hstep with
  | create _ q _ hd hphase hnew =>
    have hother : ∃ c p, s.puts c = some p ∧ c ≠ d ∧ p.key = q.key ∧ p.phase.HasTemp := by
      by_contra hno
      refine hover fun q' c p hd' hc hne hkey htemp => hno ⟨c, p, hc, hne, ?_, htemp⟩
      cases hd.symm.trans hd'
      exact hkey
    obtain ⟨c, p, hc, hne, hkey, htemp⟩ := hother
    obtain ⟨file, content, htmp, -, hwritten⟩ := h.owns c p hc htemp
    rw [hkey] at htmp
    rw [htmp, Option.getD_some]
    generalize hs₁ : Disk.setPut { s with tmp := s.tmp.insert q.key file, files := s.files.insert file [] } d q
      (.writing file 0) = s₁
    have hd₁ : s₁.puts d = some { q with phase := .writing file 0 } := hs₁ ▸ insert_self ..
    have htmp₁ : s₁.tmp q.key = some file := hs₁ ▸ insert_self ..
    have hc₁ : s₁.puts c = some p := hs₁ ▸ (insert_of_ne hne).trans hc
    obtain ⟨s₂, hsteps, hgone, hputs⟩ := finish_put toVec hd₁ rfl htmp₁
    obtain ⟨s₃, hsteps', hbad⟩ := miss_put ((hputs c hne).trans hc₁) htemp (fun file' k hphase' => by
      rw [Put.Written, hphase'] at hwritten
      exact hwritten.2.1) (by rw [hkey]; exact hgone)
    exact ⟨s₃, hsteps.trans hsteps', hbad⟩

/-- In runs in which no put opens the temporary file of another one that runs, every get that finds a file reads what
one put of its key wrote, and no put misses its file. As soon as a put does open the file of another one, further
steps lead to a put that fails for it. -/
theorem cache_atomic (toVec : CacheEntry F → Bytes) :
    (∀ s, Run toVec Alone s → s.Atomic toVec) ∧
    ∀ s s₁ c new, Run toVec Alone s → Step toVec s (.create c new) s₁ → ¬ Alone s (.create c new) →
      ∃ s₂, Steps toVec s₁ s₂ ∧ ¬ s₂.Atomic toVec :=
  ⟨fun _ h => h.inv.atomic, fun _ _ _ _ h hstep hover => overlap_fails h.inv hstep hover⟩

/-- An entry of one byte. -/
def sampleEntry : CacheEntry Unit :=
  ⟨⟨"m", [], ⟨none, none, none, []⟩⟩, ⟨"x", "m", ⟨0, 0⟩⟩⟩

theorem cache_atomic_one : ∃ s : Disk Unit, Run (fun _ => [1]) Alone s ∧ s.json "k" = some 0 ∧ s.Atomic fun _ => [1] := by
  have hput : Run (fun _ => [1]) Alone _ := .step .empty (.put 0 "k" sampleEntry rfl) trivial
  have hcreate := Run.step hput (.create 0 _ 0 (setPut_self ..) rfl rfl) (fun p d q _ hd hne _ => by
    cases (insert_of_ne hne).symm.trans hd)
  have hwrite := Run.step hcreate (.write 0 1 _ 0 0 (setPut_self ..) rfl (Nat.le_refl 1)) trivial
  have hclose := Run.step hwrite (.close 0 _ 0 (setPut_self ..) rfl) trivial
  have hpermissions := Run.step hclose (.set_permissions 0 _ (setPut_self ..) rfl) trivial
  have hrename := Run.step hpermissions (.rename 0 _ 0 (setPut_self ..) rfl rfl) trivial
  exact ⟨_, hrename, rfl, (cache_atomic fun _ => [1]).1 _ hrename⟩

/-- The second put empties the file that the first one renames, and a get reads nothing from it. -/
theorem torn_read : ∃ s : Disk Unit, Run (fun _ => [1]) (fun _ _ => True) s ∧ ¬ s.Atomic fun _ => [1] := by
  have hfirst : Run (fun _ => [1]) (fun _ _ => True) _ := .step .empty (.put 0 "k" sampleEntry rfl) trivial
  have hsecond := Run.step hfirst (.put 1 "k" sampleEntry rfl) trivial
  have hcreate := Run.step hsecond (.create 0 _ 0 rfl rfl rfl) trivial
  have hwrite := Run.step hcreate (.write 0 1 _ 0 0 rfl rfl (Nat.le_refl 1)) trivial
  have hclose := Run.step hwrite (.close 0 _ 0 rfl rfl) trivial
  have htruncate := Run.step hclose (.create 1 _ 1 rfl rfl rfl) trivial
  have hpermissions := Run.step htruncate (.set_permissions 0 _ rfl rfl) trivial
  have hrename := Run.step hpermissions (.rename 0 _ 0 rfl rfl rfl) trivial
  have hget := Run.step hrename (.get 0 "k" rfl) trivial
  have hopen := Run.step hget (.open_json 0 "k" rfl) trivial
  have hfinish := Run.step hopen (.finish 0 "k" 0 [] [] rfl rfl (Nat.le_refl 0)) trivial
  refine ⟨_, hfinish, fun h => ?_⟩
  obtain ⟨c, p, -, -, -, hbytes⟩ := h.found 0 "k" [] rfl
  cases hbytes

end Cobrust.Router
