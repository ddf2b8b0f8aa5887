import Shamsu.Patch.Mutations

/-!
# A rollback that stops half way

`rollback_transaction` restores the touched paths one by one. Where it meets one that it
cannot restore (an unsafe path, no backup on record, a backup that is gone) it returns
`False`, and what it restored before stays restored. `refused_keeps_files_iff` says when the
user's files are what they were all the same: when there was nothing to restore in the
entries before that one.
-/

namespace Shamsu.Patch

open Shamsu.Lib Shamsu.Py Shamsu.Safety

/-- The user's files are the same on both disks. -/
def SameUserFiles (root : Path) (d d' : FS) : Prop :=
  ∀ p, IsUserPath root p → d'.content p = d.content p

theorem SameUserFiles.trans {root : Path} {d₁ d₂ d₃ : FS} (h : SameUserFiles root d₁ d₂)
    (h' : SameUserFiles root d₂ d₃) : SameUserFiles root d₁ d₃ := fun p hp =>
  (h' p hp).trans (h p hp)

/-- What the entry `k` of `m` writes on that disk: the path and the file, or none. -/
def restores (engine : Engine) (m : Manifest) (k : Text) (d : FS) :
    Option (Path × Option Bytes) :=
  match validate engine.root k with
  | .error _ => none
  | .ok target =>
    if (m.beforeHashes.lookup k).join.isNone then some (target, none)
    else (m.backups.lookup k).map fun backup => (copyTarget d backup target, d.content backup)

/-- The file is as the entry restores it. -/
def InPlace (engine : Engine) (m : Manifest) (k : Text) (d : FS) : Prop :=
  ∀ p file, restores engine m k d = some (p, file) → IsUserPath engine.root p →
    d.content p = file

/-- Every entry before the one where the rollback stops finds its file as it restores it. -/
def NothingRestored (engine : Engine) (m : Manifest) : List Text → World → Prop
  | [], _ => True
  | k :: keys, w => ∀ w', rollbackFile engine m k w = (.ok none, w') →
    InPlace engine m k w.disk ∧ NothingRestored engine m keys w'

/-- The same for the transaction with that id, if there is one to roll back. -/
def NothingToRestore (engine : Engine) (id : Text) (w : World) : Prop :=
  ∀ m, findManifest w id = some m → m.status ≠ .rolledBack →
    NothingRestored engine m m.touchedFiles w

/-- No two entries lead to one path, or to one above the other. -/
def KeysApart (engine : Engine) (id : Text) (w : World) : Prop :=
  ∀ m, findManifest w id = some m → m.touchedFiles.Pairwise fun k k' =>
    ∀ t t', validate engine.root k = .ok t → validate engine.root k' = .ok t' →
      ¬ t <+: t' ∧ ¬ t' <+: t

section Entry

variable {engine : Engine} {m : Manifest} {k : Text} {w w' : World}

/-- An entry that stops the rollback changes nothing. -/
theorem rollbackFile_stops {message : String}
    (hrun : rollbackFile engine m k w = (.ok (some message), w')) : w' = w := by
  unfold rollbackFile at hrun
  cases hv : validate engine.root k with
  | error e =>
    rw [hv] at hrun
    dsimp only at hrun
    split at hrun
    · cases hrun
      rfl
    · cases hrun
  | ok t =>
    rw [hv] at hrun
    dsimp only at hrun
    split at hrun
    · obtain ⟨_, _, _, hrun⟩ := Prog.bind_ok.mp hrun
      cases hrun
    · cases hb : m.backups.lookup k with
      | none =>
        rw [hb] at hrun
        cases hrun
        rfl
      | some backup =>
        rw [hb] at hrun
        dsimp only at hrun
        rw [Prog.bind_of_ok (Prog.gets_apply _ w)] at hrun
        split at hrun
        · obtain ⟨_, _, _, hrun⟩ := Prog.bind_ok.mp hrun
          cases hrun
        · cases hrun
          rfl

/-- Making the parents of a path does not make it a directory. -/
theorem isDir_mkdirs_parent {d : FS} {t : Path} (h : d.isClear t.parent = true) :
    (d.mkdirs t.parent h).isDir t = d.isDir t := by
  by_cases ht : t = []
  · subst ht
    rw [Disk.isDir_root, Disk.isDir_root]
  · refine Disk.isDir_congr ?_
    rw [Disk.get_mkdirs, if_neg fun hp => Path.ne_of_prefix_parent ht hp rfl]

/-- **Spec of an entry** that goes through: it writes what it restores, and no other file. -/
theorem rollbackFile_writes (hrun : rollbackFile engine m k w = (.ok none, w')) :
    ∃ t p file, validate engine.root k = .ok t ∧ t <+: p ∧
      restores engine m k w.disk = some (p, file) ∧
      (∀ q, w'.disk.content q = if q = p then file else w.disk.content q) := by
  unfold rollbackFile at hrun
  unfold restores
  cases hv : validate engine.root k with
  | error e =>
    rw [hv] at hrun
    dsimp only at hrun
    split at hrun
    · cases hrun
    · cases hrun
  | ok t =>
    rw [hv] at hrun
    dsimp only at hrun ⊢
    split at hrun
    next hnew =>
      rw [if_pos hnew]
      obtain ⟨_, w₁, hremove, hrun⟩ := Prog.bind_ok.mp hrun
      cases hrun
      obtain ⟨d, hd, rfl⟩ := Prog.zoom_cases hremove
      refine ⟨t, t, none, rfl, List.prefix_refl t, rfl, fun q => ?_⟩
      show d.content q = _
      -- a file goes, an empty directory goes, or nothing is there
      unfold removeNew at hd
      split at hd
      next hfile =>
        rw [unlink_eq hfile] at hd
        cases hd
        rw [Disk.content_drop]
        rfl
      next hfile =>
        have hnone : w.disk.content t = none :=
          Disk.isFile_eq_false.mp (Bool.eq_false_iff.mpr hfile)
        have hsame : w.disk.content q = if q = t then none else w.disk.content q := by
          split
          next h => rw [h, hnone]
          next => rfl
        split at hd
        next hempty =>
          rw [rmdir_eq hempty] at hd
          cases hd
          rw [Disk.content_rmdir]
          exact hsame
        next =>
          cases hd
          exact hsame
    next hnew =>
      rw [if_neg hnew]
      cases hbackup : m.backups.lookup k with
      | none =>
        rw [hbackup] at hrun
        cases hrun
      | some backup =>
        rw [hbackup] at hrun
        dsimp only at hrun
        rw [Prog.bind_of_ok (Prog.gets_apply _ w)] at hrun
        split at hrun
        · obtain ⟨_, w₁, hcopy, hrun⟩ := Prog.bind_ok.mp hrun
          cases hrun
          obtain ⟨d, hd, rfl⟩ := Prog.zoom_cases hcopy
          obtain ⟨_, d₁, hmk, hd⟩ := Prog.bind_ok.mp hd
          rcases mkdirP_cases t.parent w.disk with ⟨hclear, hok⟩ | ⟨_, e, herr⟩
          · obtain ⟨_, rfl⟩ := Prod.mk.inj (hok.symm.trans hmk)
            have htarget : copyTarget (w.disk.mkdirs t.parent hclear) backup t =
                copyTarget w.disk backup t := by
              unfold copyTarget
              rw [isDir_mkdirs_parent]
            rcases copy2_cases backup t (w.disk.mkdirs t.parent hclear) with
              ⟨b, hp, _, hb, hok⟩ | ⟨e, herr⟩
            · obtain ⟨_, rfl⟩ := Prod.mk.inj (hok.symm.trans hd)
              rw [Disk.content_mkdirs] at hb
              refine ⟨t, copyTarget w.disk backup t, some b, rfl, ?_, ?_, fun q => ?_⟩
              · unfold copyTarget
                split
                · exact List.prefix_append _ _
                · exact List.prefix_refl t
              · rw [Option.map_some, hb]
              · show Disk.content (Disk.put _ _ b hp) q = _
                rw [Disk.content_put, htarget, Disk.content_mkdirs]
            · rw [herr] at hd
              cases hd
          · have hmk : mkdirP t.parent w.disk = (.ok (), d₁) := hmk
            rw [herr] at hmk
            cases hmk
        · cases hrun

/-- **Step lemma**: an entry keeps the user's files if its file is in place, and only then. -/
theorem rollbackFile_keeps (hrun : rollbackFile engine m k w = (.ok none, w')) :
    SameUserFiles engine.root w.disk w'.disk ↔ InPlace engine m k w.disk := by
  obtain ⟨t, p, file, _, _, hrestores, hcontent⟩ := rollbackFile_writes hrun
  constructor
  · intro hsame q f hq huser
    rw [hrestores] at hq
    cases hq
    rw [← hsame p huser, hcontent, if_pos rfl]
  · intro hplace q huser
    rw [hcontent]
    split
    next hqp =>
      subst hqp
      exact (hplace q file hrestores huser).symm
    next => rfl

end Entry

section Entries

variable {engine : Engine} {m : Manifest} {keys : List Text} {w w' : World}

/-- **Run lemma**: with nothing to restore before it stops, a rollback keeps the files. -/
theorem rollbackFiles_keeps {message : String}
    (hrun : rollbackFiles engine m keys w = (.ok (some message), w'))
    (hnothing : NothingRestored engine m keys w) : SameUserFiles engine.root w.disk w'.disk := by
  induction keys generalizing w with
  | nil => cases hrun
  | cons k keys ih =>
    obtain ⟨answer, w₁, hfirst, hrun⟩ := Prog.bind_ok.mp hrun
    cases answer with
    | some message' =>
      cases hrun
      rw [rollbackFile_stops hfirst]
      exact fun _ _ => rfl
    | none =>
      obtain ⟨hplace, hrest⟩ := hnothing w₁ hfirst
      exact ((rollbackFile_keeps hfirst).mpr hplace).trans (ih hrun hrest)

/-- The other entries leave what is not below their paths. -/
theorem rollbackFiles_frame {answer : Option String}
    (hrun : rollbackFiles engine m keys w = (.ok answer, w')) {p : Path}
    (hp : ∀ k ∈ keys, ∀ t, validate engine.root k = .ok t → ¬ t <+: p) :
    w'.disk.content p = w.disk.content p := by
  induction keys generalizing w with
  | nil =>
    cases hrun
    rfl
  | cons k keys ih =>
    obtain ⟨answer', w₁, hfirst, hrun⟩ := Prog.bind_ok.mp hrun
    cases answer' with
    | some message =>
      cases hrun
      rw [rollbackFile_stops hfirst]
    | none =>
      obtain ⟨t, q, file, hv, hprefix, _, hcontent⟩ := rollbackFile_writes hfirst
      have hne : p ≠ q := fun e => hp k List.mem_cons_self t hv (e ▸ hprefix)
      have hrest := ih hrun fun k' hk' => hp k' (List.mem_cons_of_mem _ hk')
      rw [hrest, hcontent, if_neg hne]

/-- **Run lemma**, the other way: files that are kept were in place. -/
theorem rollbackFiles_kept {answer : Option String}
    (hapart : keys.Pairwise fun k k' => ∀ t t', validate engine.root k = .ok t →
      validate engine.root k' = .ok t' → ¬ t <+: t' ∧ ¬ t' <+: t)
    (hrun : rollbackFiles engine m keys w = (.ok answer, w'))
    (hsame : SameUserFiles engine.root w.disk w'.disk) : NothingRestored engine m keys w := by
  induction keys generalizing w with
  | nil => trivial
  | cons k keys ih =>
    obtain ⟨hfirstApart, hrestApart⟩ := List.pairwise_cons.mp hapart
    intro w₁ hfirst
    obtain ⟨t, p, file, hv, hprefix, hrestores, hcontent⟩ := rollbackFile_writes hfirst
    unfold rollbackFiles at hrun
    rw [Prog.bind_of_ok hfirst] at hrun
    -- no later entry touches what this one wrote
    have hlater : ∀ k' ∈ keys, ∀ t', validate engine.root k' = .ok t' → ¬ t' <+: p := by
      intro k' hk' t' hv' hp'
      obtain ⟨hno, hno'⟩ := hfirstApart k' hk' t t' hv hv'
      rcases List.prefix_or_prefix_of_prefix hprefix hp' with h | h
      · exact hno h
      · exact hno' h
    have hframe := rollbackFiles_frame hrun hlater
    have hplace : InPlace engine m k w.disk := by
      intro q f hq huser
      rw [hrestores] at hq
      cases hq
      rw [← hsame p huser, hframe, hcontent, if_pos rfl]
    refine ⟨hplace, ih hrestApart hrun fun q huser => ?_⟩
    rw [hsame q huser, (rollbackFile_keeps hfirst).mpr hplace q huser]

end Entries

/-- **When a refused rollback keeps the files**: if every entry before the one where it stops
finds its file as it restores it; and, for keys that lead to paths apart, only then. -/
theorem refused_keeps_files_iff (engine : Engine) (id : Text) (message : String) (w w' : World)
    (hrun : rollbackTransaction engine id w = (.ok (false, message), w')) :
    (NothingToRestore engine id w → SameUserFiles engine.root w.disk w'.disk) ∧
    (KeysApart engine id w → SameUserFiles engine.root w.disk w'.disk →
      NothingToRestore engine id w) := by
  unfold rollbackTransaction at hrun
  rw [Prog.bind_of_ok (Prog.gets_apply _ w)] at hrun
  cases hm : findManifest w id with
  | none =>
    rw [hm] at hrun
    cases hrun
    refine ⟨fun _ _ _ => rfl, fun _ _ m hm' => ?_⟩
    rw [hm] at hm'
    cases hm'
  | some m =>
    rw [hm] at hrun
    dsimp only at hrun
    split at hrun
    next hdone =>
      cases hrun
      refine ⟨fun _ _ _ => rfl, fun _ _ m' hm' hopen => ?_⟩
      rw [hm] at hm'
      cases hm'
      exact absurd hdone hopen
    next hopen =>
      obtain ⟨answer, w₁, hfiles, hrun⟩ := Prog.bind_ok.mp hrun
      cases answer with
      | none =>
        obtain ⟨_, _, _, hrun⟩ := Prog.bind_ok.mp hrun
        cases hrun
      | some stopped =>
        cases hrun
        constructor
        · exact fun hnothing => rollbackFiles_keeps hfiles (hnothing m hm hopen)
        · intro hapart hsame m' hm' _
          rw [hm] at hm'
          cases hm'
          exact rollbackFiles_kept (hapart m hm) hfiles hsame

/-- A transaction that changed two files, of which the second has no backup left. -/
def halfLost : Manifest where
  transactionId := ['t']
  createdAt := ['1']
  reason := []
  operations := []
  destructive := false
  status := .applied
  touchedFiles := [['a'], ['b']]
  beforeHashes := [(['a'], some []), (['b'], some [])]
  afterHashes := []
  backups := [(['a'], transactionBackup ["ws".toList] ['t'] ['a']),
    (['b'], transactionBackup ["ws".toList] ['t'] ['b'])]
  verification := none
  error := ""

/-- Its workspace, with that backup of the first one. -/
def halfWorld (backup : String) : World :=
  { World.ofFiles [("a", "new"), ("b", "new"), (".shamsu/mutations/t/backups/a", backup)] with
    transactions := [halfLost] }

/-- What the rollback leaves. -/
def halfAfter (backup : String) : World :=
  (rollbackTransaction Engine.agreeable ['t'] (halfWorld backup)).2

theorem halfWorld_refused (backup : String) (h : (rollbackTransaction Engine.agreeable ['t']
      (halfWorld backup)).1 = .ok (false, "Rollback aborted: backup file missing for b.")) :
    rollbackTransaction Engine.agreeable ['t'] (halfWorld backup) =
      (.ok (false, "Rollback aborted: backup file missing for b."), halfAfter backup) :=
  Prod.ext h rfl

theorem refused_keeps_files_same :
    (NothingToRestore Engine.agreeable ['t'] (halfWorld "new") →
      SameUserFiles Engine.agreeable.root (halfWorld "new").disk (halfAfter "new").disk) ∧
    (KeysApart Engine.agreeable ['t'] (halfWorld "new") →
      SameUserFiles Engine.agreeable.root (halfWorld "new").disk (halfAfter "new").disk →
        NothingToRestore Engine.agreeable ['t'] (halfWorld "new")) :=
  refused_keeps_files_iff Engine.agreeable ['t'] _ _ _ (halfWorld_refused "new" (by decide))

/-- With another backup the first file is restored, and stays so. -/
theorem half_restored : ¬ ∀ (engine : Engine) (id : Text) (message : String) (w w' : World),
    rollbackTransaction engine id w = (.ok (false, message), w') →
    SameUserFiles engine.root w.disk w'.disk := by
  intro hall
  have hsame := hall Engine.agreeable ['t'] _ _ _ (halfWorld_refused "old" (by decide))
    ["ws".toList, ['a']] (by decide)
  revert hsame
  decide

end Shamsu.Patch
