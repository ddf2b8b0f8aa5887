import Shamsu.Lib.UndoLog
import Shamsu.Patch.Legacy

/-!
# When a failed patch leaves no trace

`apply_result` promises that a patch which fails half-way is undone. The undo is
an undo log in the sense of `Shamsu.Lib.UndoLog`: the keys are paths, the copy
of `p` is kept at `p.bak`, the log is `backups`. `Restorable d₀ s` says that
going back from the loop state `s` would give the files of `d₀`, and every step
of the loop keeps it provided the step's own condition holds:

- a `.bak` copy only takes a free place (`CopyFits`);
- what is written or removed is in the log and shields its value
  (`UndoLog.Shielded`);
- a rename's destination exists, so that there is a copy to move back;
- what is created is not in the log already (`CreateSafe`);
- no directory appears where the undo will put a file (`NoDirectoryAt`).

The source checks none of these. `PatchSafe` is their conjunction for one file
patch, on the state before each of its steps, and `RunSafe` the same along a
run. **`applyResult_failed_restores`**: in a safe run a failed patch leaves every
file as it was. `applyResult_failed_clobbers` is the run where a `.bak` file of
the user's is in the way.
-/

namespace Shamsu.Patch

open Shamsu.Lib Shamsu.Py Shamsu.Safety

/-! ## The conditions -/

/-- Going back overwrites or removes what is at `target`. -/
def ShieldedIn (s : Applying) (target : Path) : Prop :=
  UndoLog.Shielded backupPath s.created target s.backups.reverse

/-- The `.bak` copy of `target` takes a free place, or one that going back
restores or removes anyway. -/
def CopyFits (s : Applying) (target : Path) : Prop :=
  target ∈ s.backups ∨ s.disk.present (backupPath target) = false ∨
    ShieldedIn s (backupPath target)

/-- Making the directory of `target` takes no absent backed-up path. -/
def NoDirectoryAt (s : Applying) (target : Path) : Prop :=
  ∀ u ∈ s.backups, u <+: target.parent → s.disk.present u = true

def CreateSafe (s : Applying) (target : Path) : Prop :=
  NoDirectoryAt s target ∧
    (target ∉ s.backups ∨ (target ∈ s.created ∧ ShieldedIn s target))

/-- After both ends of a rename are noted, both are shielded. -/
def RenameSafe (s : Applying) (old new : Path) : Prop :=
  CopyFits s new ∧ NoDirectoryAt s new ∧ (new ∈ s.backups ∨ s.disk.present new = true) ∧
    ∀ w ∈ [old, new],
      UndoLog.Shielded backupPath s.created w (noted s.backups new).reverse

def WriteSafe (s : Applying) (old new : Path) : Prop :=
  if old = new then ShieldedIn s old else RenameSafe s old new

instance (s : Applying) (t : Path) : Decidable (ShieldedIn s t) :=
  inferInstanceAs (Decidable (UndoLog.Shielded ..))

instance (s : Applying) (t : Path) : Decidable (CopyFits s t) :=
  inferInstanceAs (Decidable (_ ∨ _ ∨ _))

instance (s : Applying) (t : Path) : Decidable (NoDirectoryAt s t) :=
  inferInstanceAs (Decidable (∀ u ∈ s.backups, _))

instance (s : Applying) (t : Path) : Decidable (CreateSafe s t) :=
  inferInstanceAs (Decidable (_ ∧ _))

instance (s : Applying) (old new : Path) : Decidable (RenameSafe s old new) :=
  inferInstanceAs (Decidable (_ ∧ _ ∧ _ ∧ ∀ w ∈ [old, new], _))

instance (s : Applying) (old new : Path) : Decidable (WriteSafe s old new) :=
  inferInstanceAs (Decidable (if old = new then _ else _))

/-- The steps of one file patch, each from the state it starts in. -/
def PatchSafe (root : Path) (s : Applying) (patch : FilePatch) : Prop :=
  match patchTarget root patch.oldPath, patchTarget root patch.newPath with
  | .ok none, .ok (some new) => CreateSafe s new
  | .ok (some old), .ok none =>
    CopyFits s old ∧ ∀ lines s₁, patchedLines old patch.hunks s = (.ok lines, s₁) →
      ShieldedIn s₁ old
  | .ok (some old), .ok (some new) =>
    CopyFits s old ∧ ∀ lines s₁, patchedLines old patch.hunks s = (.ok lines, s₁) →
      WriteSafe s₁ old new
  | _, _ => True

/-- Every file patch of the run is safe in the state it is applied to. -/
def RunSafe (root : Path) : List FilePatch → Applying → Prop
  | [], _ => True
  | patch :: patches, s => PatchSafe root s patch ∧
      ∀ s', applyFilePatch root patch s = (.ok (), s') → RunSafe root patches s'

/-! ## The invariant -/

/-- Going back from `s` gives the files of `d₀`, and can be done: the places of
the backed-up files are free of directories, and every copy is a file or will be
moved back itself. -/
structure Restorable (d₀ : FS) (s : Applying) : Prop where
  restored : UndoLog.restored backupPath s.backups.reverse s.created s.disk.content = d₀.content
  loaded : UndoLog.Loaded backupPath s.backups.reverse s.disk.content
  homes : ∀ t ∈ s.backups, s.disk.isDir t.parent = true ∧ s.disk.isDir t = false
  copies : ∀ t ∈ s.backups, s.disk.isFile (backupPath t) = true ∨ backupPath t ∈ s.backups
  made : ∀ t ∈ s.created, s.disk.isFile t = true ∨ t ∈ s.backups

theorem mem_noted (backups : List Path) (t : Path) : t ∈ noted backups t := by
  unfold noted; split
  next h => exact h
  next => simp

theorem mem_noted_of_mem {backups : List Path} {t u : Path} (h : u ∈ backups) :
    u ∈ noted backups t := by
  unfold noted; split
  · exact h
  · exact List.mem_append_left _ h

theorem backupPath_ne_self {t : Path} (h : t ≠ []) : backupPath t ≠ t :=
  Path.addSuffix_ne_self h (by decide)

theorem isDir_eq_false_of_isFile {d : FS} {p : Path} (h : d.isFile p = true) :
    d.isDir p = false := by
  obtain ⟨b, hb⟩ := Disk.isFile_iff.mp h
  exact Disk.isDir_eq_false_of_content hb

namespace Restorable

variable {d₀ : FS} {s : Applying}

theorem start (d₀ : FS) : Restorable d₀ ⟨d₀, [], []⟩ where
  restored := by funext q; simp [UndoLog.restored, UndoLog.undo, UndoLog.erase]
  loaded := trivial
  homes := by simp
  copies := by simp
  made := by simp

/-- No copy and no created file is a directory. -/
theorem isDir_copy (h : Restorable d₀ s) {t : Path} (ht : t ∈ s.backups) :
    s.disk.isDir (backupPath t) = false := by
  rcases h.copies t ht with hf | hm
  · exact isDir_eq_false_of_isFile hf
  · exact (h.homes _ hm).2

theorem isDir_shielded (h : Restorable d₀ s) {t : Path} (ht : ShieldedIn s t) :
    s.disk.isDir t = false := by
  have hb : ∀ {u}, u ∈ s.backups → s.disk.isDir u = false := fun hu => (h.homes _ hu).2
  rcases ht.cases with hm | ⟨hm, _⟩
  · exact hb (List.mem_reverse.mp hm)
  · rcases h.made t hm with hf | hm
    · exact isDir_eq_false_of_isFile hf
    · exact hb hm

/-- Directories elsewhere stay as they are when only `t`, not a directory before
or after, changes. -/
theorem isDir_change {d d' : FS} {t : Path} (hget : ∀ q, q ≠ t → d'.get q = d.get q)
    (hd : d.isDir t = false) (hd' : d'.isDir t = false) (q : Path) : d'.isDir q = d.isDir q := by
  by_cases hq : q = t
  · rw [hq, hd, hd']
  · exact Disk.isDir_congr (hget q hq)

/-- Any change of a backed-up and shielded path. -/
theorem change (h : Restorable d₀ s) {t : Path} {d' : FS} {v : Option Bytes}
    (hmem : t ∈ s.backups) (hs : ShieldedIn s t)
    (hc : d'.content = Function.update s.disk.content t v)
    (hget : ∀ q, q ≠ t → d'.get q = s.disk.get q) (hd' : d'.isDir t = false) :
    Restorable d₀ { s with disk := d' } := by
  have hdir := isDir_change hget (h.homes t hmem).2 hd'
  obtain ⟨hr, hl⟩ := UndoLog.restored_update v hs h.loaded
  have hfile : ∀ q, q ≠ t → d'.isFile q = s.disk.isFile q := fun q hq => by
    unfold Disk.isFile; rw [hc, Function.update_of_ne hq]
  refine ⟨by rw [hc]; exact hr.trans h.restored, by rw [hc]; exact hl, ?_, ?_, ?_⟩
  · intro u hu
    rw [hdir, hdir]; exact h.homes u hu
  · intro u hu
    by_cases hq : backupPath u = t
    · exact Or.inr (hq ▸ hmem)
    · rw [hfile _ hq]; exact h.copies u hu
  · intro u hu
    by_cases hq : u = t
    · exact Or.inr (hq ▸ hmem)
    · rw [hfile _ hq]; exact h.made u hu

/-- A copy of the file `t` is put where it fits, and `t` is noted. -/
theorem keepCopy (h : Restorable d₀ s) {t : Path} {b : Bytes} (hmem : t ∉ s.backups)
    (hb : s.disk.content t = some b) (hfit : CopyFits s t)
    (hput : s.disk.canPut (backupPath t) = true) :
    Restorable d₀ { s with
      disk := s.disk.put (backupPath t) b hput, backups := s.backups ++ [t] } := by
  have htd : s.disk.isDir t = false := Disk.isDir_eq_false_of_content hb
  have hne : backupPath t ≠ t := backupPath_ne_self (Disk.ne_nil_of_isDir_eq_false htd)
  have hcd : s.disk.isDir (backupPath t) = false := by simp [Disk.canPut] at hput; exact hput.2
  have hget : ∀ q, q ≠ backupPath t →
      (s.disk.put (backupPath t) b hput).get q = s.disk.get q := fun q hq => by
    rw [Disk.get_put, if_neg hq]
  have hdir := isDir_change hget hcd (Disk.isDir_eq_false_of_content (b := b) (by simp))
  have hc : (s.disk.put (backupPath t) b hput).content =
      Function.update s.disk.content (backupPath t) (some b) := by
    funext q; rw [Disk.content_put, Function.update_apply]
  have hfile : ∀ q, s.disk.isFile q = true →
      (s.disk.put (backupPath t) b hput).isFile q = true := fun q hq => by
    unfold Disk.isFile at hq ⊢; rw [Disk.content_put]; split
    · rfl
    · exact hq
  have hfree : s.disk.content (backupPath t) = none ∨
      UndoLog.Shielded backupPath s.created (backupPath t) s.backups.reverse := by
    rcases hfit with hm | ha | hs
    · exact absurd hm hmem
    · exact Or.inl (Disk.content_eq_none_of_get (Disk.present_eq_false.mp ha))
    · exact Or.inr hs
  obtain ⟨hr, hl⟩ := UndoLog.restored_push hne hb h.loaded hfree
  refine ⟨?_, ?_, ?_, ?_, ?_⟩
  · rw [hc, List.reverse_append]; exact hr.trans h.restored
  · rw [hc, List.reverse_append]; exact hl
  · intro u hu
    rw [hdir, hdir]
    rcases List.mem_append.mp hu with hu | hu
    · exact h.homes u hu
    · rw [List.mem_singleton.mp hu]
      exact ⟨Disk.isDir_dropLast (Disk.present_of_isFile (Disk.isFile_iff.mpr ⟨b, hb⟩)), htd⟩
  · intro u hu
    rcases List.mem_append.mp hu with hu | hu
    · exact (h.copies u hu).imp (hfile _) (List.mem_append_left _)
    · rw [List.mem_singleton.mp hu]
      exact Or.inl (Disk.isFile_iff.mpr ⟨b, by simp⟩)
  · intro u hu
    exact (h.made u hu).imp (hfile _) (List.mem_append_left _)

/-- Directories on the way to `target`. -/
theorem makeParents (h : Restorable d₀ s) {target : Path} (hno : NoDirectoryAt s target)
    (hclear : s.disk.isClear target.parent = true) :
    Restorable d₀ { s with disk := s.disk.mkdirs target.parent hclear } := by
  have hc : (s.disk.mkdirs target.parent hclear).content = s.disk.content := by
    funext q; rw [Disk.content_mkdirs]
  have hfile : ∀ q, (s.disk.mkdirs target.parent hclear).isFile q = s.disk.isFile q := fun q => by
    unfold Disk.isFile; rw [hc]
  refine ⟨by rw [hc]; exact h.restored, by rw [hc]; exact h.loaded, ?_, ?_, ?_⟩
  · intro u hu
    obtain ⟨hpar, hud⟩ := h.homes u hu
    -- a backed-up path on the way would be a file, and the way is clear
    have hnot : ¬ u <+: target.parent := fun hp => by
      have hf := Disk.isFile_of_present (hno u hu hp) hud
      rw [Disk.isClear_iff.mp hclear u hp] at hf
      exact absurd hf (by simp)
    refine ⟨?_, by rw [← hud]; exact Disk.isDir_congr (by rw [Disk.get_mkdirs, if_neg hnot])⟩
    exact Disk.isDir_mkdirs hclear hpar
  · intro u hu; rw [hfile]; exact h.copies u hu
  · intro u hu; rw [hfile]; exact h.made u hu

/-- A file is created and noted as such. -/
theorem create (h : Restorable d₀ s) {t : Path} {b : Bytes} (hnone : s.disk.present t = false)
    (hsafe : t ∉ s.backups ∨ (t ∈ s.created ∧ ShieldedIn s t))
    (hput : s.disk.canPut t = true) :
    Restorable d₀ { s with disk := s.disk.put t b hput, created := s.created ++ [t] } := by
  have htd : s.disk.isDir t = false := by simp [Disk.canPut] at hput; exact hput.2
  have hcn : s.disk.content t = none :=
    Disk.content_eq_none_of_get (Disk.present_eq_false.mp hnone)
  have hc : (s.disk.put t b hput).content = Function.update s.disk.content t (some b) := by
    funext q; rw [Disk.content_put, Function.update_apply]
  have hdir := isDir_change
    (fun q hq => show (s.disk.put t b hput).get q = _ by rw [Disk.get_put, if_neg hq]) htd
    (Disk.isDir_eq_false_of_content (b := b) (by simp))
  have hfile : ∀ q, s.disk.isFile q = true → (s.disk.put t b hput).isFile q = true := fun q hq => by
    unfold Disk.isFile at hq ⊢; rw [Disk.content_put]; split
    · rfl
    · exact hq
  have hrl : UndoLog.restored backupPath s.backups.reverse (s.created ++ [t])
        (Function.update s.disk.content t (some b)) =
        UndoLog.restored backupPath s.backups.reverse s.created s.disk.content ∧
      UndoLog.Loaded backupPath s.backups.reverse
        (Function.update s.disk.content t (some b)) := by
    rcases hsafe with hm | ⟨hm, hs⟩
    · exact UndoLog.restored_create _ (fun hr => hm (List.mem_reverse.mp hr)) hcn h.loaded
    · exact UndoLog.restored_recreate _ hm hs h.loaded
  refine ⟨by rw [hc]; exact hrl.1.trans h.restored, by rw [hc]; exact hrl.2, ?_, ?_, ?_⟩
  · intro u hu; rw [hdir, hdir]; exact h.homes u hu
  · intro u hu; exact (h.copies u hu).imp (hfile _) id
  · intro u hu
    rcases List.mem_append.mp hu with hu | hu
    · exact (h.made u hu).imp (hfile _) id
    · rw [List.mem_singleton.mp hu]; exact Or.inl (Disk.isFile_iff.mpr ⟨b, by simp⟩)

end Restorable

/-! ## The steps keep it -/

section Steps

variable {d₀ : FS} {s s' : Applying}

theorem onFiles_cases {α : Type} {x : FSProg α} {r : Except Exn α}
    (h : onFiles x s = (r, s')) :
    ∃ d, x s.disk = (r, d) ∧ s' = { s with disk := d } := Prog.zoom_cases h

theorem onFiles_eq {α : Type} {x : FSProg α} {r : Except Exn α} {d : FS}
    (h : x s.disk = (r, d)) : onFiles x s = (r, { s with disk := d }) := by
  show (_, _) = _
  simp only [Applying.diskPart, h]

/-- `_backup_file`: it raises and changes nothing, or notes the path and changes
at most the place of the copy. -/
theorem backupFile_restorable {t : Path} {r : Except Exn Unit} (h : Restorable d₀ s)
    (hfit : CopyFits s t) (hthere : t ∈ s.backups ∨ s.disk.present t = true)
    (hrun : backupFile t s = (r, s')) :
    Restorable d₀ s' ∧ s'.created = s.created ∧
      (∀ q, s.disk.present q = true → s'.disk.present q = true) ∧
      (r = .ok () → s'.backups = noted s.backups t) := by
  rcases Prog.whenever_cases hrun with ⟨hnew, hrun⟩ | ⟨hold, -, rfl⟩
  · have hmem : t ∉ s.backups := by simpa using hnew
    rcases hthere with hm | hthere
    · exact absurd hm hmem
    rw [Prog.bind_apply, Prog.whenever, if_pos hthere] at hrun
    -- nothing is a directory where the copy goes
    have hcd : s.disk.isDir (backupPath t) = false := by
      rcases hfit with hm | ha | hs
      · exact absurd hm hmem
      · rw [Disk.isDir_eq_false, Disk.present_eq_false.mp ha]; simp
      · exact h.isDir_shielded hs
    have htarget : copyTarget s.disk t (backupPath t) = backupPath t := by
      unfold copyTarget; rw [if_neg (by simp [hcd])]
    rcases copy2_cases t (backupPath t) s.disk with ⟨b, hp, _, hb, hok⟩ | ⟨e, herr⟩
    · simp only [htarget] at hok hp
      rw [onFiles_eq hok] at hrun
      have hn : noted s.backups t = s.backups ++ [t] := by rw [noted, if_neg hmem]
      simp only [Prog.modify_apply, hn, Prod.mk.injEq] at hrun
      obtain ⟨rfl, rfl⟩ := hrun
      refine ⟨h.keepCopy hmem hb hfit hp, rfl, fun q hq => ?_, fun _ => hn.symm⟩
      unfold Disk.present at hq ⊢
      rw [Disk.get_put]; split
      · rfl
      · exact hq
    · rw [onFiles_eq herr] at hrun
      simp only [Prod.mk.injEq] at hrun
      obtain ⟨rfl, rfl⟩ := hrun
      exact ⟨h, rfl, fun _ hq => hq, by simp⟩
  · have hmem : t ∈ s.backups := by simpa using hold
    exact ⟨h, rfl, fun _ hq => hq, fun _ => by rw [noted, if_pos hmem]⟩

/-- Making the parents of `target`. -/
theorem mkdirP_restorable {target : Path} {r : Except Exn Unit} (h : Restorable d₀ s)
    (hno : NoDirectoryAt s target) (hrun : onFiles (mkdirP target.parent) s = (r, s')) :
    Restorable d₀ s' ∧ s'.created = s.created ∧ s'.backups = s.backups := by
  obtain ⟨d, hd, rfl⟩ := onFiles_cases hrun
  rcases mkdirP_cases target.parent s.disk with ⟨hc, hok⟩ | ⟨_, e, herr⟩
  · rw [hok] at hd; cases hd; exact ⟨h.makeParents hno hc, rfl, rfl⟩
  · rw [herr] at hd; cases hd; exact ⟨h, rfl, rfl⟩

/-- Removing a shielded file. -/
theorem unlink_restorable {t : Path} {r : Except Exn Unit} (h : Restorable d₀ s)
    (hmem : t ∈ s.backups) (hs : ShieldedIn s t) (hrun : onFiles (unlink t) s = (r, s')) :
    Restorable d₀ s' ∧ s'.created = s.created ∧ s'.backups = s.backups := by
  obtain ⟨d, hd, rfl⟩ := onFiles_cases hrun
  rcases unlink_cases t s.disk with ⟨hf, hok⟩ | ⟨_, e, herr⟩
  · rw [hok] at hd; cases hd
    refine ⟨h.change (v := none) hmem hs ?_ ?_ ?_, rfl, rfl⟩
    · funext q; rw [Disk.content_drop, Function.update_apply]
    · intro q hq; rw [Disk.get_drop, if_neg hq]
    · rw [Disk.isDir_eq_false, Disk.get_drop, if_pos rfl]; simp
  · rw [herr] at hd; cases hd; exact ⟨h, rfl, rfl⟩

/-- Writing a shielded file. -/
theorem writeLines_restorable {t : Path} {lines : List Text} {r : Except Exn Unit}
    (h : Restorable d₀ s) (hmem : t ∈ s.backups) (hs : ShieldedIn s t)
    (hrun : onFiles (writeLines t lines) s = (r, s')) : Restorable d₀ s' := by
  obtain ⟨d, hd, rfl⟩ := onFiles_cases hrun
  unfold writeLines writeText at hd
  rcases writeBytes_cases t (encodeUtf8 (linesText lines)) s.disk with ⟨hp, hok⟩ | ⟨_, e, herr⟩
  · rw [hok] at hd; cases hd
    refine h.change (v := some (encodeUtf8 (linesText lines))) hmem hs ?_ ?_ ?_
    · funext q; rw [Disk.content_put, Function.update_apply]
    · intro q hq; rw [Disk.get_put, if_neg hq]
    · exact Disk.isDir_eq_false_of_content (b := encodeUtf8 (linesText lines)) (by simp)
  · rw [herr] at hd; cases hd; exact h

/-- Making the parents of `target` does not make `target`, if it can be written. -/
theorem present_mkdirs_eq_false {d : FS} {t : Path} (hc : d.isClear t.parent = true)
    (hnone : d.present t = false) (hput : (d.mkdirs t.parent hc).canPut t = true) :
    (d.mkdirs t.parent hc).present t = false := by
  have htd : (d.mkdirs t.parent hc).isDir t = false := by simp [Disk.canPut] at hput; exact hput.2
  rw [Disk.isDir_eq_false, Disk.get_mkdirs] at htd
  rw [Disk.present_eq_false, Disk.get_mkdirs]
  split at htd
  · exact absurd rfl htd
  next hnp => rw [if_neg hnp]; exact Disk.present_eq_false.mp hnone

theorem createPatched_restorable {t : Path} {hunks : List HunkPatch} {r : Except Exn Unit}
    (h : Restorable d₀ s) (hsafe : CreateSafe s t) (hrun : createPatched t hunks s = (r, s')) :
    Restorable d₀ s' := by
  rcases Prog.ensure_bind hrun with ⟨_, _, rfl⟩ | ⟨hnew, hrun⟩
  · exact h
  have hnone : s.disk.present t = false := by simpa using hnew
  rcases Prog.ofExcept_bind hrun with ⟨e, _, _, rfl⟩ | ⟨lines, _, hrun⟩
  · exact h
  rcases Prog.bind_cases hrun with ⟨e, hm, _⟩ | ⟨_, s₁, hm, hrun⟩
  · exact (mkdirP_restorable h hsafe.1 hm).1
  obtain ⟨h₁, hcr, hbk⟩ := mkdirP_restorable h hsafe.1 hm
  obtain ⟨d₁, hd₁, rfl⟩ := onFiles_cases hm
  rcases mkdirP_cases t.parent s.disk with ⟨hclear, hok⟩ | ⟨_, _, herr⟩
  · obtain ⟨_, rfl⟩ := Prod.mk.inj (hok.symm.trans hd₁)
    rw [Prog.bind_apply] at hrun
    rcases writeBytes_cases t (encodeUtf8 (linesText lines)) (s.disk.mkdirs t.parent hclear) with
      ⟨hp, hok⟩ | ⟨_, e, herr⟩
    · rw [writeLines, writeText, onFiles_eq hok] at hrun
      simp only [Prog.modify_apply, Prod.mk.injEq] at hrun
      obtain ⟨_, rfl⟩ := hrun
      exact h₁.create (present_mkdirs_eq_false hclear hnone hp) hsafe.2 hp
    · rw [writeLines, writeText, onFiles_eq herr] at hrun
      simp only [Prod.mk.injEq] at hrun
      obtain ⟨_, rfl⟩ := hrun
      exact h₁
  · rw [herr] at hd₁; simp at hd₁

/-- Backing a file up and computing its new lines. -/
theorem patchedLines_restorable {t : Path} {hunks : List HunkPatch} {r : Except Exn (List Text)}
    (h : Restorable d₀ s) (hfit : CopyFits s t) (hrun : patchedLines t hunks s = (r, s')) :
    Restorable d₀ s' ∧ (∀ lines, r = .ok lines → s'.backups = noted s.backups t) := by
  rcases Prog.ensure_bind hrun with ⟨_, rfl, rfl⟩ | ⟨hf, hrun⟩
  · exact ⟨h, by simp⟩
  have hthere : s.disk.present t = true := Disk.present_of_isFile hf
  rcases Prog.bind_cases hrun with ⟨e, hb, rfl⟩ | ⟨_, s₁, hb, hrun⟩
  · exact ⟨(backupFile_restorable h hfit (Or.inr hthere) hb).1, by simp⟩
  obtain ⟨h₁, _, _, hbk⟩ := backupFile_restorable h hfit (Or.inr hthere) hb
  rw [onFiles, readText, Prog.zoom_read] at hrun
  rcases Prog.read_bind hrun with ⟨e, _, rfl, rfl⟩ | ⟨text, _, hrun⟩
  · exact ⟨h₁, by simp⟩
  · obtain ⟨_, rfl⟩ := Prod.mk.inj hrun
    exact ⟨h₁, fun _ _ => hbk rfl⟩

/-- Noting `new` adds no path on the way to `new`. -/
theorem NoDirectoryAt.noted {new : Path} (h : NoDirectoryAt s new)
    (hbk : s'.backups = noted s.backups new)
    (hpres : ∀ q, s.disk.present q = true → s'.disk.present q = true) : NoDirectoryAt s' new := by
  intro u hu hp
  by_cases hm : u ∈ s.backups
  · exact hpres u (h u hm hp)
  · have hun : u = new := by
      rw [hbk, Patch.noted] at hu
      split at hu
      · exact absurd hu hm
      · exact (List.mem_append.mp hu).elim (fun h => absurd h hm) List.mem_singleton.mp
    subst hun
    have hnil : u = [] := by
      by_contra hne
      have := hp.length_le
      rw [Path.parent, List.length_dropLast] at this
      have := List.length_pos_of_ne_nil hne
      omega
    rw [hnil]
    exact Disk.present_of_isDir (Disk.isDir_root _)

theorem writePatched_restorable {old new : Path} {lines : List Text} {r : Except Exn Unit}
    (h : Restorable d₀ s) (hold : old ∈ s.backups) (hsafe : WriteSafe s old new)
    (hrun : writePatched old new lines s = (r, s')) : Restorable d₀ s' := by
  unfold writePatched at hrun
  unfold WriteSafe at hsafe
  by_cases heq : old = new
  · rw [if_pos heq] at hsafe hrun
    subst heq
    exact writeLines_restorable h hold hsafe hrun
  · rw [if_neg heq] at hsafe hrun
    obtain ⟨hfit, hno, hthere, hshield⟩ := hsafe
    rcases Prog.bind_cases hrun with ⟨e, hb, rfl⟩ | ⟨_, s₁, hb, hrun⟩
    · exact (backupFile_restorable h hfit hthere hb).1
    obtain ⟨h₁, hcr₁, hpres, hok⟩ := backupFile_restorable h hfit hthere hb
    have hbk₁ := hok rfl
    have hno₁ : NoDirectoryAt s₁ new := hno.noted hbk₁ hpres
    rcases Prog.bind_cases hrun with ⟨e, hm, rfl⟩ | ⟨_, s₂, hm, hrun⟩
    · exact (mkdirP_restorable h₁ hno₁ hm).1
    obtain ⟨h₂, hcr₂, hbk₂⟩ := mkdirP_restorable h₁ hno₁ hm
    have hshield₂ : ∀ w ∈ [old, new], ShieldedIn s₂ w := fun w hw => by
      unfold ShieldedIn; rw [hcr₂, hcr₁, hbk₂, hbk₁]; exact hshield w hw
    have hold₂ : old ∈ s₂.backups := by rw [hbk₂, hbk₁]; exact mem_noted_of_mem hold
    rcases Prog.bind_cases hrun with ⟨e, hu, rfl⟩ | ⟨_, s₃, hu, hrun⟩
    · exact (unlink_restorable h₂ hold₂ (hshield₂ old (by simp)) hu).1
    obtain ⟨h₃, hcr₃, hbk₃⟩ := unlink_restorable h₂ hold₂ (hshield₂ old (by simp)) hu
    refine writeLines_restorable h₃ (by rw [hbk₃, hbk₂, hbk₁]; exact mem_noted _ _) ?_ hrun
    have := hshield₂ new (by simp)
    unfold ShieldedIn at this ⊢
    rw [hcr₃, hbk₃]; exact this

/-- **Step lemma**: a safe file patch keeps the way back, however it ends. -/
theorem applyFilePatch_restorable {root : Path} {patch : FilePatch} {r : Except Exn Unit}
    (h : Restorable d₀ s) (hsafe : PatchSafe root s patch)
    (hrun : applyFilePatch root patch s = (r, s')) : Restorable d₀ s' := by
  unfold PatchSafe at hsafe
  rcases Prog.ofExcept_bind hrun with ⟨_, _, _, rfl⟩ | ⟨old, hold, hrun⟩
  · exact h
  rcases Prog.ofExcept_bind hrun with ⟨_, _, _, rfl⟩ | ⟨new, hnew, hrun⟩
  · exact h
  rw [hold, hnew] at hsafe
  match old, new with
  | none, none => cases hrun; exact h
  | none, some new => exact createPatched_restorable h hsafe hrun
  | some old, none =>
    rcases Prog.bind_cases hrun with ⟨_, hl, _⟩ | ⟨lines, s₁, hl, hrun⟩
    · exact (patchedLines_restorable h hsafe.1 hl).1
    · obtain ⟨h₁, hbk⟩ := patchedLines_restorable h hsafe.1 hl
      have hmem : old ∈ s₁.backups := hbk lines rfl ▸ mem_noted _ _
      exact (unlink_restorable h₁ hmem (hsafe.2 lines s₁ hl) hrun).1
  | some old, some new =>
    rcases Prog.bind_cases hrun with ⟨_, hl, _⟩ | ⟨lines, s₁, hl, hrun⟩
    · exact (patchedLines_restorable h hsafe.1 hl).1
    · obtain ⟨h₁, hbk⟩ := patchedLines_restorable h hsafe.1 hl
      have hmem : old ∈ s₁.backups := hbk lines rfl ▸ mem_noted _ _
      exact writePatched_restorable h₁ hmem (hsafe.2 lines s₁ hl) hrun

/-- **Run lemma**: so does a safe run. -/
theorem applyAll_restorable {root : Path} : ∀ {patches : List FilePatch} {s : Applying}
    {r : Except Exn Unit}, Restorable d₀ s → RunSafe root patches s →
      Prog.forEach patches (applyFilePatch root) s = (r, s') → Restorable d₀ s'
  | [], _, _, h, _, hrun => by cases hrun; exact h
  | patch :: patches, s, _, h, hsafe, hrun => by
    rcases Prog.bind_cases hrun with ⟨_, hp, _⟩ | ⟨_, s₁, hp, hrun⟩
    · exact applyFilePatch_restorable h hsafe.1 hp
    · exact applyAll_restorable (applyFilePatch_restorable h hsafe.1 hp) (hsafe.2 s₁ hp) hrun

end Steps

/-! ## Going back -/

/-- The place of a backed-up file, as going back finds it. -/
def Home (d : FS) (t : Path) : Prop :=
  d.isDir t.parent = true ∧ d.isDir t = false ∧ d.isDir (backupPath t) = false

/-- One copy moved home is one step of the undo log, and moves no directory. -/
theorem restoreOne {d d' : FS} {t : Path} (hhome : Home d t)
    (hrun : Prog.whenever (fun d => d.present (backupPath t))
      (do mkdirP t.parent; move (backupPath t) t) d = (.ok (), d')) :
    d'.content = UndoLog.undoOne backupPath d.content t ∧ ∀ q, d'.isDir q = d.isDir q := by
  obtain ⟨hpar, htd, hcd⟩ := hhome
  have hne : backupPath t ≠ t := backupPath_ne_self (Disk.ne_nil_of_isDir_eq_false htd)
  rcases Prog.whenever_cases hrun with ⟨hkept, hrun⟩ | ⟨hkept, -, rfl⟩
  · obtain ⟨_, d₁, hm, hrun⟩ := Prog.bind_ok.mp hrun
    rcases mkdirP_cases t.parent d with ⟨hc, hok⟩ | ⟨_, _, herr⟩
    swap
    · rw [herr] at hm; simp at hm
    obtain ⟨_, rfl⟩ := Prod.mk.inj (hok.symm.trans hm)
    -- the parents are there already
    have hget : ∀ q, (d.mkdirs t.parent hc).get q = d.get q := fun q => by
      rw [Disk.get_mkdirs]
      split
      next hp =>
        by_cases hq : q = t.parent
        · rw [hq, Disk.isDir_iff.mp hpar]
        · exact (Disk.isDir_iff.mp
            (Disk.isDir_above hp hq (Disk.present_of_isDir hpar))).symm
      next => rfl
    have hdir₁ : ∀ q, (d.mkdirs t.parent hc).isDir q = d.isDir q := fun q =>
      Disk.isDir_congr (hget q)
    obtain ⟨b, hb⟩ := Disk.isFile_iff.mp (Disk.isFile_of_present hkept hcd)
    rcases move_cases (backupPath t) t (d.mkdirs t.parent hc) with
      ⟨he, _⟩ | ⟨hg, _, _, hmv⟩ | ⟨_, herr⟩
    · exact absurd he hne
    · have htarget : moveTarget (d.mkdirs t.parent hc) (backupPath t) t = t := by
        unfold moveTarget; rw [if_neg (by rw [hdir₁, htd]; simp)]
      simp only [htarget] at hg hmv
      rw [hmv] at hrun
      obtain ⟨_, rfl⟩ := Prod.mk.inj hrun
      have hgraft : ∀ q, ((d.mkdirs t.parent hc).graft (backupPath t) t hg).get q =
          if q = t then some (.file b) else if q = backupPath t then none else d.get q := fun q => by
        rw [Disk.get_graft_file _ hg (by rw [hdir₁, hcd]) (by rw [hdir₁, htd]), hget, hget,
          Disk.content_eq_some.mp hb]
      refine ⟨?_, fun q => ?_⟩
      · rw [UndoLog.undoOne_eq hb]
        funext q
        unfold Disk.content
        rw [hgraft]
        by_cases hq : q = t
        · rw [if_pos hq, if_pos hq]
        · rw [if_neg hq, if_neg hq]
          by_cases hqc : q = backupPath t
          · rw [if_pos hqc, if_pos hqc]
          · rw [if_neg hqc, if_neg hqc]
      · unfold Disk.isDir
        rw [hgraft]
        by_cases hq : q = t
        · rw [if_pos hq, hq]; unfold Disk.isDir at htd; simp only [htd]
        · rw [if_neg hq]
          by_cases hqc : q = backupPath t
          · rw [if_pos hqc, hqc]; unfold Disk.isDir at hcd; simp only [hcd]
          · rw [if_neg hqc]
    · rw [herr] at hrun; simp at hrun
  · have hnone : d.content (backupPath t) = none :=
      Disk.content_eq_none_of_get (Disk.present_eq_false.mp hkept)
    exact ⟨(UndoLog.undoOne_none hnone).symm, fun _ => rfl⟩

/-- `_restore_backups` is the undo of the log. -/
theorem restore_eq_undo : ∀ {log : List Path} {d d' : FS}, (∀ t ∈ log, Home d t) →
    Prog.forEach log (fun t => Prog.whenever (fun d => d.present (backupPath t))
      (do mkdirP t.parent; move (backupPath t) t)) d = (.ok (), d') →
    d'.content = UndoLog.undo backupPath log d.content
  | [], _, _, _, hrun => by cases hrun; rfl
  | t :: log, d, d', hhome, hrun => by
    obtain ⟨_, d₁, h₁, hrun⟩ := Prog.bind_ok.mp hrun
    obtain ⟨hc, hdir⟩ := restoreOne (hhome t (List.mem_cons_self ..)) h₁
    have hhome₁ : ∀ u ∈ log, Home d₁ u := fun u hu => by
      unfold Home
      rw [hdir, hdir, hdir]
      exact hhome u (List.mem_cons_of_mem _ hu)
    rw [restore_eq_undo hhome₁ hrun, hc]; rfl

/-- `removeCreated` removes exactly those. -/
theorem removeCreated_eq_erase : ∀ {created : List Path} {d d' : FS},
    removeCreated created d = (.ok (), d') → d'.content = UndoLog.erase created d.content
  | [], _, _, hrun => by cases hrun; funext q; simp [UndoLog.erase]
  | t :: created, d, d', hrun => by
    obtain ⟨_, d₁, h₁, hrun⟩ := Prog.bind_ok.mp hrun
    have h₁ : d₁.content = fun q => if q = t then none else d.content q := by
      rcases Prog.whenever_cases h₁ with ⟨_, hu⟩ | ⟨habs, _, rfl⟩
      · rcases unlink_cases t d with ⟨hf, hok⟩ | ⟨_, _, herr⟩
        · obtain ⟨_, rfl⟩ := Prod.mk.inj (hok.symm.trans hu)
          funext q; rw [Disk.content_drop]
        · rw [herr] at hu; simp at hu
      · funext q
        split
        next hq =>
          rw [hq]; exact Disk.content_eq_none_of_get (Disk.present_eq_false.mp habs)
        next => rfl
    rw [removeCreated_eq_erase hrun, h₁]
    funext q
    unfold UndoLog.erase
    by_cases hq : q = t <;> simp [hq]

/-- **Main result of the loop**: when a safe run fails and its undo completes,
every file is as it was. -/
theorem applyPatches_restores {root : Path} {patches : List FilePatch} {d d' : FS} {e : Exn}
    {backedUp : Bool} (hsafe : RunSafe root patches ⟨d, [], []⟩)
    (hrun : applyPatches root patches d = (.ok (some e, backedUp), d')) :
    d'.content = d.content := by
  unfold applyPatches at hrun
  generalize hs : Prog.forEach patches (applyFilePatch root) ⟨d, [], []⟩ = outcome at hrun
  match outcome with
  | (.ok (), s) => simp at hrun
  | (.error e', s) =>
    have hI := applyAll_restorable (Restorable.start d) hsafe hs
    obtain ⟨_, d₁, hrestore, hrun⟩ := Prog.bind_ok.mp hrun
    obtain ⟨_, d₂, hremove, hrun⟩ := Prog.bind_ok.mp hrun
    cases hrun
    have hhome : ∀ t ∈ s.backups.reverse, Home s.disk t := fun t ht =>
      have ht := List.mem_reverse.mp ht
      ⟨(hI.homes t ht).1, (hI.homes t ht).2, hI.isDir_copy ht⟩
    rw [removeCreated_eq_erase hremove, restore_eq_undo hhome hrestore, ← hI.restored]
    rfl

/-- The ways `apply_result` returns. -/
theorem applyResult_cases {engine : Engine} {diffText : Text} {w w' : World}
    {result : MutationResult} (hrun : applyResult engine diffText w = (.ok result, w')) :
    (w'.disk = w.disk ∧ (result.status = .validationFailed ∨ result.status = .denied)) ∨
    ∃ patches failure backedUp,
      parseFilePatches engine.root (engine.sanitize diffText) = .ok patches ∧
      applyPatches engine.root patches w.disk = (.ok (failure, backedUp), w'.disk) ∧
      result.status = if failure.isSome then .applyFailed else .applied := by
  unfold applyResult at hrun
  cases hparse : parseFilePatches engine.root (engine.sanitize diffText) with
  | error e =>
    simp only [hparse] at hrun
    by_cases he : e.kind = .diffValidation
    · rw [if_pos he] at hrun; cases hrun; exact Or.inl ⟨rfl, Or.inl rfl⟩
    · rw [if_neg he] at hrun; simp at hrun
  | ok patches =>
    simp only [hparse] at hrun
    obtain ⟨approved, w₁, hask, hrun⟩ := Prog.bind_ok.mp hrun
    have hdisk : w₁.disk = w.disk := by cases hask; rfl
    cases approved with
    | false => cases hrun; exact Or.inl ⟨hdisk, Or.inr rfl⟩
    | true =>
      obtain ⟨⟨failure, backedUp⟩, w₂, happly, hrun⟩ := Prog.bind_ok.mp hrun
      obtain ⟨d, hd, rfl⟩ := Prog.zoom_cases happly
      have hd : applyPatches engine.root patches w.disk = (.ok (failure, backedUp), d) :=
        hdisk ▸ hd
      cases failure with
      | none => cases hrun; exact Or.inr ⟨patches, none, backedUp, rfl, hd, rfl⟩
      | some e => cases hrun; exact Or.inr ⟨patches, some e, backedUp, rfl, hd, rfl⟩

/-- **A failed patch leaves no trace in a safe run**: when every file patch is
safe in the state it is applied to and `apply_result` reports `apply_failed`,
every file has the existence and the bytes it had before the call. -/
theorem applyResult_failed_restores {engine : Engine} {diffText : Text} {w w' : World}
    {result : MutationResult} (hrun : applyResult engine diffText w = (.ok result, w'))
    (hfailed : result.status = .applyFailed)
    (hsafe : ∀ patches, parseFilePatches engine.root (engine.sanitize diffText) = .ok patches →
      RunSafe engine.root patches ⟨w.disk, [], []⟩) (p : Path) :
    w'.disk.content p = w.disk.content p := by
  rcases applyResult_cases hrun with ⟨_, hs | hs⟩ | ⟨patches, failure, backedUp, hparse, happly, hs⟩
  · rw [hs] at hfailed; simp at hfailed
  · rw [hs] at hfailed; simp at hfailed
  · cases failure with
    | none => rw [hs] at hfailed; simp at hfailed
    | some e => exact congrFun (applyPatches_restores (hsafe patches hparse) happly) p

/-- Two edits, the second of which does not match. -/
def staleSecondEdit : Text :=
  ("--- a/a.txt\n+++ b/a.txt\n@@ -1 +1 @@\n-x\n+z\n" ++
    "--- a/b.txt\n+++ b/b.txt\n@@ -1 +1 @@\n-gone\n+z\n").toList

/-- The theorem on a run: the first edit is applied and taken back. -/
theorem applyResult_failed_restores_staleSecondEdit :
    ∃ result w', applyResult .agreeable staleSecondEdit
        (.ofFiles [("a.txt", "x\n"), ("b.txt", "y\n")]) = (.ok result, w') ∧
      result.status = .applyFailed ∧
      ∀ p, w'.disk.content p = (World.ofFiles [("a.txt", "x\n"), ("b.txt", "y\n")]).disk.content p := by
  have hrun : Prog.returns (fun r _ => r.status == .applyFailed) (applyResult .agreeable
      staleSecondEdit (.ofFiles [("a.txt", "x\n"), ("b.txt", "y\n")])) = true := by decide +kernel
  obtain ⟨result, w', hrun, hs⟩ := Prog.returns_iff.mp hrun
  have hs : result.status = .applyFailed := by simpa using hs
  refine ⟨result, w', hrun, hs, applyResult_failed_restores hrun hs fun patches hparse => ?_⟩
  have hparse' : parseFilePatches Engine.agreeable.root staleSecondEdit = .ok
      [⟨"a.txt".toList, "a.txt".toList, [⟨1, 1, 1, 1, ["-x".toList, "+z".toList]⟩]⟩,
       ⟨"b.txt".toList, "b.txt".toList, [⟨1, 1, 1, 1, ["-gone".toList, "+z".toList]⟩]⟩] := by
    decide
  obtain rfl := Except.ok.inj (hparse'.symm.trans hparse)
  have hsnd : ∀ {α : Type} {x : Except Exn α × Applying} {r s}, x = (r, s) → s = x.2 :=
    fun h => by rw [h]
  refine ⟨⟨by decide, fun _ s₁ h₁ => ?_⟩, fun s' h' => ⟨⟨?_, fun _ s₁ h₁ => ?_⟩,
    fun _ _ => trivial⟩⟩
  · rw [hsnd h₁]; decide
  · rw [hsnd h']; decide
  · rw [hsnd h₁, hsnd h']; decide

/-- A diff whose only hunk does not match. -/
def staleEdit : Text := "--- a/a.txt\n+++ b/a.txt\n@@ -1 +1 @@\n-y\n+z\n".toList

/-- Without the condition it fails: the user's `a.txt.bak` is overwritten by the
copy, and the copy is moved away. -/
theorem applyResult_failed_clobbers :
    ¬ ∀ (engine : Engine) (diffText : Text) (w w' : World) (result : MutationResult),
      applyResult engine diffText w = (.ok result, w') → result.status = .applyFailed →
      ∀ p, IsUserPath engine.root p → w'.disk.content p = w.disk.content p := by
  intro h
  have hrun : Prog.returns (fun r w' => r.status == .applyFailed &&
      w'.disk.content ["ws".toList, "a.txt.bak".toList] == none) (applyResult .agreeable staleEdit
        (.ofFiles [("a.txt", "x\n"), ("a.txt.bak", "mine\n")])) = true := by decide +kernel
  obtain ⟨result, w', hrun, hs⟩ := Prog.returns_iff.mp hrun
  simp only [Bool.and_eq_true, beq_iff_eq] at hs
  have hsame := h _ _ _ _ _ hrun hs.1 ["ws".toList, "a.txt.bak".toList] (by decide)
  rw [hs.2] at hsame
  exact absurd hsame (by decide)

end Shamsu.Patch
