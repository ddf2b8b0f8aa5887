import Shamsu.Patch.Mutations

/-!
# What a rollback restores

The manifest of a transaction is meant to be a record of the past: `f` is how
the files were, and every key leads to a path whose file, if `f` has one, is kept
in a backup. `Recoverable` is that meaning for one key, together with what the
disk must look like for the backup to go home: no directory at the path and no
file above it.

**`rollbackTransaction_restores`**: if every touched key is recoverable, the
rollback succeeds, gives every touched path its file of `f` (or none) and changes
no other file.
-/

namespace Shamsu.Patch

open Shamsu.Lib Shamsu.Py Shamsu.Safety

/-- A view of files: what is at each path, if it is a file. -/
abbrev Files := Path → Option Bytes

/-- The key `k` of `m` leads to `t`, says whether `f` has a file there, and
keeps it where the rollback finds it and can put it back. -/
structure Recoverable (root : Path) (f : Files) (m : Manifest) (d : FS) (k : Text)
    (t : Path) : Prop where
  leads : validate root k = .ok t
  user : IsUserPath root t
  existed : (m.beforeHashes.lookup k).join.isSome = (f t).isSome
  kept : ∀ b, f t = some b → ∃ backup, m.backups.lookup k = some backup ∧
    ¬ IsUserPath root backup ∧ d.content backup = some b
  free : (f t).isSome = true → d.isDir t = false
  clear : (f t).isSome = true → ∀ q, q <+: t → q ≠ t → d.content q = none

/-- The path of a touched key. -/
def IsTouched (root : Path) (keys : List Text) (p : Path) : Prop :=
  ∃ k ∈ keys, validate root k = .ok p

instance (root : Path) (keys : List Text) (p : Path) : Decidable (IsTouched root keys p) :=
  decidable_of_iff (keys.any fun k => validate root k == .ok p) (by simp [IsTouched])

theorem isTouched_cons {root : Path} {k : Text} {ks : List Text} {t p : Path}
    (hk : validate root k = .ok t) :
    IsTouched root (k :: ks) p ↔ p = t ∨ IsTouched root ks p := by
  constructor
  · intro h
    obtain ⟨k', hk', hp⟩ := h
    rcases List.mem_cons.mp hk' with rfl | hk'
    · rw [hk] at hp; exact Or.inl (Except.ok.inj hp).symm
    · exact Or.inr ⟨k', hk', hp⟩
  · intro h
    rcases h with rfl | ⟨k', hk', hp⟩
    · exact ⟨k, List.mem_cons_self .., hk⟩
    · exact ⟨k', List.mem_cons_of_mem _ hk', hp⟩

section Rollback

variable {engine : Engine} {f : Files} {m : Manifest}

/-- A new path removed: no file is at `t`, other files stay, no directory is new. -/
theorem removeNew_spec (t : Path) (d : FS) :
    ∃ d', removeNew t d = (.ok (), d') ∧
      (∀ p, d'.content p = if p = t then none else d.content p) ∧
      ∀ q, d'.isDir q = true → d.isDir q = true := by
  unfold removeNew
  by_cases hf : d.isFile t = true
  · refine ⟨d.drop t hf, by rw [if_pos hf, unlink_eq hf], fun p => by rw [Disk.content_drop], ?_⟩
    intro q hq
    rw [Disk.isDir_iff, Disk.get_drop] at hq
    rw [Disk.isDir_iff]
    split at hq
    · simp at hq
    · exact hq
  · have hnone : d.content t = none := Disk.isFile_eq_false.mp (by simpa using hf)
    have hsame : ∀ p, d.content p = if p = t then none else d.content p := fun p => by
      split
      next h => rw [h, hnone]
      next => rfl
    by_cases hr : d.canRmdir t = true
    · refine ⟨d.rmdir t hr, by rw [if_neg hf, if_pos hr, rmdir_eq hr], fun p => ?_, ?_⟩
      · rw [Disk.content_rmdir]; exact hsame p
      · intro q hq
        rw [Disk.isDir_iff, Disk.get_rmdir] at hq
        rw [Disk.isDir_iff]
        split at hq
        · simp at hq
        · exact hq
    · exact ⟨d, by rw [if_neg hf, if_neg hr], hsame, fun _ hq => hq⟩

/-- A backup copied home: the file is back, other files stay, and the only new
directories are above it. -/
theorem copyBack_spec {backup t : Path} {d : FS} {b : Bytes} (hb : d.content backup = some b)
    (hne : t ≠ backup) (hfree : d.isDir t = false)
    (hclear : ∀ q, q <+: t → q ≠ t → d.content q = none) :
    ∃ d', copyBack backup t d = (.ok (), d') ∧
      (∀ p, d'.content p = if p = t then some b else d.content p) ∧
      ∀ q, d'.isDir q = true → d.isDir q = true ∨ (q <+: t ∧ q ≠ t) := by
  have hnil : t ≠ [] := Disk.ne_nil_of_isDir_eq_false hfree
  have hc : d.isClear t.parent = true := Disk.isClear_iff.mpr fun q hq =>
    Disk.isFile_eq_false.mpr
      (hclear q (Path.prefix_of_prefix_parent hq) (Path.ne_of_prefix_parent hnil hq))
  have htp : ¬ t <+: t.parent := fun hp => Path.ne_of_prefix_parent hnil hp rfl
  have hdir : (d.mkdirs t.parent hc).isDir t = false := by
    rw [← hfree]; exact Disk.isDir_congr (by rw [Disk.get_mkdirs, if_neg htp])
  have hpar : (d.mkdirs t.parent hc).isDir t.dropLast = true := by
    rw [Disk.isDir_iff, Disk.get_mkdirs]; exact if_pos (List.prefix_refl _)
  have hput : (d.mkdirs t.parent hc).canPut t = true := by simp [Disk.canPut, hpar, hdir]
  refine ⟨(d.mkdirs t.parent hc).put t b hput, ?_, fun p => ?_, fun q hq => ?_⟩
  · unfold copyBack
    rw [Prog.bind_of_ok (mkdirP_eq hc), copy2_eq (by rwa [Disk.content_mkdirs]) hne hput]
  · rw [Disk.content_put, Disk.content_mkdirs]
  · rw [Disk.isDir_iff, Disk.get_put] at hq
    split at hq
    · simp at hq
    next hqt =>
      rw [Disk.get_mkdirs] at hq
      split at hq
      next hp => exact Or.inr ⟨Path.prefix_of_prefix_parent hp, hqt⟩
      next => exact Or.inl (Disk.isDir_iff.mpr hq)

/-- One touched path put back: its file is the one of `f`, other files stay, and
the only new directories are above it. -/
theorem rollbackFile_spec {w : World} {k : Text} {t : Path}
    (h : Recoverable engine.root f m w.disk k t) :
    ∃ d, rollbackFile engine m k w = (.ok none, { w with disk := d }) ∧
      (∀ p, d.content p = if p = t then f t else w.disk.content p) ∧
      ∀ q, d.isDir q = true → w.disk.isDir q = true ∨
        ((f t).isSome = true ∧ q <+: t ∧ q ≠ t) := by
  unfold rollbackFile
  simp only [h.leads]
  have hexisted := h.existed
  cases hft : f t with
  | none =>
    rw [hft] at hexisted
    obtain ⟨d, hrun, hc, hd⟩ := removeNew_spec t w.disk
    refine ⟨d, ?_, hc, fun q hq => Or.inl (hd q hq)⟩
    rw [if_pos (by simpa using hexisted), Prog.bind_of_ok (onDisk_eq hrun)]; rfl
  | some b =>
    rw [hft] at hexisted
    obtain ⟨backup, hlookup, hbackup, hcontent⟩ := h.kept b hft
    have hsome : (f t).isSome = true := by rw [hft]; rfl
    obtain ⟨d, hrun, hc, hd⟩ := copyBack_spec hcontent (fun e => hbackup (e ▸ h.user))
      (h.free hsome) (h.clear hsome)
    have hpresent : w.disk.present backup = true :=
      Disk.present_of_isFile (Disk.isFile_iff.mpr ⟨b, hcontent⟩)
    refine ⟨d, ?_, hc, fun q hq => (hd q hq).imp id fun h => ⟨rfl, h⟩⟩
    have hjoin : (m.beforeHashes.lookup k).join.isNone = false := by
      cases hj : (m.beforeHashes.lookup k).join with
      | none => rw [hj] at hexisted; simp at hexisted
      | some _ => rfl
    rw [if_neg (by rw [hjoin]; simp), hlookup]
    simp only
    rw [Prog.bind_of_ok (Prog.gets_apply _ w), if_pos hpresent, Prog.bind_of_ok (onDisk_eq hrun)]
    rfl

/-- No path that had a file is above another one. Files of one disk are like this. -/
def Spread (f : Files) (root : Path) (keys : List Text) : Prop :=
  ∀ t t', IsTouched root keys t → IsTouched root keys t' → (f t).isSome = true →
    (f t').isSome = true → t <+: t' → t = t'

/-- **Run lemma**: the loop puts every touched path back and changes no other file. -/
theorem rollbackFiles_spec : ∀ {keys : List Text} {w : World},
    (∀ k ∈ keys, ∃ t, Recoverable engine.root f m w.disk k t) → Spread f engine.root keys →
    ∃ d, rollbackFiles engine m keys w = (.ok none, { w with disk := d }) ∧
      (∀ p, d.content p = if IsTouched engine.root keys p then f p else w.disk.content p) ∧
      ∀ q, d.isDir q = true → w.disk.isDir q = true ∨
        ∃ t, IsTouched engine.root keys t ∧ (f t).isSome = true ∧ q <+: t ∧ q ≠ t
  | [], w, _, _ =>
    ⟨w.disk, rfl, fun p => by rw [if_neg (by simp [IsTouched])], fun q hq => Or.inl hq⟩
  | k :: keys, w, hrec, hspread => by
    obtain ⟨t, ht⟩ := hrec k (List.mem_cons_self ..)
    obtain ⟨d₁, hrun₁, hc₁, hd₁⟩ := rollbackFile_spec ht
    have htouched : IsTouched engine.root (k :: keys) t :=
      ⟨k, List.mem_cons_self .., ht.leads⟩
    have hmono : ∀ {u}, IsTouched engine.root keys u → IsTouched engine.root (k :: keys) u :=
      fun hu => (isTouched_cons ht.leads).mpr (Or.inr hu)
    -- the other keys are still recoverable
    have hrec₁ : ∀ k' ∈ keys, ∃ u, Recoverable engine.root f m d₁ k' u := fun k' hk' => by
      obtain ⟨u, hu⟩ := hrec k' (List.mem_cons_of_mem _ hk')
      have hutouched : IsTouched engine.root (k :: keys) u :=
        ⟨k', List.mem_cons_of_mem _ hk', hu.leads⟩
      refine ⟨u, hu.leads, hu.user, hu.existed, ?_, ?_, ?_⟩
      · intro b hb
        obtain ⟨backup, hl, hnu, hcb⟩ := hu.kept b hb
        refine ⟨backup, hl, hnu, ?_⟩
        rw [hc₁, if_neg (fun e : backup = t => hnu (e ▸ ht.user)), hcb]
      · intro hsome
        cases hdir : d₁.isDir u with
        | false => rfl
        | true =>
          rcases hd₁ u hdir with h | ⟨hts, hp, hne⟩
          · rw [hu.free hsome] at h; exact h.symm
          · exact absurd (hspread u t hutouched htouched hsome hts hp) hne
      · intro hsome q hq hne
        rw [hc₁]
        split
        next hqt =>
          cases hft : f t with
          | none => rfl
          | some b =>
            subst hqt
            exact absurd (hspread q u htouched hutouched (by rw [hft]; rfl) hsome hq) hne
        next => exact hu.clear hsome q hq hne
    obtain ⟨d₂, hrun₂, hc₂, hd₂⟩ := rollbackFiles_spec (w := { w with disk := d₁ }) hrec₁
      fun u u' hu hu' => hspread u u' (hmono hu) (hmono hu')
    refine ⟨d₂, ?_, fun p => ?_, fun q hq => ?_⟩
    · unfold rollbackFiles
      rw [Prog.bind_of_ok hrun₁]
      exact hrun₂
    · rw [hc₂]
      by_cases hp : IsTouched engine.root keys p
      · rw [if_pos hp, if_pos (hmono hp)]
      · rw [if_neg hp]
        show d₁.content p = _
        rw [hc₁]
        by_cases hpt : p = t
        · rw [if_pos hpt, if_pos (hpt ▸ htouched), hpt]
        · rw [if_neg hpt, if_neg (by rw [isTouched_cons ht.leads]; simp [hpt, hp])]
    · rcases hd₂ q hq with h | ⟨u, hu, h⟩
      · exact (hd₁ q h).imp id fun h => ⟨t, htouched, h⟩
      · exact Or.inr ⟨u, hmono hu, h⟩

/-- **What a rollback restores**: if every touched key is recoverable, the
rollback reports success, gives every touched path its file of `f` and changes
no other file; the transaction is marked. -/
theorem rollbackTransaction_restores {w : World} {id : Text}
    (hm : findManifest w id = some m) (hopen : m.status ≠ .rolledBack)
    (hrec : ∀ k ∈ m.touchedFiles, ∃ t, Recoverable engine.root f m w.disk k t)
    (hspread : Spread f engine.root m.touchedFiles) :
    ∃ message d, rollbackTransaction engine id w = (.ok (true, message),
        (writeManifest { m with status := .rolledBack, error := "" } { w with disk := d }).2) ∧
      (∀ p, d.content p =
        if IsTouched engine.root m.touchedFiles p then f p else w.disk.content p) ∧
      ∀ q, d.isDir q = true → w.disk.isDir q = true ∨
        ∃ t, IsTouched engine.root m.touchedFiles t ∧ (f t).isSome = true ∧ q <+: t ∧ q ≠ t := by
  obtain ⟨d, hrun, hc, hd⟩ := rollbackFiles_spec hrec hspread
  refine ⟨s!"Restored {m.touchedFiles.length} file(s) from transaction {str id}.", d, ?_, hc, hd⟩
  unfold rollbackTransaction
  rw [Prog.bind_of_ok (Prog.gets_apply _ w)]
  simp only [hm, if_neg hopen]
  rw [Prog.bind_of_ok hrun]
  have hm' : findManifest { w with disk := d } id = some m := hm
  unfold finalize
  simp only [Prog.bind_of_ok (loadManifest_eq hm'), Prog.bind_apply]
  rfl

end Rollback

end Shamsu.Patch
