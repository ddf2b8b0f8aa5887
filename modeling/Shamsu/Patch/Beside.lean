import Shamsu.Patch.Effects
import Shamsu.Patch.Undoable

/-!
# What a transaction leaves alone

A transaction that creates, edits or deletes one file changes, beside its own
record, very little (`Beside`): the backups of other transactions stay, the user's
files other than its target stay or vanish with a directory that is deleted, and
the only new directories are the parents that a create makes.
-/

namespace Shamsu.Patch

open Shamsu.Lib Shamsu.Py Shamsu.Safety

/-- The path an operation is about. -/
def Operation.target (root : Path) (op : Operation) : Path := root ++ parts op.path

/-- `create_file`, `edit_file` or `delete_file`. -/
def Operation.IsFileChange (op : Operation) : Prop :=
  op.op = .createFile ∨ op.op = .editFile ∨ op.op = .deleteFile

/-- A create makes the parents of its target. -/
def Operation.Makes (root : Path) (op : Operation) (p : Path) : Prop :=
  op.op = .createFile ∧ p <+: op.target root ∧ p ≠ op.target root

/-- From `d` to `d'` the transaction `id` did at most what `op` does. -/
structure Beside (root : Path) (id : Text) (op : Operation) (d d' : FS) : Prop where
  stays : d'.isDir root = true
  content : ∀ p, IsUserPath root p → p ≠ op.target root →
    d'.content p = d.content p ∨ (op.target root <+: p ∧ d'.content p = none)
  backups : ∀ i s, i ≠ id → d'.content (backupsDir root i ++ s) = d.content (backupsDir root i ++ s)
  dirs : ∀ p, IsUserPath root p → d'.isDir p = true →
    d.isDir p = true ∨ (op.Makes root p ∧ d.content p = none)

/-- `Beside`, on a disk with the workspace on it. -/
def Spares (root : Path) (id : Text) (op : Operation) (d d' : FS) : Prop :=
  d.isDir root = true → Beside root id op d d'

section Spares

variable {root : Path} {id : Text} {op : Operation}

theorem Spares.refl (d : FS) : Spares root id op d d :=
  fun h => ⟨h, fun _ _ _ => Or.inl rfl, fun _ _ _ => rfl, fun _ _ hp => Or.inl hp⟩

theorem Spares.trans {a b c : FS} (h₁ : Spares root id op a b) (h₂ : Spares root id op b c) :
    Spares root id op a c := by
  intro ha
  have hab := h₁ ha
  have hbc := h₂ hab.stays
  refine ⟨hbc.stays, fun p hu hne => ?_, fun i s hi => ?_, fun p hu hp => ?_⟩
  · rcases hbc.content p hu hne with hc | hc
    · rw [hc]; exact hab.content p hu hne
    · exact Or.inr hc
  · exact (hbc.backups i s hi).trans (hab.backups i s hi)
  · rcases hbc.dirs p hu hp with hd | ⟨hm, hn⟩
    · exact hab.dirs p hu hd
    · refine Or.inr ⟨hm, ?_⟩
      rcases hab.content p hu hm.2.2 with hc | ⟨hpre, _⟩
      · rw [← hc]; exact hn
      · exact absurd (hm.2.1.eq_of_length_le hpre.length_le) hm.2.2

instance : Std.Refl (Spares root id op) := ⟨Spares.refl⟩

instance : IsTrans FS (Spares root id op) := ⟨fun _ _ _ => Spares.trans⟩

/-- What changes only the program's own paths, and no other transaction's backup. -/
theorem OwnOnly.spares {d d' : FS} (h : OwnOnly root d d')
    (hb : ∀ i s, i ≠ id →
      d'.content (backupsDir root i ++ s) = d.content (backupsDir root i ++ s)) :
    Spares root id op d d' := by
  intro hroot
  obtain ⟨hroot', hget⟩ := h hroot
  exact ⟨hroot', fun p hu _ => Or.inl (Disk.content_congr (hget p hu)), hb,
    fun p hu hp => Or.inl (by rw [← Disk.isDir_congr (hget p hu)]; exact hp)⟩

theorem mkdirP_content (p : Path) (d : FS) (q : Path) :
    (mkdirP p d).2.content q = d.content q := by
  rcases mkdirP_cases p d with ⟨hc, hok⟩ | ⟨_, e, herr⟩
  · rw [hok]; exact Disk.content_mkdirs _ _ _ hc
  · rw [herr]

theorem mkdirP_own_spares {p : Path} (hp : IsOwnPath root p) :
    Prog.Keeps (Spares root id op) (mkdirP p) :=
  fun d => (mkdirP_ownOnly hp d).spares fun _ _ _ => mkdirP_content p d _

/-- Backups of two transactions are at different paths. -/
theorem backupsDir_ne {i : Text} (hi : i ≠ id) (s s' : Path) :
    backupsDir root i ++ s ≠ backupsDir root id ++ s' := by
  intro e
  simp only [backupsDir, transactionDir, List.append_assoc, List.append_cancel_left_eq,
    List.cons_append, List.cons.injEq] at e
  exact hi e.2.2.1

theorem snapshot_spares {engine : Engine} {k : Text} (hclean : CleanKey k) :
    DiskKeeps (Spares engine.root id op) (snapshot engine id k) := by
  refine snapshot_diskKeeps (mkdirP_own_spares (transactionBackup_parent_own hclean)) fun t d =>
    (copy2_ownOnly (transactionBackup_own hclean) d).spares fun i s hi => ?_
  rcases copy2_cases t (transactionBackup engine.root id k) d with ⟨b, hp, _, _, hok⟩ | ⟨e, herr⟩
  · rw [hok, Disk.content_put, if_neg]
    rw [transactionBackup_clean hclean]
    unfold copyTarget
    split
    · rw [List.append_assoc]; exact backupsDir_ne hi _ _
    · exact backupsDir_ne hi _ _
  · rw [herr]

/-- The parents of what is created. -/
theorem mkdirParent_spares (hop : op.op = .createFile) :
    Prog.Keeps (Spares root id op) (mkdirP (op.target root).parent) := by
  refine mkdirP_keeps fun d hc hroot => ⟨Disk.isDir_mkdirs hc hroot,
    fun p _ _ => Or.inl (Disk.content_mkdirs _ _ _ hc),
    fun _ _ _ => Disk.content_mkdirs _ _ _ hc, fun p _ hp => ?_⟩
  rw [Disk.isDir_iff, Disk.get_mkdirs] at hp
  split at hp
  next hpre =>
    by_cases hne : p = op.target root
    · -- only the root of the disk is its own parent
      refine Or.inl ?_
      by_cases hnil : op.target root = []
      · rw [hne, hnil]; exact Disk.isDir_root d
      · exact absurd hne (Path.ne_of_prefix_parent hnil hpre)
    · exact Or.inr ⟨⟨hop, Path.prefix_of_prefix_parent hpre, hne⟩,
        Disk.isFile_eq_false.mp (Disk.isClear_iff.mp hc p hpre)⟩
  next => exact Or.inl (Disk.isDir_iff.mpr hp)

theorem writeText_spares {text : Text} (hu : IsUserPath root (op.target root)) :
    Prog.Keeps (Spares root id op) (writeText (op.target root) text) := by
  refine writeText_keeps fun d hp hroot => ?_
  refine ⟨Disk.isDir_put hp hroot, fun p _ hne => Or.inl ?_, fun i s _ => ?_,
    fun p _ hd => Or.inl ?_⟩
  · rw [Disk.content_put, if_neg hne]
  · have hne : backupsDir root i ++ s ≠ op.target root :=
      fun e => not_isUserPath_backupsDir root i s (e ▸ hu)
    rw [Disk.content_put, if_neg hne]
  · rw [Disk.isDir_iff, Disk.get_put] at hd
    split at hd
    · simp at hd
    · exact Disk.isDir_iff.mpr hd

/-- The move of the target to a path of the trash. -/
theorem moveTarget_spares {dst : Path} (hu : IsUserPath root (op.target root))
    (hdst : ∀ s, IsOwnPath root (dst ++ s)) (harea : ∀ i s s', backupsDir root i ++ s ≠ dst ++ s') :
    Prog.Keeps (Spares root id op) (move (op.target root) dst) := by
  refine move_keeps fun d s hg hroot => ?_
  have hroot₁ : root <+: dst ++ s := (List.prefix_append ..).trans (hdst s)
  -- the workspace itself is not moved into its own trash
  have habove : ∀ q, IsOwnPath root q ∨ q = root → ¬ op.target root <+: q := by
    intro q hq hpre
    have hle : op.target root <+: root ∨ IsOwnPath root (op.target root) := by
      rcases hq with hq | rfl
      · rcases List.prefix_or_prefix_of_prefix hpre hq with h | h
        · rcases List.prefix_concat_iff.mp h with e | h
          · exact Or.inr (e ▸ List.prefix_refl _)
          · exact Or.inl h
        · exact Or.inr h
      · exact Or.inl hpre
    rcases hle with h | h
    · exact (Disk.of_canGraft hg).1 (h.trans hroot₁)
    · exact hu.2 h
  have hget : ∀ q, ¬ dst ++ s <+: q → (d.graft (op.target root) (dst ++ s) hg).get q =
      if op.target root <+: q then none else d.get q := fun q hq => by
    rw [Disk.get_graft, if_neg hq]
  have huser : ∀ q, IsUserPath root q → ¬ dst ++ s <+: q :=
    fun q hq hp => hq.2 ((hdst s).trans hp)
  refine ⟨?_, fun p hp hne => ?_, fun i s' _ => ?_, fun p hp hd => Or.inl ?_⟩
  · have hnot : ¬ dst ++ s <+: root := fun h => by
      have := (hdst s).length_le.trans h.length_le
      rw [List.length_append, List.length_singleton] at this
      omega
    rw [Disk.isDir_iff, hget _ hnot, if_neg (habove _ (Or.inr rfl)), Disk.isDir_iff.mp hroot]
  · by_cases hpre : op.target root <+: p
    · exact Or.inr ⟨hpre, Disk.content_eq_none_of_get (by
        rw [hget p (huser p hp), if_pos hpre])⟩
    · exact Or.inl (Disk.content_congr (by rw [hget p (huser p hp), if_neg hpre]))
  · have hown : IsOwnPath root (backupsDir root i ++ s') :=
      ⟨"mutations".toList :: i :: "backups".toList :: s', by simp [backupsDir, transactionDir]⟩
    have hnot : ¬ dst ++ s <+: backupsDir root i ++ s' := by
      rintro ⟨u, hu'⟩
      exact harea i s' (s ++ u) (by rw [← hu', List.append_assoc])
    exact Disk.content_congr (by rw [hget _ hnot, if_neg (habove _ (Or.inl hown))])
  · rw [Disk.isDir_iff, hget p (huser p hp)] at hd
    split at hd
    · simp at hd
    · exact Disk.isDir_iff.mpr hd

end Spares

/-! ## The operations -/

section Operations

variable {engine : Engine} {id : Text} {op : Operation}

/-- The target as the checks give it. -/
theorem target_of_mutation {t : Path} (h : validateMutationPath engine.root op.path = .ok t) :
    t = op.target engine.root ∧ CleanKey op.path := by
  obtain ⟨hclean, _, rfl⟩ := cleanKey_of_mutation h
  exact ⟨rfl, hclean⟩

theorem createFile_spares (hop : op.op = .createFile)
    (hu : IsUserPath engine.root (op.target engine.root)) :
    DiskKeeps (Spares engine.root id op) (createFile engine id op.path op.content) := by
  refine createFile_diskKeeps snapshot_spares (fun t hv => ?_) fun t hv => ?_
  · obtain ⟨rfl, _⟩ := target_of_mutation hv
    exact mkdirParent_spares hop
  · obtain ⟨rfl, _⟩ := target_of_mutation hv
    exact writeText_spares hu

theorem editFile_spares (hu : IsUserPath engine.root (op.target engine.root)) :
    DiskKeeps (Spares engine.root id op) (editFile engine id op.path op.content) := by
  refine editFile_diskKeeps snapshot_spares fun t hv => ?_
  obtain ⟨rfl, _⟩ := target_of_mutation hv
  exact writeText_spares hu

theorem moveToTrash_spares (hu : IsUserPath engine.root (op.target engine.root))
    (hclean : CleanKey op.path) :
    DiskKeeps (Spares engine.root id op)
      (moveToTrash engine id (op.target engine.root) op.path) := by
  unfold moveToTrash
  simp only [trashPath_clean engine.root id hclean]
  rw [if_pos (List.prefix_append ..)]
  have hown : ∀ s, IsOwnPath engine.root
      (engine.root ++ dotShamsu :: "trash".toList :: id :: parts op.path ++ s) :=
    fun s => ⟨"trash".toList :: id :: (parts op.path ++ s), by simp⟩
  have hparent : IsOwnPath engine.root
      (Path.parent (engine.root ++ dotShamsu :: "trash".toList :: id :: parts op.path)) := by
    unfold Path.parent
    rw [List.dropLast_append_of_ne_nil (by simp), IsOwnPath, List.prefix_append_right_inj]
    cases parts op.path with
    | nil => simp
    | cons n ns => simp
  refine DiskKeeps.bind (DiskKeeps.disk (mkdirP_own_spares hparent)) fun _ =>
    DiskKeeps.disk (moveTarget_spares hu hown fun i s s' e => ?_)
  simp only [backupsDir, transactionDir, List.append_assoc, List.append_cancel_left_eq,
    List.cons_append, List.cons.injEq] at e
  exact absurd e.2.1 (by decide)

theorem deleteFile_spares (hu : IsUserPath engine.root (op.target engine.root)) :
    DiskKeeps (Spares engine.root id op) (deleteFile engine id op.path) := by
  refine deleteFile_diskKeeps snapshot_spares fun t hv hclean => ?_
  obtain ⟨rfl, _⟩ := target_of_mutation hv
  exact moveToTrash_spares hu hclean

/-- **Step lemma**: one operation leaves alone what is beside it. -/
theorem runFileOperation_spares (hop : op.IsFileChange)
    (hu : IsUserPath engine.root (op.target engine.root)) :
    DiskKeeps (Spares engine.root id op) (runFileOperation engine id op) := by
  unfold runFileOperation
  rcases hop with h | h | h
  · rw [h]; exact createFile_spares h hu
  · rw [h]; exact editFile_spares hu
  · rw [h]; exact deleteFile_spares hu

end Operations

end Shamsu.Patch
